import LLOne.Text.Align
import LLOne.Token

/-!
# Syntax errors

An error knows where it is, what was found there and what was expected. `render` adds the
line of the source in which the error starts, with carets under the span of the error as
far as it lies in that line. Locations count bytes and columns count characters; where a
location does not fit the source, the message stands alone.
-/

namespace LLOne

inductive SyntaxErrorKind where
  /-- A terminal was expected and another token came. -/
  | mismatch
  /-- No production of a non-terminal is predicted by the token that came. -/
  | noProduction
  /-- The tokens ended while more was expected. -/
  | unexpectedEnd
  /-- Tokens remained when everything expected had been read. -/
  | trailingInput
deriving DecidableEq, Repr

structure SyntaxError where
  kind : SyntaxErrorKind
  location : Option Location
  /-- The text of the offending token; nothing at the end of the tokens. -/
  found : Option String
  /-- The name of the symbol that was expected. -/
  expected : Option String
  text : String
deriving DecidableEq, Repr

namespace SyntaxError

def message (e : SyntaxError) : String :=
  match e.found with
  | some found => "syntax error near word \"" ++ found ++ "\": " ++ e.text
  | none => "syntax error: " ++ e.text

end SyntaxError

/-! ## The line of an error -/

/-- The first characters that take up exactly `bytes` bytes, if that many bytes end between
two characters or at the end. -/
def takeBytes? : Nat → List Char → Option (List Char)
  | 0, _ => some []
  | _ + 1, [] => none
  | bytes + 1, c :: rest =>
    if c.utf8Size ≤ bytes + 1 then (takeBytes? (bytes + 1 - c.utf8Size) rest).map (c :: ·)
    else none

def dropReturns (line : List Char) : List Char :=
  (line.reverse.dropWhile (· == '\r')).reverse

/-- The line and the row of carets for the bytes from `start` up to `stop` of the line;
`stop` may be less than `start` or lie beyond the line. -/
def underline? (line : List Char) (start stop : Nat) : Option String :=
  let cut := dropReturns line
  (takeBytes? start cut).map fun before =>
    let stop := min (min (max stop start) (byteLength line)) (byteLength cut)
    let width :=
      match takeBytes? stop cut with
      | some upTo => upTo.length - before.length
      | none => 0
    "    | " ++ String.ofList cut ++ "\n    | " ++ Text.blanks before.length ++
      String.ofList (List.replicate (max width 1) '^')

/-- As `underline?` for the line that holds byte `start` of all lines, where the byte after
a line is its line feed. -/
def excerptOf? : List (List Char) → Nat → Nat → Option String
  | [], _, _ => none
  | line :: rest, start, stop =>
    if start ≤ byteLength line then underline? line start stop
    else excerptOf? rest (start - (byteLength line + 1)) (stop - (byteLength line + 1))

def Location.excerpt? (l : Location) (source : String) : Option String :=
  excerptOf? (source.toList.splitOnP (· == '\n')) l.start l.stop

def SyntaxError.render (e : SyntaxError) (source : String) : String :=
  match e.location.bind (·.excerpt? source) with
  | some excerpt => e.message ++ "\n" ++ excerpt
  | none => e.message

end LLOne
