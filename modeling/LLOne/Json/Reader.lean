import LLOne.Json.Basic

/-!
# Reading JSON

A text is cut into lexemes, and the lexemes are read as one value with nothing behind it.
Only the blanks of the JSON grammar may stand between lexemes, and no form beyond that
grammar is read. It is assumed of the reader that it does not limit how deep values stand
inside of one another; tokens have arrays and objects to the depth of three, far from the
limits that readers have.
-/

namespace LLOne.Json

def isSpace (c : Char) : Bool := c == ' ' || c == '\t' || c == '\n' || c == '\r'

def scanString? : EscapeState → List Char → Option (List Char × List Char)
  | _, [] => none
  | .outside, c :: rest =>
    if c = '"' then some ([], rest)
    else if c.toNat < 0x20 then none
    else
      let state := if c = '\\' then EscapeState.backslash else .outside
      (scanString? state rest).map fun (raw, rest) => (c :: raw, rest)
  | .backslash, c :: rest =>
    if c = 'u' then (scanString? (.digits 0 0) rest).map fun (raw, rest) => (c :: raw, rest)
    else if (shortEscape? c).isSome then
      (scanString? .outside rest).map fun (raw, rest) => (c :: raw, rest)
    else none
  | .digits count value, c :: rest =>
    if (hexValue? c).isSome then
      let state := if count < 3 then EscapeState.digits (count + 1) value else .outside
      (scanString? state rest).map fun (raw, rest) => (c :: raw, rest)
    else none

def scanDigits? (cs : List Char) : Option (List Char × List Char) :=
  let digits := cs.takeWhile Char.isDigit
  if digits.isEmpty then none else some (digits, cs.dropWhile Char.isDigit)

def scanWhole? (cs : List Char) : Option (List Char × List Char) :=
  match cs with
  | '0' :: rest => some (['0'], rest)
  | _ => scanDigits? cs

def scanFraction? (cs : List Char) : Option (List Char × List Char) :=
  match cs with
  | '.' :: rest => (scanDigits? rest).map fun (digits, rest) => ('.' :: digits, rest)
  | _ => some ([], cs)

def scanSign (signs cs : List Char) : List Char × List Char :=
  match cs with
  | c :: rest => if c ∈ signs then ([c], rest) else ([], cs)
  | [] => ([], cs)

def scanExponent? (cs : List Char) : Option (List Char × List Char) :=
  match cs with
  | c :: rest =>
    if c = 'e' ∨ c = 'E' then
      let (sign, rest) := scanSign ['+', '-'] rest
      (scanDigits? rest).map fun (digits, rest) => (c :: (sign ++ digits), rest)
    else some ([], cs)
  | [] => some ([], cs)

def scanNumber? (cs : List Char) : Option (List Char × List Char) := do
  let (sign, cs) := scanSign ['-'] cs
  let (whole, cs) ← scanWhole? cs
  let (fraction, cs) ← scanFraction? cs
  let (exponent, cs) ← scanExponent? cs
  some (sign ++ whole ++ fraction ++ exponent, cs)

def dropWord? (word : String) (cs : List Char) : Option (List Char) :=
  if word.toList.isPrefixOf cs then some (cs.drop word.length) else none

def scanLexeme? (cs : List Char) : Option (Lexeme × List Char) :=
  match cs with
  | [] => none
  | c :: rest =>
    if c = '[' then some (.openArray, rest)
    else if c = ']' then some (.closeArray, rest)
    else if c = '\x7b' then some (.openObject, rest)
    else if c = '\x7d' then some (.closeObject, rest)
    else if c = ',' then some (.comma, rest)
    else if c = ':' then some (.colon, rest)
    else if c = '"' then (scanString? .outside rest).map fun (raw, rest) => (.string raw, rest)
    else if c = 'n' then (dropWord? "null" cs).map fun rest => (.null, rest)
    else if c = 't' then (dropWord? "true" cs).map fun rest => (.bool true, rest)
    else if c = 'f' then (dropWord? "false" cs).map fun rest => (.bool false, rest)
    else (scanNumber? cs).map fun (digits, rest) => (.number digits, rest)

/-- The lexemes of a text of fewer than `fuel` characters. -/
def scan? : Nat → List Char → Option (List Lexeme)
  | 0, _ => none
  | _ + 1, [] => some []
  | fuel + 1, c :: rest =>
    if isSpace c then scan? fuel rest
    else match scanLexeme? (c :: rest) with
      | none => none
      | some (lexeme, rest) => (scan? fuel rest).map (lexeme :: ·)

mutual

def readValue? : Nat → List Lexeme → Option (Value × List Lexeme)
  | 0, _ => none
  | fuel + 1, lexemes =>
    match lexemes with
    | .null :: rest => some (.null, rest)
    | .bool value :: rest => some (.bool value, rest)
    | .number digits :: rest => some (.number digits, rest)
    | .string raw :: rest => some (.string raw, rest)
    | .openArray :: .closeArray :: rest => some (.array [], rest)
    | .openArray :: rest => (readItems? fuel rest).map fun (items, rest) => (.array items, rest)
    | .openObject :: .closeObject :: rest => some (.object [], rest)
    | .openObject :: rest =>
      (readMembers? fuel rest).map fun (members, rest) => (.object members, rest)
    | _ => none

def readItems? : Nat → List Lexeme → Option (List Value × List Lexeme)
  | 0, _ => none
  | fuel + 1, lexemes =>
    match readValue? fuel lexemes with
    | some (item, .closeArray :: rest) => some ([item], rest)
    | some (item, .comma :: rest) =>
      (readItems? fuel rest).map fun (items, rest) => (item :: items, rest)
    | _ => none

def readMembers? : Nat → List Lexeme → Option (List (List Char × Value) × List Lexeme)
  | 0, _ => none
  | fuel + 1, lexemes =>
    match lexemes with
    | .string name :: .colon :: rest =>
      match readValue? fuel rest with
      | some (value, .closeObject :: rest) => some ([(name, value)], rest)
      | some (value, .comma :: rest) =>
        (readMembers? fuel rest).map fun (members, rest) => ((name, value) :: members, rest)
      | _ => none
    | _ => none

end

def Value.read? (text : String) : Option Value :=
  let cs := text.toList
  match scan? (cs.length + 1) cs with
  | none => none
  | some lexemes =>
    match readValue? (2 * lexemes.length + 2) lexemes with
    | some (value, []) => some value
    | _ => none

end LLOne.Json
