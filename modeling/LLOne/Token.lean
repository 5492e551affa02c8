/-!
# Tokens

A token is a piece of a source text with its byte range there. Positions inside a token
count characters; a part of a token is located at the bytes that its characters take up,
counted from the start of the token. Positions are numbers without a bound here. Where those
of a token are positions of 64 bits, so are all that slices of it need.
-/

namespace LLOne

/-- The bytes from `start` up to `stop`, which is not part of the range. -/
structure Location where
  start : Nat
  stop : Nat
deriving DecidableEq, Repr

namespace Location

def length (l : Location) : Nat := l.stop - l.start

def isEmpty (l : Location) : Bool := l.length == 0

def merge (l m : Location) : Location := ⟨min l.start m.start, max l.stop m.stop⟩

def includes (l m : Location) : Bool := l.start ≤ m.start && m.stop ≤ l.stop

def mergeAll : List Location → Option Location
  | [] => none
  | l :: rest => some (rest.foldl merge l)

end Location

inductive TokenKind where
  | word
  | punctuation
  | stringLiteral
  | comment
deriving DecidableEq, Repr

structure Token where
  location : Location
  kind : TokenKind
  text : String
deriving DecidableEq, Repr

def byteLength : List Char → Nat
  | [] => 0
  | c :: rest => c.utf8Size + byteLength rest

theorem byteLength_append (as bs : List Char) :
    byteLength (as ++ bs) = byteLength as + byteLength bs := by
  induction as with
  | nil => simp [byteLength]
  | cons c rest ih => rw [List.cons_append, byteLength, byteLength, ih, Nat.add_assoc]

namespace Token

def slice (t : Token) (start stop : Nat) : Token :=
  let cs := t.text.toList
  let part := (cs.drop start).take (stop - start)
  let offset := t.location.start + byteLength (cs.take start)
  { location := ⟨offset, offset + byteLength part⟩, kind := t.kind, text := String.ofList part }

def separate (t : Token) : List Token :=
  (List.range t.text.length).map fun i => t.slice i (i + 1)

theorem length_separate (t : Token) : t.separate.length = t.text.length := by
  simp [separate]

end Token

end LLOne
