import LLOne.Json.Reader
import LLOne.Token

/-!
# Tokens in JSON

A token is written as an object of location, kind and text, in this order. A reader also
takes the members in any order and passes over members of other names, and it takes the
bare values of all members as an array. Every member must be there once. Positions are
whole numbers below 2 ^ 64 written without sign, point or exponent.
-/

namespace LLOne

open Json (Value)

namespace TokenKind

def name : TokenKind → String
  | word => "Word"
  | punctuation => "Punctuation"
  | stringLiteral => "StringLiteral"
  | comment => "Comment"

def ofName? (name : String) : Option TokenKind :=
  [word, punctuation, stringLiteral, comment].find? (·.name == name)

end TokenKind

namespace Json.Value

def text? : Value → Option String
  | .string raw => (unescape? raw).map String.ofList
  | _ => none

def digitsValue (digits : List Char) : Nat :=
  digits.foldl (fun n c => 10 * n + (c.toNat - '0'.toNat)) 0

def position? : Value → Option Nat
  | .number digits =>
    if digits.all Char.isDigit ∧ digitsValue digits < Nat.pow 2 64 then some (digitsValue digits)
    else none
  | _ => none

def namedMembers? (members : List (List Char × Value)) : Option (List (String × Value)) :=
  members.mapM fun (raw, value) => (unescape? raw).map fun name => (String.ofList name, value)

def memberOf? (name : String) (members : List (String × Value)) : Option Value :=
  match members.filter (·.1 == name) with
  | [(_, value)] => some value
  | _ => none

/-- The values of the named members of an object, or of an array of as many values. -/
def fields? (names : List String) : Value → Option (List Value)
  | .array items => if items.length = names.length then some items else none
  | .object members =>
    (namedMembers? members).bind fun members => names.mapM fun name => memberOf? name members
  | _ => none

end Json.Value

namespace Location

def toJson (l : Location) : Value :=
  .ofMembers [("start", .ofNat l.start), ("end", .ofNat l.stop)]

def ofJson? (value : Value) : Option Location := do
  match ← value.fields? ["start", "end"] with
  | [start, stop] => some ⟨← start.position?, ← stop.position?⟩
  | _ => none

end Location

namespace TokenKind

def toJson (kind : TokenKind) : Value := .ofString kind.name

/-- A kind is its name, or an object with its name as the only member and the value null. -/
def ofJson? : Value → Option TokenKind
  | .object [(raw, .null)] => (Value.string raw).text?.bind ofName?
  | value => value.text?.bind ofName?

end TokenKind

namespace Token

def toJson (t : Token) : Value :=
  .ofMembers [("location", t.location.toJson), ("kind", t.kind.toJson), ("text", .ofString t.text)]

def ofJson? (value : Value) : Option Token := do
  match ← value.fields? ["location", "kind", "text"] with
  | [location, kind, text] =>
    some ⟨← Location.ofJson? location, ← TokenKind.ofJson? kind, ← text.text?⟩
  | _ => none

def listOfJson? : Value → Option (List Token)
  | .array items => items.mapM ofJson?
  | _ => none

def readList? (text : String) : Option (List Token) := (Value.read? text).bind listOfJson?

end Token

end LLOne
