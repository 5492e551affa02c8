import LLOne.Json.Escape

/-!
# JSON values

Numbers and strings are kept as they are written, so that a value of no interest is
checked for its form only. Members keep their order. `Value.text` is the compact text,
without any blanks. Reading and writing stand for those of an external library for JSON.
-/

namespace LLOne.Json

inductive Lexeme where
  | openArray
  | closeArray
  | openObject
  | closeObject
  | comma
  | colon
  | null
  | bool (value : Bool)
  | number (digits : List Char)
  | string (raw : List Char)
deriving DecidableEq, Repr

def Lexeme.chars : Lexeme → List Char
  | openArray => ['[']
  | closeArray => [']']
  | openObject => ['\x7b']
  | closeObject => ['\x7d']
  | comma => [',']
  | colon => [':']
  | null => "null".toList
  | bool true => "true".toList
  | bool false => "false".toList
  | number digits => digits
  | string raw => '"' :: (raw ++ ['"'])

inductive Value where
  | null
  | bool (value : Bool)
  | number (digits : List Char)
  | string (raw : List Char)
  | array (items : List Value)
  | object (members : List (List Char × Value))

namespace Value

def ofNat (n : Nat) : Value := .number (Nat.toDigits 10 n)

def ofString (text : String) : Value := .string (escape text.toList)

def ofStrings (texts : List String) : Value := .array (texts.map ofString)

def ofMembers (members : List (String × Value)) : Value :=
  .object (members.map fun (name, value) => (escape name.toList, value))

mutual

def lexemes : Value → List Lexeme
  | .null => [.null]
  | .bool value => [.bool value]
  | .number digits => [.number digits]
  | .string raw => [.string raw]
  | .array items => .openArray :: (itemLexemes items ++ [.closeArray])
  | .object members => .openObject :: (memberLexemes members ++ [.closeObject])

def itemLexemes : List Value → List Lexeme
  | [] => []
  | item :: [] => lexemes item
  | item :: next :: rest => lexemes item ++ .comma :: itemLexemes (next :: rest)

def memberLexemes : List (List Char × Value) → List Lexeme
  | [] => []
  | (name, value) :: [] => .string name :: .colon :: lexemes value
  | (name, value) :: next :: rest =>
    .string name :: .colon :: (lexemes value ++ .comma :: memberLexemes (next :: rest))

end

def text (value : Value) : String := String.ofList (value.lexemes.flatMap Lexeme.chars)

end Value

end LLOne.Json
