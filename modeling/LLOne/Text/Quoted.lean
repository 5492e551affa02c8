import LLOne.Text.Printable

/-!
# Quoted text

Text between double quotes in which every escape starts with a backslash. A quote, a
backslash, NUL, tab, line feed and carriage return have short escapes; any other hidden
character is written by its code point in lower-case hexadecimal between braces.
-/

namespace LLOne.Text

def hexDigits (n : Nat) : List Char := Nat.toDigits 16 n

def quotedChar (c : Char) : List Char :=
  if c = '"' then ['\\', '"']
  else if c = '\\' then ['\\', '\\']
  else if c = '\n' then ['\\', 'n']
  else if c = '\r' then ['\\', 'r']
  else if c = '\t' then ['\\', 't']
  else if c.toNat = 0 then ['\\', '0']
  else if isHidden c then ['\\', 'u', '\x7b'] ++ hexDigits c.toNat ++ ['\x7d']
  else [c]

def quotedChars (cs : List Char) : List Char :=
  '"' :: (cs.flatMap quotedChar ++ ['"'])

def quoted (text : String) : String := String.ofList (quotedChars text.toList)

def quotedList (texts : List String) : String :=
  "[" ++ ", ".intercalate (texts.map quoted) ++ "]"

end LLOne.Text
