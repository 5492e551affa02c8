/-!
# Strings inside JSON

`escape` writes a text as it stands between the quotes of a JSON string, with the
shortest escape of every character that needs one. `unescape?` reads what stands between
the quotes, in any spelling; it has no value where a surrogate is not part of a pair.
-/

namespace LLOne.Json

def hexDigit (n : Nat) : Char := Nat.digitChar n

def escapeChar (c : Char) : List Char :=
  if c = '"' then ['\\', '"']
  else if c = '\\' then ['\\', '\\']
  else if c.toNat = 0x8 then ['\\', 'b']
  else if c.toNat = 0x9 then ['\\', 't']
  else if c.toNat = 0xA then ['\\', 'n']
  else if c.toNat = 0xC then ['\\', 'f']
  else if c.toNat = 0xD then ['\\', 'r']
  else if c.toNat < 0x20 then
    ['\\', 'u', '0', '0', hexDigit (c.toNat / 16), hexDigit (c.toNat % 16)]
  else [c]

def escape (cs : List Char) : List Char := cs.flatMap escapeChar

def hexValue? (c : Char) : Option Nat :=
  if '0' ≤ c ∧ c ≤ '9' then some (c.toNat - '0'.toNat)
  else if 'a' ≤ c ∧ c ≤ 'f' then some (c.toNat - 'a'.toNat + 10)
  else if 'A' ≤ c ∧ c ≤ 'F' then some (c.toNat - 'A'.toNat + 10)
  else none

def shortEscape? (c : Char) : Option Char :=
  if c = '"' ∨ c = '\\' ∨ c = '/' then some c
  else if c = 'b' then some '\x08'
  else if c = 'f' then some '\x0c'
  else if c = 'n' then some '\n'
  else if c = 'r' then some '\r'
  else if c = 't' then some '\t'
  else none

/-- Where a reader of escapes stands: outside of an escape, behind its backslash, or
behind `count` of its four hexadecimal digits, which have the given value so far. -/
inductive EscapeState where
  | outside
  | backslash
  | digits (count value : Nat)

/-- The code points that the characters stand for, each surrogate by itself. -/
def codePoints? : EscapeState → List Char → Option (List Nat)
  | .outside, [] => some []
  | .backslash, [] => none
  | .digits _ _, [] => none
  | .outside, c :: rest =>
    if c = '\\' then codePoints? .backslash rest
    else (codePoints? .outside rest).map (c.toNat :: ·)
  | .backslash, c :: rest =>
    if c = 'u' then codePoints? (.digits 0 0) rest
    else match shortEscape? c with
      | none => none
      | some c => (codePoints? .outside rest).map (c.toNat :: ·)
  | .digits count value, c :: rest =>
    match hexValue? c with
    | none => none
    | some digit =>
      let value := value * 16 + digit
      if count < 3 then codePoints? (.digits (count + 1) value) rest
      else (codePoints? .outside rest).map (value :: ·)

def isHighSurrogate (n : Nat) : Bool := 0xD800 ≤ n && n ≤ 0xDBFF

def isLowSurrogate (n : Nat) : Bool := 0xDC00 ≤ n && n ≤ 0xDFFF

/-- The characters of the code points, a high surrogate and the low one after it joined. -/
def joinPairs? : List Nat → Option (List Char)
  | [] => some []
  | n :: [] => if isHighSurrogate n || isLowSurrogate n then none else some [Char.ofNat n]
  | n :: low :: rest =>
    if isLowSurrogate n then none
    else if isHighSurrogate n then
      if isLowSurrogate low then
        let joined := 0x10000 + (n - 0xD800) * 0x400 + (low - 0xDC00)
        (joinPairs? rest).map (Char.ofNat joined :: ·)
      else none
    else (joinPairs? (low :: rest)).map (Char.ofNat n :: ·)

def unescape? (raw : List Char) : Option (List Char) :=
  (codePoints? .outside raw).bind joinPairs?

end LLOne.Json
