/-!
# Blank characters, words and lines

Words are the maximal runs of characters without the Unicode property White_Space.
Lines end at line feeds; one carriage return directly before a line feed belongs to the
line end, and nothing after the last line feed is no line.
-/

namespace LLOne.Text

/-- The characters with the Unicode property White_Space. -/
def isBlank (c : Char) : Bool :=
  let n := c.toNat
  (0x9 ≤ n && n ≤ 0xD) || n == 0x20 || n == 0x85 || n == 0xA0 || n == 0x1680 ||
    (0x2000 ≤ n && n ≤ 0x200A) || n == 0x2028 || n == 0x2029 || n == 0x202F ||
    n == 0x205F || n == 0x3000

def words (text : String) : List String :=
  ((text.toList.splitOnP isBlank).filter (!·.isEmpty)).map String.ofList

def dropReturn (line : List Char) : List Char :=
  if line.getLast? = some '\r' then line.dropLast else line

def lines (text : String) : List String :=
  let pieces := text.toList.splitOnP (· == '\n')
  let last := pieces.getLast?.filter (!·.isEmpty)
  (pieces.dropLast.map dropReturn ++ last.toList).map String.ofList

end LLOne.Text
