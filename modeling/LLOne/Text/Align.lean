/-!
# Alignment by characters

Widths count characters, whatever their encoding.
-/

namespace LLOne.Text

def blanks (n : Nat) : String := String.ofList (List.replicate n ' ')

def padLeft (width : Nat) (text : String) : String := blanks (width - text.length) ++ text

theorem length_padLeft (width : Nat) (text : String) :
    (padLeft width text).length = max width text.length := by
  simp [padLeft, blanks, String.length_append]
  omega

def maxLength (texts : List String) : Nat := (texts.map String.length).foldr max 0

end LLOne.Text
