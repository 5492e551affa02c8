/-!
# Text inside LaTeX

Characters with a meaning in LaTeX are replaced by commands that print them. Of
consecutive hyphens each but the last is followed by an empty group, so that they do not
join to a dash. These rules stand for those of an external library for escaping, whose
result the reports take as it is.
-/

namespace LLOne.Text

def latexChar (c : Char) : String :=
  if c ∈ ['&', '%', '$', '#', '_', '\x7b', '\x7d'] then String.ofList ['\\', c]
  else if c ∈ ['[', ']'] then String.ofList ['\x7b', c, '\x7d']
  else if c = '~' then "\\textasciitilde\x7b\x7d"
  else if c = '^' then "\\textasciicircum\x7b\x7d"
  else if c = '<' then "\\textless\x7b\x7d"
  else if c = '>' then "\\textgreater\x7b\x7d"
  else if c = '!' then "!\x7b\x7d"
  else if c = '\\' then "\\textbackslash\x7b\x7d"
  else c.toString

def latexChars : List Char → List Char
  | [] => []
  | c :: rest =>
    let shown :=
      if c = '-' ∧ rest.head? = some '-' then ['-', '\x7b', '\x7d'] else (latexChar c).toList
    shown ++ latexChars rest

def latex (text : String) : String := String.ofList (latexChars text.toList)

end LLOne.Text
