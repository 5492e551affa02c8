/-!
# Files by their paths

A path is walked from a place in a tree of directories, one component after the other. Only a
directory can be walked on from. An empty component stays where it is, as `.` does, so repeated
slashes count once and a path that ends in a slash leads to a directory. The directory above
the root is the root.
-/

namespace LLOne

inductive ReadError where
  | notFound
  | notDirectory
  | isDirectory
  | nameTooLong
  | notText
  | other (message : String)
deriving DecidableEq, Repr

def ReadError.message : ReadError → String
  | notFound => "No such file or directory (os error 2)"
  | notDirectory => "Not a directory (os error 20)"
  | isDirectory => "Is a directory (os error 21)"
  | nameTooLong => "File name too long (os error 36)"
  | notText => "stream did not contain valid UTF-8"
  | other message => message

def decodeText (bytes : ByteArray) : Except ReadError String :=
  match String.fromUTF8? bytes with
  | some text => .ok text
  | none => .error .notText

inductive FileTree where
  | file (content : ByteArray)
  | directory (entries : List (String × FileTree))

namespace FileTree

def content : FileTree → Except ReadError ByteArray
  | file bytes => .ok bytes
  | directory _ => .error .isDirectory

/-- A tree within a larger one: below it what it holds, above it the directories that it is in,
the nearest first. -/
structure Place where
  tree : FileTree
  above : List FileTree

namespace Place

def parent (p : Place) : Place :=
  match p.above with
  | [] => p
  | tree :: above => ⟨tree, above⟩

def root (p : Place) : Place := ⟨p.above.getLast?.getD p.tree, []⟩

def nameLimit : Nat := 255

def pathLimit : Nat := 4095

def enter (p : Place) (name : String) : Except ReadError Place :=
  match p.tree with
  | file _ => .error .notDirectory
  | directory entries =>
    if name = "" ∨ name = "." then .ok p
    else if name = ".." then .ok p.parent
    else if nameLimit < name.utf8ByteSize then .error .nameTooLong
    else match entries.lookup name with
      | some tree => .ok ⟨tree, p.tree :: p.above⟩
      | none => .error .notFound

def components (path : String) : List String :=
  (path.toList.splitOnP (· == '/')).map String.ofList

/-- The place that a path leads to. A path that starts with a slash is walked from the root, and
the empty path leads nowhere. -/
def resolve (p : Place) (path : String) : Except ReadError Place :=
  if path = "" then .error .notFound
  else if pathLimit < path.utf8ByteSize then .error .nameTooLong
  else (components path).foldlM enter (if path.toList.head? = some '/' then p.root else p)

def read (p : Place) (path : String) : Except ReadError ByteArray := do
  (← p.resolve path).tree.content

/-- A directory with nothing but the given files, in a system that has besides it only what
every system has: a file that is empty, one that holds the standard input, and a directory for
temporary files. -/
def workingDirectory (files : List (String × ByteArray)) (input : ByteArray) : Place where
  tree := directory (files.map fun (name, bytes) => (name, file bytes))
  above := [directory
    [("dev", directory [("null", file .empty), ("stdin", file input)]), ("tmp", directory [])]]

end Place
end FileTree
end LLOne
