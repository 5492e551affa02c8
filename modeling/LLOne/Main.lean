import LLOne.CommandLine

/-!
# The program

Reads the files that the arguments name, and the standard input if it holds the grammar,
and writes what `CommandLine.run` says. A run without a result goes on for ever.
-/

namespace LLOne.CommandLine

/-- The reason that an error number of the system stands for. Some calls report the number with
its sign changed. -/
def readErrorOf (code : UInt32) (details : String) : ReadError :=
  match min code.toNat (-code).toNat with
  | 2 => .notFound
  | 20 => .notDirectory
  | 21 => .isDirectory
  | 36 => .nameTooLong
  | number => .other (details.capitalize ++ " (os error " ++ number.repr ++ ")")

def readError : IO.Error → ReadError
  | .noFileOrDirectory .. => .notFound
  | .inappropriateType _ code details
  | .permissionDenied _ code details
  | .invalidArgument _ code details
  | .resourceExhausted _ code details => readErrorOf code details
  | error => .other (toString error)

def readSource (read : IO ByteArray) : IO (Except ReadError String) := do
  try
    return decodeText (← read)
  catch error =>
    return .error (readError error)

/-- Reads the standard input first, since a path may lead to it as well. -/
def gather (request : Request) : IO Sources := do
  let input ←
    if request.readsInput then readSource (do (← IO.getStdin).readBinToEnd) else pure (.ok "")
  let mut files := []
  for name in request.files do
    files := (name, ← readSource (IO.FS.readBinFile name)) :: files
  let found := files
  return { file := fun name => (found.lookup name).getD (.error .notFound), input }

/-- Stands for the words of the library that reads JSON. Only those for a text that ends where the
array should begin are its own. -/
def jsonError (text : String) : String :=
  let cs := text.toList
  if cs.all Json.isSpace then
    let lineFeeds := cs.count '\n'
    let column := (cs.reverse.takeWhile (· != '\n')).length
    "EOF while parsing a value at line " ++ (lineFeeds + 1).repr ++ " column " ++ column.repr
  else "not a JSON array of tokens"

end LLOne.CommandLine

def main (args : List String) : IO UInt32 := do
  let sources ← LLOne.CommandLine.gather (LLOne.CommandLine.request args)
  match LLOne.CommandLine.run LLOne.CommandLine.jsonError args sources with
  | none =>
    repeat IO.sleep 1000
    return 0
  | some result =>
    (← IO.getStdout).putStr result.out
    (← IO.getStderr).putStr result.err
    return result.exitCode.toUInt32
