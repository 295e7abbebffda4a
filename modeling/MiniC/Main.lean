import MiniC.Command.Answer

/-! # The command

Reads the file that the arguments name and prints the answer. -/

namespace MiniC

/-- The bytes of a file on disk. Of the errors about the type of a file, number 21 is that of
reading a directory; the other is that a path goes on after a plain file. -/
def readFile (path : String) : IO (Except ReadFault ByteArray) := do
  try
    return .ok (← IO.FS.readBinFile path)
  catch
    | .noFileOrDirectory .. | .noSuchThing .. => return .error .missing
    | .permissionDenied .. => return .error .denied
    | .invalidArgument .. => return .error .nameTooLong
    | .inappropriateType _ code _ =>
      return .error (if code = 21 then .directory else .notDirectory)
    | e => throw e

end MiniC

open MiniC in
def main (args : List String) : IO UInt32 := do
  let file? := (Invocation.ofArgs? args).bind Invocation.file?
  let bytes ← match file? with
    | some path => readFile path
    | none => pure (.error .missing)
  let answer := Answer.ofArgs (fun _ => bytes) args
  IO.print answer.out
  IO.eprint answer.err
  return answer.status.toUInt32
