import MiniC.Command.Invocation
import MiniC.Report.Format
import MiniC.Syntax.Program

/-! # What a command prints

The answer to an invocation is a status with two texts. The status is 0 iff nothing was wrong. A
syntax error and a file that cannot be read go to the second text, everything else to the first. -/

namespace MiniC

/-- Why a file cannot be read. -/
inductive ReadFault where
  | missing
  | denied
  | notDirectory
  | directory
  | nameTooLong
  | notText
  deriving DecidableEq, Repr

def ReadFault.message : ReadFault → String
  | .missing => "No such file or directory (os error 2)"
  | .denied => "Permission denied (os error 13)"
  | .notDirectory => "Not a directory (os error 20)"
  | .directory => "Is a directory (os error 21)"
  | .nameTooLong => "File name too long (os error 36)"
  | .notText => "stream did not contain valid UTF-8"

structure Answer where
  status : Nat
  out : String
  err : String
  deriving DecidableEq, Repr

namespace Answer

/-- The text of `lines`, each with its line end. -/
def unlines (lines : List String) : String := String.join (lines.map (· ++ "\n"))

/-- How the command is used. -/
def usageText : String :=
  unlines ["Usage: splc [--json] [FILE]", "       splc check FILE", "       splc version"]

/-- The answer to arguments that cannot be understood. -/
def usage : Answer := ⟨2, "", usageText⟩

/-- The text about a run: its errors, or what the mode asks for where there are none. -/
def textOf (mode : Mode) (r : Run) : String :=
  if r.errors.isEmpty then
    match mode with
    | .summary => r.result.summary
    | .check => "No errors found\n"
  else unlines (r.errors.map (·.message))

/-- The answer about a source text. -/
def ofSource (mode : Mode) (json : Bool) (file source : String) : Answer :=
  match Program.parse source with
  | .error e =>
    ⟨1, "", unlines ["Parse error at line " ++ e.span.line.repr ++ ":" ++ e.span.column.repr ++
      ": " ++ e.message]⟩
  | .ok program =>
    let r := program.run
    let out := if json then unlines [(Report.ofRun file r).text] else textOf mode r
    ⟨if r.errors.isEmpty then 0 else 1, out, ""⟩

/-- The text that bytes encode. -/
def decode (bytes : ByteArray) : Except ReadFault String :=
  match String.fromUTF8? bytes with
  | some s => .ok s
  | none => .error .notText

/-- The answer to an invocation, where `read` gives the bytes of a file. -/
def ofInvocation (read : String → Except ReadFault ByteArray) : Invocation → Answer
  | .versionLine => ⟨0, "splc 0.1.0\n", ""⟩
  | .versionText => ⟨0, unlines ["splc 0.1.0", "SPL-C semantic analyzer"], ""⟩
  | .help => ⟨0, usageText, ""⟩
  | .noFile =>
    ⟨1, "", unlines ["Error: No input file specified",
      "Usage: splc <FILE> or splc check <FILE>"]⟩
  | .analyze mode json file =>
    match read file >>= decode with
    | .ok source => ofSource mode json file source
    | .error fault => ⟨1, "", unlines ["Error: failed to read " ++ file ++ ": " ++ fault.message]⟩

/-- The answer to a command line. -/
def ofArgs (read : String → Except ReadFault ByteArray) (args : List String) : Answer :=
  match Invocation.ofArgs? args with
  | some invocation => ofInvocation read invocation
  | none => usage

end Answer

end MiniC
