/-! # Command lines

    [--json] [FILE]      the summary of a file, or its errors
    check FILE           its errors only
    version
    help [COMMAND]

`--json` may stand at any place, once before and once after a subcommand. After `--` every argument
is a file name. Arguments are judged from left to right, so that a version or help option in front
of a mistake still answers. -/

namespace MiniC

/-- What to print about a file without errors. -/
inductive Mode where
  | summary
  | check
  deriving DecidableEq, Repr

/-- What a command line asks for. -/
inductive Invocation where
  | analyze (mode : Mode) (json : Bool) (file : String)
  | versionLine
  | versionText
  | help
  | noFile
  deriving DecidableEq, Repr

namespace Invocation

/-- The argument starts with a dash and is more than the dash. -/
def isOption (arg : String) : Bool :=
  match arg.toList with
  | '-' :: _ :: _ => true
  | _ => false

/-- The version option, also with other letters after the short one. -/
def asksVersion (arg : String) : Bool :=
  arg == "--version" || "-V".toList.isPrefixOf arg.toList

/-- The help option, also with other letters after the short one. -/
def asksHelp (arg : String) : Bool :=
  arg == "--help" || "-h".toList.isPrefixOf arg.toList

/-- The only file name among arguments that can be nothing else; `file` has been given before. -/
def onlyFile? (file : Option String) : List String → Option (Option String)
  | [] => some file
  | [arg] => if file.isNone && arg != "" then some (some arg) else none
  | _ => none

/-- The arguments of a subcommand that takes a file or none: the file if there is one, and whether
JSON is asked for. What is asked for with these is what `make` says. -/
def subcommand? (takesFile : Bool) (make : Option String → Bool → Option Invocation) (json : Bool)
    (file : Option String) : List String → Option Invocation
  | [] => make file json
  | arg :: more =>
    if arg == "--" then (onlyFile? file more).bind (make · json)
    else if arg == "--json" then if json then none else subcommand? takesFile make true file more
    else if asksHelp arg then some .help
    else if isOption arg || !takesFile || file.isSome || arg == "" then none
    else subcommand? takesFile make json (some arg) more

/-- What is asked for when all arguments have been read. -/
def ofFile (json : Bool) : Option String → Invocation
  | some file => .analyze .summary json file
  | none => .noFile

/-- The arguments from the first on, with the option and the file found so far. -/
def ofArgsFrom? (json : Bool) (file : Option String) : List String → Option Invocation
  | [] => some (ofFile json file)
  | arg :: more =>
    if arg == "check" then
      subcommand? true (fun f j => f.map (.analyze .check (json || j))) false none more
    else if arg == "version" then
      subcommand? false (fun f _ => if f.isNone then some .versionText else none) false none more
    else if arg == "help" then
      if [[], ["check"], ["version"], ["help"]].contains more then some .help else none
    else if arg == "--" then (onlyFile? file more).map (ofFile json)
    else if arg == "--json" then if json then none else ofArgsFrom? true file more
    else if asksHelp arg then some .help
    else if asksVersion arg then some .versionLine
    else if isOption arg || file.isSome || arg == "" then none
    else ofArgsFrom? json (some arg) more

/-- What the arguments ask for; none if they cannot be understood. -/
def ofArgs? (args : List String) : Option Invocation := ofArgsFrom? false none args

/-- The file to be read. -/
def file? : Invocation → Option String
  | .analyze _ _ file => some file
  | _ => none

end Invocation

end MiniC
