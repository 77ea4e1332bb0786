import ShellLex.Diagnostic
import ShellLex.Lexer
import ShellLex.Node.Json
import ShellLex.Node.Outline
/-!
The command line: what the arguments ask for, and the answer to a source.
-/
namespace ShellLex.CommandLine

inductive Origin where
  | stdin
  | file (path : String)
  deriving DecidableEq, Repr

structure Options where
  file : Option String
  json : Bool
  deriving DecidableEq, Repr

inductive Request where
  | dump (options : Options)
  | help
  | version
  /-- The arguments do not follow the usage. -/
  | misuse
  deriving DecidableEq, Repr

/-- An argument that is no option names the file. There is at most one, with a name not empty. -/
def Options.setFile? (options : Options) (name : String) : Option Options :=
  if options.file.isSome || name.isEmpty then none else some { options with file := some name }

def readFiles (options : Options) : List String → Request
  | [] => .dump options
  | name :: names =>
    match options.setFile? name with
    | some options => readFiles options names
    | none => .misuse

/-- Reads arguments from the left. The first request for help or the version is the answer, unless
there is misuse before it. -/
def readArgs (options : Options) : List String → Request
  | [] => .dump options
  | arg :: args =>
    match arg.toList with
    | ['-', '-'] => readFiles options args
    | '-' :: '-' :: name =>
      if name = "json".toList then
        if options.json then .misuse else readArgs { options with json := true } args
      else if name = "help".toList then .help
      else if name = "version".toList then .version
      else .misuse
    | '-' :: 'h' :: _ => .help
    | '-' :: 'V' :: _ => .version
    | '-' :: _ :: _ => .misuse
    | _ =>
      match options.setFile? arg with
      | some options => readArgs options args
      | none => .misuse

def request (args : List String) : Request := readArgs ⟨none, false⟩ args

def helpText : String := String.join <| [
  "Split shell source into lexical nodes",
  "",
  "Usage: shsplit [OPTIONS] [FILE]",
  "",
  "Arguments:",
  "  [FILE]  Shell source to read. Reads stdin when absent or `-`",
  "",
  "Options:",
  "      --json     Dump as JSON instead of an indented tree",
  "  -h, --help     Print help",
  "  -V, --version  Print version"].map (· ++ "\n")

def versionText : String := "shsplit 0.3.0\n"

def components (path : String) : List (List Char) :=
  match path.toList.splitOn '/' with
  | [] => []
  | first :: rest => first :: rest.filter fun c => !c.isEmpty && c != ['.']

/-- The path `-` stands for standard input, in whatever way it is spelled. -/
def isStdin (path : String) : Bool := components path == [['-']]

def Options.origin (options : Options) : Origin :=
  match options.file with
  | none => .stdin
  | some path => if isStdin path then .stdin else .file path

def Origin.name : Origin → String
  | .stdin => "<stdin>"
  | .file path => path

inductive Unreadable where
  | missing
  | denied
  | directory
  | other (reason : String)
  deriving DecidableEq, Repr

def Unreadable.message : Unreadable → String
  | .missing => "No such file or directory (os error 2)"
  | .denied => "Permission denied (os error 13)"
  | .directory => "Is a directory (os error 21)"
  | .other reason => reason

inductive Exit where
  | success (stdout : String)
  | misuse
  /-- The final error, and the diagnostic that goes before it. -/
  | failure (cause : String) (diagnostic : Option Diagnostic)
  deriving DecidableEq, Repr

def Exit.code : Exit → Nat
  | .success _ => 0
  | .failure _ _ => 1
  | .misuse => 2

def Exit.stdout : Exit → String
  | .success text => text
  | .misuse | .failure _ _ => ""

def causeText (what : String) (reason : String) : String :=
  "Error: failed to " ++ what ++ "\n\nCaused by:\n    " ++ reason

def dump (json : Bool) (name : String) (source : List UInt8) : Exit :=
  match tokenize source with
  | .ok nodes => .success (if json then toJson nodes ++ "\n" else toOutline nodes)
  | .error e => .failure (causeText ("lex " ++ name) e.message) (diagnose? source e)

/-- The whole command, where `read` yields the bytes from an origin. -/
def run (args : List String) (read : Origin → Except Unreadable (List UInt8)) : Exit :=
  match request args with
  | .help => .success helpText
  | .version => .success versionText
  | .misuse => .misuse
  | .dump options =>
    let name := options.origin.name
    match read options.origin with
    | .ok source => dump options.json name source
    | .error e => .failure (causeText ("read " ++ name) e.message) none

end ShellLex.CommandLine
