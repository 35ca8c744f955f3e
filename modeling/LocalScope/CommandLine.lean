import LocalScope.Arena.Body
import LocalScope.Document.Text
import LocalScope.Document.Write
import LocalScope.Placement.Pass

namespace LocalScope

inductive Command where
  | declare (file : String) (skipped : List String) (compact : Bool)
  | check (file : String)
deriving DecidableEq, Repr

namespace Command

def file : Command → String
  | declare file _ _ => file
  | check file => file

/-- The arguments seen so far. -/
structure Arguments where
  file : Option String := none
  skipped : List String := []
  compact : Bool := false

namespace Arguments

/-- Only one file can be given, and it needs a name. -/
def addFile (s : Arguments) (file : String) : Option Arguments :=
  if s.file.isSome || file.isEmpty then none else some { s with file := some file }

def addSkipped (s : Arguments) (name : String) : Arguments :=
  { s with skipped := s.skipped ++ [name] }

end Arguments

def looksLikeOption (arg : String) : Bool := arg.startsWith "-" && arg != "-"

/-- The value in `name=value`. -/
def valueOf? (name arg : String) : Option String :=
  let lead := (name ++ "=").toList
  if lead.isPrefixOf arg.toList then some (.ofList (arg.toList.drop lead.length)) else none

/-- Options, where there are any, come in any order, before or after the file; `--` ends them. -/
def arguments (options : Bool) (s : Arguments) : List String → Option Arguments
  | [] => some s
  | "--" :: rest => rest.foldlM Arguments.addFile s
  | "--compact" :: rest =>
    if options && !s.compact then arguments options { s with compact := true } rest else none
  | "--skip-pass" :: name :: rest =>
    if options && !looksLikeOption name then arguments options (s.addSkipped name) rest
    else none
  | arg :: rest =>
    match valueOf? "--skip-pass" arg with
    | some name => if options then arguments options (s.addSkipped name) rest else none
    | none =>
      if looksLikeOption arg then none
      else match s.addFile arg with
        | some s => arguments options s rest
        | none => none

def ofArguments : List String → Option Command
  | "declare" :: rest => do
    let s ← arguments true {} rest
    return .declare (← s.file) s.skipped s.compact
  | "check" :: rest => do
    let s ← arguments false {} rest
    return .check (← s.file)
  | _ => none

end Command

/-- What a file name leads to. -/
inductive FileContent where
  | unopened (cause : String)
  | unreadable
  | text (content : String)

/-- What a run leaves behind. -/
structure Outcome where
  exit : UInt32
  stdout : String
  stderr : String
deriving DecidableEq, Repr

namespace Outcome

def success (stdout : String) : Outcome := ⟨0, stdout, ""⟩

def failure (what : String) (cause : Option String) : Outcome :=
  let reason := match cause with
    | none => ""
    | some cause => "\n\nCaused by:\n    " ++ cause ++ "\n"
  ⟨1, "", "Error: " ++ what ++ reason⟩

/-- The arguments make no command. -/
def usage : Outcome := ⟨2, "", ""⟩

end Outcome

namespace Command

def body (file : String) : FileContent → Except Outcome Body
  | .unopened cause => .error (.failure ("failed to open method body: " ++ file) (some cause))
  | .unreadable => .error (.failure ("failed to parse method body: " ++ file) none)
  | .text content =>
    match Body.ofText content with
    | .ok b => .ok b
    | .error _ => .error (.failure ("failed to parse method body: " ++ file) none)

def placed (skipped : List String) (b : Body) : Except Error Body :=
  let (root, a) := Arena.ofBody b
  match Transform.runAll (Config.ofSkipped skipped).pipeline root a with
  | .ok _ a => a.body root
  | .error e _ => .error e

def counted (b : Body) : Except Error Nat :=
  let (root, a) := Arena.ofBody b
  a.countDeclarations root

def run (look : String → FileContent) : Command → Outcome
  | .declare file skipped compact =>
    match body file (look file) with
    | .error outcome => outcome
    | .ok b =>
      match placed skipped b with
      | .ok out => .success ((if compact then out.compactText else out.prettyText) ++ "\n")
      | .error e => .failure ("declaration pass failed on " ++ file) (some e.message)
  | .check file =>
    match body file (look file) with
    | .error outcome => outcome
    | .ok b =>
      match counted b with
      | .ok n => .success (file ++ ": " ++ toString n ++ " declaration(s) ready to place\n")
      | .error e => .failure ("invalid method body: " ++ file) (some e.message)

end Command

/-- A whole run of the program, given what each file name leads to. -/
def Outcome.ofArguments (args : List String) (look : String → FileContent) : Outcome :=
  match Command.ofArguments args with
  | some command => command.run look
  | none => .usage

end LocalScope
