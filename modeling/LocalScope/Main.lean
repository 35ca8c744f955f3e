import LocalScope.CommandLine

namespace LocalScope

def readAll (handle : IO.FS.Handle) : IO FileContent := do
  try
    return .text (← handle.readToEnd)
  catch _ =>
    return .unreadable

/-- A file that can be opened but holds no text counts as unreadable. -/
def lookAt (file : String) : IO FileContent := do
  try
    readAll (← IO.FS.Handle.mk file .read)
  catch e =>
    match e with
    | .noFileOrDirectory .. => return .unopened "No such file or directory (os error 2)"
    | e => return .unopened (toString e)

end LocalScope

open LocalScope in
def main (args : List String) : IO UInt32 := do
  let outcome ← match Command.ofArguments args with
    | none => pure Outcome.usage
    | some command => do
      let content ← lookAt command.file
      pure (command.run fun _ => content)
  IO.print outcome.stdout
  IO.eprint outcome.stderr
  return outcome.exit
