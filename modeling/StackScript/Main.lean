import StackScript.Command.Build

/-!
# The command
-/

namespace StackScript

/-- Whether something succeeds. -/
def succeeds (x : IO α) : IO Bool := do
  try
    let _ ← x
    return true
  catch _ => return false

/-- The user's own configuration file, below the directory that the environment names. -/
def userConfig : IO (Option String) := do
  let within (directory : String) : String := directory ++ "/sprig/" ++ Config.fileName
  match ← IO.getEnv "XDG_CONFIG_HOME" with
  | some directory =>
    if directory.startsWith "/" then return some (within directory)
  | none => pure ()
  return (← IO.getEnv "HOME").map fun home => within (home ++ "/.config")

/-- The files of the system. -/
def systemFiles : IO (Files IO) := do
  return {
    isThere := fun path => succeeds (IO.FS.Handle.mk path .read)
    read := fun path => do
      try
        return some (← IO.FS.readFile path)
      catch _ => return none
    write := fun path text => succeeds (IO.FS.writeFile path text)
    userConfig := ← userConfig }

end StackScript

/-- Runs the command and prints what it has to say. -/
def main (args : List String) : IO UInt32 := do
  let outcome ← StackScript.runCommand (← StackScript.systemFiles) args
  IO.print outcome.stdout
  for line in outcome.stderr do
    IO.eprintln line
  return outcome.exit
