import AbstractBits.CommandLine.Run
/-!
# The program

Carries the arguments of a run to `run`, with the configuration in its file, and shows the result.
-/

namespace AbstractBits

/-- The directory that holds the configuration. -/
def configDirectory : IO String := do
  match ← IO.getEnv "XDG_CONFIG_HOME" with
  | some dir => return s!"{dir}/{programName}"
  | none =>
    let home := (← IO.getEnv "HOME").getD "."
    return s!"{home}/.config/{programName}"

/-- The content of a file; nothing if there is no file that can be read. -/
def readFile? (file : String) : IO (Option String) := do
  try
    return some (← IO.FS.readFile file)
  catch _ =>
    return none

end AbstractBits

open AbstractBits in
def main (args : List String) : IO UInt32 := do
  let directory ← configDirectory
  let file := s!"{directory}/default-config.toml"
  let write (text : String) : IO Unit := do
    IO.FS.createDirAll directory
    IO.FS.writeFile file text
  let outcome ← run Request.read (.ofFile (readFile? file) write) args
  IO.print outcome.stdout
  if let some text := outcome.stderr then
    IO.eprint text
  return outcome.exit.toUInt32
