import TableGraph.Cli.Run
import TableGraph.Cli.Usage

/-!
# The program

Gathers what a command finds around it, runs the command, and leaves behind what it gives. The
databases that can be reached are recorded ones: their addresses name files in which the answers of a
database are kept as JSON.
-/

namespace TableGraph.Cli

/-- The text of a file, if it can be read. -/
def fileText? (path : String) : IO (Option String) := do
  try return some (← IO.FS.readFile path) catch _ => return none

/-- The values of environment variables. -/
def environmentOf (names : List String) : IO Environment := do
  let values ← names.mapM fun name => return (name, ← IO.getEnv name)
  return fun name => (values.find? fun v => v.1 = name).bind (·.2)

/-- The texts of files. -/
def filesOf (paths : List String) : IO (String → Option String) := do
  let texts ← paths.mapM fun path => return (path, ← fileText? path)
  return fun path => (texts.find? fun t => t.1 = path).bind (·.2)

/-- The database at an address. -/
def databaseAt? (address : String) : IO (Option Recording) := do
  let some path := Text.after? "file:" address | return none
  let some text ← fileText? path | return none
  return ((Json.parse? text).bind Json.asObject?).bind Recording.ofMembers?

/-- The environment variables that give values for options. -/
def optionVariables : List String :=
  (Flag.known none).filterMap Flag.environmentName?

/-- The environment variables that a configuration names. -/
def configurationVariables (c : Config) : List String :=
  c.server.databaseUrlEnv.toList ++ c.server.passwordEnv.toList

/-- The world of a command. -/
def worldOf (i : Invocation) : IO World := do
  let file ← filesOf i.paths
  match i.configuration file with
  | .error _ => return ⟨file, fun _ => none, fun _ => none⟩
  | .ok c =>
    let environment ← environmentOf (configurationVariables c)
    let address := c.server.connectionString environment
    let db ← databaseAt? address
    return ⟨file, environment, fun a => if a = address then db else none⟩

/-- Writes bytes to a file and says why where it cannot. -/
def writeFile (path : String) (bytes : Bytes) : IO (Option String) := do
  try
    IO.FS.writeBinFile path ⟨bytes.toArray⟩
    return none
  catch e => return some e.toString

/-- Leaves behind what a command gives. -/
def leave (o : Outcome) : IO UInt32 := do
  let fault ← match o.file with
    | some (path, bytes) => writeFile path bytes
    | none => pure none
  let o := o.afterWriting fault
  let stdout ← IO.getStdout
  stdout.write ⟨o.printed.toArray⟩
  stdout.flush
  (← IO.getStderr).putStr o.errorText
  return UInt32.ofNat o.code

end TableGraph.Cli

open TableGraph.Cli in
/-- Does what the words of the command line ask for. -/
def main (words : List String) : IO UInt32 := do
  let environment ← environmentOf optionVariables
  match Invocation.ofWords environment words with
  | .ok i => leave (run (← worldOf i) i).1
  | .error .refused =>
    (← IO.getStderr).putStr Usage.refusal
    return 2
  | .error (.help topic) =>
    (← IO.getStdout).putStr (Usage.text environment topic)
    return 0
  | .error .version =>
    (← IO.getStdout).putStr versionText
    return 0
