import TableGraph.Cli.Arguments
import TableGraph.Cli.Report
import TableGraph.Config.Reading
import TableGraph.Database.Source
import TableGraph.Graph.Sdl
import TableGraph.Query.Json
import TableGraph.Table.Json

/-!
# Running commands

A command runs against a world of files, environment variables and databases. The text and the
variables of a query are read first, then the configuration; then the database is reached, and only
then the command does its work. What it writes is given back with the error that ends it, if any.
-/

namespace TableGraph.Cli

/-- What a command finds around it. -/
structure World where
  /-- The texts of the files that can be read. -/
  file : String → Option String
  /-- The values of environment variables. -/
  environment : Environment
  /-- The databases that can be reached, by address. -/
  database : String → Option Recording

/-- What a command leaves behind. -/
structure Outcome where
  /-- What is printed. -/
  printed : Bytes := []
  /-- The file that is to be written, with its content. -/
  file : Option (String × Bytes) := none
  /-- The error that ends the command. -/
  error : Option Report := none
  deriving DecidableEq, Repr, Inhabited

namespace Outcome

/-- Only an error. -/
def failed (r : Report) : Outcome := { error := some r }

/-- Printed text with a line end behind it. -/
def line (text : String) : Outcome := { printed := Text.utf8 (text ++ "\n") }

/-- What is left behind when the file could not be written. -/
def afterWriting (o : Outcome) : Option String → Outcome
  | none => o
  | some fault => { o with error := some ⟨fault, []⟩ }

/-- The exit code. -/
def code (o : Outcome) : Nat := if o.error.isSome then 1 else 0

/-- What is printed as the error. -/
def errorText (o : Outcome) : String := (o.error.map Report.text).getD ""

end Outcome

/-- A command with everything read that it is given. -/
inductive Task where
  /-- The tables are printed. -/
  | tables
  /-- The schema is printed or written to a file. -/
  | sdl (out : Option String)
  /-- A request is answered. -/
  | query (request : Query.Request)
  /-- The content behind an id is printed or written to a file. -/
  | blob (id : String) (out : Option String)

/-- The path of the file in which the text of a query is, if it is not given itself. -/
def queryFile? (text : String) : Option String := Text.after? "@" text

/-- The text of a query. -/
def queryText (w : World) (text : String) : Except Report String :=
  match queryFile? text with
  | none => .ok text
  | some path => match w.file path with
    | some text => .ok text
    | none => .error ⟨"Failed to read query file: " ++ path, [noSuchFile]⟩

/-- The variables of a query. Without an object there are none. -/
def queryVariables : Option String → Except Report (Members Json)
  | none => .ok []
  | some text => match Json.parse? text with
    | some j => .ok (j.asObject?.getD [])
    | none => .error ⟨"Variables must be a JSON object", ["invalid JSON"]⟩

/-- Reads what a command is given. -/
def Command.task (w : World) : Command → Except Report Task
  | .tables => .ok .tables
  | .sdl out => .ok (.sdl out)
  | .query text values => do
    let text ← queryText w text
    let values ← queryVariables values
    return .query ⟨text, values, none⟩
  | .blob id out => .ok (.blob id out)

namespace Invocation

/-- The files that are read. -/
def paths (i : Invocation) : List String :=
  i.config.toList ++ (match i.command with
    | .query text _ => (queryFile? text).toList
    | _ => [])

/-- The configuration that counts, given the texts of files. -/
def configuration (i : Invocation) (file : String → Option String) : Except Report Config :=
  match i.config with
  | none => .ok (Config.override {} i.overrides)
  | some path => match Config.ofFile (file path) with
    | .ok c => .ok (c.override i.overrides)
    | .error e => .error ⟨ConfigError.context path, e.causes⟩

end Invocation

/-- Reaches the database of a configuration. -/
def connect (w : World) (c : Config) : Except Report Recording :=
  match w.database (c.server.connectionString w.environment) with
  | some db => .ok db
  | none => .error ⟨"Failed to connect to the upstream database",
      ["pool timed out while waiting for an open connection"]⟩

/-- The report of a fault of a database. -/
def sourceReport (e : SourceFault) : Report := ⟨e.message, e.causes⟩

/-- The graph of a database. Where its tables cannot be read the report says why. -/
def graph (c : Config) : StateM Recording (Except Report Graph) := do
  let tables ← Source.tables c
  let causes := match tables with
    | .error fault => fault.message :: fault.causes
    | .ok _ => []
  return (Graph.create (tables.mapError SourceFault.message)).mapError fun e => ⟨e.message, causes⟩

/-- Bytes that are printed or written to a file. A printed text ends with `ending`. -/
def delivered (out : Option String) (bytes : Bytes) (ending : String) : Outcome :=
  match out with
  | none => { printed := bytes ++ Text.utf8 ending }
  | some path => { file := some (path, bytes) }

/-- The outcome of an answered query. -/
def answered (text : String) (r : Query.Response) : Outcome :=
  let printed := Outcome.line (r.toJson text).pretty
  match (r.errors text).length with
  | 0 => printed
  | n =>
    { printed with
      error := some ⟨"query failed with " ++ String.ofList (Decimal.digits n) ++ " error(s)", []⟩ }

/-- Does the work of a command. -/
def Task.perform (c : Config) : Task → StateM Recording Outcome
  | .tables => do
    match ← Source.tables c with
    | .ok ts => return .line (Table.listToJson ts).pretty
    | .error e => return .failed (sourceReport e)
  | .sdl out => do
    match ← graph c with
    | .ok g => return delivered out (Text.utf8 (Sdl.text g.types)) "\n"
    | .error r => return .failed r
  | .query request => do
    match ← graph c with
    | .ok g => return answered request.text (← g.answer (Source.backend c) request)
    | .error r => return .failed r
  | .blob id out => do
    match ← Source.content c.schema id with
    | .ok (some bytes) => return delivered out bytes ""
    | .ok none => return .failed ⟨"no content behind blob id", []⟩
    | .error e => return .failed ⟨e.message, e.causes⟩

/-- Runs a command, and says which statements were sent. -/
def run (w : World) (i : Invocation) : Outcome × List Statement :=
  let ready := do
    let task ← i.command.task w
    let c ← i.configuration w.file
    return (task, c, ← connect w c)
  match ready with
  | .error r => (.failed r, [])
  | .ok (task, c, db) =>
    let (outcome, db) := (task.perform c).run db
    (outcome, db.sent)

end TableGraph.Cli
