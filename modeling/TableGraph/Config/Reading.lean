import TableGraph.Config.Json
import TableGraph.Yaml.Node
import TableGraph.Text.Joined

/-!
# Reading configurations

A configuration is a document of mappings, each of which may be missing or empty. A text is taken as
it is written, whatever it looks like; flags and numbers must be plain. Unknown members are passed
over and known ones may stand only once.
-/

namespace TableGraph

namespace Yaml.Node

/-- Whether a node is left out. -/
def isMissing : Node → Bool
  | .scalar text plain => text = "" && plain
  | _ => false

/-- The members of a mapping. A node that is left out is an empty one, and keys are scalars. -/
def members? : Node → Option (List (String × Node))
  | .mapping entries => entries.mapM fun (k, v) => match k with
    | .scalar name _ => some (name, v)
    | _ => none
  | node => if node.isMissing then some [] else none

/-- A member that stands at most once, with a value of its own when it is missing. -/
def memberOr {α : Type} (ms : List (String × Node)) (name : String) (f : Node → Option α)
    (missing : α) : Option α :=
  match ms.filter fun m => m.1 = name with
  | [] => some missing
  | [m] => f m.2
  | _ => none

/-- The text of a scalar. -/
def text? : Node → Option String
  | .scalar text _ => some text
  | _ => none

/-- The text of a plain scalar. -/
def plain? : Node → Option String
  | .scalar text true => some text
  | _ => none

/-- The words for no value. -/
def nullWords : List String := ["null", "Null", "NULL", "~"]

/-- The text of a scalar, or nothing for one that is left out or says so. -/
def optionalText? : Node → Option (Option String)
  | .scalar text plain =>
    some (if plain && (text = "" || nullWords.contains text) then none else some text)
  | _ => none

/-- The texts of a sequence of scalars. A node that is left out is an empty one. -/
def texts? : Node → Option (List String)
  | .sequence items => items.mapM text?
  | node => if node.isMissing then some [] else none

/-- A flag. -/
def flag? (node : Node) : Option Bool := do
  let text ← node.plain?
  if ["true", "True", "TRUE"].contains text then some true
  else if ["false", "False", "FALSE"].contains text then some false
  else none

/-- The number of digits in a base. -/
def digitsIn? (base : Nat) (cs : List Char) : Option Nat :=
  if cs = [] then none
  else cs.foldlM (fun n c => (Json.hexValue c).bind fun d =>
    if d < base then some (n * base + d) else none) 0

/-- The natural number of a text: digits without a zero in front of others, or digits of another base
behind its sign. A plus may stand in front. -/
def number? (text : String) : Option Nat :=
  match (match text.toList with
    | '+' :: rest => rest
    | cs => cs) with
  | '0' :: 'x' :: digits => digitsIn? 16 digits
  | '0' :: 'o' :: digits => digitsIn? 8 digits
  | '0' :: 'b' :: digits => digitsIn? 2 digits
  | ['0'] => some 0
  | '0' :: _ => none
  | digits => digitsIn? 10 digits

/-- A natural number below a bound. -/
def natBelow? (bound : Nat) (node : Node) : Option Nat := do
  let n ← number? (← node.plain?)
  if n < bound then some n else none

end Yaml.Node

open Yaml.Node (members? memberOr text? optionalText? texts? flag? natBelow?)

/-- Reads the pool. -/
def PoolConfig.ofYaml? (node : Yaml.Node) : Option PoolConfig := do
  let ms ← members? node
  let d : PoolConfig := {}
  some {
    maxConnections := ← memberOr ms "max_connections" (natBelow? (Decimal.twoTo 32)) d.maxConnections
    acquireTimeoutSeconds :=
      ← memberOr ms "acquire_timeout_seconds" (natBelow? (Decimal.twoTo 64)) d.acquireTimeoutSeconds }

/-- Reads how the database is reached. -/
def ServerConfig.ofYaml? (node : Yaml.Node) : Option ServerConfig := do
  let ms ← members? node
  let d : ServerConfig := {}
  some {
    databaseUrlEnv := ← memberOr ms "database_url_env" optionalText? none
    databaseUrl := ← memberOr ms "database_url" optionalText? none
    host := ← memberOr ms "host" text? d.host
    portNumber := ← memberOr ms "port" (natBelow? (Decimal.twoTo 16)) d.portNumber
    database := ← memberOr ms "database" text? d.database
    username := ← memberOr ms "username" text? d.username
    password := ← memberOr ms "password" optionalText? none
    passwordEnv := ← memberOr ms "password_env" optionalText? none
    pool := ← memberOr ms "pool" PoolConfig.ofYaml? {} }

/-- Reads where the annotations are kept. -/
def AnnotationsConfig.ofYaml? (node : Yaml.Node) : Option AnnotationsConfig := do
  let ms ← members? node
  let d : AnnotationsConfig := {}
  some {
    enabled := ← memberOr ms "enabled" flag? d.enabled
    schema := ← memberOr ms "schema" text? d.schema
    tablePrefix := ← memberOr ms "table_prefix" text? d.tablePrefix }

/-- Reads which tables are shown. -/
def SchemaConfig.ofYaml? (node : Yaml.Node) : Option SchemaConfig := do
  let ms ← members? node
  let d : SchemaConfig := {}
  some {
    dbSchema := ← memberOr ms "db_schema" text? d.dbSchema
    only := ← memberOr ms "include" texts? []
    never := ← memberOr ms "exclude" texts? [] }

/-- Reads how blobs are linked. -/
def BlobConfig.ofYaml? (node : Yaml.Node) : Option BlobConfig := do
  let ms ← members? node
  let d : BlobConfig := {}
  some { linkBase := ← memberOr ms "link_base" text? d.linkBase }

/-- Reads a configuration. -/
def Config.ofYaml? (node : Yaml.Node) : Option Config := do
  let ms ← members? node
  some {
    server := ← memberOr ms "upstream" ServerConfig.ofYaml? {}
    annotations := ← memberOr ms "annotations" AnnotationsConfig.ofYaml? {}
    schema := ← memberOr ms "schema" SchemaConfig.ofYaml? {}
    blobs := ← memberOr ms "blobs" BlobConfig.ofYaml? {} }

/-- Why there is no configuration. -/
inductive ConfigError where
  /-- The file cannot be read. -/
  | unreadable
  /-- The text is not that of a configuration. -/
  | malformed
  /-- The configuration does not make sense. -/
  | fault (fault : ConfigFault)
  deriving DecidableEq, Repr

/-- The text for a file that is not there. -/
def noSuchFile : String := "No such file or directory (os error 2)"

/-- The text of an error, behind it the text of what caused it. -/
def ConfigError.causes : ConfigError → List String
  | .unreadable => ["IO error: " ++ noSuchFile, noSuchFile]
  | .malformed => ["YAML parse error: invalid document", "invalid document"]
  | .fault f => [f.message]

/-- The configuration of a text. -/
def Config.ofText (text : String) : Except ConfigError Config :=
  match Yaml.Node.ofText? text with
  | none => .error .malformed
  | some node =>
    match Config.ofYaml? (node.getD .missing) with
    | none => .error .malformed
    | some c => match c.fault? with
      | some fault => .error (.fault fault)
      | none => .ok c

/-- The configuration of a file, given by its text if it can be read. -/
def Config.ofFile (text : Option String) : Except ConfigError Config :=
  match text with
  | some text => Config.ofText text
  | none => .error .unreadable

/-- A path between quotes. -/
def quotedPath (path : String) : String :=
  "\"" ++ Text.substitute (fun c =>
    if c = '"' then "\\\""
    else if c = '\\' then "\\\\"
    else if c = '\n' then "\\n"
    else if c = '\r' then "\\r"
    else if c = '\t' then "\\t"
    else String.ofList [c]) path ++ "\""

/-- What stands around an error of a configuration file, given by its path. -/
def ConfigError.context (path : String) : String :=
  "Failed to load configuration from " ++ quotedPath path

end TableGraph
