import TableGraph.Config.Basic
import TableGraph.Json.Decode

/-!
# Configuration as JSON

A configuration is written with every member but the optional texts that are not there. Any part of
it may be missing when it is read.
-/

namespace TableGraph

open Json (decodeList decodeOption record? memberOr asString? asBool?)

/-- A whole number below a bound. -/
def Json.natBelow? (bound : Nat) : Json → Option Nat
  | .num (.int i) => if 0 ≤ i ∧ i < bound then some i.toNat else none
  | _ => none

/-- An optional text as a member, left out when it is not there. -/
def Config.textMember (name : String) : Option String → Members Json
  | some s => [(name, .str s)]
  | none => []

/-- Reads the pool. -/
def PoolConfig.ofJson? (j : Json) : Option PoolConfig := do
  let ms ← record? ["max_connections", "acquire_timeout_seconds"] j
  let d : PoolConfig := {}
  some {
    maxConnections :=
      ← memberOr ms "max_connections" (Json.natBelow? (Decimal.twoTo 32)) d.maxConnections
    acquireTimeoutSeconds :=
      ← memberOr ms "acquire_timeout_seconds" (Json.natBelow? (Decimal.twoTo 64))
        d.acquireTimeoutSeconds }

/-- Reads how the database is reached. -/
def ServerConfig.ofJson? (j : Json) : Option ServerConfig := do
  let ms ← record? ["database_url_env", "database_url", "host", "port", "database", "username",
    "password", "password_env", "pool"] j
  let d : ServerConfig := {}
  some {
    databaseUrlEnv := ← memberOr ms "database_url_env" (decodeOption asString?) none
    databaseUrl := ← memberOr ms "database_url" (decodeOption asString?) none
    host := ← memberOr ms "host" asString? d.host
    portNumber := ← memberOr ms "port" (Json.natBelow? (Decimal.twoTo 16)) d.portNumber
    database := ← memberOr ms "database" asString? d.database
    username := ← memberOr ms "username" asString? d.username
    password := ← memberOr ms "password" (decodeOption asString?) none
    passwordEnv := ← memberOr ms "password_env" (decodeOption asString?) none
    pool := ← memberOr ms "pool" PoolConfig.ofJson? {} }

/-- Reads where the annotations are kept. -/
def AnnotationsConfig.ofJson? (j : Json) : Option AnnotationsConfig := do
  let ms ← record? ["enabled", "schema", "table_prefix"] j
  let d : AnnotationsConfig := {}
  some {
    enabled := ← memberOr ms "enabled" asBool? d.enabled
    schema := ← memberOr ms "schema" asString? d.schema
    tablePrefix := ← memberOr ms "table_prefix" asString? d.tablePrefix }

/-- Reads which tables are shown. -/
def SchemaConfig.ofJson? (j : Json) : Option SchemaConfig := do
  let ms ← record? ["db_schema", "include", "exclude"] j
  let d : SchemaConfig := {}
  some {
    dbSchema := ← memberOr ms "db_schema" asString? d.dbSchema
    only := ← memberOr ms "include" (decodeList asString?) []
    never := ← memberOr ms "exclude" (decodeList asString?) [] }

/-- Reads how blobs are linked. -/
def BlobConfig.ofJson? (j : Json) : Option BlobConfig := do
  let ms ← record? ["link_base"] j
  let d : BlobConfig := {}
  some { linkBase := ← memberOr ms "link_base" asString? d.linkBase }

/-- Reads a configuration. -/
def Config.ofJson? (j : Json) : Option Config := do
  let ms ← record? ["upstream", "annotations", "schema", "blobs"] j
  some {
    server := ← memberOr ms "upstream" ServerConfig.ofJson? {}
    annotations := ← memberOr ms "annotations" AnnotationsConfig.ofJson? {}
    schema := ← memberOr ms "schema" SchemaConfig.ofJson? {}
    blobs := ← memberOr ms "blobs" BlobConfig.ofJson? {} }

/-- How the database is reached, as a record. -/
def ServerConfig.toJson (c : ServerConfig) : Json :=
  .obj (Config.textMember "database_url_env" c.databaseUrlEnv
    ++ Config.textMember "database_url" c.databaseUrl
    ++ [("host", .str c.host), ("port", .nat c.portNumber), ("database", .str c.database),
      ("username", .str c.username)]
    ++ Config.textMember "password" c.password
    ++ Config.textMember "password_env" c.passwordEnv
    ++ [("pool", .obj [("max_connections", .nat c.pool.maxConnections),
      ("acquire_timeout_seconds", .nat c.pool.acquireTimeoutSeconds)])])

/-- A configuration as a record. -/
def Config.toJson (c : Config) : Json :=
  .obj [("upstream", c.server.toJson),
    ("annotations", .obj [("enabled", .bool c.annotations.enabled),
      ("schema", .str c.annotations.schema), ("table_prefix", .str c.annotations.tablePrefix)]),
    ("schema", .obj [("db_schema", .str c.schema.dbSchema), ("include", .strings c.schema.only),
      ("exclude", .strings c.schema.never)]),
    ("blobs", .obj [("link_base", .str c.blobs.linkBase)])]

end TableGraph
