import TableGraph.Decimal.Digits

/-!
# Configuration

Where the database is, where its annotations live, which tables are shown and on what address blob
links are built. Every setting has a default.
-/

namespace TableGraph

/-- The pool of connections. -/
structure PoolConfig where
  /-- The most connections open at a time. -/
  maxConnections : Nat := 10
  /-- Seconds to wait for a free connection. -/
  acquireTimeoutSeconds : Nat := 30
  deriving DecidableEq, Repr, Inhabited

/-- How the database is reached. -/
structure ServerConfig where
  /-- The environment variable that holds the whole address. -/
  databaseUrlEnv : Option String := none
  /-- The whole address. -/
  databaseUrl : Option String := none
  /-- The host. -/
  host : String := "localhost"
  /-- The port. -/
  portNumber : Nat := 5432
  /-- The database. -/
  database : String := "postgres"
  /-- The user. -/
  username : String := "postgres"
  /-- The password. -/
  password : Option String := none
  /-- The environment variable that holds the password. -/
  passwordEnv : Option String := none
  /-- The pool of connections. -/
  pool : PoolConfig := {}
  deriving DecidableEq, Repr, Inhabited

/-- Where the annotations are kept. -/
structure AnnotationsConfig where
  /-- Whether annotations are read at all. -/
  enabled : Bool := true
  /-- The schema of the annotation tables. -/
  schema : String := "public"
  /-- What the names of the annotation tables start with. -/
  tablePrefix : String := "nlp_"
  deriving DecidableEq, Repr, Inhabited

/-- Which tables are shown. -/
structure SchemaConfig where
  /-- The schema whose tables are read. -/
  dbSchema : String := "public"
  /-- If not empty, the only tables that are shown. -/
  only : List String := []
  /-- Tables that are never shown. -/
  never : List String := []
  deriving DecidableEq, Repr, Inhabited

/-- How blobs are linked. -/
structure BlobConfig where
  /-- The address that links are appended to. -/
  linkBase : String := "http://localhost:4000"
  deriving DecidableEq, Repr, Inhabited

/-- The whole configuration. -/
structure Config where
  /-- How the database is reached. -/
  server : ServerConfig := {}
  /-- Where the annotations are kept. -/
  annotations : AnnotationsConfig := {}
  /-- Which tables are shown. -/
  schema : SchemaConfig := {}
  /-- How blobs are linked. -/
  blobs : BlobConfig := {}
  deriving DecidableEq, Repr, Inhabited

/-- The values of environment variables. -/
abbrev Environment := String → Option String

/-- Whether a table is shown. -/
def SchemaConfig.allows (c : SchemaConfig) (table : String) : Bool :=
  table ∉ c.never && (c.only = [] || table ∈ c.only)

/-- The password: that of the environment, else the one given. -/
def ServerConfig.resolvedPassword (c : ServerConfig) (env : Environment) : Option String :=
  (c.passwordEnv.bind env).or c.password

/-- The address built from user, password, host, port and database. -/
def ServerConfig.composed (c : ServerConfig) (password : Option String) : String :=
  let secret := match password with
    | some p => ":" ++ p
    | none => ""
  "postgresql://" ++ c.username ++ secret ++ "@" ++ c.host ++ ":"
    ++ String.ofList (Decimal.digits c.portNumber) ++ "/" ++ c.database

/-- The address of the database: that of the environment, else the one given whole, else the one
built from its parts. -/
def ServerConfig.connectionString (c : ServerConfig) (env : Environment) : String :=
  match c.databaseUrlEnv.bind env with
  | some url => url
  | none =>
    match c.databaseUrl with
    | some url => url
    | none => c.composed (c.resolvedPassword env)

/-- Why a configuration is refused. -/
inductive ConfigFault where
  /-- A table is to be shown and hidden. -/
  | shownAndHidden (table : String)
  /-- The pool would hold no connection. -/
  | emptyPool
  deriving DecidableEq, Repr

/-- The text of a fault. -/
def ConfigFault.message : ConfigFault → String
  | .shownAndHidden table =>
    "Configuration error: table '" ++ table ++ "' is both included and excluded"
  | .emptyPool => "Configuration error: upstream.pool.max_connections must be at least 1"

/-- The first fault of a configuration. -/
def Config.fault? (c : Config) : Option ConfigFault :=
  match c.schema.only.find? (· ∈ c.schema.never) with
  | some table => some (.shownAndHidden table)
  | none => if c.server.pool.maxConnections = 0 then some .emptyPool else none

/-- Settings that come before those of the file. -/
structure Overrides where
  /-- The address of the database. -/
  databaseUrl : Option String := none
  /-- The schema whose tables are read. -/
  dbSchema : Option String := none
  deriving DecidableEq, Repr, Inhabited

/-- The configuration with the overriding settings. An overriding address also comes before the
variable of the environment. -/
def Config.override (c : Config) (o : Overrides) : Config :=
  let server := match o.databaseUrl with
    | some url => { c.server with databaseUrl := some url, databaseUrlEnv := none }
    | none => c.server
  let schema := match o.dbSchema with
    | some name => { c.schema with dbSchema := name }
    | none => c.schema
  { c with server := server, schema := schema }

end TableGraph
