/-!
# Subcommands and options

The words a command line is made of. Some options belong to every subcommand and may also stand in
front of it; the others belong to their own subcommands.
-/

namespace TableGraph.Cli

/-- A subcommand. -/
inductive Verb where
  /-- Prints the tables. -/
  | tables
  /-- Prints the schema. -/
  | sdl
  /-- Answers a query. -/
  | query
  /-- Fetches the content of a blob. -/
  | blob
  deriving DecidableEq, Repr, Inhabited

namespace Verb

/-- All subcommands in the order they are listed. -/
def all : List Verb := [.tables, .sdl, .query, .blob]

/-- The word of a subcommand. -/
def word : Verb → String
  | .tables => "tables"
  | .sdl => "sdl"
  | .query => "query"
  | .blob => "blob"

/-- The subcommand of a word. -/
def ofWord? (s : String) : Option Verb := all.find? fun v => v.word = s

/-- What a subcommand does. -/
def summary : Verb → String
  | .tables => "Print the metadata snapshot (tables, fields, annotations) as JSON"
  | .sdl => "Build the schema and print its SDL"
  | .query => "Build the schema and execute one GraphQL query"
  | .blob => "Fetch the content behind a blob link id"

/-- The name of the operand of a subcommand and what it stands for, if it takes one. -/
def operand? : Verb → Option (String × String)
  | .query => some ("QUERY", "Query text, or \x60@path\x60 to read it from a file")
  | .blob => some ("ID", "The \x60id\x60 parameter of a blob link")
  | _ => none

/-- The number of operands. -/
def operandCount (v : Verb) : Nat := if v.operand?.isSome then 1 else 0

end Verb

/-- An option, which always takes a value. -/
inductive Flag where
  /-- The file of the configuration. -/
  | config
  /-- The address of the database. -/
  | databaseUrl
  /-- The schema whose tables are read. -/
  | dbSchema
  /-- The file that is written in place of the output. -/
  | out
  /-- The variables of a query. -/
  | values
  deriving DecidableEq, Repr, Inhabited

namespace Flag

/-- The word of an option, behind two dashes. -/
def word : Flag → String
  | .config => "config"
  | .databaseUrl => "database-url"
  | .dbSchema => "db-schema"
  | .out => "out"
  | .values => "variables"

/-- The letter of an option, behind one dash. -/
def letter? : Flag → Option Char
  | .config => some 'c'
  | _ => none

/-- The name of the value. -/
def valueName : Flag → String
  | .config => "CONFIG"
  | .databaseUrl => "DATABASE_URL"
  | .dbSchema => "DB_SCHEMA"
  | .out => "OUT"
  | .values => "VARIABLES"

/-- The environment variable that gives the value where the option is missing. -/
def environmentName? : Flag → Option String
  | .config => some "RELGRAPH_CONFIG"
  | .databaseUrl => some "DATABASE_URL"
  | _ => none

/-- What an option is for. -/
def summary : Flag → String
  | .config => "Configuration file (YAML). Defaults apply when omitted"
  | .databaseUrl => "Database URL, overriding the configured upstream"
  | .dbSchema => "Database schema to expose, overriding the configuration"
  | .out => "Write to this file instead of stdout"
  | .values => "Variables as a JSON object"

/-- Whether the value is the path of a file, which cannot be empty. -/
def isPath : Flag → Bool
  | .config | .out => true
  | _ => false

/-- The options that belong to a subcommand alone. -/
def own : Verb → List Flag
  | .tables => []
  | .sdl | .blob => [.out]
  | .query => [.values]

/-- The options in front of the subcommand, or those behind it, in the order they are listed. -/
def known : Option Verb → List Flag
  | none => [.config, .databaseUrl, .dbSchema]
  | some v => .config :: own v ++ [.databaseUrl, .dbSchema]

end Flag

end TableGraph.Cli
