import TableGraph.Cli.Arguments
import TableGraph.Text.Joined

/-!
# Help

The text that is printed when help is asked for: what a subcommand does, how its command line is
made, and its operand and options with what they stand for.
-/

namespace TableGraph.Cli

/-- The name of the program. -/
def programName : String := "relgraph"

/-- The text of the version. -/
def versionText : String := programName ++ " 0.1.0\n"

namespace Usage

/-- A word and what it stands for, over two lines. -/
def entry (word summary : String) : String := "  " ++ word ++ "\n          " ++ summary

/-- A word and what it stands for, in one line with a column for words. -/
def row (width : Nat) (word summary : String) : String :=
  "  " ++ word ++ String.ofList (List.replicate (width - word.length) ' ') ++ "  " ++ summary

/-- An option with the value it has from the environment. -/
def flag (env : Environment) (f : Flag) : String :=
  let lead := match f.letter? with
    | some c => String.ofList ['-', c, ',', ' ']
    | none => "    "
  let fromEnvironment := match f.environmentName? with
    | some name => " [env: " ++ name ++ "=" ++ (env name).getD "" ++ "]"
    | none => ""
  entry (lead ++ "--" ++ f.word ++ " <" ++ f.valueName ++ ">") (f.summary ++ fromEnvironment)

/-- The options. -/
def flags (env : Environment) (verb : Option Verb) : String :=
  let version := if verb.isNone then [entry "-V, --version" "Print version"] else []
  "Options:\n" ++ Text.joined "\n"
    ((Flag.known verb).map (flag env) ++ [entry "-h, --help" "Print help"] ++ version)

/-- What the help itself does. -/
def helpSummary : String := "Print this message or the help of the given subcommand(s)"

/-- The subcommands. -/
def verbs : String :=
  "Commands:\n" ++ Text.joined "\n"
    (Verb.all.map (fun v => row 6 v.word v.summary) ++ [row 6 "help" helpSummary])

/-- How a command line is made. -/
def line (rest : String) : String := "Usage: " ++ programName ++ " " ++ rest

/-- The paragraphs of the help on a topic. -/
def paragraphs (env : Environment) : Topic → List String
  | .program =>
    ["GraphQL over relational metadata", line "[OPTIONS] <COMMAND>", verbs, flags env none]
  | .verb v =>
    let lead := line (v.word ++ " [OPTIONS]")
    (match v.operand? with
      | some (name, summary) =>
        let operand := "<" ++ name ++ ">"
        [v.summary, lead ++ " " ++ operand, "Arguments:\n" ++ row operand.length operand summary]
      | none => [v.summary, lead]) ++ [flags env (some v)]
  | .help =>
    [helpSummary, line "help [COMMAND]...",
      "Arguments:\n" ++ row 0 "[COMMAND]..." "Print help for the subcommand(s)"]

/-- The help on a topic. -/
def text (env : Environment) (topic : Topic) : String :=
  Text.joined "\n\n" (paragraphs env topic) ++ "\n"

/-- The text for words that make no command line. -/
def refusal : String :=
  Text.joined "\n\n" ["error: these arguments make no command", line "[OPTIONS] <COMMAND>",
    "For more information, try '--help'."] ++ "\n"

end Usage

end TableGraph.Cli
