import TableGraph.Cli.Verb
import TableGraph.Config.Basic

/-!
# Command lines

The words behind the name of the program, read one after another: options, a subcommand, its options
and its operands. An option stands at most once on either side of the subcommand; behind it it counts
more than in front of it, and there more than in the environment.
-/

namespace TableGraph.Cli

/-- What is to be done. -/
inductive Command where
  /-- The tables are printed. -/
  | tables
  /-- The schema is printed or written to a file. -/
  | sdl (out : Option String)
  /-- A query is answered, given its text or the path of a file behind an at sign. -/
  | query (text : String) (values : Option String)
  /-- The content behind an id is printed or written to a file. -/
  | blob (id : String) (out : Option String)
  deriving DecidableEq, Repr, Inhabited

/-- What a command line asks for. -/
structure Invocation where
  /-- The file of the configuration. -/
  config : Option String
  /-- The settings that come before those of the file. -/
  overrides : Overrides
  /-- What is to be done. -/
  command : Command
  deriving DecidableEq, Repr, Inhabited

/-- What help is given on. -/
inductive Topic where
  /-- The whole program. -/
  | program
  /-- A subcommand. -/
  | verb (verb : Verb)
  /-- The help itself. -/
  | help
  deriving DecidableEq, Repr, Inhabited

/-- Why nothing is done. -/
inductive Stop where
  /-- The words make no command line. -/
  | refused
  /-- Help is asked for. -/
  | help (topic : Topic)
  /-- The version is asked for. -/
  | version
  deriving DecidableEq, Repr, Inhabited

/-- What a word looks like. -/
inductive Word where
  /-- Two dashes: operands follow. -/
  | ending
  /-- A name behind two dashes, with a value behind the first equals sign. -/
  | long (name : String) (value : Option String)
  /-- Letters behind one dash. -/
  | short (letter : Char) (rest : String)
  /-- Anything else, a single dash included. -/
  | plain
  deriving DecidableEq, Repr, Inhabited

/-- What a word looks like. -/
def Word.of (s : String) : Word :=
  match s.toList with
  | ['-', '-'] => .ending
  | '-' :: '-' :: cs =>
    .long (String.ofList (cs.takeWhile (· ≠ '='))) (match cs.dropWhile (· ≠ '=') with
      | [] => none
      | _ :: value => some (String.ofList value))
  | '-' :: c :: cs => .short c (String.ofList cs)
  | _ => .plain

/-- What a word with dashes asks for. -/
inductive Asked where
  /-- Help. -/
  | help
  /-- The version. -/
  | version
  /-- An option; without a value the next word is the value. -/
  | option (flag : Flag) (value : Option String)
  deriving DecidableEq, Repr, Inhabited

/-- The value in a word behind the letter of an option. -/
def valueBehind (rest : String) : Option String :=
  match rest.toList with
  | [] => none
  | '=' :: cs => some (String.ofList cs)
  | cs => some (String.ofList cs)

/-- What a word with dashes asks for in front of or behind a subcommand. -/
def Asked.of? (verb : Option Verb) : Word → Option Asked
  | .long name value =>
    match (Flag.known verb).find? fun f => f.word = name with
    | some flag => some (.option flag value)
    | none =>
      if value.isSome then none
      else if name = "help" then some .help
      else if name = "version" && verb.isNone then some .version
      else none
  | .short letter rest =>
    match (Flag.known verb).find? fun f => f.letter? = some letter with
    | some flag => some (.option flag (valueBehind rest))
    | none =>
      if letter = 'h' then some .help
      else if letter = 'V' && verb.isNone then some .version
      else none
  | _ => none

/-- What has been read of a command line. -/
structure Given where
  /-- The subcommand. -/
  verb : Option Verb := none
  /-- The options in front of it. -/
  before : List (Flag × String) := []
  /-- The options behind it. -/
  behind : List (Flag × String) := []
  /-- The operands. -/
  operands : List String := []
  deriving DecidableEq, Repr, Inhabited

/-- The value of an option in a list. -/
def valueIn (options : List (Flag × String)) (flag : Flag) : Option String :=
  (options.find? fun o => o.1 = flag).map (·.2)

namespace Given

/-- One more option. -/
def option? (g : Given) (flag : Flag) (value : String) : Option Given :=
  if flag.isPath && value = "" then none
  else match g.verb with
    | none =>
      if (valueIn g.before flag).isSome then none
      else some { g with before := g.before ++ [(flag, value)] }
    | some _ =>
      if (valueIn g.behind flag).isSome then none
      else some { g with behind := g.behind ++ [(flag, value)] }

/-- One more plain word: the subcommand, then its operands. -/
def word? (g : Given) (word : String) : Option Given :=
  match g.verb with
  | none => (Verb.ofWord? word).map fun v => { g with verb := some v }
  | some v =>
    if g.operands.length < v.operandCount then some { g with operands := g.operands ++ [word] }
    else none

/-- Several operands. -/
def operands? (g : Given) (words : List String) : Option Given :=
  if g.verb.isSome then words.foldlM word? g else none

/-- What the help on some words is. -/
def helpOn : List String → Stop
  | [] => .help .program
  | ["help"] => .help .help
  | [word] => match Verb.ofWord? word with
    | some v => .help (.verb v)
    | none => .refused
  | _ => .refused

/-- What is in an option, or a refusal where there is nothing. -/
def orRefused {α : Type} : Option α → Except Stop α
  | some a => .ok a
  | none => .error .refused

/-- Reads words. -/
def read : List String → Given → Except Stop Given
  | [], g => .ok g
  | w :: ws, g =>
    match Word.of w with
    | .ending => orRefused (g.operands? ws)
    | .plain =>
      if g.verb.isNone && w = "help" then .error (helpOn ws)
      else (orRefused (g.word? w)).bind (read ws)
    | word => match Asked.of? g.verb word with
      | none => .error .refused
      | some .help => .error (.help ((g.verb.map Topic.verb).getD .program))
      | some .version => .error .version
      | some (.option flag (some value)) => (orRefused (g.option? flag value)).bind (read ws)
      | some (.option flag none) => match ws with
        | value :: rest =>
          if Word.of value = .plain then (orRefused (g.option? flag value)).bind (read rest)
          else .error .refused
        | [] => .error .refused

/-- The value of an option: the one behind the subcommand, else the one in front of it, else that of
the environment. -/
def value? (g : Given) (env : Environment) (flag : Flag) : Option String :=
  ((valueIn g.behind flag).or (valueIn g.before flag)).or (flag.environmentName?.bind env)

/-- The command, if the subcommand and its operand are there. -/
def command? (g : Given) : Option Command :=
  match g.verb, g.operands with
  | some .tables, [] => some .tables
  | some .sdl, [] => some (.sdl (valueIn g.behind .out))
  | some .query, [text] => some (.query text (valueIn g.behind .values))
  | some .blob, [id] => some (.blob id (valueIn g.behind .out))
  | _, _ => none

/-- What is asked for. -/
def invocation? (g : Given) (env : Environment) : Option Invocation := do
  let command ← g.command?
  let config := g.value? env .config
  if config = some "" then none
  else some ⟨config, ⟨g.value? env .databaseUrl, g.value? env .dbSchema⟩, command⟩

end Given

/-- What the words of a command line ask for. -/
def Invocation.ofWords (env : Environment) (words : List String) : Except Stop Invocation := do
  Given.orRefused ((← Given.read words {}).invocation? env)

end TableGraph.Cli
