/-! The command line: from words to a command. An option is written `--name value`,
`--name=value`, `-n value`, `-nvalue` or `-n=value`, and at most once. -/

namespace CallFlow.Command

/-- Why no command is run. -/
inductive Refusal where
  | usage
  | help
  | version
deriving Repr, DecidableEq

/-- What an option is followed by. -/
inductive Arity where
  | nothing
  | value
  /-- A value that is a number. -/
  | number
  /-- A value that may be left out, and what is meant then. -/
  | optional (otherwise : String)
  /-- Nothing, as the option asks for information instead of a command. -/
  | asks (answer : Refusal)
deriving Repr, DecidableEq

/-- Reads a number of at most 64 bits: digits, possibly behind a plus sign. -/
def number? (written : String) : Option Nat :=
  let digits := match written.toList with
    | '+' :: rest => rest
    | cs => cs
  if digits.isEmpty || !digits.all Char.isDigit then none
  else
    let n := digits.foldl (fun n c => 10 * n + (c.toNat - '0'.toNat)) 0
    if n < 0x10000000000000000 then some n else none

def Arity.accepts : Arity → String → Bool
  | .number, written => (number? written).isSome
  | _, _ => true

structure Switch where
  name : String
  letter : Option Char
  arity : Arity
deriving Repr, DecidableEq

/-- Options by name with their values. -/
abbrev Settings := List (String × String)

/-- A word of the command line. -/
inductive Word where
  | plain
  /-- The mark `--`, behind which there are no options. -/
  | divider
  | long (name : String) (value : Option String)
  | short (letter : Char) (value : Option String)
deriving Repr, DecidableEq

def Word.ofString (written : String) : Word :=
  match written.toList with
  | ['-', '-'] => .divider
  | '-' :: '-' :: rest =>
    let name := String.ofList (rest.takeWhile (· ≠ '='))
    match rest.dropWhile (· ≠ '=') with
    | [] => .long name none
    | _ :: value => .long name (some (String.ofList value))
  | '-' :: c :: rest =>
    match rest with
    | [] => .short c none
    | '=' :: value => .short c (some (String.ofList value))
    | value => .short c (some (String.ofList value))
  | _ => .plain

/-- The switch that a word names, and the value that is part of the word. -/
def Word.switch? (switches : List Switch) : Word → Option (Switch × Option String)
  | .long name value => (switches.find? fun s => s.name == name).map (·, value)
  | .short letter value => (switches.find? fun s => s.letter == some letter).map (·, value)
  | _ => none

/-- Why a word with a switch that asks for information is refused. Letters behind the
first one of a short option do not matter. -/
def Word.answer (answer : Refusal) : Word → Refusal
  | .long _ (some _) => .usage
  | _ => answer

/-- Reads options up to the first word that is none. -/
def readSettings (switches : List Switch) (found : Settings) :
    List String → Except Refusal (Settings × List String)
  | [] => .ok (found, [])
  | first :: rest =>
    let word := Word.ofString first
    if word = .plain ∨ word = .divider then .ok (found, first :: rest)
    else
      match word.switch? switches with
      | none => .error .usage
      | some (s, value) =>
        if found.any fun f => f.1 == s.name then .error .usage
        else
          match s.arity, value, rest with
          | .asks answer, _, _ => .error (word.answer answer)
          | .nothing, none, rest => readSettings switches ((s.name, "") :: found) rest
          | .nothing, some _, _ => .error .usage
          | .optional otherwise, none, [] => .ok ((s.name, otherwise) :: found, [])
          | .optional otherwise, none, v :: rest =>
            if Word.ofString v = .plain then readSettings switches ((s.name, v) :: found) rest
            else readSettings switches ((s.name, otherwise) :: found) (v :: rest)
          | arity, some v, rest =>
            if arity.accepts v then readSettings switches ((s.name, v) :: found) rest
            else .error .usage
          | _, none, [] => .error .usage
          | arity, none, v :: rest =>
            if Word.ofString v = .plain ∧ arity.accepts v then
              readSettings switches ((s.name, v) :: found) rest
            else .error .usage

/-! ## Commands -/

structure SourceOptions where
  dir : String
  ext : String
deriving Repr, DecidableEq

/-- How the entry function of a flow is chosen, and how deep the flow goes. -/
structure EntryOptions where
  function : String
  owner : Option String
  maxDepth : Option Nat
deriving Repr, DecidableEq

structure ListOptions where
  source : SourceOptions
  pattern : Option String
  annotated : Option String
  json : Bool
deriving Repr, DecidableEq

structure TraceOptions where
  source : SourceOptions
  entry : EntryOptions
  all : Bool
  json : Bool
  showUnresolved : Bool
deriving Repr, DecidableEq

structure PromptOptions where
  source : SourceOptions
  entry : EntryOptions
  template : String
  project : Option String
  output : Option String
deriving Repr, DecidableEq

end Command

inductive Command where
  | list (options : Command.ListOptions)
  | trace (options : Command.TraceOptions)
  | prompt (options : Command.PromptOptions)
deriving Repr, DecidableEq

namespace Command

structure Invocation where
  logLevel : String
  logJson : Bool
  command : Command
deriving Repr, DecidableEq

/-- The switches that are known on both sides of the command's name. -/
def globalSwitches : List Switch :=
  [⟨"log-level", none, .value⟩, ⟨"log-json", none, .nothing⟩, ⟨"help", some 'h', .asks .help⟩]

/-- The switches before the command's name. -/
def programSwitches : List Switch := ⟨"version", some 'V', .asks .version⟩ :: globalSwitches

def sourceSwitches : List Switch := [⟨"dir", some 'd', .value⟩, ⟨"ext", some 'e', .value⟩]

def entrySwitches : List Switch :=
  [⟨"function", some 'f', .value⟩, ⟨"class", some 'c', .value⟩, ⟨"max-depth", none, .number⟩]

def listSwitches : List Switch :=
  [⟨"pattern", some 'p', .value⟩, ⟨"annotated", none, .optional "Doc4k"⟩,
    ⟨"json", none, .nothing⟩]

def traceSwitches : List Switch :=
  [⟨"all", none, .nothing⟩, ⟨"json", none, .nothing⟩, ⟨"show-unresolved", none, .nothing⟩]

def promptSwitches : List Switch :=
  [⟨"template", some 't', .value⟩, ⟨"project", none, .value⟩, ⟨"output", some 'o', .value⟩]

namespace Settings

def value? (s : Settings) (name : String) : Option String := s.lookup name

def isSet (s : Settings) (name : String) : Bool := (s.value? name).isSome

end Settings

def sourceOptions (s : Settings) : SourceOptions :=
  ⟨(s.value? "dir").getD ".", (s.value? "ext").getD "kt,kts"⟩

def entryOptions (s : Settings) : Except Refusal EntryOptions :=
  match s.value? "function" with
  | none => .error .usage
  | some function =>
    .ok ⟨function, s.value? "class", (s.value? "max-depth").bind number?⟩

/-- The options of a command, read from the words behind its name. -/
def readOptions (switches : List Switch) (words : List String) : Except Refusal Settings := do
  let (settings, rest) ← readSettings (globalSwitches ++ sourceSwitches ++ switches) [] words
  if rest.isEmpty || rest == ["--"] then return settings else .error .usage

def commandNames : List String := ["list", "trace", "prompt", "help"]

/-- Help may be asked for on one command. -/
def readTopic : List String → Refusal
  | [] => .help
  | [topic] => if commandNames.contains topic then .help else .usage
  | _ => .usage

def readCommand (name : String) (words : List String) : Except Refusal (Settings × Command) := do
  match name with
  | "list" =>
    let s ← readOptions listSwitches words
    return (s, .list ⟨sourceOptions s, s.value? "pattern", s.value? "annotated", s.isSet "json"⟩)
  | "trace" =>
    let s ← readOptions (entrySwitches ++ traceSwitches) words
    let entry ← entryOptions s
    return (s, .trace
      ⟨sourceOptions s, entry, s.isSet "all", s.isSet "json", s.isSet "show-unresolved"⟩)
  | "prompt" =>
    let s ← readOptions (entrySwitches ++ promptSwitches) words
    let entry ← entryOptions s
    return (s, .prompt
      ⟨sourceOptions s, entry, (s.value? "template").getD "describe-flow", s.value? "project",
        s.value? "output"⟩)
  | "help" => .error (readTopic words)
  | _ => .error .usage

/-- Reads a command line. Options for logging may stand on either side of the command's
name; behind it they count for more. -/
def Invocation.ofWords (words : List String) : Except Refusal Invocation := do
  let (before, rest) ← readSettings programSwitches [] words
  match rest with
  | [] => .error .usage
  | name :: rest =>
    let (behind, command) ← readCommand name rest
    let settings : Settings := behind ++ before
    return ⟨(settings.value? "log-level").getD "warn", settings.isSet "log-json", command⟩

end CallFlow.Command
