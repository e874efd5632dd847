import CallFlow.Command.Options
import CallFlow.Command.Report
import CallFlow.Directory.Build
import CallFlow.Directory.Disk
import CallFlow.Flow.Report
import CallFlow.Prompt

/-! Running a command: what it prints, what it logs and what it wants written. -/

namespace CallFlow.Command

/-- What a command has put out so far. -/
structure Output where
  stdout : String
  stderr : String
  records : List Log.Record
  /-- A path, the text to be written there, and the line that reports success. -/
  file : Option (String × String × String)

def Output.empty : Output := ⟨"", "", [], none⟩

/-- A command may fail after it has put out something. -/
abbrev Run := ExceptT Error (StateM Output)

def say (line : String) : Run Unit := modify fun o => { o with stdout := o.stdout ++ line ++ "\n" }

def warn (line : String) : Run Unit := modify fun o => { o with stderr := o.stderr ++ line ++ "\n" }

def log (records : List Log.Record) : Run Unit :=
  modify fun o => { o with records := o.records ++ records }

def demand {α : Type} : Except Error α → Run α
  | .ok a => pure a
  | .error e => throw e

def ask {α : Type} (answer : Except Fault α) : Run α := demand (Fault.lift answer)

/-- The project of a directory. Files left out are counted on the error output. -/
def loadProject (openFolder? : String → Option Directory) (o : SourceOptions) : Run Project := do
  match openFolder? o.dir with
  | none => throw (.noDirectory o.dir)
  | some folder =>
    let (build, stats) ← ask (folder.build (readExtensions o.ext))
    log build.records
    if stats.rejectedFiles > 0 || stats.readErrors > 0 then
      let skipped := stats.rejectedFiles + stats.readErrors
      warn (s!"[kflow] {skipped} of {stats.filesFound} files skipped ({stats.readErrors} " ++
        s!"unreadable, {stats.rejectedFiles} rejected); run with --log-level warn for details")
    return build.project

/-- The function that a flow starts from: the first that fits. -/
def selectEntry (p : Project) (o : EntryOptions) : Run FunctionId := do
  match ← ask (p.find o.function o.owner) with
  | [] => throw (.noFunction o.function o.owner)
  | [id] => return id
  | first :: others =>
    let chosen ← ask (describe p first)
    let alternatives ← ask (others.mapM (describe p))
    log [⟨.warn, "kflow::cli",
      "Ambiguous entry function, using the first match (narrow it with --class)",
      [("function", .text o.function), ("chosen", .text chosen),
        ("alternatives", .text (", ".intercalate alternatives))]⟩]
    return first

def traceEntry (p : Project) (o : EntryOptions) : Run Trace := do
  let entry ← selectEntry p o
  let flow ← ask (p.trace entry o.maxDepth)
  log (← ask (flow.records p))
  return flow

/-- A language of patterns for names: the test that a written pattern stands for, or the reason why
it stands for none. -/
abbrev PatternLanguage := String → Except String (String → Bool)

def readPattern (language : PatternLanguage) : Option String → Run (Option (String → Bool))
  | none => return none
  | some written =>
    match language written with
    | .ok test => return some test
    | .error reason => throw (.badPattern written reason)

def runList (language : PatternLanguage) (openFolder? : String → Option Directory)
    (o : ListOptions) : Run Unit := do
  let filter ← readPattern language o.pattern
  let p ← loadProject openFolder? o.source
  let ids ← ask (listed p filter o.annotated)
  if o.json then
    say (← ask (listedJson p ids)).pretty
  else
    (← ask (listedLines p none ids)).forM say
    warn s!"{ids.length} functions"

def runTrace (openFolder? : String → Option Directory) (o : TraceOptions) : Run Unit := do
  let p ← loadProject openFolder? o.source
  let flow ← traceEntry p o.entry
  let entries ← ask (flow.entries p !o.all)
  if o.json then
    say (← ask (flowJson p flow entries o.showUnresolved)).pretty
  else
    (entries.flatMap entryLines).forM say
    if o.showUnresolved then
      (← ask (flow.unresolved.mapM (unresolvedLine p))).forM warn
    warn (s!"{entries.length} functions in flow ({flow.functions.length} visited, " ++
      s!"{flow.unresolved.length} unresolved call sites)")

def runPrompt (openFolder? : String → Option Directory) (o : PromptOptions) : Run Unit := do
  let template ← demand (Template.ofName o.template)
  let p ← loadProject openFolder? o.source
  let flow ← traceEntry p o.entry
  let entries ← ask (flow.entries p true)
  let entry ← ask (p.function flow.entry)
  let text := template.prompt entry.name o.project (entries.map (·.text))
  match o.output with
  | none => modify fun out => { out with stdout := out.stdout ++ text }
  | some path =>
    let done := s!"Prompt ({template.name}, {entries.length} functions) written to {path}\n"
    modify fun out => { out with file := some (path, text, done) }

def run (language : PatternLanguage) (openFolder? : String → Option Directory) :
    Command → Run Unit
  | .list o => runList language openFolder? o
  | .trace o => runTrace openFolder? o
  | .prompt o => runPrompt openFolder? o

/-- How a run ended. -/
structure Result where
  error : Option Error
  stdout : String
  stderr : String
  /-- Everything that could be logged, the least important included. -/
  records : List Log.Record

def Result.exit (r : Result) : Nat := if r.error.isSome then 1 else 0

/-- Failure is reported as the last line of the error output. -/
def Result.ofOutput (o : Output) (error : Option Error) : Result :=
  match error with
  | none => ⟨none, o.stdout, o.stderr, o.records⟩
  | some e => ⟨some e, o.stdout, o.stderr ++ s!"Error: {e.message}\n", o.records⟩

/-- Runs a command. Folders are looked up by `openFolder?`, and `save` writes a text to
a path. -/
def runWith {m : Type → Type} [Monad m] (language : PatternLanguage)
    (openFolder? : String → Option Directory)
    (save : String → String → m (Except FileError Unit)) (c : Command) : m Result := do
  match (run language openFolder? c).run Output.empty with
  | (.error e, o) => return .ofOutput o (some e)
  | (.ok (), o) =>
    match o.file with
    | none => return .ofOutput o none
    | some (path, text, done) =>
      match ← save path text with
      | .error cause => return .ofOutput o (some (.file cause))
      | .ok () => return .ofOutput { o with stderr := o.stderr ++ done } none

/-- Runs a command on a disk, and leaves the disk as it is afterwards. -/
def runOn (language : PatternLanguage) (d : Disk) (c : Command) : Result × Disk :=
  let save (path text : String) : StateM Disk (Except FileError Unit) := fun d =>
    match d.write path text with
    | .ok d => (.ok (), d)
    | .error cause => (.error cause, d)
  (runWith language d.openFolder? save c).run d

end CallFlow.Command
