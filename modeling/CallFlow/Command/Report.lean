import CallFlow.Flow.Trace
import CallFlow.Json

/-! What the commands show of a project, as lines of text or as JSON. -/

namespace CallFlow.Command

/-! ## Functions of a project -/

/-- The functions that a list shows, in the order of the project: those whose full name passes the
filter and that have the annotation. -/
def listed (p : Project) (filter : Option (String → Bool)) (annotated : Option String) :
    Except Fault (List FunctionId) :=
  p.functionIds.filterM fun id => do
    let f ← p.function id
    let name ← p.qualifiedFunction id
    return annotated.all f.hasAnnotation && filter.all fun holds => holds name

/-- A number at the right end of a column. -/
def column (n : Nat) : String :=
  let digits := toString n
  String.ofList (List.replicate (5 - digits.length) ' ') ++ digits

def listedLine (p : Project) (id : FunctionId) (f : FunctionDef) : Except Fault String := do
  let name ← p.qualifiedFunction id
  let marks := String.join (f.annotations.map fun a => s!"  @{a}")
  return s!"  {column f.line}  {name}{marks}"

/-- Functions under the path of their file, which is shown where it differs from the
`current` one. -/
def listedLines (p : Project) (current : Option FileId) :
    List FunctionId → Except Fault (List String)
  | [] => return []
  | id :: ids => do
    let f ← p.function id
    let heading ← if current == some f.file then pure [] else do
      let file ← p.file f.file
      pure [file.path]
    let line ← listedLine p id f
    return heading ++ line :: (← listedLines p (some f.file) ids)

def listedItem (p : Project) (id : FunctionId) : Except Fault Json := do
  let f ← p.function id
  let owner ← f.owner.mapM p.qualifiedClass
  let file ← p.file f.file
  return .obj [("name", .str f.name), ("class", .ofOption owner), ("file", .str file.path),
    ("line", .num f.line), ("annotations", .arr (f.annotations.map .str)),
    ("calls", .num f.calls.length)]

def listedJson (p : Project) (ids : List FunctionId) : Except Fault Json := do
  let items ← ids.mapM (listedItem p)
  return .obj [("functions", .arr items), ("count", .num items.length)]

/-- A function with the place of its declaration. -/
def describe (p : Project) (id : FunctionId) : Except Fault String := do
  let f ← p.function id
  let name ← p.qualifiedFunction id
  let file ← p.file f.file
  return s!"{name} ({file.path}:{f.line})"

/-! ## Flows -/

/-- A line that names the function, its text and a blank line. -/
def entryLines (e : FlowEntry) : List String :=
  let owner := match e.owner with
    | some c => s!"{c}."
    | none => ""
  [s!"// {owner}{e.name} ({e.file}:{e.line})", e.text, ""]

def unresolvedLine (p : Project) (u : Unresolved) : Except Fault String := do
  let caller ← p.qualifiedFunction u.caller
  return s!"[unresolved] {caller} line {u.site.line}: {u.site.text} ({u.reason.text})"

def entryJson (e : FlowEntry) : Json :=
  .obj [("name", .str e.name), ("class", .ofOption e.owner), ("file", .str e.file),
    ("line", .num e.line), ("text", .str e.text)]

def unresolvedJson (p : Project) (u : Unresolved) : Except Fault Json := do
  let caller ← p.qualifiedFunction u.caller
  return .obj [("caller", .str caller), ("call", .str u.site.text), ("line", .num u.site.line),
    ("reason", .str u.reason.tag)]

/-- A flow as one value, with the calls that lead nowhere if they are asked for. -/
def flowJson (p : Project) (flow : Trace) (entries : List FlowEntry) (showUnresolved : Bool) :
    Except Fault Json := do
  let entry ← p.qualifiedFunction flow.entry
  let unresolved ← if showUnresolved then do
      let items ← flow.unresolved.mapM (unresolvedJson p)
      pure [("unresolved", Json.arr items)]
    else pure []
  return .obj ([("entry", .str entry), ("functions", .arr (entries.map entryJson)),
    ("count", .num entries.length)] ++ unresolved)

end CallFlow.Command
