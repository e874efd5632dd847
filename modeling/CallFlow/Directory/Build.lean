import CallFlow.Directory.Discovery
import CallFlow.Log
import CallFlow.Project.Placement

/-! The project of a directory. Files are added one by one in the order of discovery,
and a refused one is left out. -/

namespace CallFlow

structure BuildStats where
  filesFound : Nat
  filesBuilt : Nat
  readErrors : Nat
  lossyFiles : Nat
  rejectedFiles : Nat
  classes : Nat
  functions : Nat
  callSites : Nat
deriving Repr, DecidableEq, Inhabited

structure Build where
  project : Project
  /-- Files that were added to the project. -/
  built : Nat
  unreadable : Nat
  /-- Files whose bytes are not all readable as text. -/
  lossy : Nat
  rejected : Nat
  records : List Log.Record

namespace Build

def target : String := "kflow::model"

def start (root : String) : Build := ⟨Project.empty root, 0, 0, 0, 0, []⟩

def note (b : Build) (level : Log.Level) (message : String) (fields : List (String × Log.Value)) :
    Build :=
  { b with records := b.records ++ [⟨level, target, message, fields⟩] }

/-- Adds a text; a refused one is left out. -/
def addText (b : Build) (source : Source) : Except Fault Build :=
  match b.project.addSource source with
  | .ok project => .ok { b with project, built := b.built + 1 }
  | .error (.fault cause) => .error cause
  | .error e =>
    .ok ({ b with rejected := b.rejected + 1 }.note .warn "Rejected source file"
      [("path", .text source.path), ("error", .text e.message)])

/-- One more file. Only a fault stops the build. -/
def addFile (b : Build) (path : String) (doc : Document) : Except Fault Build :=
  match doc.read with
  | .error cause =>
    .ok ({ b with unreadable := b.unreadable + 1 }.note .warn "Failed to read source file"
      [("path", .text path), ("error", .text cause.message)])
  | .ok (text, false) => b.addText ⟨path, String.ofList text, doc.tree⟩
  | .ok (text, true) =>
    ({ b with lossy := b.lossy + 1 }.note .warn
      "File contains non-UTF8 bytes (lossy conversion applied)" [("path", .text path)]).addText
      ⟨path, String.ofList text, doc.tree⟩

def stats (b : Build) (found : Nat) : BuildStats :=
  { filesFound := found
    filesBuilt := b.built
    readErrors := b.unreadable
    lossyFiles := b.lossy
    rejectedFiles := b.rejected
    classes := b.project.classes.size
    functions := b.project.functions.size
    callSites := b.project.callCount }

end Build

/-- The project of the source files in a directory. -/
def Directory.build (d : Directory) (extensions : List String) :
    Except Fault (Build × BuildStats) := do
  let files := d.discover extensions
  let root := plainPath d.name
  let b := (Build.start root).note .info "Discovered source files"
    [("dir", .text root), ("files", .count files.length)]
  let b ← files.foldlM (fun b f => b.addFile (plainPath (d.display f.1)) f.2) b
  let stats := b.stats files.length
  let b := b.note .info "Built source model"
    [("files", .count stats.filesBuilt), ("rejected", .count stats.rejectedFiles),
      ("classes", .count stats.classes), ("functions", .count stats.functions),
      ("call_sites", .count stats.callSites)]
  return (b, stats)

end CallFlow
