import CallFlow.Command.Run
import CallFlow.Pattern
import CallFlow.Tree.Listing

/-! The program. It reads the source files of the chosen directory; the syntax tree of
`F.kt` is expected beside it in `F.kt.tree`, as a listing. -/

namespace CallFlow.Main

def usage : String :=
  "Usage: kflow [--log-level LEVEL] [--log-json] COMMAND\n\n" ++
  "Commands:\n" ++
  "  list    [-d DIR] [-e EXT] [-p PATTERN] [--annotated [NAME]] [--json]\n" ++
  "  trace   [-d DIR] [-e EXT] -f NAME [-c CLASS] [--max-depth N] [--all] [--json]\n" ++
  "          [--show-unresolved]\n" ++
  "  prompt  [-d DIR] [-e EXT] -f NAME [-c CLASS] [--max-depth N] [-t TEMPLATE]\n" ++
  "          [--project TEXT] [-o FILE]\n"

def readTree (name : String) : IO (Option Tree.Flagged) := do
  try
    let bytes ← IO.FS.readBinFile (name ++ ".tree")
    return (Tree.ofText? (Text.decode bytes.toList).1).map Tree.Flagged.ofNode
  catch _ => return none

def readContent (name : String) : IO (Except FileError (List UInt8)) := do
  try
    return .ok (← IO.FS.readBinFile name).toList
  catch _ => return .error .denied

/-- The source files below a folder. -/
partial def readFiles (extensions : List String) (folder : String) (above : Path) :
    IO (List (Path × Document)) := do
  let start ← IO.FS.realPath folder
  let mut files := []
  for entry in ← start.readDir do
    let name := folder ++ "/" ++ entry.fileName
    let path := above ++ [FileName.ofText entry.fileName]
    if ← entry.path.isDir then
      files := files ++ (← readFiles extensions name path)
    else if isSource extensions path then
      files := files ++ [(path, ⟨← readContent name, ← readTree name⟩)]
  return files

def readFolder (o : Command.SourceOptions) : IO (Option Directory) := do
  try
    let folder ← IO.FS.realPath o.dir
    if ← folder.isDir then
      let name := folder.toString
      return some ⟨name, ← readFiles (readExtensions o.ext) name []⟩
    else return none
  catch _ => return none

/-- Of the two refusals for the wrong type of entry, the one with this code. -/
def typeError (code : UInt32) : FileError := if code = 21 then .isDirectory else .notDirectory

def save (path text : String) : IO (Except FileError Unit) := do
  try
    IO.FS.writeFile path text
    return .ok ()
  catch
    | .noFileOrDirectory .. => return .error .notFound
    | .inappropriateType _ code _ => return .error (typeError code)
    | .invalidArgument _ 36 _ => return .error .nameTooLong
    | _ => return .error .denied

def sourceOf : Command → Command.SourceOptions
  | .list o => o.source
  | .trace o => o.source
  | .prompt o => o.source

def execute (i : Command.Invocation) : IO UInt32 := do
  let folder ← readFolder (sourceOf i.command)
  let result ← Command.runWith Pattern.compile (fun _ => folder) save i.command
  for r in result.records do
    if r.passes (Log.Level.ofName i.logLevel) then
      IO.eprintln (if i.logJson then r.jsonLine else r.plainLine)
  IO.print result.stdout
  IO.eprint result.stderr
  return result.exit.toUInt32

end CallFlow.Main

def main (words : List String) : IO UInt32 := do
  match CallFlow.Command.Invocation.ofWords words with
  | .ok i => CallFlow.Main.execute i
  | .error .usage =>
    IO.eprint CallFlow.Main.usage
    return 2
  | .error .help =>
    IO.print CallFlow.Main.usage
    return 0
  | .error .version =>
    IO.println "kflow 0.1.0"
    return 0
