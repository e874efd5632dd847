import CallFlow.Directory.Basic

/-! A small file system below one working directory. Of what lies outside, only the
folders above the working directory are known. -/

namespace CallFlow

structure Disk where
  /-- The working directory with all files below it. -/
  base : Directory
  /-- Folders, which may be empty. A folder with a file below it need not be listed. -/
  folders : List Path

namespace Disk

def empty (name : String) : Disk := ⟨⟨name, []⟩, []⟩

def file? (d : Disk) (path : Path) : Option Document :=
  (d.base.files.find? fun f => f.1 == path).map (·.2)

def isFile (d : Disk) (path : Path) : Bool := (d.file? path).isSome

def isFolder (d : Disk) (path : Path) : Bool :=
  path.isEmpty || d.folders.any path.isPrefixOf ||
    d.base.files.any fun f => path.isPrefixOf f.1 && path != f.1

/-- Puts a file into its place, over an earlier one. -/
def put (d : Disk) (path : Path) (document : Document) : Disk :=
  { d with base :=
    { d.base with files := (d.base.files.filter fun f => f.1 != path) ++ [(path, document)] } }

def putFolder (d : Disk) (path : Path) : Disk := { d with folders := d.folders ++ [path] }

/-! ## Written paths -/

/-- A written path, taken apart. -/
structure Route where
  /-- Does it start at the root of all folders instead of the working directory? -/
  absolute : Bool
  names : List String
  /-- Does it end in a slash? -/
  slash : Bool
deriving Repr, DecidableEq

/-- The number of bytes that a name may have. -/
def nameLimit : Nat := 255

/-- The number of bytes that a written path may have. -/
def pathLimit : Nat := 4095

/-- Takes a written path apart. Doubled slashes count once. -/
def Route.ofWritten (written : String) : Except FileError Route :=
  if written.isEmpty then .error .notFound
  else if written.utf8ByteSize > pathLimit then .error .nameTooLong
  else
    let parts := (written.toList.splitOn '/').map String.ofList
    .ok {
      absolute := parts.head?.any String.isEmpty
      names := parts.filter fun n => !n.isEmpty
      slash := parts.getLast?.any String.isEmpty }

/-- A place in or below the working directory, or one of the folders above that. -/
inductive Place where
  | below (path : Path)
  | above
deriving Repr, DecidableEq

def hasFolder (d : Disk) : Place → Bool
  | .below path => d.isFolder path
  | .above => true

def hasFile (d : Disk) : Place → Bool
  | .below path => d.isFile path
  | .above => false

/-- One name further. Only a folder can be left, be it by `.` or `..`. -/
def enter (d : Disk) (here : Place) (name : String) : Except FileError Place :=
  if d.hasFolder here then
    if name == "." then .ok here
    else if name == ".." then
      match here with
      | .below [] => .ok .above
      | .below path => .ok (.below path.dropLast)
      | .above => .ok .above
    else if name.utf8ByteSize > nameLimit then .error .nameTooLong
    else
      match here with
      | .below path => .ok (.below (path ++ [FileName.ofText name]))
      | .above => .error .notFound
  else if d.hasFile here then .error .notDirectory
  else .error .notFound

/-- The place that some names lead to, there being something or not. -/
def follow (d : Disk) (absolute : Bool) (names : List String) : Except FileError Place :=
  names.foldlM d.enter (if absolute then .above else .below [])

/-- The place that a written path leads to. A slash at its end is as good as a dot. -/
def locate (d : Disk) (written : String) : Except FileError Place := do
  let route ← Route.ofWritten written
  d.follow route.absolute (if route.slash then route.names ++ ["."] else route.names)

/-- The folder that a written path leads to, if it is in or below the working directory. -/
def openFolder? (d : Disk) (written : String) : Option Directory :=
  match d.locate written with
  | .ok (.below path) =>
    if d.isFolder path then
      some {
        name := d.base.display path
        files := d.base.files.filterMap fun f =>
          (path.isPrefixOf? f.1).map fun rest => (rest, f.2) }
    else none
  | _ => none

/-- Writes a text to the file that a path leads to. Its folder has to be there, and a
path that ends in a slash names no file. -/
def write (d : Disk) (written text : String) : Except FileError Disk := do
  let route ← Route.ofWritten written
  if route.slash then
    let folder ← d.follow route.absolute route.names.dropLast
    let _ ← d.enter folder "."
    .error .isDirectory
  else
    let place ← d.follow route.absolute route.names
    if d.hasFolder place then .error .isDirectory
    else
      match place with
      | .below path => .ok (d.put path ⟨.ok (Text.encode text.toList), none⟩)
      | .above => .error .isDirectory

/-- The text of a file, if it is there and all of it is text. -/
def read? (d : Disk) (written : String) : Option String :=
  match d.locate written with
  | .ok (.below path) =>
    match (d.file? path).map Document.read with
    | some (.ok (text, false)) => some (String.ofList text)
    | _ => none
  | _ => none

end Disk

end CallFlow
