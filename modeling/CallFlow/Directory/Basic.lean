import CallFlow.Error
import CallFlow.Text.Decode
import CallFlow.Tree.Search

/-! A directory that has been read in: all the files below it. -/

namespace CallFlow

/-- The name of a file or a folder: any bytes, be they a text or not. -/
abbrev FileName := List UInt8

def FileName.ofText (text : String) : FileName := Text.encode text.toList

/-- A name as reports have it. -/
def FileName.display (name : FileName) : String := String.ofList (Text.decode name).1

/-- The names from a directory down to a file. -/
abbrev Path := List FileName

/-- The names in a written path. Doubled slashes and `.` add none. -/
def Path.ofWritten (written : String) : Path :=
  ((written.toList.splitOn '/').filter fun n => !n.isEmpty && n != ['.']).map Text.encode

/-- A file, and the syntax tree of its text if there is one. -/
structure Document where
  /-- The bytes, or why they cannot be read. -/
  content : Except FileError (List UInt8)
  tree : Option Tree.Flagged

/-- The text of a file, and whether a part of it was unreadable. -/
def Document.read (doc : Document) : Except FileError (List Char × Bool) :=
  doc.content.map Text.decode

structure Directory where
  /-- The absolute path of the directory. -/
  name : String
  /-- Each path is there once. -/
  files : List (Path × Document)

namespace Directory

/-- How a file below the directory is called in reports. -/
def display (d : Directory) (path : Path) : String :=
  "/".intercalate (d.name :: path.map FileName.display)

end Directory

/-- A path without the mark `\\?\` that some systems put in front of absolute paths. -/
def plainPath (written : String) : String :=
  match List.isPrefixOf? ['\\', '\\', '?', '\\'] written.toList with
  | some rest => String.ofList rest
  | none => written

end CallFlow
