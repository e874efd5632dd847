import CallFlow.Directory.Basic
import CallFlow.Text.Basic
import CallFlow.Text.Casing

/-! Which files of a directory are source files. -/

namespace CallFlow

/-- The byte of a dot. -/
def dot : UInt8 := 0x2E

/-- The part of a file name behind its last dot; none if there is no dot but one at the
front. -/
def extension? (name : FileName) : Option FileName :=
  let backwards := name.reverse
  let ext := backwards.takeWhile (· ≠ dot)
  match backwards.dropWhile (· ≠ dot) with
  | _ :: _ :: _ => some ext.reverse
  | _ => none

def defaultExtensions : List String := ["kt", "kts"]

/-- Reads extensions separated by commas. White space and dots in front of each go, and
capitals become small. -/
def readExtensions (written : String) : List String :=
  let pieces := (written.toList.splitOn ',').map fun piece =>
    Text.lower ((Text.trim piece).dropWhile (· = '.'))
  match pieces.filter fun piece => !piece.isEmpty with
  | [] => defaultExtensions
  | extensions => extensions.map String.ofList

/-- Is this the path of a source file? The case of ASCII letters makes no difference. An
extension that is no text is none of a source file. -/
def isSource (extensions : List String) (path : Path) : Bool :=
  match (path.getLast?.bind extension?).bind Text.decode? with
  | some ext => extensions.any fun x => Text.sameAscii x.toList ext
  | none => false

/-- Paths are ordered name by name, and names byte by byte. -/
def Path.le (a b : Path) : Bool := !(b < a)

/-- The source files of a directory in the order of their paths, whatever the order
in which it was read. -/
def Directory.discover (d : Directory) (extensions : List String) : List (Path × Document) :=
  (d.files.filter fun f => isSource extensions f.1).mergeSort fun a b => Path.le a.1 b.1

end CallFlow
