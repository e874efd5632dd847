import CallFlow.Project.Basic

/-! Which class a written qualifier means. This is no type inference: imports and
packages are tried first, then any class with the simple name, the one of the
least id winning. -/

namespace CallFlow

section Distinct

variable {α κ : Type} [BEq κ]

/-- The items whose key is neither in `seen` nor that of an earlier item. -/
def distinctBeyond (key : α → κ) (seen : List κ) : List α → List α
  | [] => []
  | a :: as =>
    if seen.contains (key a) then distinctBeyond key seen as
    else a :: distinctBeyond key (key a :: seen) as

/-- The first item of every key, in order. -/
def distinct (key : α → κ) (items : List α) : List α := distinctBeyond key [] items

end Distinct

/-- A package and the simple name of a class in it. -/
abbrev Candidate := String × String

namespace SourceFile

/-- Where a qualifier may lead through one import: the import is of that class, or
of one whose path ends in it, or renames its first segment. -/
def viaImport (qualifier : String) (i : Import) : Option Candidate :=
  let simple := Text.lastSegment qualifier
  if i.path == qualifier then some (Text.qualifierOf i.path, simple)
  else
    match Text.beforeName? i.path qualifier with
    | some package => some (package, simple)
    | none =>
      if i.renamed == some (Text.firstSegment qualifier) then
        if Text.isDotted qualifier then some (i.path, simple)
        else some (Text.qualifierOf i.path, Text.lastSegment i.path)
      else none

/-- The places to look in, each once: imports of single classes, the qualifier's own
package if it has one, the file's package, imports of whole packages. -/
def candidates (f : SourceFile) (qualifier : String) : List Candidate :=
  let simple := Text.lastSegment qualifier
  let named := (f.imports.filter fun i => !i.wildcard).filterMap (viaImport qualifier)
  let own := if Text.isDotted qualifier then [(Text.qualifierOf qualifier, simple)] else []
  let wildcards := (f.imports.filter fun i => i.wildcard).map fun i => (i.path, simple)
  distinct id (named ++ own ++ [(f.package, simple)] ++ wildcards)

end SourceFile

/-- How a qualifier was understood. -/
inductive Lookup where
  | byPackage (package : String) (cls : ClassId)
  | byName (cls : ClassId)
deriving Repr, DecidableEq

def Lookup.cls : Lookup → ClassId
  | byPackage _ c => c
  | byName c => c

namespace Project

/-- The first class of a candidate's name that lies in its package. -/
def inPackage? (p : Project) (candidate : Candidate) : Except Fault (Option Lookup) := do
  let found ← (p.classesNamed candidate.2).findM? fun c =>
    return (← p.classDef c).package == candidate.1
  return found.map (.byPackage candidate.1)

/-- The class that `qualifier`, which is not blank, means in a file. -/
def lookupIn (p : Project) (f : SourceFile) (qualifier : String) :
    Except Fault (Option Lookup) := do
  match ← (f.candidates qualifier).findSomeM? p.inPackage? with
  | some found => return some found
  | none => return (p.classesNamed (Text.lastSegment qualifier)).head?.map .byName

/-- A qualifier as it is looked up: without white space around it. -/
def bare (qualifier : String) : String := String.ofList (Text.trim qualifier.toList)

/-- The class that a qualifier means in a file. A blank one means none, in whatever
file. -/
def lookup (p : Project) (file : FileId) (qualifier : String) :
    Except Fault (Option Lookup) := do
  let q := bare qualifier
  if q.isEmpty then return none
  else p.lookupIn (← p.file file) q

/-- The class that a qualifier means inside a class. -/
def lookupFrom (p : Project) (cls : ClassId) (qualifier : String) :
    Except Fault (Option Lookup) := do
  p.lookup (← p.classDef cls).file qualifier

end Project

end CallFlow
