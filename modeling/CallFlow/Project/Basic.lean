import Std.Data.TreeMap
import CallFlow.Error
import CallFlow.Outline.Basic
import CallFlow.Text.Basic

/-! A project: the files, classes and functions of a source tree, each known by its
place in its list. Files own their top-level classes and functions, classes own
nested classes and member functions; ownership and back-references are ids. -/

namespace CallFlow

abbrev FileId := Nat

abbrev ClassId := Nat

abbrev FunctionId := Nat

structure SourceFile where
  path : String
  package : String
  imports : List Import
  classes : List ClassId
  functions : List FunctionId
  source : String
deriving Repr, DecidableEq, Inhabited

structure ClassDef where
  name : String
  file : FileId
  /-- The class around this one. -/
  parent : Option ClassId
  package : String
  isObject : Bool
  doc : Option Span
  span : Span
  properties : List Property
  classes : List ClassId
  functions : List FunctionId
deriving Repr, DecidableEq, Inhabited

structure FunctionDef where
  name : String
  file : FileId
  /-- The class that the function is a member of. -/
  owner : Option ClassId
  doc : Option Span
  span : Span
  line : Nat
  annotations : List String
  calls : List CallSite
deriving Repr, DecidableEq, Inhabited

/-- An annotation may be asked for as written or, where it is written with dots, by
its last segment. -/
def FunctionDef.hasAnnotation (f : FunctionDef) (name : String) : Bool :=
  f.annotations.any fun a => a == name || (Text.isDotted a && Text.lastSegment a == name)

structure Project where
  root : String
  files : Array SourceFile
  classes : Array ClassDef
  functions : Array FunctionDef
  /-- The classes of each simple name, in the order of their ids. -/
  byName : Std.TreeMap String (List ClassId)

namespace Project

def empty (root : String) : Project := ⟨root, #[], #[], #[], ∅⟩

def file (p : Project) (id : FileId) : Except Fault SourceFile :=
  match p.files[id]? with
  | some f => .ok f
  | none => .error .dangling

def classDef (p : Project) (id : ClassId) : Except Fault ClassDef :=
  match p.classes[id]? with
  | some c => .ok c
  | none => .error .dangling

def function (p : Project) (id : FunctionId) : Except Fault FunctionDef :=
  match p.functions[id]? with
  | some f => .ok f
  | none => .error .dangling

def classesNamed (p : Project) (name : String) : List ClassId := p.byName.getD name []

def functionIds (p : Project) : List FunctionId := List.range p.functions.size

def callCount (p : Project) : Nat := (p.functions.toList.flatMap fun f => f.calls).length

/-- Those of `ids` whose function has the given name. -/
def named (p : Project) (name : String) (ids : List FunctionId) :
    Except Fault (List FunctionId) :=
  ids.filterM fun id => return (← p.function id).name == name

def membersNamed (p : Project) (owner : ClassId) (name : String) :
    Except Fault (List FunctionId) := do
  p.named name (← p.classDef owner).functions

def topLevelNamed (p : Project) (file : FileId) (name : String) :
    Except Fault (List FunctionId) := do
  p.named name (← p.file file).functions

def property? (p : Project) (owner : ClassId) (name : String) :
    Except Fault (Option Property) := do
  return (← p.classDef owner).properties.find? fun q => q.name == name

/-- The text of a range of a file; empty if the range does not fit. -/
def text (p : Project) (file : FileId) (span : Span) : Except Fault String := do
  let f ← p.file file
  return String.ofList ((Text.slice? span.start span.stop f.source.toList).getD [])

/-- The names from the outermost class down to `id`. No class lies deeper than there
are classes, so a longer way means that it lies inside itself. -/
def namesDownTo (p : Project) : Nat → ClassId → Except Fault (List String)
  | 0, _ => .error .endlessNesting
  | depth + 1, id => do
    let c ← p.classDef id
    match c.parent with
    | none => return [c.name]
    | some parent => return (← p.namesDownTo depth parent) ++ [c.name]

def qualifiedClass (p : Project) (id : ClassId) : Except Fault String := do
  return ".".intercalate (← p.namesDownTo (p.classes.size + 1) id)

def qualifiedFunction (p : Project) (id : FunctionId) : Except Fault String := do
  let f ← p.function id
  match f.owner with
  | none => return f.name
  | some owner =>
    let outer ← p.qualifiedClass owner
    return s!"{outer}.{f.name}"

/-- The functions of the given name, of a class given by its simple or its
qualified name if one is given. -/
def find (p : Project) (name : String) (owner : Option String) :
    Except Fault (List FunctionId) :=
  p.functionIds.filterM fun id => do
    let f ← p.function id
    if f.name != name then return false
    else
      match owner, f.owner with
      | none, _ => return true
      | some _, none => return false
      | some wanted, some c =>
        if (← p.classDef c).name == wanted then return true
        else return (← p.qualifiedClass c) == wanted

end Project

end CallFlow
