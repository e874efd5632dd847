import CallFlow.Project.Basic
import CallFlow.Outline.Reader

/-! Giving ids to an outline. Classes and functions are numbered in the order of the
text, a class before what lies inside it. The ids a file gets depend on the
project only through the first free ones. -/

namespace CallFlow

/-- The first free ids. -/
structure Ids where
  cls : ClassId
  function : FunctionId
deriving Repr, DecidableEq

/-- The file that the placed entries belong to. -/
structure Home where
  file : FileId
  package : String
deriving Repr, DecidableEq

/-- Numbered entries, in the order of their ids, and which of them lie outermost. -/
structure Placement where
  classes : List ClassDef
  functions : List FunctionDef
  topClasses : List ClassId
  topFunctions : List FunctionId
deriving Repr, DecidableEq, Inhabited

namespace Placement

def empty : Placement := ⟨[], [], [], []⟩

def append (a b : Placement) : Placement :=
  ⟨a.classes ++ b.classes, a.functions ++ b.functions, a.topClasses ++ b.topClasses,
    a.topFunctions ++ b.topFunctions⟩

/-- The first free ids after the placed entries. -/
def after (first : Ids) (a : Placement) : Ids :=
  ⟨first.cls + a.classes.length, first.function + a.functions.length⟩

end Placement

namespace Outline

mutual

def Decl.place (home : Home) (owner : Option ClassId) (first : Ids) : Decl → Placement
  | .property _ => .empty
  | .function h =>
    { classes := []
      functions := [⟨h.name, home.file, owner, h.doc, h.span, h.line, h.annotations, h.calls⟩]
      topClasses := []
      topFunctions := [first.function] }
  | .classLike h members =>
    let inner := placeAll home (some first.cls) ⟨first.cls + 1, first.function⟩ members
    { classes :=
        ⟨h.name, home.file, owner, home.package, h.isObject, h.doc, h.span,
          members.filterMap Decl.property?, inner.topClasses, inner.topFunctions⟩ ::
          inner.classes
      functions := inner.functions
      topClasses := [first.cls]
      topFunctions := [] }

def placeAll (home : Home) (owner : Option ClassId) (first : Ids) : List Decl → Placement
  | [] => .empty
  | d :: ds =>
    let a := d.place home owner first
    a.append (placeAll home owner (a.after first) ds)

end

end Outline

namespace Project

def nextIds (p : Project) : Ids := ⟨p.classes.size, p.functions.size⟩

/-- Enters classes with consecutive ids under their names. -/
def enter (index : Std.TreeMap String (List ClassId)) (first : ClassId) :
    List ClassDef → Std.TreeMap String (List ClassId)
  | [] => index
  | c :: cs => enter (index.insert c.name (index.getD c.name [] ++ [first])) (first + 1) cs

/-- The project with one more file, which gets the next file id. -/
def add (p : Project) (o : Outline) : Project :=
  let placed := Outline.placeAll ⟨p.files.size, o.package⟩ none p.nextIds o.decls
  { root := p.root
    files := p.files.push
      ⟨o.path, o.package, o.imports, placed.topClasses, placed.topFunctions, o.source⟩
    classes := p.classes ++ placed.classes
    functions := p.functions ++ placed.functions
    byName := enter p.byName p.classes.size placed.classes }

end Project

/-- A source text and the syntax tree of it, if there is one. -/
structure Source where
  path : String
  text : String
  tree : Option Tree.Flagged
deriving Inhabited

def Source.outline (s : Source) : Except Error Outline :=
  match s.tree with
  | none => .error (.noTree s.path)
  | some tree => Outline.ofTree s.path s.text tree

namespace Project

/-- Reads a source and adds it. There is no new project if the source is refused. -/
def addSource (p : Project) (s : Source) : Except Error Project := p.add <$> s.outline

/-- The project of some sources, none of which may be refused. -/
def ofSources (sources : List Source) : Except Error Project :=
  sources.foldlM addSource (empty ".")

end Project

end CallFlow
