import CallFlow.Outline.Basic
import CallFlow.Outline.Doc

/-! From a syntax tree to an outline. A file is taken as a whole or refused: the
first broken rule, in the order of the text, is the reason. -/

namespace CallFlow.Outline

open CallFlow.Tree

/-- A file while it is read. -/
structure Sheet where
  path : String
  source : List Char

namespace Sheet

def refuse {α : Type} (s : Sheet) (n : Node) (reason : String) : Except Error α :=
  .error (.malformed s.path (n.line s.source) n.kind reason)

/-- The text of a name; it is there and not blank. -/
def nameOf (s : Sheet) (n : Node) : Except Error String :=
  let name := n.text s.source
  if n.missing || Text.allBlank name then s.refuse n "has an empty name"
  else .ok (String.ofList name)

/-- The name that the first child of the given kind holds. -/
def nameIn (s : Sheet) (kind : String) (n : Node) : Except Error String :=
  match n.child? kind with
  | some name => s.nameOf name
  | none => s.refuse n "has no name token"

/-- The identifiers of a class type, joined by dots; type arguments fall away. -/
def typeText? (s : Sheet) (userType : Node) : Option String :=
  match userType.childrenOf "type_identifier" with
  | [] => none
  | ids => some (".".intercalate (ids.map fun i => String.ofList (i.text s.source)))

/-- The written type of a parameter or variable. A function type, or no type at all,
gives none. -/
def typeName? (s : Sheet) (holder : Node) : Option String := do
  let type ← holder.childOf? ["user_type", "nullable_type", "not_nullable_type"]
  let userType ← if type.kind == "user_type" then some type else type.below? "user_type"
  s.typeText? userType

/-- The annotations of a declaration as they are written. -/
def annotations (s : Sheet) (decl : Node) : List String :=
  match decl.child? "modifiers" with
  | none => []
  | some modifiers =>
    (modifiers.collect fun n => n.kind == "annotation").filterMap fun a =>
      (a.below? "user_type").bind s.typeText?

def property (s : Sheet) (fromConstructor : Bool) (n : Node) : Except Error Decl := do
  let name ← s.nameIn "simple_identifier" n
  return .property ⟨name, s.typeName? n, fromConstructor⟩

/-- The parameters of the primary constructor. -/
def parameters (s : Sheet) (cls : Node) : Except Error (List Decl) :=
  match cls.child? "primary_constructor" with
  | none => .ok []
  | some ctor => (ctor.collect fun n => n.kind == "class_parameter").mapM (s.property true)

/-- The variables of a property declaration, destructured ones included. -/
def declared (decl : Node) : List Node :=
  decl.childrenOf "variable_declaration" ++
    match decl.child? "multi_variable_declaration" with
    | none => []
    | some multi => multi.childrenOf "variable_declaration"

def function (s : Sheet) (spot : Spot) : Except Error FunctionHead := do
  let n := spot.node
  let name ← s.nameIn "simple_identifier" n
  let doc ← Fault.lift (docOf s.source spot)
  return {
    name, doc
    span := n.span
    line := n.line s.source
    annotations := s.annotations n
    calls := CallSite.ofFunction s.source n }

/-- A companion object need not be named. -/
def className (s : Sheet) (n : Node) : Except Error String :=
  if n.kind == "companion_object" && (n.child? "type_identifier").isNone then .ok "Companion"
  else s.nameIn "type_identifier" n

def classHead (s : Sheet) (spot : Spot) : Except Error ClassHead := do
  let n := spot.node
  let name ← s.className n
  let doc ← Fault.lift (docOf s.source spot)
  return {
    name, doc
    isObject := n.kind == "companion_object" || n.kind == "object_declaration"
    span := n.span }

end Sheet

def isClassBody (n : Node) : Bool := ["class_body", "enum_class_body"].contains n.kind

def classKinds : List String := ["class_declaration", "object_declaration", "companion_object"]

/-- What a class body may hold besides comments and literal tokens. -/
def memberKinds : List String :=
  classKinds ++ ["function_declaration", "property_declaration", "secondary_constructor",
    "anonymous_initializer", "type_alias", "enum_entry"]

/-- What a file may hold at its top level. Anything else there, an expression for
instance, comes from a declaration that was not understood. -/
def topKinds : List String :=
  ["shebang_line", "file_annotation", "package_header", "import_list", "import_header",
    "class_declaration", "object_declaration", "function_declaration", "property_declaration",
    "type_alias"]

/-- Where nodes are read one after the other: in a class body, or at the top level of a
file. A script may hold statements there. -/
inductive Level where
  | body
  | top (script : Bool)

namespace Level

/-- At the top level, properties are not read. -/
def hasProperties : Level → Bool
  | body => true
  | top _ => false

/-- The kinds of classes that are read. A companion stands in a class body. -/
def classKinds : Level → List String
  | body => Outline.classKinds
  | top _ => ["class_declaration", "object_declaration"]

/-- Is a node out of place that declares nothing? -/
def refuses : Level → Node → Bool
  | body, n => n.isContent && !memberKinds.contains n.kind
  | top script, n => !script && n.isContent && !topKinds.contains n.kind

def reason : Level → String
  | body => "is not a class member declaration"
  | top _ => "is not a top-level declaration"

end Level

mutual

/-- The declarations that nodes hold, `before` being the nodes already read. -/
def readAll (s : Sheet) (level : Level) (before : List Node) :
    List Node → Except Error (List Decl)
  | [] => .ok []
  | n :: rest => do
    let found ← readNode s level before n
    let others ← readAll s level (n :: before) rest
    return found ++ others

def readNode (s : Sheet) (level : Level) (before : List Node) : Node → Except Error (List Decl)
  | .mk l cs => do
    let n : Node := .mk l cs
    if level.hasProperties && n.kind == "property_declaration" then
      (Sheet.declared n).mapM (s.property false)
    else if level.classKinds.contains n.kind then
      let head ← s.classHead ⟨n, before⟩
      let parameters ← s.parameters n
      let inner ← readBody s cs
      return [.classLike head (parameters ++ inner)]
    else if n.kind == "function_declaration" then
      let head ← s.function ⟨n, before⟩
      return [.function head]
    else if level.refuses n then s.refuse n level.reason
    else return []

/-- The members in the first class body among `children`. -/
def readBody (s : Sheet) : List Node → Except Error (List Decl)
  | [] => .ok []
  | .mk l cs :: rest => if isClassBody (.mk l cs) then readAll s .body [] cs else readBody s rest

end

def packageOf (source : List Char) (root : Node) : String :=
  match (root.child? "package_header").bind (·.child? "identifier") with
  | some id => String.ofList (id.denseText source)
  | none => ""

/-- Import headers stand in an import list or at the top level. -/
def importHeaders (root : Node) : List Node :=
  root.children.flatMap fun n =>
    if n.kind == "import_list" then n.childrenOf "import_header"
    else if n.kind == "import_header" then [n]
    else []

def importOf? (source : List Char) (header : Node) : Option Import := do
  let id ← header.child? "identifier"
  let path := id.denseText source
  if path.isEmpty then none
  else
    some {
      path := String.ofList path
      renamed := ((header.child? "import_alias").bind Node.lastContent?).map fun n =>
        String.ofList (n.text source)
      wildcard := (header.child? "wildcard_import").isSome ||
        ['.', '*'].isSuffixOf (header.denseText source) }

def isScript (path : String) : Bool := ".kts".toList.isSuffixOf path.toList

/-- Reads a file. A tree with a wrong or missing node anywhere is refused. -/
def ofTree (path source : String) (tree : Flagged) : Except Error Outline := do
  let s : Sheet := ⟨path, source.toList⟩
  let root := tree.root
  if root.kind != "source_file" then
    s.refuse root "is not a Kotlin source_file root"
  else
    match tree.firstError? with
    | some wrong =>
      s.refuse wrong (if wrong.missing then "is missing" else "could not be parsed")
    | none =>
      let decls ← readAll s (.top (isScript path)) [] root.children
      return {
        path, source, decls
        package := packageOf s.source root
        imports := (importHeaders root).filterMap (importOf? s.source) }

end CallFlow.Outline
