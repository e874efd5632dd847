import CallFlow.Scope

/-! What a call site leads to. -/

namespace CallFlow

/-- Why a call site leads nowhere. -/
inductive MissReason where
  /-- What is called is not a plain identifier. -/
  | noName
  /-- The receiver is a property without a written type. -/
  | unknownPropertyType
  /-- The receiver is a property whose type is no class of the project. -/
  | unresolvedPropertyType
  /-- The receiver is neither a property nor a class of the project. -/
  | unresolvedReceiver
  /-- `this` is used outside of a class. -/
  | noClassContext
  /-- The class or file in question has no function of that name. -/
  | noMatchingFunction
deriving Repr, DecidableEq, Inhabited

namespace MissReason

def tag : MissReason → String
  | noName => "noName"
  | unknownPropertyType => "unknownPropertyType"
  | unresolvedPropertyType => "unresolvedPropertyType"
  | unresolvedReceiver => "unresolvedReceiver"
  | noClassContext => "noClassContext"
  | noMatchingFunction => "noMatchingFunction"

def text : MissReason → String
  | noName => "callee has no identifiable name"
  | unknownPropertyType => "receiver property has no declared type"
  | unresolvedPropertyType => "receiver property type resolves to no class"
  | unresolvedReceiver => "receiver is neither a property nor a known class"
  | noClassContext => "'this' outside of a class"
  | noMatchingFunction => "no function with that name in the target scope"

end MissReason

inductive Outcome where
  | targets (ids : List FunctionId)
  /-- A function calls its own name; this is passed over. -/
  | selfCall
  | miss (reason : MissReason)
deriving Repr, DecidableEq

def Outcome.ids : Outcome → List FunctionId
  | targets ids => ids
  | _ => []

/-- A qualifier and how it was understood. -/
structure Note where
  qualifier : String
  lookup : Lookup
deriving Repr, DecidableEq

/-- The class behind a receiver. -/
structure Receiver where
  note : Option Note
  cls : Except MissReason ClassId

/-- A call site and what it leads to. -/
structure Call where
  site : CallSite
  /-- The class that was looked up on the way. -/
  note : Option Note
  outcome : Outcome
deriving Repr

namespace Receiver

def ofLookup (qualifier : String) (otherwise : MissReason) : Option Lookup → Receiver
  | some found => ⟨some ⟨Project.bare qualifier, found⟩, .ok found.cls⟩
  | none => ⟨none, .error otherwise⟩

end Receiver

namespace Project

/-- The class that a receiver stands for in a function: its own class for `this`, the
type of a property of its class, or else a class by its name. -/
def receiver (p : Project) (f : FunctionDef) (written : String) : Except Fault Receiver := do
  if written == "this" then
    match f.owner with
    | some c => return ⟨none, .ok c⟩
    | none => return ⟨none, .error .noClassContext⟩
  else
    let property ← match f.owner with
      | some c => p.property? c written
      | none => pure none
    match f.owner, property with
    | some c, some q =>
      match q.typeName with
      | none => return ⟨none, .error .unknownPropertyType⟩
      | some type =>
        return Receiver.ofLookup type .unresolvedPropertyType (← p.lookupFrom c type)
    | _, _ => return Receiver.ofLookup written .unresolvedReceiver (← p.lookup f.file written)

def outcomeOf : List FunctionId → Outcome
  | [] => .miss .noMatchingFunction
  | ids => .targets ids

/-- The functions that a name without receiver can mean in a function: members of its
class or, outside of a class, top-level functions of its file. -/
def inScope (p : Project) (f : FunctionDef) (name : String) : Except Fault (List FunctionId) :=
  match f.owner with
  | some c => p.membersNamed c name
  | none => p.topLevelNamed f.file name

def call (p : Project) (f : FunctionDef) (site : CallSite) : Except Fault Call := do
  match site with
  | .simple none _ => return ⟨site, none, .miss .noName⟩
  | .simple (some name) _ =>
    if name == f.name then return ⟨site, none, .selfCall⟩
    else return ⟨site, none, outcomeOf (← p.inScope f name)⟩
  | .navigation written member _ =>
    let r ← p.receiver f written
    match r.cls with
    | .error reason => return ⟨site, r.note, .miss reason⟩
    | .ok c => return ⟨site, r.note, outcomeOf (← p.membersNamed c member)⟩

end Project

end CallFlow
