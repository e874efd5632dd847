import CallFlow.Flow.Call
import CallFlow.Flow.Walk
import CallFlow.Text.Lines

/-! The flow from an entry function: the walk over the calls of a project. What is
reported of it, be it the functions visited or the calls that lead nowhere, is
read off the one list of events. -/

namespace CallFlow

open CallFlow.Flow (Event)

/-- An event of a walk over calls. A call that the model cannot follow stands for its
fault. -/
abbrev Step := Event FunctionId (Except Fault Call)

namespace Project

/-- The calls of a function, each with the functions it leads to. -/
def calls (p : Project) (id : FunctionId) : List (Except Fault Call × List FunctionId) :=
  match p.function id with
  | .error cause => [(.error cause, [])]
  | .ok f =>
    f.calls.map fun site =>
      match p.call f site with
      | .ok c => (.ok c, c.outcome.ids)
      | .error cause => (.error cause, [])

/-- A path holds each function at most once. So no walk gets deeper than there are
functions, and one level more than that is as good as no limit. -/
def levels (p : Project) : Option Nat → Nat
  | some limit => limit
  | none => p.functions.size + 1

end Project

def Step.fault? : Step → Option Fault
  | .site _ (.error cause) => some cause
  | _ => none

def Step.entered? : Step → Option FunctionId
  | .enter id _ => some id
  | _ => none

/-- A call that leads nowhere. -/
structure Unresolved where
  caller : FunctionId
  site : CallSite
  reason : MissReason
deriving Repr, DecidableEq

def Step.unresolved? : Step → Option Unresolved
  | .site caller (.ok ⟨site, _, .miss reason⟩) => some ⟨caller, site, reason⟩
  | _ => none

structure Trace where
  entry : FunctionId
  steps : List Step

namespace Trace

/-- The functions visited, in order. One that is reached along several paths is there
once for each. -/
def functions (t : Trace) : List FunctionId := t.steps.filterMap Step.entered?

def unresolved (t : Trace) : List Unresolved := t.steps.filterMap Step.unresolved?

end Trace

/-- The flow from `entry`. Functions at depth `limit` are visited and not expanded. -/
def Project.trace (p : Project) (entry : FunctionId) (limit : Option Nat) :
    Except Fault Trace :=
  let steps := Flow.walk p.calls (p.levels limit) [] entry
  match steps.findSome? Step.fault? with
  | some cause => .error cause
  | none => .ok ⟨entry, steps⟩

/-- A function of a flow as it is handed on. -/
structure FlowEntry where
  name : String
  /-- The qualified name of its class. -/
  owner : Option String
  file : String
  line : Nat
  text : String
deriving Repr, DecidableEq, Inhabited

namespace Project

/-- Documentation, if any, and declaration, each moved to column zero. -/
def render (p : Project) (id : FunctionId) : Except Fault String := do
  let f ← p.function id
  let source := (← p.file f.file).source.toList
  let body ← renderSpan source f.span
  match f.doc with
  | none => return String.ofList body
  | some doc => return String.ofList ((← renderSpan source doc) ++ '\n' :: body)

def flowEntry (p : Project) (id : FunctionId) : Except Fault FlowEntry := do
  let f ← p.function id
  let owner ← f.owner.mapM p.qualifiedClass
  let file ← p.file f.file
  return ⟨f.name, owner, file.path, f.line, ← p.render id⟩

end Project

/-- The visited functions; on demand each text only once. -/
def Trace.entries (t : Trace) (p : Project) (once : Bool) : Except Fault (List FlowEntry) := do
  let entries ← t.functions.mapM p.flowEntry
  return if once then distinct FlowEntry.text entries else entries

end CallFlow
