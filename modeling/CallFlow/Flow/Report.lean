import CallFlow.Flow.Trace
import CallFlow.Log

/-! What a trace leaves in the log. -/

namespace CallFlow

open CallFlow.Log

def Note.record (p : Project) (n : Note) : Except Fault Record := do
  let name ← p.qualifiedClass n.lookup.cls
  match n.lookup with
  | .byPackage package _ =>
    return ⟨.trace, "kflow::resolve", "Resolved by package",
      [("qualifier", .text n.qualifier), ("package", .text package), ("class", .text name)]⟩
  | .byName _ =>
    return ⟨.trace, "kflow::resolve", "Resolved by global name fallback",
      [("qualifier", .text n.qualifier), ("class", .text name)]⟩

def Unresolved.record (p : Project) (u : Unresolved) : Except Fault Record := do
  return ⟨.debug, "kflow::trace", "Unresolved call site",
    [("caller", .text (← p.qualifiedFunction u.caller)), ("call", .text u.site.text),
      ("line", .count u.site.line), ("reason", .text u.reason.text)]⟩

def Step.records (p : Project) (s : Step) : Except Fault (List Record) := do
  match s with
  | .enter _ _ => return []
  | .limit id path =>
    return [⟨.trace, "kflow::trace", "Depth limit reached",
      [("function", .text (← p.qualifiedFunction id)), ("depth", .count path.length)]⟩]
  | .site _ (.error cause) => .error cause
  | .site _ (.ok call) =>
    return (← call.note.toList.mapM (Note.record p)) ++
      (← s.unresolved?.toList.mapM (Unresolved.record p))
  | .back caller target =>
    return [⟨.trace, "kflow::trace", "Cycle on the active path, not expanding",
      [("caller", .text (← p.qualifiedFunction caller)),
        ("target", .text (← p.qualifiedFunction target))]⟩]

def Trace.records (t : Trace) (p : Project) : Except Fault (List Record) := do
  let steps ← t.steps.mapM (Step.records p)
  return steps.flatten ++
    [⟨.debug, "kflow::trace", "Traced flow",
      [("entry", .text (← p.qualifiedFunction t.entry)), ("visited", .count t.functions.length),
        ("unresolved", .count t.unresolved.length)]⟩]

end CallFlow
