import CallFlow.Proofs.Flow.CallGraph
import Mathlib.Data.List.Chain

/-! Tracing as bounded reachability. A chain of calls may pass through a function again;
the part in between is left out without making it longer, so where a chain leads a
route leads too, and the guard against cycles hides nothing. -/

namespace CallFlow

namespace Flow

variable {α : Type} {next : α → Choice → Option α}

/-- From any of its nodes on, a route is a route. -/
theorem exists_along_of_mem : ∀ {r : List Choice} {a b : α} {nodes : List α},
    along next a r = some nodes → b ∈ nodes →
      ∃ r' nodes', along next b r' = some nodes' ∧ nodes'.Sublist nodes ∧
        r'.length ≤ r.length ∧ nodes'.getLast? = nodes.getLast?
  | [], _, _, _, h, hb => by
    cases h
    obtain rfl := List.mem_singleton.mp hb
    exact ⟨[], [_], rfl, List.Sublist.refl _, Nat.le_refl _, rfl⟩
  | c :: cs, a, b, _, h, hb => by
    by_cases hab : b = a
    · subst hab
      exact ⟨c :: cs, _, h, List.Sublist.refl _, Nat.le_refl _, rfl⟩
    · obtain ⟨_, rest, _, hr, rfl⟩ := along_cons_eq_some.mp h
      have hmem := (List.mem_cons.mp hb).resolve_left hab
      obtain ⟨r', nodes', ha, hsub, hlen, hlast⟩ := exists_along_of_mem hr hmem
      obtain ⟨more, rfl⟩ := along_eq_cons hr
      refine ⟨r', nodes', ha, hsub.cons a, Nat.le_succ_of_le hlen, ?_⟩
      rw [hlast, List.getLast?_cons_cons]

/-- Where a chain leads, a route that is no longer leads too. -/
theorem exists_route_of_isChain : ∀ (steps : List α) (a : α),
    List.IsChain (fun a b => ∃ c, next a c = some b) (a :: steps) →
      ∃ r nodes, along next a r = some nodes ∧ nodes.Nodup ∧ r.length ≤ steps.length ∧
        nodes.getLast? = (a :: steps).getLast?
  | [], a, _ => ⟨[], [a], rfl, List.nodup_singleton a, Nat.le_refl _, rfl⟩
  | b :: steps, a, h => by
    obtain ⟨⟨c, hc⟩, hb⟩ := List.isChain_cons_cons.mp h
    obtain ⟨r, nodes, hr, hn, hl, hlast⟩ := exists_route_of_isChain steps b hb
    rw [List.getLast?_cons_cons, ← hlast]
    by_cases ha : a ∈ nodes
    · obtain ⟨r', nodes', hr', hsub, hl', hlast'⟩ := exists_along_of_mem hr ha
      refine ⟨r', nodes', hr', hn.sublist hsub, ?_, hlast'⟩
      exact (hl'.trans hl).trans (Nat.le_succ _)
    · obtain ⟨more, rfl⟩ := along_eq_cons hr
      exact ⟨c :: r, a :: b :: more, along_cons_eq_some.mpr ⟨b, _, hc, hr, rfl⟩,
        List.nodup_cons.mpr ⟨ha, hn⟩, Nat.succ_le_succ hl, List.getLast?_cons_cons⟩

theorem isChain_of_along : ∀ {r : List Choice} {a : α} {nodes : List α},
    along next a r = some nodes → List.IsChain (fun a b => ∃ c, next a c = some b) nodes
  | [], _, _, h => by cases h; exact .singleton _
  | c :: cs, a, _, h => by
    obtain ⟨b, rest, hb, hr, rfl⟩ := along_cons_eq_some.mp h
    obtain ⟨more, rfl⟩ := along_eq_cons hr
    exact .cons_cons ⟨c, hb⟩ (isChain_of_along hr)

end Flow

namespace Project

/-- A chain of calls from `e` to `g`; `steps` holds what comes behind `e`. -/
def Chain (p : Project) (e : FunctionId) (steps : List FunctionId) (g : FunctionId) : Prop :=
  List.IsChain p.Calls (e :: steps) ∧ (e :: steps).getLast? = some g

variable {p : Project}

theorem exists_route_iff_chain {limit : Option Nat} {e g : FunctionId} :
    (∃ r, p.RouteTo limit e r g) ↔
      ∃ steps, p.Chain e steps g ∧ ∀ d ∈ limit, steps.length ≤ d := by
  have edges : p.Calls = fun a b => ∃ c, p.leads a c = some b :=
    funext fun _ => funext fun _ => propext calls_iff_leads
  constructor
  · rintro ⟨r, nodes, h, hg⟩
    have chain := Flow.isChain_of_along h.follows
    have length := Flow.length_of_along h.follows
    obtain ⟨steps, rfl⟩ := Flow.along_eq_cons h.follows
    rw [List.length_cons, Nat.succ_inj] at length
    refine ⟨steps, ⟨edges ▸ chain, hg⟩, fun d hd => ?_⟩
    rw [length]
    exact h.within d hd
  · rintro ⟨steps, ⟨chain, hg⟩, within⟩
    rw [edges] at chain
    obtain ⟨r, nodes, hr, hn, hl, hlast⟩ := Flow.exists_route_of_isChain steps e chain
    exact ⟨r, nodes, ⟨hr, hn, fun d hd => hl.trans (within d hd)⟩, hlast.trans hg⟩

theorem exists_chain_iff_reflTransGen {e g : FunctionId} :
    (∃ steps, p.Chain e steps g) ↔ Relation.ReflTransGen p.Calls e g := by
  constructor
  · rintro ⟨steps, chain, hg⟩
    refine List.relationReflTransGen_of_exists_isChain_cons steps chain ?_
    rw [List.getLast?_eq_some_getLast (List.cons_ne_nil e steps)] at hg
    exact Option.some.inj hg
  · intro h
    obtain ⟨steps, chain, hg⟩ := List.exists_isChain_cons_of_relationReflTransGen h
    exact ⟨steps, chain, by rw [List.getLast?_eq_some_getLast (List.cons_ne_nil e steps), hg]⟩

/-- A trace visits the functions at the end of chains of calls: within a limit those
that so many calls lead to, without one all that any chain leads to. -/
theorem mem_trace_iff_reachable (built : p.Built) {e : FunctionId}
    (he : e < p.functions.size) :
    (∀ d, ∃ t, p.trace e (some d) = .ok t ∧
      ∀ g, g ∈ t.functions ↔ ∃ steps, p.Chain e steps g ∧ steps.length ≤ d) ∧
    ∃ t, p.trace e none = .ok t ∧
      ∀ g, g ∈ t.functions ↔ Relation.ReflTransGen p.Calls e g := by
  have closed := built.closed
  constructor
  · intro d
    refine ⟨_, trace_eq closed he (some d), fun g => ?_⟩
    rw [mem_functions_iff closed he, exists_route_iff_chain]
    simp
  · refine ⟨_, trace_eq closed he none, fun g => ?_⟩
    rw [mem_functions_iff closed he, exists_route_iff_chain, ← exists_chain_iff_reflTransGen]
    simp

theorem mem_trace_iff_reachable_sample :
    0 < Sample.project.functions.size ∧
    (∀ d, ∃ t, Sample.project.trace 0 (some d) = .ok t ∧
      ∀ g, g ∈ t.functions ↔ ∃ steps, Sample.project.Chain 0 steps g ∧ steps.length ≤ d) ∧
    ∃ t, Sample.project.trace 0 none = .ok t ∧
      ∀ g, g ∈ t.functions ↔ Relation.ReflTransGen Sample.project.Calls 0 g :=
  ⟨Sample.entry, mem_trace_iff_reachable Sample.built Sample.entry⟩

end Project

end CallFlow
