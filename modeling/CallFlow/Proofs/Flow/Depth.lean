import CallFlow.Proofs.Flow.Misses
import Mathlib.Data.List.Sort

/-! What a depth limit does to a trace. Main statement: the expansion without a limit comes to an
end, and a limit only takes away what lies below it. A route repeats no function, so one limit is
as good as none: for the visits the number of functions less one, and for the calls met, which lie
one level further down, the number of functions. -/

namespace CallFlow

namespace Flow

variable {α σ : Type} [DecidableEq α] {out : α → List (σ × List α)}

/-! ## Expansion without a limit -/

/-- The events of a walk from `node` that is not bounded: a node is expanded whatever its depth,
and `below` is what its targets are expanded to. A derivation is finite, so a node has events only
if its expansion comes to an end. -/
inductive Unfolds (out : α → List (σ × List α)) : List α → α → List (Event α σ) → Prop where
  | expand {path : List α} {node : α} (below : α → List (Event α σ))
    (inner : ∀ s ∈ out node, ∀ t ∈ s.2, t ∉ node :: path →
      Unfolds out (node :: path) t (below t)) :
    Unfolds out path node
      (.enter node path ::
        (out node).flatMap fun (s, targets) =>
          .site node s ::
            targets.flatMap fun t => if t ∈ node :: path then [.back node t] else below t)

theorem Unfolds.unique {path : List α} {node : α} {events events' : List (Event α σ)}
    (h : Unfolds out path node events) (h' : Unfolds out path node events') :
    events = events' := by
  induction h generalizing events' with
  | @expand path node below _ ih =>
    cases h' with
    | expand below' inner' =>
      refine congrArg _ (List.flatMap_congr fun x hx => ?_)
      obtain ⟨s, targets⟩ := x
      refine congrArg _ (List.flatMap_congr fun t ht => ?_)
      split
      · rfl
      · rename_i hnew
        exact ih _ hx t ht hnew (inner' _ hx t ht hnew)

/-- The walk from a target is part of the walk from the node. -/
theorem mem_walk_of_target {levels : Nat} {path : List α} {node t : α} {s : σ × List α}
    (hs : s ∈ out node) (ht : t ∈ s.2) (hnew : t ∉ node :: path) {x : Event α σ}
    (hx : x ∈ walk out levels (node :: path) t) : x ∈ walk out (levels + 1) path node := by
  rw [walk]
  refine List.mem_cons_of_mem _ (List.mem_flatMap.mpr ⟨s, hs, List.mem_cons_of_mem _ ?_⟩)
  refine List.mem_flatMap.mpr ⟨t, ht, ?_⟩
  rw [if_neg hnew]
  exact hx

/-- A walk that never meets its limit is one without a limit. -/
theorem unfolds_walk : ∀ (levels : Nat) (path : List α) (node : α),
    (∀ v below, Event.limit v below ∉ walk out levels path node) →
      Unfolds out path node (walk out levels path node)
  | 0, path, node, h => by
    refine absurd ?_ (h node path)
    simp [walk]
  | levels + 1, path, node, h => by
    rw [walk]
    refine .expand _ fun s hs t ht hnew => unfolds_walk levels (node :: path) t fun v below hv => ?_
    exact h v below (mem_walk_of_target hs ht hnew hv)

/-- The limit is met on the last level only, by nodes that are entered there. -/
theorem limit_mem_walk {v : α} {below : List α} : ∀ {levels : Nat} {path : List α} {node : α},
    Event.limit v below ∈ walk out levels path node →
      Event.enter v below ∈ walk out levels path node ∧ below.length = path.length + levels
  | 0, path, node, h => by
    simp only [walk, List.mem_cons, reduceCtorEq, Event.limit.injEq, List.not_mem_nil, or_false,
      false_or] at h
    obtain ⟨rfl, rfl⟩ := h
    exact ⟨List.mem_cons_self, rfl⟩
  | levels + 1, path, node, h => by
    rw [walk] at h
    simp only [List.mem_cons (a := Event.limit v below), reduceCtorEq, false_or,
      List.mem_flatMap] at h
    obtain ⟨s, hs, t, ht, h⟩ := h
    split at h
    · cases List.mem_singleton.mp h
    · rename_i hnew
      obtain ⟨entered, length⟩ := limit_mem_walk h
      refine ⟨mem_walk_of_target hs ht hnew entered, ?_⟩
      rw [length, List.length_cons]
      lia

/-! ## Limits -/

omit [DecidableEq α] in
theorem IsRoute.relimit {next : α → Choice → Option α} {limit limit' : Option Nat} {a : α}
    {r : List Choice} {nodes : List α} (h : IsRoute next limit a r nodes)
    (within : ∀ d ∈ limit', r.length ≤ d) : IsRoute next limit' a r nodes :=
  ⟨h.follows, h.simple, within⟩

/-- Of two lists in the order of their addresses, one that holds all of the other holds it as a
subsequence. -/
theorem sublist_of_sorted {β : Type} {entries entries' : List (List Nat × β)}
    (sorted : entries.Pairwise fun a b => a.1 < b.1)
    (sorted' : entries'.Pairwise fun a b => a.1 < b.1) (sub : entries ⊆ entries') :
    entries.Sublist entries' := by
  have : Std.Antisymm fun a b : List Nat × β => a.1 < b.1 :=
    ⟨fun _ _ h h' => absurd h' (List.lt_asymm h)⟩
  have nodup : entries.Nodup := List.Pairwise.imp (fun {a b} hab heq => by
    subst heq
    exact List.lt_irrefl _ hab) sorted
  exact List.sublist_of_subperm_of_pairwise (nodup.subperm sub) sorted sorted'

end Flow

namespace Project

open CallFlow.Flow (Choice Event IsRoute Place Unfolds)

variable {p : Project} {e : FunctionId} {limit limit' : Option Nat}

theorem RouteTo.relimit {r : List Choice} {g : FunctionId} (h : p.RouteTo limit e r g)
    (within : ∀ d ∈ limit', r.length ≤ d) : p.RouteTo limit' e r g := by
  obtain ⟨nodes, route, hg⟩ := h
  exact ⟨nodes, route.relimit within, hg⟩

theorem MissAt.relimit {place : Place} {u : Unresolved} (h : p.MissAt limit e place u)
    (short : ∀ d ∈ limit', place.route.length < d) : p.MissAt limit' e place u :=
  ⟨⟨h.visit.reached.relimit fun d hd => Nat.le_of_lt (short d hd), short⟩, h.missed⟩

/-- The trace that the tracer comes to. -/
def flow (p : Project) (e : FunctionId) (limit : Option Nat) : Trace :=
  ⟨e, (p.run e limit).map Prod.snd⟩

theorem picked_sublist {β : Type} {pick : Step → Option β}
    (sub : p.picked e limit pick ⊆ p.picked e limit' pick) :
    ((p.flow e limit).steps.filterMap pick).Sublist ((p.flow e limit').steps.filterMap pick) := by
  unfold flow
  rw [← map_snd_picked, ← map_snd_picked]
  exact (Flow.sublist_of_sorted (picked_sorted p e limit pick) (picked_sorted p e limit' pick)
    sub).map Prod.snd

section Closed

variable (closed : p.Closed) (he : e < p.functions.size)
include closed he

/-- Every visit along a route that another limit allows is a visit under that limit too. -/
theorem functions_sublist
    (within : ∀ r g, p.RouteTo limit e r g → ∀ d ∈ limit', r.length ≤ d) :
    (p.flow e limit).functions.Sublist (p.flow e limit').functions := by
  refine picked_sublist fun x hx => ?_
  obtain ⟨r, hr, route⟩ := (mem_picked_entered closed he).mp hx
  exact (mem_picked_entered closed he).mpr ⟨r, hr, route.relimit (within r _ route)⟩

theorem unresolved_sublist
    (short : ∀ r f, p.ExpandedAt limit e r f → ∀ d ∈ limit', r.length < d) :
    (p.flow e limit).unresolved.Sublist (p.flow e limit').unresolved := by
  refine picked_sublist fun x hx => ?_
  obtain ⟨place, hp, miss⟩ := (mem_picked_unresolved closed he).mp hx
  exact (mem_picked_unresolved closed he).mpr
    ⟨place, hp, miss.relimit (short place.route _ miss.visit)⟩

theorem length_lt_of_routeTo {r : List Choice} {g : FunctionId} (h : p.RouteTo limit e r g) :
    r.length < p.functions.size := by
  obtain ⟨nodes, route, _⟩ := h
  exact length_lt_of_route closed he route

/-- A node is entered below other nodes than itself, and there are fewer of them than nodes. -/
theorem enter_mem_flow {v : FunctionId} {path : List FunctionId}
    (h : Event.enter v path ∈ (p.flow e limit).steps) :
    (v :: path).Nodup ∧ path.length < p.functions.size := by
  obtain ⟨⟨k, x⟩, hk, rfl⟩ := List.mem_map.mp h
  obtain ⟨r, nodes, _, route, hn⟩ := (mem_run_enter closed he).mp hk
  have length := congrArg List.length hn
  rw [List.length_reverse, Flow.length_of_along route.follows, List.length_cons] at length
  have short := length_lt_of_route closed he route
  exact ⟨hn ▸ List.nodup_reverse.mpr route.simple, by lia⟩

theorem unfolds_flow : Unfolds p.calls [] e (p.flow e none).steps := by
  have steps : (p.flow e none).steps = Flow.walk p.calls (p.levels none) [] e :=
    Flow.map_snd_located _ _ _
  rw [steps]
  refine Flow.unfolds_walk _ _ _ fun v below hv => ?_
  -- the last level lies deeper than any node
  obtain ⟨entered, length⟩ := Flow.limit_mem_walk hv
  have short := (enter_mem_flow closed he (steps ▸ entered)).2
  simp only [List.length_nil, levels] at length
  lia

end Closed

/-- Without a limit the expansion of a function comes to an end, and the trace is what it comes to.
No path holds a function twice, so none is as long as there are functions. A smaller limit gives a
subsequence of the visits and of the records. With as many levels as there are functions nothing
is missing, and with one less no visit is. -/
theorem trace_truncates (built : p.Built) (he : e < p.functions.size) :
    ∃ flow : Option Nat → Trace, (∀ limit, p.trace e limit = .ok (flow limit)) ∧
      (∀ steps, Unfolds p.calls [] e steps ↔ steps = (flow none).steps) ∧
      (∀ limit v path, Event.enter v path ∈ (flow limit).steps →
        (v :: path).Nodup ∧ path.length ≤ p.functions.size - 1) ∧
      (∀ d limit, (∀ m ∈ limit, d ≤ m) →
        (flow (some d)).functions.Sublist (flow limit).functions ∧
        (flow (some d)).unresolved.Sublist (flow limit).unresolved) ∧
      (∀ m, p.functions.size ≤ m → (flow (some m)).functions = (flow none).functions ∧
        (flow (some m)).unresolved = (flow none).unresolved) ∧
      ∀ m, p.functions.size - 1 ≤ m → (flow (some m)).functions = (flow none).functions := by
  have closed := built.closed
  have mono (d) (limit : Option Nat) (hd : ∀ m ∈ limit, d ≤ m) :
      (p.flow e (some d)).functions.Sublist (p.flow e limit).functions ∧
      (p.flow e (some d)).unresolved.Sublist (p.flow e limit).unresolved := by
    refine ⟨functions_sublist closed he fun r g route m hm => ?_,
      unresolved_sublist closed he fun r f visit m hm => ?_⟩
    · obtain ⟨_, route, _⟩ := route
      exact (route.within d rfl).trans (hd m hm)
    · exact Nat.lt_of_lt_of_le (visit.short d rfl) (hd m hm)
  have saturated (m) (hm : p.functions.size - 1 ≤ m) :
      (p.flow e (some m)).functions = (p.flow e none).functions := by
    refine (mono m none (by simp)).1.antisymm (functions_sublist closed he fun r g route d hd => ?_)
    have short := length_lt_of_routeTo closed he route
    cases hd
    lia
  have unfolds := unfolds_flow closed he
  refine ⟨p.flow e, trace_eq closed he, fun steps => ⟨fun h => h.unique unfolds, ?_⟩,
    fun limit v path h => ?_, mono, fun m hm => ⟨saturated m (by lia), ?_⟩, saturated⟩
  · rintro rfl
    exact unfolds
  · obtain ⟨nodup, short⟩ := enter_mem_flow closed he h
    exact ⟨nodup, by lia⟩
  · refine (mono m none (by simp)).2.antisymm
      (unresolved_sublist closed he fun r f visit d hd => ?_)
    have short := length_lt_of_routeTo closed he visit.reached
    cases hd
    lia

theorem trace_truncates_sample :
    0 < Sample.project.functions.size ∧
    ∃ flow : Option Nat → Trace, (∀ limit, Sample.project.trace 0 limit = .ok (flow limit)) ∧
      (∀ steps, Unfolds Sample.project.calls [] 0 steps ↔ steps = (flow none).steps) ∧
      (∀ limit v path, Event.enter v path ∈ (flow limit).steps →
        (v :: path).Nodup ∧ path.length ≤ Sample.project.functions.size - 1) ∧
      (∀ d limit, (∀ m ∈ limit, d ≤ m) →
        (flow (some d)).functions.Sublist (flow limit).functions ∧
        (flow (some d)).unresolved.Sublist (flow limit).unresolved) ∧
      (∀ m, Sample.project.functions.size ≤ m → (flow (some m)).functions = (flow none).functions ∧
        (flow (some m)).unresolved = (flow none).unresolved) ∧
      ∀ m, Sample.project.functions.size - 1 ≤ m →
        (flow (some m)).functions = (flow none).functions :=
  ⟨Sample.entry, trace_truncates Sample.built Sample.entry⟩

end Project

end CallFlow
