import CallFlow.Proofs.Flow.Calls
import CallFlow.Proofs.Flow.Routes
import Mathlib.Data.List.Perm.Subperm

/-! The graph of the resolved calls of a project, and its traces as walks over it. Main
statements: a trace of a closed project always comes to an end with a result, it
enters exactly the ends of routes in the graph, and it meets exactly the calls of the
functions that lie on routes shorter than the limit. -/

namespace CallFlow

namespace Project

open CallFlow.Flow (Choice Event IsRoute address along choose located)

/-! ## The graph -/

/-- The call at a position of a function, together with what it leads to. -/
def callAt (p : Project) (id : FunctionId) (position : Nat) : Option Call :=
  match p.function id with
  | .error _ => none
  | .ok f => f.calls[position]?.bind fun site => (p.call f site).toOption

/-- The function that a call leads to, `c` saying which call and which of its targets. -/
def leads (p : Project) (id : FunctionId) (c : Choice) : Option FunctionId :=
  match p.callAt id c.site with
  | some ⟨_, _, .targets ids⟩ => ids[c.target]?
  | _ => none

/-- Some call of `f` has `g` among its targets. -/
def Calls (p : Project) (f g : FunctionId) : Prop :=
  ∃ i c ids, p.callAt f i = some c ∧ c.outcome = .targets ids ∧ g ∈ ids

/-- The targets of all calls of a function, in order. -/
def callees (p : Project) (id : FunctionId) : List FunctionId :=
  match p.function id with
  | .error _ => []
  | .ok f =>
    f.calls.flatMap fun site =>
      match p.call f site with
      | .ok ⟨_, _, .targets ids⟩ => ids
      | _ => []

/-- A route from `e` that ends at `g`. -/
def RouteTo (p : Project) (limit : Option Nat) (e : FunctionId) (r : List Choice)
    (g : FunctionId) : Prop :=
  ∃ nodes, IsRoute p.leads limit e r nodes ∧ nodes.getLast? = some g

variable {p : Project}

theorem callAt_eq_some {id : FunctionId} {i : Nat} {c : Call} :
    p.callAt id i = some c ↔
      ∃ f site, p.function id = .ok f ∧ f.calls[i]? = some site ∧ p.call f site = .ok c := by
  have ofToOption : ∀ x : Except Fault Call, x.toOption = some c ↔ x = .ok c := by
    intro x
    cases x <;> simp [Except.toOption]
  unfold callAt
  cases p.function id with
  | error cause => simp
  | ok f => simp [Option.bind_eq_some_iff, ofToOption]

theorem getElem?_calls_eq_ok {id : FunctionId} {i : Nat} {c : Call} {ids : List FunctionId} :
    (p.calls id)[i]? = some (.ok c, ids) ↔ p.callAt id i = some c ∧ ids = c.outcome.ids := by
  unfold calls callAt
  cases p.function id with
  | error cause => cases i <;> simp
  | ok f =>
    cases hs : f.calls[i]? with
    | none => simp [hs]
    | some site =>
      cases hc : p.call f site with
      | error cause => simp [hs, hc, Except.toOption]
      | ok c' =>
        simp only [List.getElem?_map, hs, hc, Option.map_some, Option.some.injEq, Prod.mk.injEq,
          Except.ok.injEq, Option.bind_some, Except.toOption]
        constructor
        · rintro ⟨rfl, rfl⟩
          exact ⟨rfl, rfl⟩
        · rintro ⟨rfl, rfl⟩
          exact ⟨rfl, rfl⟩

/-- Faulty calls lead nowhere, so the graph is the one that the walk sees. -/
theorem leads_eq_choose (p : Project) : p.leads = choose p.calls := by
  funext id ⟨i, j⟩
  simp only [leads, choose, calls, callAt]
  cases p.function id with
  | error cause => cases i <;> simp
  | ok f =>
    cases hs : f.calls[i]? with
    | none => simp [hs]
    | some site =>
      cases hc : p.call f site with
      | error cause => simp [hs, hc, Except.toOption]
      | ok c =>
        obtain ⟨site', note, outcome⟩ := c
        cases outcome <;> simp [hs, hc, Except.toOption, Outcome.ids]

theorem flatMap_snd_calls (p : Project) (id : FunctionId) :
    (p.calls id).flatMap Prod.snd = p.callees id := by
  unfold calls callees
  cases p.function id with
  | error cause => rfl
  | ok f =>
    rw [List.flatMap_map]
    refine congrArg (List.flatMap · _) (funext fun site => ?_)
    cases p.call f site with
    | error cause => rfl
    | ok c =>
      obtain ⟨site, note, outcome⟩ := c
      cases outcome <;> rfl

theorem calls_iff_leads {f g : FunctionId} : p.Calls f g ↔ ∃ c, p.leads f c = some g := by
  constructor
  · rintro ⟨i, c, ids, hc, ho, hg⟩
    obtain ⟨j, hj⟩ := List.mem_iff_getElem?.mp hg
    refine ⟨⟨i, j⟩, ?_⟩
    obtain ⟨site, note, outcome⟩ := c
    cases ho
    simpa [leads, hc] using hj
  · rintro ⟨⟨i, j⟩, h⟩
    unfold leads at h
    split at h
    · rename_i site note ids hc
      exact ⟨i, _, ids, hc, rfl, List.mem_of_getElem? h⟩
    · cases h

theorem mem_callees_iff {f g : FunctionId} : g ∈ p.callees f ↔ p.Calls f g := by
  unfold callees Calls
  simp only [callAt_eq_some]
  cases p.function f with
  | error cause => simp
  | ok d =>
    simp only [List.mem_flatMap]
    constructor
    · rintro ⟨site, hs, hg⟩
      obtain ⟨i, hi⟩ := List.mem_iff_getElem?.mp hs
      split at hg
      · rename_i site' note ids hc
        exact ⟨i, _, ids, ⟨d, site, rfl, hi, hc⟩, rfl, hg⟩
      · cases hg
    · rintro ⟨i, ⟨site', note, outcome⟩, ids, ⟨d', site, hd, hi, hc⟩, ho, hg⟩
      cases hd
      cases ho
      refine ⟨site, List.mem_of_getElem? hi, ?_⟩
      rw [hc]
      exact hg

/-! ## Traces of closed projects -/

/-- A run of the tracer: its steps, with their addresses. -/
def run (p : Project) (entry : FunctionId) (limit : Option Nat) : List (List Nat × Step) :=
  located p.calls (p.levels limit) [] entry

/-- What `pick` takes from the steps of a run, with the addresses. -/
def picked {β : Type} (p : Project) (entry : FunctionId) (limit : Option Nat)
    (pick : Step → Option β) : List (List Nat × β) :=
  (p.run entry limit).filterMap fun x => (pick x.2).map fun b => (x.1, b)

section Picked

variable {β : Type} (p : Project) (entry : FunctionId) (limit : Option Nat)
  (pick : Step → Option β)

theorem map_snd_picked :
    (p.picked entry limit pick).map Prod.snd =
      ((p.run entry limit).map Prod.snd).filterMap pick := by
  rw [picked, List.filterMap_map, List.map_filterMap]
  refine congrArg (List.filterMap · _) (funext fun x => ?_)
  simp [Function.comp_def]

theorem mem_picked {k : List Nat} {b : β} :
    (k, b) ∈ p.picked entry limit pick ↔ ∃ x, (k, x) ∈ p.run entry limit ∧ pick x = some b := by
  simp only [picked, List.mem_filterMap, Option.map_eq_some_iff, Prod.exists, Prod.mk.injEq]
  constructor
  · rintro ⟨k, x, hx, b, hb, rfl, rfl⟩
    exact ⟨x, hx, hb⟩
  · rintro ⟨x, hx, hb⟩
    exact ⟨k, x, hx, b, hb, rfl, rfl⟩

theorem picked_sorted : (p.picked entry limit pick).Pairwise fun a b => a.1 < b.1 := by
  refine (Flow.located_sorted (p.levels limit) [] entry).filterMap _ fun a b h x hx y hy => ?_
  obtain ⟨_, _, rfl⟩ := Option.map_eq_some_iff.mp hx
  obtain ⟨_, _, rfl⟩ := Option.map_eq_some_iff.mp hy
  exact h

end Picked

section Closed

variable (closed : p.Closed)
include closed

/-- Every position of a function's list of calls holds an answered call. -/
theorem callAt_of_getElem?_calls {f : FunctionId} (hf : f < p.functions.size) {i : Nat}
    {x : Except Fault Call} {ids : List FunctionId} (h : (p.calls f)[i]? = some (x, ids)) :
    ∃ c, x = .ok c ∧ p.callAt f i = some c := by
  obtain ⟨d, hd, hmem⟩ := function_answers hf
  cases x with
  | ok c => exact ⟨c, rfl, (getElem?_calls_eq_ok.mp h).1⟩
  | error cause =>
    simp only [calls, hd, List.getElem?_map, Option.map_eq_some_iff] at h
    obtain ⟨site, _, h⟩ := h
    obtain ⟨c, hc, _⟩ := call_answers closed hmem site
    rw [hc] at h
    cases h

theorem lt_of_leads {f g : FunctionId} {c : Choice} (h : p.leads f c = some g) :
    g < p.functions.size := by
  unfold leads at h
  split at h
  · rename_i site note ids hc
    obtain ⟨d, site', hd, hs, hcall⟩ := callAt_eq_some.mp hc
    obtain ⟨c', hc', _, within⟩ := call_answers closed (function_mem hd) site'
    rw [hcall] at hc'
    cases hc'
    exact within.targets g (List.mem_of_getElem? h)
  · cases h

theorem lt_of_calls {f g : FunctionId} (h : p.Calls f g) : g < p.functions.size := by
  obtain ⟨c, hc⟩ := calls_iff_leads.mp h
  exact lt_of_leads closed hc

variable {e : FunctionId} (he : e < p.functions.size)
include he

theorem lt_of_route {limit : Option Nat} {r : List Choice} {nodes : List FunctionId}
    (h : IsRoute p.leads limit e r nodes) : ∀ f ∈ nodes, f < p.functions.size :=
  Flow.mem_of_along (P := (· < p.functions.size)) (fun _ _ _ _ h => lt_of_leads closed h) he
    h.follows

/-- Routes repeat no function, so there are fewer choices than functions. -/
theorem length_lt_of_route {limit : Option Nat} {r : List Choice} {nodes : List FunctionId}
    (h : IsRoute p.leads limit e r nodes) : r.length < p.functions.size := by
  have sub : nodes ⊆ List.range p.functions.size := fun f hf =>
    List.mem_range.mpr (lt_of_route closed he h f hf)
  have le := (h.simple.subperm sub).length_le
  rw [Flow.length_of_along h.follows, List.length_range] at le
  exact le

/-- The number of levels does not cut a route that the limit allows. -/
theorem route_levels_iff {limit : Option Nat} {r : List Choice} {nodes : List FunctionId} :
    IsRoute p.leads (some (p.levels limit)) e r nodes ↔ IsRoute p.leads limit e r nodes := by
  cases limit with
  | some d => rfl
  | none =>
    constructor
    · rintro ⟨hf, hs, _⟩
      exact ⟨hf, hs, by simp⟩
    · intro h
      have := length_lt_of_route closed he h
      refine ⟨h.follows, h.simple, fun d hd => ?_⟩
      cases hd
      simp only [levels]
      omega

/-- With no limit every visit is expanded. -/
theorem expanded_levels_iff {limit : Option Nat} {r : List Choice} {nodes : List FunctionId}
    (h : IsRoute p.leads limit e r nodes) :
    r.length < p.levels limit ↔ ∀ d ∈ limit, r.length < d := by
  cases limit with
  | some d => simp [levels]
  | none =>
    have := length_lt_of_route closed he h
    simp only [levels, reduceCtorEq, Option.mem_def, false_implies, implies_true, iff_true]
    omega

theorem mem_run_enter {limit : Option Nat} {k : List Nat} {v : FunctionId}
    {below : List FunctionId} :
    (k, Event.enter v below) ∈ p.run e limit ↔
      ∃ r nodes, address r = k ∧ IsRoute p.leads limit e r nodes ∧ nodes.reverse = v :: below := by
  unfold run
  rw [Flow.mem_located_enter (List.nodup_singleton e), ← leads_eq_choose]
  simp only [List.append_nil, List.nodup_reverse]
  constructor
  · rintro ⟨r, nodes, hk, ha, hs, hl, hn⟩
    exact ⟨r, nodes, hk, (route_levels_iff closed he).mp ⟨ha, hs, by simpa using hl⟩, hn⟩
  · rintro ⟨r, nodes, hk, h, hn⟩
    have ⟨ha, hs, hl⟩ := (route_levels_iff closed he).mpr h
    exact ⟨r, nodes, hk, ha, hs, hl _ rfl, hn⟩

theorem mem_run_site {limit : Option Nat} {k : List Nat} {v : FunctionId}
    {x : Except Fault Call} :
    (k, Event.site v x) ∈ p.run e limit ↔
      ∃ r i c, k = address r ++ [i] ∧ p.RouteTo limit e r v ∧ (∀ d ∈ limit, r.length < d) ∧
        p.callAt v i = some c ∧ x = .ok c := by
  have depth : ∀ {r : List Choice} {nodes below : List FunctionId},
      IsRoute p.leads limit e r nodes → nodes.reverse = v :: below → below.length = r.length := by
    intro r nodes below h hn
    have := congrArg List.length hn
    rw [List.length_reverse, Flow.length_of_along h.follows, List.length_cons] at this
    omega
  have last : ∀ {nodes : List FunctionId},
      nodes.getLast? = some v ↔ ∃ below, nodes.reverse = v :: below := by
    intro nodes
    rw [← List.head?_reverse, List.head?_eq_some_iff]
  have entered : ∀ k below, (k, Event.enter v below) ∈ located p.calls (p.levels limit) [] e ↔
      ∃ r nodes, address r = k ∧ IsRoute p.leads limit e r nodes ∧ nodes.reverse = v :: below :=
    fun _ _ => mem_run_enter closed he
  unfold run
  rw [Flow.mem_located_site]
  constructor
  · rintro ⟨k', i, below, ts, rfl, hk, hl, hs⟩
    obtain ⟨r, nodes, rfl, h, hn⟩ := (entered k' below).mp hk
    have hv : v < p.functions.size := lt_of_route closed he h v (by
      rw [← List.mem_reverse, hn]; exact List.mem_cons_self)
    obtain ⟨c, rfl, hc⟩ := callAt_of_getElem?_calls closed hv hs
    refine ⟨r, i, c, rfl, ⟨nodes, h, last.mpr ⟨below, hn⟩⟩,
      (expanded_levels_iff closed he h).mp ?_, hc, rfl⟩
    rw [← depth h hn]
    simpa using hl
  · rintro ⟨r, i, c, rfl, ⟨nodes, h, hv⟩, hx, hc, rfl⟩
    obtain ⟨below, hn⟩ := last.mp hv
    refine ⟨address r, i, below, c.outcome.ids, rfl, (entered _ _).mpr ⟨r, nodes, rfl, h, hn⟩, ?_,
      getElem?_calls_eq_ok.mpr ⟨hc, rfl⟩⟩
    rw [depth h hn]
    simpa using (expanded_levels_iff closed he h).mpr hx

theorem faultless_walk (limit : Option Nat) :
    ∀ x ∈ Flow.walk p.calls (p.levels limit) [] e, Step.fault? x = none := by
  intro x hx
  rw [← Flow.map_snd_located] at hx
  obtain ⟨⟨k, x⟩, hk, rfl⟩ := List.mem_map.mp hx
  match x with
  | .enter _ _ => rfl
  | .limit _ _ => rfl
  | .back _ _ => rfl
  | .site _ (.ok _) => rfl
  | .site v (.error cause) =>
    obtain ⟨_, _, _, _, _, _, _, h⟩ := (mem_run_site closed he).mp hk
    cases h

/-- The tracer never fails. -/
theorem trace_eq (limit : Option Nat) :
    p.trace e limit = .ok ⟨e, (p.run e limit).map Prod.snd⟩ := by
  unfold trace
  simp only [List.findSome?_eq_none_iff.mpr (faultless_walk closed he limit)]
  rw [run, Flow.map_snd_located]

theorem mem_picked_entered {limit : Option Nat} {k : List Nat} {g : FunctionId} :
    (k, g) ∈ p.picked e limit Step.entered? ↔ ∃ r, address r = k ∧ p.RouteTo limit e r g := by
  rw [mem_picked]
  constructor
  · rintro ⟨x, hk, hx⟩
    match x, hx with
    | .enter _ below, rfl =>
      obtain ⟨r, nodes, hr, h, hn⟩ := (mem_run_enter closed he).mp hk
      exact ⟨r, hr, nodes, h, by rw [← List.head?_reverse, hn]; rfl⟩
  · rintro ⟨r, hr, nodes, h, hg⟩
    rw [← List.head?_reverse, List.head?_eq_some_iff] at hg
    obtain ⟨below, hn⟩ := hg
    exact ⟨_, (mem_run_enter closed he).mpr ⟨r, nodes, hr, h, hn⟩, rfl⟩

theorem mem_functions_iff {limit : Option Nat} {g : FunctionId} :
    g ∈ Trace.functions ⟨e, (p.run e limit).map Prod.snd⟩ ↔ ∃ r, p.RouteTo limit e r g := by
  rw [Trace.functions, ← map_snd_picked, List.mem_map]
  constructor
  · rintro ⟨⟨k, _⟩, h, rfl⟩
    obtain ⟨r, _, h⟩ := (mem_picked_entered closed he).mp h
    exact ⟨r, h⟩
  · rintro ⟨r, h⟩
    exact ⟨(address r, g), (mem_picked_entered closed he).mpr ⟨r, rfl, h⟩, rfl⟩

end Closed

end Project

end CallFlow
