import CallFlow.Proofs.Flow.Visits

/-! The calls that a trace meets, and those among them that lead nowhere. Main statements:
a trace meets the calls of the expanded visits, each once for each visit, and keeps a
record of exactly those that miss. Without calls that miss a project has the same traces
but for these records. -/

namespace CallFlow

namespace Flow

/-- A site of the node at the end of a route. -/
structure Place where
  route : List Choice
  site : Nat
deriving Repr, DecidableEq

namespace Place

/-- The numbers of the route, and behind them the one of the site. -/
def address (a : Place) : List Nat := Flow.address a.route ++ [a.site]

/-- Places in the order of their numbers. What lies below a site of a node comes before
the later sites of that node. -/
def Before (a b : Place) : Prop := a.address < b.address

/-- Places in the order of their routes, and by their sites for one route only. -/
def RouteFirst (a b : Place) : Prop :=
  List.Lex Choice.Before a.route b.route ∨ a.route = b.route ∧ a.site < b.site

theorem address_injective : Function.Injective address := by
  rintro ⟨r, i⟩ ⟨r', i'⟩ h
  obtain ⟨hr, hi⟩ := List.append_inj' h rfl
  obtain rfl : r = r' := Flow.address_injective hr
  obtain rfl : i = i' := List.singleton_inj.mp hi
  rfl

end Place

/-! ## Sites that lead nowhere -/

section Dead

variable {α σ : Type}

/-- All events but those of the sites that are not kept. -/
def Event.kept (keep : α → σ → Bool) : Event α σ → Bool
  | .site node s => keep node s
  | _ => true

theorem flatMap_filter {β γ : Type} (keep : β → Bool) (f : β → List γ) :
    ∀ l : List β, (l.filter keep).flatMap f = l.flatMap fun a => if keep a then f a else []
  | [] => rfl
  | a :: l => by
    cases h : keep a <;> simp [h, flatMap_filter keep f l]

/-- Without some sites that lead nowhere the walk is the same but for these sites. -/
theorem walk_filter [DecidableEq α] {out : α → List (σ × List α)} (keep : α → σ → Bool)
    (dead : ∀ a, ∀ s ∈ out a, keep a s.1 = false → s.2 = []) :
    ∀ (levels : Nat) (path : List α) (node : α),
      walk (fun a => (out a).filter fun s => keep a s.1) levels path node =
        (walk out levels path node).filter (Event.kept keep)
  | 0, _, _ => rfl
  | levels + 1, path, node => by
    simp only [walk]
    rw [flatMap_filter, List.filter_cons_of_pos rfl, List.filter_flatMap]
    refine congrArg _ (List.flatMap_congr fun x hx => ?_)
    obtain ⟨s, ts⟩ := x
    by_cases hk : keep node s
    · have kept : (Event.site node s).kept keep := hk
      rw [if_pos hk, List.filter_cons_of_pos kept, List.filter_flatMap]
      refine congrArg _ (congrArg (List.flatMap · _) (funext fun t => ?_))
      split
      · rfl
      · exact walk_filter keep dead levels (node :: path) t
    · have dropped : ¬ (Event.site node s).kept keep := hk
      obtain rfl : ts = [] := dead node (s, ts) hx (by simpa using hk)
      rw [if_neg hk, List.filter_cons_of_neg dropped]
      rfl

end Dead

end Flow

/-- The call site that a step meets, with the caller. -/
def Step.met? : Step → Option (FunctionId × CallSite)
  | .site caller (.ok c) => some (caller, c.site)
  | _ => none

namespace Project

open CallFlow.Flow (Choice Event Place address)

/-! ## The calls met -/

/-- A function is reached along a route that is shorter than the limit. -/
structure ExpandedAt (p : Project) (limit : Option Nat) (e : FunctionId) (r : List Choice)
    (f : FunctionId) : Prop where
  reached : p.RouteTo limit e r f
  short : ∀ d ∈ limit, r.length < d

/-- An expanded visit of a function that has the call site in question. -/
structure SiteAt (p : Project) (limit : Option Nat) (e : FunctionId) (place : Place)
    (x : FunctionId × CallSite) : Prop where
  visit : p.ExpandedAt limit e place.route x.1
  written : ∃ f, p.function x.1 = .ok f ∧ f.calls[place.site]? = some x.2

/-- An expanded visit of a function that has the call site in question, which misses. -/
structure MissAt (p : Project) (limit : Option Nat) (e : FunctionId) (place : Place)
    (u : Unresolved) : Prop where
  visit : p.ExpandedAt limit e place.route u.caller
  missed : ∃ f c, p.function u.caller = .ok f ∧ f.calls[place.site]? = some u.site ∧
    p.call f u.site = .ok c ∧ c.outcome = .miss u.reason

variable {p : Project} {limit : Option Nat} {e : FunctionId}

section Closed

variable (closed : p.Closed) (he : e < p.functions.size)
include closed

theorem site_of_call_eq_ok {id : FunctionId} {f : FunctionDef} (hf : p.function id = .ok f)
    {site : CallSite} {c : Call} (hc : p.call f site = .ok c) : c.site = site := by
  obtain ⟨c', hc', hsite, _⟩ := call_answers closed (function_mem hf) site
  obtain rfl := Except.ok.inj (hc.symm.trans hc')
  exact hsite

include he

theorem mem_run_call {k : List Nat} {v : FunctionId} {c : Call} :
    (k, Event.site v (.ok c)) ∈ p.run e limit ↔
      ∃ place : Place, place.address = k ∧ p.ExpandedAt limit e place.route v ∧
        ∃ f, p.function v = .ok f ∧ f.calls[place.site]? = some c.site ∧
          p.call f c.site = .ok c := by
  rw [mem_run_site closed he]
  constructor
  · rintro ⟨r, i, c', rfl, hr, hl, hc, ho⟩
    cases ho
    obtain ⟨f, site, hf, hs, hc⟩ := callAt_eq_some.mp hc
    obtain rfl := site_of_call_eq_ok closed hf hc
    exact ⟨⟨r, i⟩, rfl, ⟨hr, hl⟩, f, hf, hs, hc⟩
  · rintro ⟨⟨r, i⟩, rfl, ⟨hr, hl⟩, f, hf, hs, hc⟩
    exact ⟨r, i, c, rfl, hr, hl, callAt_eq_some.mpr ⟨f, _, hf, hs, hc⟩, rfl⟩

theorem mem_picked_met {k : List Nat} {x : FunctionId × CallSite} :
    (k, x) ∈ p.picked e limit Step.met? ↔
      ∃ place : Place, place.address = k ∧ p.SiteAt limit e place x := by
  rw [mem_picked]
  constructor
  · rintro ⟨s, hk, hs⟩
    match s, hs with
    | .site _ (.ok c), rfl =>
      obtain ⟨place, hp, hv, f, hf, hs, _⟩ := (mem_run_call closed he).mp hk
      exact ⟨place, hp, hv, f, hf, hs⟩
  · rintro ⟨place, hp, hv, f, hf, hs⟩
    -- whatever the call leads to, there is an answer
    obtain ⟨caller, site⟩ := x
    obtain ⟨c, hc, rfl, _⟩ := call_answers closed (function_mem hf) site
    exact ⟨.site caller (.ok c), (mem_run_call closed he).mpr ⟨place, hp, hv, f, hf, hs, hc⟩, rfl⟩

theorem mem_picked_unresolved {k : List Nat} {u : Unresolved} :
    (k, u) ∈ p.picked e limit Step.unresolved? ↔
      ∃ place : Place, place.address = k ∧ p.MissAt limit e place u := by
  rw [mem_picked]
  constructor
  · rintro ⟨s, hk, hs⟩
    match s, hs with
    | .site _ (.ok ⟨_, _, .miss _⟩), rfl =>
      obtain ⟨place, hp, hv, f, hf, hs, hc⟩ := (mem_run_call closed he).mp hk
      exact ⟨place, hp, hv, f, _, hf, hs, hc, rfl⟩
  · rintro ⟨place, hp, hv, f, ⟨site, note, outcome⟩, hf, hs, hc, rfl⟩
    obtain rfl := site_of_call_eq_ok closed hf hc
    exact ⟨.site u.caller (.ok ⟨u.site, note, .miss u.reason⟩),
      (mem_run_call closed he).mpr ⟨place, hp, hv, f, hf, hs, hc⟩, rfl⟩

end Closed

/-- If the addresses of what is picked stand for places, then the places enumerate it. -/
theorem picked_enumerates {β : Type} {pick : Step → Option β} {R : Place → β → Prop}
    (mem : ∀ k b, (k, b) ∈ p.picked e limit pick ↔ ∃ place : Place, place.address = k ∧ R place b) :
    Flow.Enumerates Place.Before R (((p.run e limit).map Prod.snd).filterMap pick) := by
  rw [← map_snd_picked]
  exact Flow.enumerates_of_sorted Place.address_injective (picked_sorted p e limit pick) mem

/-- Nothing is recorded of the own name or of a call that has targets. -/
theorem outcome_of_missAt {place : Place} {u : Unresolved} (h : p.MissAt limit e place u)
    {f : FunctionDef} (hf : p.function u.caller = .ok f) :
    (∀ line, u.site ≠ .simple (some f.name) line) ∧
      ∀ c, p.call f u.site = .ok c → c.outcome = .miss u.reason := by
  obtain ⟨_, f', c, hf', _, hc, ho⟩ := h
  obtain rfl := Except.ok.inj (hf.symm.trans hf')
  constructor
  · intro line own
    simp only [own, call, beq_self_eq_true, if_true] at hc
    cases hc
    cases ho
  · intro c' hc'
    obtain rfl := Except.ok.inj (hc.symm.trans hc')
    exact ho

/-! ## Projects without the calls that miss -/

/-- A step stays unless it is the record of a call that is dropped. -/
def stays (drop : FunctionId → CallSite → Bool) (s : Step) : Bool :=
  !s.unresolved?.any fun u => drop u.caller u.site

/-- The project without those calls that miss and that `drop` says. -/
def withoutMisses (p : Project) (drop : FunctionId → CallSite → Bool) : Project :=
  { p with functions := p.functions.mapIdx fun id f =>
      { f with calls := f.calls.filter fun site => stays drop (.site id (p.call f site)) } }

section Without

variable (p : Project) (drop : FunctionId → CallSite → Bool)

theorem function_withoutMisses (id : FunctionId) :
    (p.withoutMisses drop).function id = (p.function id).map fun f =>
      { f with calls := f.calls.filter fun site => stays drop (.site id (p.call f site)) } := by
  simp only [function, withoutMisses, Array.getElem?_mapIdx]
  cases p.functions[id]? <;> rfl

theorem named_withoutMisses (name : String) (ids : List FunctionId) :
    (p.withoutMisses drop).named name ids = p.named name ids := by
  unfold named
  refine congrArg (List.filterM · ids) (funext fun id => ?_)
  rw [function_withoutMisses]
  cases p.function id <;> rfl

theorem membersNamed_withoutMisses (owner : ClassId) (name : String) :
    (p.withoutMisses drop).membersNamed owner name = p.membersNamed owner name :=
  bind_congr fun c => named_withoutMisses p drop name c.functions

theorem topLevelNamed_withoutMisses (file : FileId) (name : String) :
    (p.withoutMisses drop).topLevelNamed file name = p.topLevelNamed file name :=
  bind_congr fun f => named_withoutMisses p drop name f.functions

/-- What a call leads to does not depend on what other calls there are. -/
theorem call_withoutMisses (f : FunctionDef) (calls : List CallSite) (site : CallSite) :
    (p.withoutMisses drop).call { f with calls := calls } site = p.call f site := by
  cases site with
  | simple name line =>
    cases name with
    | none => rfl
    | some name =>
      simp only [call, inScope, membersNamed_withoutMisses, topLevelNamed_withoutMisses]
  | navigation written member line =>
    simp only [call, membersNamed_withoutMisses]
    rfl

theorem calls_withoutMisses (id : FunctionId) :
    (p.withoutMisses drop).calls id =
      (p.calls id).filter fun s => stays drop (.site id s.1) := by
  unfold calls
  rw [function_withoutMisses]
  cases p.function id with
  | error cause => rfl
  | ok f =>
    simp only [Except.map, call_withoutMisses, List.filter_map]
    refine congrArg _ (congrArg (List.filter · _) (funext fun site => ?_))
    simp only [Function.comp_apply]
    cases p.call f site <;> rfl

/-- What is dropped leads nowhere. -/
theorem snd_eq_nil_of_dropped {id : FunctionId} {s : Except Fault Call × List FunctionId}
    (hs : s ∈ p.calls id) (h : stays drop (.site id s.1) = false) : s.2 = [] := by
  obtain ⟨i, hi⟩ := List.mem_iff_getElem?.mp hs
  match s with
  | (.error cause, _) => cases h
  | (.ok ⟨_, _, .targets _⟩, _) => cases h
  | (.ok ⟨_, _, .selfCall⟩, _) => cases h
  | (.ok ⟨_, _, .miss _⟩, _) => exact (getElem?_calls_eq_ok.mp hi).2

theorem walk_withoutMisses (levels : Nat) (path : List FunctionId) (e : FunctionId) :
    Flow.walk (p.withoutMisses drop).calls levels path e =
      (Flow.walk p.calls levels path e).filter (stays drop) := by
  have calls : (p.withoutMisses drop).calls = fun id =>
      (p.calls id).filter fun s => stays drop (.site id s.1) :=
    funext fun id => calls_withoutMisses p drop id
  have kept : Event.kept (fun id x => stays drop (.site id x)) = stays drop := by
    funext s
    cases s <;> rfl
  rw [calls, Flow.walk_filter (fun id x => stays drop (.site id x))
    fun _ _ => snd_eq_nil_of_dropped p drop, kept]

end Without

theorem trace_withoutMisses (closed : p.Closed) (he : e < p.functions.size)
    (drop : FunctionId → CallSite → Bool) :
    (p.withoutMisses drop).trace e limit =
      .ok ⟨e, ((p.run e limit).map Prod.snd).filter (stays drop)⟩ := by
  have levels : (p.withoutMisses drop).levels limit = p.levels limit := by
    cases limit <;> simp [Project.levels, withoutMisses]
  have faultless : ∀ x ∈ (Flow.walk p.calls (p.levels limit) [] e).filter (stays drop),
      Step.fault? x = none :=
    fun x hx => faultless_walk closed he limit x (List.mem_of_mem_filter hx)
  unfold trace
  simp only [levels, walk_withoutMisses, List.findSome?_eq_none_iff.mpr faultless]
  rw [run, Flow.map_snd_located]

theorem functions_filter_stays (drop : FunctionId → CallSite → Bool) (entry : FunctionId)
    (steps : List Step) :
    Trace.functions ⟨entry, steps.filter (stays drop)⟩ = Trace.functions ⟨entry, steps⟩ := by
  unfold Trace.functions
  rw [List.filterMap_filter]
  refine congrArg (List.filterMap · steps) (funext fun s => ?_)
  cases s with
  | site caller c => exact ite_self none
  | _ => rfl

/-- The calls met are those of the visits that are expanded, one for each visit and each
call of its function, and the records are those of the calls that miss. Both come in the
order of their places. Records come neither from the own name nor from calls that have
targets. Dropping calls that miss changes nothing but that their records are missing. -/
theorem trace_enumerates_misses (built : p.Built) (he : e < p.functions.size)
    (limit : Option Nat) :
    ∃ t, p.trace e limit = .ok t ∧
      Flow.Enumerates Place.Before (p.SiteAt limit e) (t.steps.filterMap Step.met?) ∧
      Flow.Enumerates Place.Before (p.MissAt limit e) t.unresolved ∧
      (∀ u ∈ t.unresolved, ∀ f, p.function u.caller = .ok f →
        (∀ line, u.site ≠ .simple (some f.name) line) ∧
          ∀ c, p.call f u.site = .ok c → c.outcome = .miss u.reason) ∧
      ∀ drop, ∃ t', (p.withoutMisses drop).trace e limit = .ok t' ∧
        t'.functions = t.functions ∧ t'.steps = t.steps.filter (stays drop) := by
  have closed := built.closed
  have misses : Flow.Enumerates Place.Before (p.MissAt limit e)
      (Trace.unresolved ⟨e, (p.run e limit).map Prod.snd⟩) :=
    picked_enumerates fun _ _ => mem_picked_unresolved closed he
  refine ⟨_, trace_eq closed he limit, picked_enumerates fun _ _ => mem_picked_met closed he,
    misses, fun u hu f hf => ?_, fun drop => ?_⟩
  · obtain ⟨place, h⟩ := misses.exists_of_mem hu
    exact outcome_of_missAt h hf
  · exact ⟨_, trace_withoutMisses closed he drop, functions_filter_stays drop e _, rfl⟩

theorem trace_enumerates_misses_sample :
    0 < Sample.project.functions.size ∧
    ∃ t, Sample.project.trace 0 none = .ok t ∧
      Flow.Enumerates Place.Before (Sample.project.SiteAt none 0) (t.steps.filterMap Step.met?) ∧
      Flow.Enumerates Place.Before (Sample.project.MissAt none 0) t.unresolved ∧
      (∀ u ∈ t.unresolved, ∀ f, Sample.project.function u.caller = .ok f →
        (∀ line, u.site ≠ .simple (some f.name) line) ∧
          ∀ c, Sample.project.call f u.site = .ok c → c.outcome = .miss u.reason) ∧
      ∀ drop, ∃ t', (Sample.project.withoutMisses drop).trace 0 none = .ok t' ∧
        t'.functions = t.functions ∧ t'.steps = t.steps.filter (stays drop) :=
  ⟨Sample.entry, trace_enumerates_misses Sample.built Sample.entry none⟩

/-- The records do not come route by route: one that is found below the first call of the
entry stands in front of one for its second call. -/
theorem misses_not_route_first :
    ∃ t, Sample.project.trace 0 none = .ok t ∧
      ¬ Flow.Enumerates Place.RouteFirst (Sample.project.MissAt none 0) t.unresolved := by
  have ran : (Sample.project.trace 0 none).toOption.map Trace.unresolved =
      some [⟨2, .simple (some "y") 3, .noMatchingFunction⟩,
        ⟨0, .simple (some "x") 1, .noMatchingFunction⟩,
        ⟨2, .simple (some "y") 3, .noMatchingFunction⟩] := by
    decide +kernel
  have ok := trace_eq Sample.built.closed Sample.entry none
  rw [ok] at ran
  refine ⟨_, ok, ?_⟩
  rw [Option.some.inj ran]
  rintro ⟨names, sorted, -, listed⟩
  cases listed with
  | @cons first _ _ _ below listed =>
    cases listed with
    | @cons second _ _ _ above listed =>
      have top : second.route = [] := routeTo_self_iff.mp above.visit.reached
      rcases (List.pairwise_cons.mp sorted).1 second List.mem_cons_self with before | ⟨same, -⟩
      · rw [top] at before
        exact List.not_lex_nil before
      · have := routeTo_unique (same ▸ below.visit.reached) above.visit.reached
        cases this

end Project

end CallFlow
