import CallFlow.Proofs.Flow.CallGraph
import Mathlib.Data.Set.Card
import Mathlib.Data.Set.List

/-! The visits of a trace are the routes from its entry, one for one and in the order of
the choices, so a function is visited as often as there are routes to it. -/

namespace CallFlow

namespace Flow

section Names

variable {ι β : Type} {R : ι → β → Prop}

/-- `values` holds one value for each name that has one, in the order of the names. -/
def Enumerates (before : ι → ι → Prop) (R : ι → β → Prop) (values : List β) : Prop :=
  ∃ names : List ι, names.Pairwise before ∧ (∀ i, i ∈ names ↔ ∃ b, R i b) ∧
    List.Forall₂ R names values

theorem forall₂_of_map_eq {label : ι → List Nat} :
    ∀ {names : List ι} {entries : List (List Nat × β)}, names.map label = entries.map Prod.fst →
      (∀ i, ∀ x ∈ entries, label i = x.1 → R i x.2) → List.Forall₂ R names (entries.map Prod.snd)
  | [], [], _, _ => .nil
  | i :: names, x :: entries, h, hR => by
    obtain ⟨hi, h⟩ := List.cons.inj h
    exact .cons (hR i x List.mem_cons_self hi)
      (forall₂_of_map_eq h fun j y hy => hR j y (List.mem_cons_of_mem x hy))

/-- Entries that lie in the order of their addresses are enumerated by what the
addresses stand for. -/
theorem enumerates_of_sorted {label : ι → List Nat} (inj : Function.Injective label)
    {entries : List (List Nat × β)} (sorted : entries.Pairwise fun a b => a.1 < b.1)
    (mem : ∀ k b, (k, b) ∈ entries ↔ ∃ i, label i = k ∧ R i b) :
    Enumerates (fun i j => label i < label j) R (entries.map Prod.snd) := by
  obtain ⟨names, labels⟩ : ∃ names : List ι, names.map label = entries.map Prod.fst := by
    rw [← Set.mem_range, Set.range_list_map]
    intro k hk
    obtain ⟨⟨k, b⟩, hb, rfl⟩ := List.mem_map.mp hk
    obtain ⟨i, hi, _⟩ := (mem k b).mp hb
    exact ⟨i, hi⟩
  refine ⟨names, ?_, fun i => ?_, forall₂_of_map_eq labels ?_⟩
  · rw [← List.pairwise_map, labels, List.pairwise_map]
    exact sorted
  · rw [← List.mem_map_of_injective inj, labels]
    simp only [List.mem_map, Prod.exists, exists_and_right, exists_eq_right, mem]
    constructor
    · rintro ⟨b, j, hj, h⟩
      exact ⟨b, inj hj ▸ h⟩
    · rintro ⟨b, h⟩
      exact ⟨b, i, rfl, h⟩
  · rintro i ⟨k, b⟩ hb rfl
    obtain ⟨j, hj, h⟩ := (mem _ b).mp hb
    exact inj hj ▸ h

/-- A listed value is there once for each of its names. -/
theorem count_eq_ncard_of_forall₂ [DecidableEq β] (functional : ∀ i b b', R i b → R i b' → b = b')
    (b : β) {names : List ι} {values : List β} (h : List.Forall₂ R names values)
    (nodup : names.Nodup) : values.count b = {i | i ∈ names ∧ R i b}.ncard := by
  induction h with
  | nil => simp
  | @cons i b' names values hi _ ih =>
    obtain ⟨hnew, nodup⟩ := List.nodup_cons.mp nodup
    by_cases hb : b' = b
    · subst hb
      have split : {j | j ∈ i :: names ∧ R j b'} = insert i {j | j ∈ names ∧ R j b'} := by
        ext j
        simp only [List.mem_cons, Set.mem_ofPred_eq, Set.mem_insert_iff]
        constructor
        · rintro ⟨rfl | hj, h⟩
          · exact .inl rfl
          · exact .inr ⟨hj, h⟩
        · rintro (rfl | ⟨hj, h⟩)
          · exact ⟨.inl rfl, hi⟩
          · exact ⟨.inr hj, h⟩
      have finite : {j | j ∈ names ∧ R j b'}.Finite :=
        (List.finite_toSet names).subset fun j hj => hj.1
      rw [split, Set.ncard_insert_of_notMem (fun h => hnew h.1) finite, List.count_cons_self,
        ih nodup]
    · have same : {j | j ∈ i :: names ∧ R j b} = {j | j ∈ names ∧ R j b} := by
        ext j
        simp only [List.mem_cons, Set.mem_ofPred_eq]
        constructor
        · rintro ⟨rfl | hj, h⟩
          · exact absurd (functional _ _ _ hi h) hb
          · exact ⟨hj, h⟩
        · rintro ⟨hj, h⟩
          exact ⟨.inr hj, h⟩
      rw [same, List.count_cons_of_ne hb, ih nodup]

theorem Enumerates.count_eq_ncard [DecidableEq β] {before : ι → ι → Prop} {values : List β}
    (h : Enumerates before R values) (irrefl : ∀ i, ¬ before i i)
    (functional : ∀ i b b', R i b → R i b' → b = b') (b : β) :
    values.count b = {i | R i b}.ncard := by
  obtain ⟨names, sorted, mem, listed⟩ := h
  have nodup : names.Nodup := List.Pairwise.imp (fun {i j} hij heq => by
    subst heq
    exact irrefl i hij) sorted
  rw [count_eq_ncard_of_forall₂ functional b listed nodup]
  congr 1
  ext i
  exact ⟨And.right, fun h => ⟨(mem i).mpr ⟨b, h⟩, h⟩⟩

theorem Enumerates.exists_of_mem {before : ι → ι → Prop} {values : List β}
    (h : Enumerates before R values) {b : β} (hb : b ∈ values) : ∃ i, R i b := by
  obtain ⟨names, -, -, listed⟩ := h
  induction listed with
  | nil => cases hb
  | cons hi _ ih =>
    rcases List.mem_cons.mp hb with rfl | hb
    · exact ⟨_, hi⟩
    · exact ih hb

theorem Enumerates.imp {before before' : ι → ι → Prop} {values : List β}
    (h : Enumerates before R values) (sub : ∀ i j, before i j → before' i j) :
    Enumerates before' R values := by
  obtain ⟨names, sorted, rest⟩ := h
  exact ⟨names, sorted.imp fun {i j} => sub i j, rest⟩

end Names

end Flow

namespace Project

open CallFlow.Flow (Choice Event IsRoute address)

variable {p : Project} {limit : Option Nat} {e : FunctionId}

theorem routeTo_unique {r : List Choice} {g g' : FunctionId} (h : p.RouteTo limit e r g)
    (h' : p.RouteTo limit e r g') : g = g' := by
  obtain ⟨nodes, h, hg⟩ := h
  obtain ⟨nodes', h', hg'⟩ := h'
  obtain rfl := Option.some.inj (h.follows.symm.trans h'.follows)
  exact Option.some.inj (hg.symm.trans hg')

/-- Only the empty route leads back to where it starts. -/
theorem routeTo_self_iff {r : List Choice} : p.RouteTo limit e r e ↔ r = [] := by
  constructor
  · rintro ⟨nodes, h, he⟩
    cases r with
    | nil => rfl
    | cons c cs =>
      obtain ⟨b, rest, _, hr, rfl⟩ := Flow.along_cons_eq_some.mp h.follows
      obtain ⟨more, rfl⟩ := Flow.along_eq_cons hr
      rw [List.getLast?_cons_cons] at he
      exact absurd (List.mem_of_getLast? he) (List.nodup_cons.mp h.simple).1
  · rintro rfl
    exact ⟨[e], ⟨rfl, List.nodup_singleton e, by simp⟩, rfl⟩

theorem head?_functions (p : Project) (e : FunctionId) (limit : Option Nat) :
    (Trace.functions ⟨e, (p.run e limit).map Prod.snd⟩).head? = some e := by
  unfold run Trace.functions
  cases p.levels limit <;> rfl

theorem functions_enumerates (closed : p.Closed) (he : e < p.functions.size)
    (limit : Option Nat) :
    Flow.Enumerates (List.Lex Choice.Before) (p.RouteTo limit e)
      (Trace.functions ⟨e, (p.run e limit).map Prod.snd⟩) := by
  rw [Trace.functions, ← map_snd_picked]
  refine Flow.Enumerates.imp ?_ fun _ _ => Flow.address_lt_iff.mp
  exact Flow.enumerates_of_sorted (fun _ _ => Flow.address_injective)
    (picked_sorted p e limit Step.entered?) fun _ _ => mem_picked_entered closed he

theorem not_lex_before_self (r : List Choice) : ¬ List.Lex Choice.Before r r := by
  rw [← Flow.address_lt_iff]
  exact List.lt_irrefl _

/-- The functions visited are the ends of the routes from the entry, one for each route,
in the order of the choices and a route in front of its extensions. So the entry is
visited first of all and only once, and any function once for each route to it. -/
theorem trace_enumerates_routes (built : p.Built) (he : e < p.functions.size)
    (limit : Option Nat) :
    ∃ t, p.trace e limit = .ok t ∧
      Flow.Enumerates (List.Lex Choice.Before) (p.RouteTo limit e) t.functions ∧
      t.functions.head? = some e ∧ t.functions.count e = 1 ∧
      ∀ g, t.functions.count g = {r | p.RouteTo limit e r g}.ncard := by
  have closed := built.closed
  have listed := functions_enumerates closed he limit
  have count := listed.count_eq_ncard not_lex_before_self fun _ _ _ => routeTo_unique
  have alone : {r | p.RouteTo limit e r e} = {[]} := Set.ext fun r => routeTo_self_iff
  refine ⟨_, trace_eq closed he limit, listed, head?_functions p e limit, ?_, count⟩
  rw [count e, alone, Set.ncard_singleton]

theorem trace_enumerates_routes_sample :
    0 < Sample.project.functions.size ∧
    ∃ t, Sample.project.trace 0 (some 2) = .ok t ∧
      Flow.Enumerates (List.Lex Choice.Before) (Sample.project.RouteTo (some 2) 0) t.functions ∧
      t.functions.head? = some 0 ∧ t.functions.count 0 = 1 ∧
      ∀ g, t.functions.count g = {r | Sample.project.RouteTo (some 2) 0 r g}.ncard :=
  ⟨Sample.entry, trace_enumerates_routes Sample.built Sample.entry (some 2)⟩

example : (Sample.project.trace 0 none).toOption.map Trace.functions = some [0, 1, 2, 2, 1] := by
  decide +kernel

end Project

end CallFlow
