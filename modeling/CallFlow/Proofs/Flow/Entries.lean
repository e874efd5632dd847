import CallFlow.Proofs.Flow.Indentation
import CallFlow.Proofs.Flow.Safety
import CallFlow.Proofs.Flow.Visits

/-! The entries of a flow with and without repeats. Main statement: a flow without repeats begins
with the function it starts from, has each text once and loses none. Functions that are rendered
alike share one entry, so this is what the laws of `distinct` say of texts as keys. -/

namespace CallFlow

/-- `all` has an entry for each visit, and `once` is what is left of them without the repeats. -/
structure Trace.Condenses (t : Trace) (p : Project) (all once : List FlowEntry) : Prop where
  visits : List.Forall₂ (fun i e => p.flowEntry i = .ok e) t.functions all
  /-- In particular there is an entry. -/
  first : ∃ e, p.flowEntry t.entry = .ok e ∧ once.head? = some e
  texts : (once.map FlowEntry.text).Nodup
  survives : ∀ i ∈ t.functions, ∃ text ∈ once.map FlowEntry.text, p.render i = .ok text
  sublist : once.Sublist all

namespace Project

variable {p : Project}

theorem head?_trace (closed : p.Closed) {e : FunctionId} (he : e < p.functions.size)
    {limit : Option Nat} {t : Trace} (h : p.trace e limit = .ok t) :
    t.entry = e ∧ t.functions.head? = some e := by
  rw [trace_eq closed he limit] at h
  cases h
  exact ⟨rfl, head?_functions p e limit⟩

theorem condenses_distinct {t : Trace} {all : List FlowEntry}
    (head : t.functions.head? = some t.entry)
    (visits : List.Forall₂ (fun i e => p.flowEntry i = .ok e) t.functions all) :
    t.Condenses p all (distinct FlowEntry.text all) := by
  have laws := keepsFirsts_distinct FlowEntry.text
  constructor
  case visits => exact visits
  case first =>
    obtain ⟨others, visited⟩ := List.head?_eq_some_iff.mp head
    rw [visited] at visits
    obtain ⟨e, rest, he, _, rfl⟩ := List.forall₂_cons_left_iff.mp visits
    exact ⟨e, he, by rw [distinct_cons]; rfl⟩
  case texts =>
    refine List.pairwise_map.mpr ((laws.apart all).imp fun {a b} apart same => ?_)
    rw [same, beq_self_eq_true] at apart
    cases apart
  case survives =>
    intro i hi
    obtain ⟨e, he, found⟩ := exists_of_mapM_eq_ok (mapM_eq_ok.mpr visits) i hi
    obtain ⟨kept, mem, same⟩ := laws.survives all e he
    exact ⟨kept.text, List.mem_map_of_mem mem, eq_of_beq same ▸ render_of_flowEntry found⟩
  case sublist => exact laws.sublist all

/-- To keep one item per key is to keep the first of each. So a flow without repeats begins with
the function it starts from, has no text twice, loses no text, and is the flow with repeats less
some entries; and if the trees fit the texts, there is one. -/
theorem entries_keep_firsts :
    (∀ {α κ : Type} [BEq κ] [EquivBEq κ] (key : α → κ), KeepsFirsts key (distinct key)) ∧
    ∀ (p : Project) (e : FunctionId) (limit : Option Nat), p.Built → e < p.functions.size →
      ∃ t, p.trace e limit = .ok t ∧ t.entry = e ∧
        (∀ once, t.entries p true = .ok once →
          ∃ all, t.entries p false = .ok all ∧ t.Condenses p all once) ∧
        (p.BuiltFrom Source.Fitting → Succeeds (t.entries p true)) := by
  refine ⟨fun key => keepsFirsts_distinct key, fun p e limit built he => ?_⟩
  obtain ⟨t, ht, entry, steps⟩ := trace_within built.closed he limit
  refine ⟨t, ht, entry, fun once h => ?_, fun fitting => ?_⟩
  · obtain ⟨all, visits, same⟩ := bind_eq_ok.mp h
    cases same
    have head := (head?_trace built.closed he ht).2
    exact ⟨all, bind_eq_ok.mpr ⟨all, visits, rfl⟩,
      condenses_distinct (entry ▸ head) (mapM_eq_ok.mp visits)⟩
  · exact succeeds_entries built fitting.cuttable steps true

open Sample (overloads overloaded)

/-- Texts of one length, and three visits, two of which are to functions with one text. -/
theorem entries_keep_firsts_overloads :
    KeepsFirsts String.length (distinct String.length) ∧
    ∃ t all once, overloaded.trace 0 none = .ok t ∧ t.entries overloaded false = .ok all ∧
      t.entries overloaded true = .ok once ∧ t.Condenses overloaded all once ∧
      all.length = 3 ∧ once.length = 2 := by
  refine ⟨entries_keep_firsts.1 String.length, ?_⟩
  have fits : overloads.Fitting := by
    intro root hroot
    cases hroot
    exact ⟨⟨by decide +kernel, by decide +kernel, by decide +kernel⟩, by decide +kernel⟩
  have fitting : overloaded.BuiltFrom Source.Fitting := .offer (.empty ".") overloads fits
  obtain ⟨t, ht, _, condenses, succeeds⟩ :=
    entries_keep_firsts.2 overloaded 0 none fitting.built (by decide +kernel)
  obtain ⟨once, honce⟩ := succeeds fitting
  obtain ⟨all, hall, condensed⟩ := condenses once honce
  have length {b : Bool} {n : Nat} {entries : List FlowEntry}
      (computed : List.length <$> (overloaded.trace 0 none >>= fun t => t.entries overloaded b) =
        .ok n) (h : t.entries overloaded b = .ok entries) : entries.length = n := by
    obtain ⟨found, hfound, rfl⟩ := map_eq_ok.mp computed
    rw [ht] at hfound
    rw [Except.ok.inj (h.symm.trans hfound)]
  exact ⟨t, all, once, ht, hall, honce, condensed, length (by decide +kernel) hall,
    length (by decide +kernel) honce⟩

end Project

end CallFlow
