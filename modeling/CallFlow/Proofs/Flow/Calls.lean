import CallFlow.Flow.Trace
import CallFlow.Proofs.Project.Built

/-! What the calls of a closed project lead to. Main statements: every call of every
function has an answer, no fault comes up on the way, and the functions that it
leads to are functions of the project. -/

namespace CallFlow

/-- There is an answer, and it satisfies `P`. -/
def Answers {α : Type} (x : Except Fault α) (P : α → Prop) : Prop := ∃ a, x = .ok a ∧ P a

namespace Answers

variable {α β : Type}

theorem pure {a : α} {P : α → Prop} (h : P a) : Answers (Pure.pure a) P := ⟨a, rfl, h⟩

theorem bind {x : Except Fault α} {f : α → Except Fault β} {P : α → Prop} {Q : β → Prop}
    (hx : Answers x P) (hf : ∀ a, P a → Answers (f a) Q) : Answers (x >>= f) Q := by
  obtain ⟨a, rfl, ha⟩ := hx
  exact hf a ha

theorem findM? {f : α → Except Fault Bool} :
    ∀ {l : List α}, (∀ a ∈ l, Answers (f a) fun _ => True) →
      Answers (l.findM? f) fun r => ∀ a ∈ r, a ∈ l
  | [], _ => .pure (by simp)
  | b :: l, h => by
    obtain ⟨found, hb, _⟩ := h b (by simp)
    cases found with
    | true => exact ⟨some b, by simp [List.findM?, hb, Bind.bind, Except.bind]; rfl, by simp⟩
    | false =>
      obtain ⟨r, hr, hm⟩ := findM? fun a ha => h a (List.mem_cons_of_mem b ha)
      exact ⟨r, by simpa [List.findM?, hb, Bind.bind, Except.bind] using hr,
        fun a ha => List.mem_cons_of_mem b (hm a ha)⟩

theorem findSomeM? {f : α → Except Fault (Option β)} {P : β → Prop} :
    ∀ {l : List α}, (∀ a ∈ l, Answers (f a) fun r => ∀ b ∈ r, P b) →
      Answers (l.findSomeM? f) fun r => ∀ b ∈ r, P b
  | [], _ => .pure (by simp)
  | a :: l, h => by
    obtain ⟨found, ha, hp⟩ := h a (by simp)
    cases found with
    | some b => exact ⟨some b, by simp [ha, Bind.bind, Except.bind]; rfl, hp⟩
    | none =>
      obtain ⟨r, hr, hm⟩ := findSomeM? fun a ha => h a (List.mem_cons_of_mem _ ha)
      exact ⟨r, by simpa [ha, Bind.bind, Except.bind] using hr, hm⟩

theorem filterM {f : α → Except Fault Bool} {l : List α}
    (h : ∀ a ∈ l, Answers (f a) fun _ => True) : Answers (l.filterM f) fun r => r ⊆ l := by
  have aux : ∀ l acc, (∀ a ∈ l, Answers (f a) fun _ => True) →
      Answers (List.filterAuxM f l acc) fun r => ∀ a ∈ r, a ∈ l ∨ a ∈ acc := by
    intro l
    induction l with
    | nil => intro acc _; exact .pure (by simp)
    | cons b l ih =>
      intro acc h
      refine (h b (by simp)).bind fun keep _ => ?_
      obtain ⟨r, hr, hm⟩ := ih (cond keep (b :: acc) acc) fun a ha => h a (by simp [ha])
      refine ⟨r, hr, fun a ha => ?_⟩
      rcases hm a ha with ha | ha
      · exact .inl (List.mem_cons_of_mem b ha)
      · cases keep with
        | true => exact (List.mem_cons.mp ha).elim (fun h => .inl (by simp [h])) .inr
        | false => exact .inr ha
  refine (aux l [] h).bind fun r hr => .pure fun a ha => ?_
  simpa using hr a (by simpa using ha)

end Answers

/-- The classes that a receiver is about lie within given sizes. -/
structure Receiver.Within (n : Sizes) (r : Receiver) : Prop where
  cls : ∀ c, r.cls = .ok c → c < n.classes
  note : ∀ note ∈ r.note, note.lookup.cls < n.classes

/-- So do the functions that a call leads to and the class that was looked up for it. -/
structure Call.Within (n : Sizes) (c : Call) : Prop where
  targets : ∀ t ∈ c.outcome.ids, t < n.functions
  note : ∀ note ∈ c.note, note.lookup.cls < n.classes

namespace Project

variable {p : Project}

/-! ## Looking entries up -/

theorem file_answers {i : FileId} (h : i < p.files.size) : Answers (p.file i) (· ∈ p.files) := by
  simp [Answers, file, h]

theorem classDef_answers {i : ClassId} (h : i < p.classes.size) :
    Answers (p.classDef i) (· ∈ p.classes) := by
  simp [Answers, classDef, h]

theorem function_answers {i : FunctionId} (h : i < p.functions.size) :
    Answers (p.function i) (· ∈ p.functions) := by
  simp [Answers, function, h]

theorem function_mem {i : FunctionId} {d : FunctionDef} (h : p.function i = .ok d) :
    d ∈ p.functions :=
  Array.mem_of_getElem? (function_eq_ok.mp h)

theorem named_answers {name : String} {ids : List FunctionId}
    (h : ∀ i ∈ ids, i < p.functions.size) :
    Answers (p.named name ids) fun r => ∀ i ∈ r, i < p.functions.size := by
  have found : Answers (p.named name ids) fun r => r ⊆ ids :=
    .filterM fun i hi => (function_answers (h i hi)).bind fun _ _ => .pure trivial
  obtain ⟨r, hr, hsub⟩ := found
  exact ⟨r, hr, fun i hi => h i (hsub hi)⟩

section Closed

variable (closed : p.Closed)
include closed

theorem membersNamed_answers {c : ClassId} (hc : c < p.classes.size) (name : String) :
    Answers (p.membersNamed c name) fun r => ∀ i ∈ r, i < p.functions.size :=
  (classDef_answers hc).bind fun _ h => named_answers (closed.classes _ h).functions

theorem topLevelNamed_answers {i : FileId} (hi : i < p.files.size) (name : String) :
    Answers (p.topLevelNamed i name) fun r => ∀ i ∈ r, i < p.functions.size :=
  (file_answers hi).bind fun _ h => named_answers (closed.files _ h).functions

/-! ## Classes behind qualifiers -/

theorem inPackage?_answers (candidate : Candidate) :
    Answers (p.inPackage? candidate) fun r => ∀ l ∈ r, l.cls < p.classes.size := by
  have index := closed.index candidate.2
  refine (Answers.findM? fun c hc =>
    (classDef_answers (index c hc)).bind fun _ _ => .pure trivial).bind fun r hr => .pure ?_
  intro l hl
  obtain ⟨c, hc, rfl⟩ := Option.map_eq_some_iff.mp hl
  exact index c (hr c hc)

theorem lookupIn_answers (f : SourceFile) (qualifier : String) :
    Answers (p.lookupIn f qualifier) fun r => ∀ l ∈ r, l.cls < p.classes.size := by
  refine (Answers.findSomeM? fun c _ => inPackage?_answers closed c).bind fun r hr => ?_
  cases r with
  | some found => exact .pure hr
  | none =>
    refine .pure fun l hl => ?_
    obtain ⟨c, hc, rfl⟩ := Option.map_eq_some_iff.mp hl
    exact closed.index _ c (List.mem_of_mem_head? hc)

theorem lookup_answers {i : FileId} (hi : i < p.files.size) (qualifier : String) :
    Answers (p.lookup i qualifier) fun r => ∀ l ∈ r, l.cls < p.classes.size := by
  unfold lookup
  dsimp only
  split
  · exact .pure (by simp)
  · exact (file_answers hi).bind fun f _ => lookupIn_answers closed f _

theorem lookupFrom_answers {c : ClassId} (hc : c < p.classes.size) (qualifier : String) :
    Answers (p.lookupFrom c qualifier) fun r => ∀ l ∈ r, l.cls < p.classes.size :=
  (classDef_answers hc).bind fun _ h => lookup_answers closed (closed.classes _ h).file qualifier

omit closed in
theorem ofLookup_within {qualifier : String} {otherwise : MissReason} {r : Option Lookup}
    (h : ∀ l ∈ r, l.cls < p.classes.size) :
    (Receiver.ofLookup qualifier otherwise r).Within p.sizes := by
  cases r with
  | none => exact ⟨by simp [Receiver.ofLookup], by simp [Receiver.ofLookup]⟩
  | some found =>
    have inside := h found rfl
    exact ⟨by rintro c ⟨⟩; exact inside, by rintro note ⟨⟩; exact inside⟩

theorem receiver_answers {f : FunctionDef} (hf : f ∈ p.functions) (written : String) :
    Answers (p.receiver f written) (Receiver.Within p.sizes) := by
  have within := closed.functions f hf
  unfold receiver
  by_cases this : written = "this"
  · simp only [this, beq_self_eq_true, if_true]
    cases ho : f.owner with
    | none => exact .pure ⟨by simp, by simp⟩
    | some c => exact .pure ⟨by rintro c ⟨⟩; exact within.owner c ho, by simp⟩
  · simp only [beq_iff_eq, this, if_false]
    cases ho : f.owner with
    | none =>
      dsimp only
      rw [pure_bind]
      exact (lookup_answers closed within.file written).bind fun r hr => .pure (ofLookup_within hr)
    | some c =>
      have hc := within.owner c ho
      dsimp only
      have property : Answers (p.property? c written) fun _ => True :=
        (classDef_answers hc).bind fun _ _ => .pure trivial
      refine property.bind fun q _ => ?_
      cases q with
      | none =>
        refine (lookup_answers closed within.file written).bind fun r hr => .pure ?_
        exact ofLookup_within hr
      | some q =>
        dsimp only
        cases q.typeName with
        | none => exact .pure ⟨by simp, by simp⟩
        | some type =>
          exact (lookupFrom_answers closed hc type).bind fun r hr => .pure (ofLookup_within hr)

/-! ## Calls -/

omit closed in
@[simp] theorem ids_outcomeOf (ids : List FunctionId) : (outcomeOf ids).ids = ids := by
  cases ids <;> rfl

theorem inScope_answers {f : FunctionDef} (hf : f ∈ p.functions) (name : String) :
    Answers (p.inScope f name) fun r => ∀ i ∈ r, i < p.functions.size := by
  have within := closed.functions f hf
  unfold inScope
  cases ho : f.owner with
  | none => exact topLevelNamed_answers closed within.file name
  | some c => exact membersNamed_answers closed (within.owner c ho) name

theorem call_answers {f : FunctionDef} (hf : f ∈ p.functions) (site : CallSite) :
    Answers (p.call f site) fun c => c.site = site ∧ c.Within p.sizes := by
  match site with
  | .simple none line => exact .pure ⟨rfl, by simp [Outcome.ids], by simp⟩
  | .simple (some name) line =>
    by_cases own : name = f.name
    · simp only [call, own, beq_self_eq_true, if_true]
      exact .pure ⟨rfl, by simp [Outcome.ids], by simp⟩
    · simp only [call, beq_iff_eq, own, if_false]
      exact (inScope_answers closed hf name).bind fun ids h =>
        .pure ⟨rfl, by simpa [sizes] using h, by simp⟩
  | .navigation written member line =>
    refine (receiver_answers closed hf written).bind fun r within => ?_
    obtain ⟨note, cls⟩ := r
    cases cls with
    | error reason => exact .pure ⟨rfl, by simp [Outcome.ids], within.note⟩
    | ok c =>
      exact (membersNamed_answers closed (within.cls c rfl) member).bind fun ids h =>
        .pure ⟨rfl, by simpa [sizes] using h, within.note⟩

end Closed

end Project

end CallFlow
