import CallFlow.Text.Casing
import Mathlib.Data.List.Forall2
import Mathlib.Data.String.Basic

/-! Upper and lower case. What compares equal up to the case of ASCII letters is described letter by
letter. Lower case knows more letters than that. Main statements: no character of a text in lower
case has a lower case form of its own, and such a text is the same as another one up to the case of
ASCII letters exactly if that one has no capitals beyond ASCII and the same lower case. -/

namespace CallFlow.Text

/-! ## ASCII letters -/

/-- `a` is an ASCII capital, and `b` the small letter of it. -/
def IsCapitalOf (a b : Char) : Prop :=
  'A'.toNat ≤ a.toNat ∧ a.toNat ≤ 'Z'.toNat ∧ b.toNat = a.toNat + 32

/-- The same up to the case of ASCII letters. -/
def SameLetter (a b : Char) : Prop := a = b ∨ IsCapitalOf a b ∨ IsCapitalOf b a

theorem toNat_toLower (c : Char) : c.toLower.toNat =
    if 'A'.toNat ≤ c.toNat ∧ c.toNat ≤ 'Z'.toNat then c.toNat + 32 else c.toNat := by
  have capital : (c.val ≥ 'A'.val ∧ c.val ≤ 'Z'.val) ↔
      'A'.toNat ≤ c.toNat ∧ c.toNat ≤ 'Z'.toNat := Iff.rfl
  unfold Char.toLower
  by_cases h : c.val ≥ 'A'.val ∧ c.val ≤ 'Z'.val
  · rw [dif_pos h, if_pos (capital.mp h)]
    have last : c.val.toNat ≤ 90 := h.2
    show (c.val + 32).toNat = c.val.toNat + 32
    rw [UInt32.toNat_add]
    exact Nat.mod_eq_of_lt (by show c.val.toNat + 32 < _; omega)
  · rw [dif_neg h, if_neg (mt capital.mpr h)]

theorem toLower_eq_iff {a b : Char} : a.toLower = b.toLower ↔ SameLetter a b := by
  rw [← Char.toNat_inj, toNat_toLower, toNat_toLower, SameLetter, IsCapitalOf, IsCapitalOf,
    ← Char.toNat_inj]
  have first : 'A'.toNat = 65 := rfl
  have last : 'Z'.toNat = 90 := rfl
  split <;> split <;> omega

theorem sameLetters_iff {a b : List Char} :
    List.Forall₂ SameLetter a b ↔ a.map Char.toLower = b.map Char.toLower := by
  rw [← List.forall₂_eq_eq_eq, List.forall₂_map_left_iff, List.forall₂_map_right_iff]
  simp only [toLower_eq_iff]

theorem sameAscii_iff {a b : List Char} : sameAscii a b = true ↔ List.Forall₂ SameLetter a b := by
  rw [sameAscii, beq_iff_eq, sameLetters_iff]

theorem toLower_of_not_ascii {c : Char} (h : 128 ≤ c.toNat) : c.toLower = c := by
  rw [← Char.toNat_inj, toNat_toLower, if_neg]
  intro capital
  have last : 'Z'.toNat = 90 := rfl
  omega

/-! ## The table of lower case forms -/

namespace CaseRun

/-- The last of the forms. -/
def top (r : CaseRun) : Nat := r.lower + (r.last - r.first)

/-- The forms of `r` are in front of the run `s`, behind it or in its gaps, where every other
character is a form. -/
def misses (r s : CaseRun) : Bool :=
  r.top.blt s.first || s.last.blt r.lower ||
    (s.step == 2 && (r.step == 2 || r.first == r.last) && (r.lower + s.first) % 2 == 1)

variable {r s : CaseRun} {n : Nat}

theorem form_le_top (h : r.holds n = true) : r.lower + (n - r.first) ≤ r.top := by
  simp only [holds, Bool.and_eq_true, decide_eq_true_eq] at h
  rw [top]
  omega

theorem not_holds_form (h : r.misses s = true) (hn : r.holds n = true) :
    s.holds (r.lower + (n - r.first)) = false := by
  have below := form_le_top hn
  rw [Bool.eq_false_iff]
  intro hs
  simp only [holds, Bool.and_eq_true, decide_eq_true_eq, beq_iff_eq] at hn hs
  simp only [misses, Bool.or_eq_true, Bool.and_eq_true, Nat.blt_eq, beq_iff_eq] at h
  rcases h with (front | behind) | ⟨⟨gaps, even | single⟩, odd⟩
  · omega
  · omega
  -- In the gaps, forms and members of the run have different parities.
  · rw [even] at hn
    rw [gaps] at hs
    omega
  · rw [gaps] at hs
    omega

end CaseRun

/-- No form is in a run. -/
theorem caseRuns_miss : (caseRuns.all fun r => caseRuns.all r.misses) = true := by decide +kernel

/-- Every form is a character, and none the capital I with a dot. -/
theorem caseRuns_proper : (caseRuns.all fun r => r.misses ⟨0x130, 0x130, 1, 0⟩ &&
    (r.top.blt 0xD800 || (0xDFFF).blt r.lower && r.top.blt 0x110000)) = true := by decide +kernel

/-- In ASCII there is one run. -/
theorem caseRuns_ascii : (caseRuns.all fun r => (127).blt r.first ||
    r.first == 'A'.toNat && r.last == 'Z'.toNat && r.lower == 'a'.toNat) = true := by
  decide +kernel

/-! ## Lower case -/

/-- The character is left as it is in lower case. -/
def Settled (c : Char) : Prop := lowerChar c = [c]

instance (c : Char) : Decidable (Settled c) := inferInstanceAs (Decidable (lowerChar c = [c]))

theorem settled_of_not_holds {c : Char} (plain : c ≠ '\u0130')
    (h : ∀ r ∈ caseRuns, r.holds c.toNat = false) : Settled c := by
  have none : (caseRuns.find? fun r => r.holds c.toNat) = none := by
    rw [List.find?_eq_none]
    intro r hr
    simp [h r hr]
  unfold Settled lowerChar
  rw [if_neg plain, none]

theorem lowerChar_cases (c : Char) : (c = '\u0130' ∧ lowerChar c = ['i', '\u0307']) ∨
    (∃ r ∈ caseRuns, r.holds c.toNat = true ∧
      lowerChar c = [Char.ofNat (r.lower + (c.toNat - r.first))]) ∨
    (∀ r ∈ caseRuns, r.holds c.toNat = false) ∧ Settled c := by
  by_cases dotted : c = '\u0130'
  · exact .inl ⟨dotted, by rw [lowerChar, if_pos dotted]⟩
  · cases found : caseRuns.find? fun r => r.holds c.toNat with
    | some r =>
      have holds := List.find?_some (p := fun r : CaseRun => r.holds c.toNat) found
      refine .inr (.inl ⟨r, List.mem_of_find?_eq_some found, holds, ?_⟩)
      rw [lowerChar, if_neg dotted, found]
    | none =>
      have beyond : ∀ r ∈ caseRuns, r.holds c.toNat = false := fun r hr => by
        simpa using List.find?_eq_none.mp found r hr
      exact .inr (.inr ⟨beyond, settled_of_not_holds dotted beyond⟩)

theorem lower_ne_nil : ∀ {cs : List Char}, cs ≠ [] → lower cs ≠ []
  | [], h => absurd rfl h
  | c :: cs, _ => by
    rw [lower, lowerAfter]
    refine List.append_ne_nil_of_left_ne_nil ?_ _
    split
    · simp
    · rcases lowerChar_cases c with ⟨_, form⟩ | ⟨_, _, _, form⟩ | ⟨_, form⟩
      all_goals
        rw [form]
        exact List.cons_ne_nil _ _

theorem settled_form {r : CaseRun} {n : Nat} (hr : r ∈ caseRuns) (hn : r.holds n = true) :
    Settled (Char.ofNat (r.lower + (n - r.first))) := by
  have proper := List.all_eq_true.mp caseRuns_proper r hr
  simp only [Bool.and_eq_true, Bool.or_eq_true, Nat.blt_eq] at proper
  have below := CaseRun.form_le_top hn
  have valid : (r.lower + (n - r.first)).isValidChar := by
    unfold Nat.isValidChar
    omega
  have number : (Char.ofNat (r.lower + (n - r.first))).toNat = r.lower + (n - r.first) := by
    rw [Char.ofNat, dif_pos valid]
    rfl
  refine settled_of_not_holds ?_ fun s hs => ?_
  · intro dotted
    have miss := CaseRun.not_holds_form proper.1 hn
    rw [← number, dotted] at miss
    exact absurd miss (by decide)
  · have miss := List.all_eq_true.mp (List.all_eq_true.mp caseRuns_miss r hr) s hs
    rw [number]
    exact CaseRun.not_holds_form miss hn

theorem settled_of_mem_lowerChar {c d : Char} (h : d ∈ lowerChar c) : Settled d := by
  rcases lowerChar_cases c with ⟨_, dotted⟩ | ⟨r, hr, holds, form⟩ | ⟨_, settled⟩
  · have small : Settled 'i' ∧ Settled '\u0307' := by decide +kernel
    rw [dotted, List.mem_pair] at h
    rcases h with rfl | rfl
    · exact small.1
    · exact small.2
  · rw [form, List.mem_singleton] at h
    rw [h]
    exact settled_form hr holds
  · rw [settled, List.mem_singleton] at h
    rw [h]
    exact settled

theorem settled_of_mem_lowerAfter {d : Char} : ∀ {cs before : List Char},
    d ∈ lowerAfter before cs → Settled d
  | c :: cs, before, h => by
    rw [lowerAfter] at h
    rcases List.mem_append.mp h with h | h
    · split at h
      · have sigma : Settled 'ς' ∧ Settled 'σ' := by decide +kernel
        rw [List.mem_singleton] at h
        split at h
        · exact h ▸ sigma.1
        · exact h ▸ sigma.2
      · exact settled_of_mem_lowerChar h
    · exact settled_of_mem_lowerAfter h

theorem settled_of_mem_lower {d : Char} {cs : List Char} (h : d ∈ lower cs) : Settled d :=
  settled_of_mem_lowerAfter h

theorem lowerChar_of_ascii {c : Char} (h : c.toNat < 128) : lowerChar c = [c.toLower] := by
  have first : 'A'.toNat = 65 := rfl
  have last : 'Z'.toNat = 90 := rfl
  have lower : 'a'.toNat = 97 := rfl
  rcases lowerChar_cases c with ⟨rfl, _⟩ | ⟨r, hr, holds, form⟩ | ⟨beyond, settled⟩
  · exact absurd h (by decide)
  · have ascii := List.all_eq_true.mp caseRuns_ascii r hr
    simp only [Bool.or_eq_true, Bool.and_eq_true, Nat.blt_eq, beq_iff_eq] at ascii
    simp only [CaseRun.holds, Bool.and_eq_true, decide_eq_true_eq] at holds
    have number : r.lower + (c.toNat - r.first) = c.toLower.toNat := by
      rw [toNat_toLower, if_pos (by omega)]
      omega
    rw [form, number, Char.ofNat_toNat]
  · have other : ¬ ('A'.toNat ≤ c.toNat ∧ c.toNat ≤ 'Z'.toNat) := by
      intro capital
      have run := beyond ⟨0x41, 0x5A, 1, 0x61⟩ List.mem_cons_self
      simp [CaseRun.holds] at run
      omega
    have same : c.toLower = c := by
      rw [← Char.toNat_inj, toNat_toLower, if_neg other]
    rw [same]
    exact settled

theorem toLower_of_settled {c : Char} (h : Settled c) : c.toLower = c := by
  by_cases ascii : c.toNat < 128
  · have form := lowerChar_of_ascii ascii
    rw [h] at form
    exact (List.cons.inj form).1.symm
  · exact toLower_of_not_ascii (by omega)

/-! ## Capitals beyond ASCII -/

/-- The text has no capitals beyond ASCII. -/
def PlainCase (cs : List Char) : Prop := ∀ c ∈ cs, c.toNat < 128 ∨ Settled c

instance (cs : List Char) : Decidable (PlainCase cs) :=
  List.decidableBAll (fun c : Char => c.toNat < 128 ∨ Settled c) cs

theorem plainCase_iff {cs : List Char} :
    PlainCase cs ↔ ∀ d ∈ cs.map Char.toLower, Settled d := by
  rw [List.forall_mem_map]
  constructor
  · intro h c hc
    rcases h c hc with ascii | settled
    · exact settled_of_mem_lowerChar (lowerChar_of_ascii ascii ▸ List.mem_singleton_self _)
    · exact (toLower_of_settled settled).symm ▸ settled
  · intro h c hc
    by_cases ascii : c.toNat < 128
    · exact .inl ascii
    · have settled := h c hc
      rw [toLower_of_not_ascii (by omega)] at settled
      exact .inr settled

theorem lowerAfter_of_plainCase : ∀ {cs : List Char}, PlainCase cs →
    ∀ before, lowerAfter before cs = cs.map Char.toLower
  | [], _, _ => rfl
  | c :: cs, h, before => by
    obtain ⟨plain, others⟩ := List.forall_mem_cons.mp h
    -- The one letter whose form hangs on its neighbours is a capital beyond ASCII.
    have sigma : c ≠ 'Σ' := by
      intro eq
      rw [eq] at plain
      exact absurd plain (by decide +kernel)
    have form : lowerChar c = [c.toLower] := by
      rcases plain with ascii | settled
      · exact lowerChar_of_ascii ascii
      · rw [toLower_of_settled settled]
        exact settled
    rw [lowerAfter, if_neg sigma, form, lowerAfter_of_plainCase others]
    rfl

theorem lower_of_plainCase {cs : List Char} (h : PlainCase cs) : lower cs = cs.map Char.toLower :=
  lowerAfter_of_plainCase h []

theorem map_toLower_lower (cs : List Char) : (lower cs).map Char.toLower = lower cs := by
  have same : ∀ d ∈ lower cs, d.toLower = d := fun d hd =>
    toLower_of_settled (settled_of_mem_lower hd)
  exact (List.map_congr_left same).trans (List.map_id _)

/-- Up to the case of ASCII letters, a text in lower case is the same as those texts only that have
no other capitals. -/
theorem sameLetters_lower_iff {a b : List Char} :
    List.Forall₂ SameLetter (lower a) b ↔ PlainCase b ∧ lower a = lower b := by
  rw [sameLetters_iff, map_toLower_lower]
  constructor
  · intro h
    have plain : PlainCase b := plainCase_iff.mpr (h ▸ fun _ => settled_of_mem_lower)
    exact ⟨plain, h.trans (lower_of_plainCase plain).symm⟩
  · intro h
    exact h.2.trans (lower_of_plainCase h.1)

theorem sameLetters_lower_of_plainCase {a b : List Char} (h : PlainCase a) :
    List.Forall₂ SameLetter (lower a) b ↔ List.Forall₂ SameLetter a b := by
  rw [sameLetters_iff, map_toLower_lower, lower_of_plainCase h, sameLetters_iff]

end CallFlow.Text
