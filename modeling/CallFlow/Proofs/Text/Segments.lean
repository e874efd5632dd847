import CallFlow.Text.Basic
import Mathlib.Data.List.TakeWhile
import Mathlib.Data.List.Infix

/-! Dotted names segment by segment. A name is cut at its dots into segments, one more than there
are dots, and joining them with dots gives the name back. Everything that is asked about a dotted
name character by character has an answer in terms of its segments. -/

namespace CallFlow.Text

/-! ## Cutting at a character -/

section Cut

variable {α : Type} [DecidableEq α]

theorem not_mem_takeWhile_ne (c : α) (cs : List α) : c ∉ cs.takeWhile (· ≠ c) := by
  intro h
  simpa using List.mem_takeWhile_imp h

theorem takeWhile_ne_of_not_mem {c : α} {cs : List α} (h : c ∉ cs) :
    cs.takeWhile (· ≠ c) = cs := by
  rw [List.takeWhile_eq_self_iff]
  intro d hd
  have other : d ≠ c := fun he => h (he ▸ hd)
  simpa using other

/-- A text with the character in it is cut at the first one. -/
theorem exists_eq_takeWhile_ne {c : α} {cs : List α} (h : c ∈ cs) :
    ∃ rest, cs.dropWhile (· ≠ c) = c :: rest ∧ cs = cs.takeWhile (· ≠ c) ++ c :: rest := by
  induction cs with
  | nil => cases h
  | cons d cs ih =>
    by_cases hd : d = c
    · exact ⟨cs, by simp [hd], by simp [hd]⟩
    · obtain ⟨rest, drop, cut⟩ := ih ((List.mem_cons.mp h).resolve_left (Ne.symm hd))
      refine ⟨rest, by simpa [hd] using drop, ?_⟩
      rw [List.takeWhile_cons_of_pos (by simpa using hd), List.cons_append, ← cut]

theorem takeWhile_ne_append {c : α} {front : List α} (h : c ∉ front) (rest : List α) :
    (front ++ c :: rest).takeWhile (· ≠ c) = front := by
  rw [List.takeWhile_append_of_pos (List.takeWhile_eq_self_iff.mp (takeWhile_ne_of_not_mem h)),
    List.takeWhile_cons_of_neg (by simp), List.append_nil]

theorem dropWhile_ne_append {c : α} {front : List α} (h : c ∉ front) (rest : List α) :
    (front ++ c :: rest).dropWhile (· ≠ c) = c :: rest := by
  rw [List.dropWhile_append_of_pos (List.takeWhile_eq_self_iff.mp (takeWhile_ne_of_not_mem h)),
    List.dropWhile_cons_of_neg (by simp)]

end Cut

/-! ## Segments -/

/-- The parts of a name between its dots. -/
def segments (s : String) : List String := (s.toList.splitOn '.').map String.ofList

theorem segments_ne_nil (s : String) : segments s ≠ [] := by
  intro h
  exact List.splitOn_ne_nil '.' s.toList (List.map_eq_nil_iff.mp h)

theorem intercalate_segments (s : String) : ".".intercalate (segments s) = s := by
  have back : (segments s).map String.toList = s.toList.splitOn '.' := by
    simp [segments]
  apply String.ext
  rw [String.toList_intercalate, back]
  exact List.intercalate_splitOn '.'

theorem segments_injective {s t : String} (h : segments s = segments t) : s = t := by
  rw [← intercalate_segments s, h, intercalate_segments]

theorem segments_append (a b : String) : segments (a ++ "." ++ b) = segments a ++ segments b := by
  have dot : (a ++ "." ++ b).toList = a.toList ++ '.' :: b.toList := by simp
  rw [segments, dot, List.splitOn_append_cons_self, List.map_append]
  rfl

theorem segments_of_not_mem {s : String} (h : '.' ∉ s.toList) : segments s = [s] := by
  rw [segments, List.splitOn_eq_singleton h, List.map_singleton, String.ofList_toList]

/-! ## The last segment and what is in front of it -/

theorem isDotted_iff {s : String} : isDotted s = true ↔ '.' ∈ s.toList := by
  simp [isDotted]

theorem not_mem_lastSegment (s : String) : '.' ∉ (lastSegment s).toList := by
  rw [lastSegment, String.toList_ofList, List.mem_reverse]
  exact not_mem_takeWhile_ne '.' _

/-- A name with a dot is cut at the last one. -/
theorem eq_of_dotted {s : String} (h : '.' ∈ s.toList) :
    s = qualifierOf s ++ "." ++ lastSegment s := by
  obtain ⟨front, hfront, cut⟩ := exists_eq_takeWhile_ne (List.mem_reverse.mpr h)
  have whole := congrArg List.reverse cut
  rw [List.reverse_reverse, List.reverse_append, List.reverse_cons] at whole
  apply String.ext
  rw [qualifierOf, lastSegment, hfront]
  simpa using whole

theorem lastSegment_of_not_mem {s : String} (h : '.' ∉ s.toList) : lastSegment s = s := by
  have whole := takeWhile_ne_of_not_mem (fun hd => h (List.mem_reverse.mp hd))
  rw [lastSegment, whole, List.reverse_reverse, String.ofList_toList]

theorem qualifierOf_of_not_mem {s : String} (h : '.' ∉ s.toList) : qualifierOf s = "" := by
  have whole := takeWhile_ne_of_not_mem (fun hd => h (List.mem_reverse.mp hd))
  have rest : s.toList.reverse.dropWhile (· ≠ '.') = [] := by
    rw [List.dropWhile_eq_nil_iff]
    exact List.takeWhile_eq_self_iff.mp whole
  rw [qualifierOf, rest]
  rfl

/-- The last segment, and all in front of it joined again. -/
theorem segments_eq (s : String) :
    ∃ lead, segments s = lead ++ [lastSegment s] ∧ qualifierOf s = ".".intercalate lead := by
  by_cases h : '.' ∈ s.toList
  · refine ⟨segments (qualifierOf s), ?_, (intercalate_segments _).symm⟩
    conv => lhs; rw [eq_of_dotted h]
    rw [segments_append, segments_of_not_mem (not_mem_lastSegment s)]
  · refine ⟨[], ?_, qualifierOf_of_not_mem h⟩
    rw [segments_of_not_mem h, lastSegment_of_not_mem h]
    rfl

theorem getLastD_segments (s : String) : (segments s).getLastD "" = lastSegment s := by
  obtain ⟨lead, hs, _⟩ := segments_eq s
  rw [hs, List.getLastD_concat]

theorem intercalate_dropLast_segments (s : String) :
    ".".intercalate (segments s).dropLast = qualifierOf s := by
  obtain ⟨lead, hs, hq⟩ := segments_eq s
  rw [hs, List.dropLast_concat, hq]

theorem lastSegment_append (a b : String) : lastSegment (a ++ "." ++ b) = lastSegment b := by
  obtain ⟨lead, hb, _⟩ := segments_eq b
  rw [← getLastD_segments, segments_append, hb, ← List.append_assoc, List.getLastD_concat]

theorem qualifierOf_append {a b : String} (h : '.' ∉ b.toList) :
    qualifierOf (a ++ "." ++ b) = a := by
  rw [← intercalate_dropLast_segments, segments_append, segments_of_not_mem h,
    List.dropLast_concat, intercalate_segments]

theorem length_segments_eq_one_iff {s : String} : (segments s).length = 1 ↔ '.' ∉ s.toList := by
  constructor
  · intro one h
    rw [eq_of_dotted h, segments_append, List.length_append] at one
    have front := List.length_pos_iff.mpr (segments_ne_nil (qualifierOf s))
    have back := List.length_pos_iff.mpr (segments_ne_nil (lastSegment s))
    omega
  · intro h
    rw [segments_of_not_mem h]
    rfl

/-! ## The first segment -/

theorem headD_segments (s : String) : (segments s).headD "" = firstSegment s := by
  by_cases h : '.' ∈ s.toList
  · obtain ⟨rest, _, cut⟩ := exists_eq_takeWhile_ne h
    have clear := not_mem_takeWhile_ne '.' s.toList
    rw [segments, cut, List.splitOn_append_cons_self_of_not_mem clear]
    rfl
  · rw [segments_of_not_mem h, firstSegment, takeWhile_ne_of_not_mem h, String.ofList_toList]
    rfl

theorem firstSegment_append {a : String} (h : '.' ∉ a.toList) (b : String) :
    firstSegment (a ++ "." ++ b) = a := by
  rw [← headD_segments, segments_append, segments_of_not_mem h]
  rfl

theorem firstSegment_of_not_mem {s : String} (h : '.' ∉ s.toList) : firstSegment s = s := by
  rw [← headD_segments, segments_of_not_mem h]
  rfl

/-! ## Names that end in another one -/

theorem beforeName?_eq_some_iff {path name package : String} :
    beforeName? path name = some package ↔ path = package ++ "." ++ name := by
  rw [beforeName?, Option.map_eq_some_iff]
  constructor
  · intro h
    obtain ⟨front, hf, rfl⟩ := h
    rw [List.isSuffixOf?_eq_some_iff_append_eq] at hf
    apply String.ext
    simp [← hf]
  · intro h
    refine ⟨package.toList, ?_, String.ofList_toList⟩
    rw [List.isSuffixOf?_eq_some_iff_append_eq, h]
    simp

/-- A path ends in a dot and a name exactly if its segments end in those of the name and are more
than those. -/
theorem beforeName?_eq (path name : String) : beforeName? path name =
    if segments name <:+ segments path ∧ segments path ≠ segments name then
      some (".".intercalate ((segments path).take ((segments path).length - (segments name).length)))
    else none := by
  split
  · rename_i h
    obtain ⟨⟨lead, hlead⟩, hne⟩ := h
    have some_lead : lead ≠ [] := by
      intro hnil
      rw [hnil] at hlead
      exact hne hlead.symm
    rw [beforeName?_eq_some_iff, ← hlead, List.length_append, Nat.add_sub_cancel,
      List.take_left]
    conv => lhs; rw [← intercalate_segments path, ← hlead]
    rw [String.intercalate_append_of_ne_nil some_lead (segments_ne_nil name), intercalate_segments]
  · rename_i h
    rw [Option.eq_none_iff_forall_ne_some]
    intro package hp
    rw [beforeName?_eq_some_iff] at hp
    apply h
    rw [hp, segments_append]
    refine ⟨List.suffix_append _ _, ?_⟩
    intro same
    have front := List.length_pos_iff.mpr (segments_ne_nil package)
    have length := congrArg List.length same
    rw [List.length_append] at length
    omega

end CallFlow.Text
