import CallFlow.Proofs.Distinct
import CallFlow.Proofs.Text.Segments
import CallFlow.Scope

/-! Where a qualifier is looked for, read segment by segment. Main statement: the places to look in
are those that the segments of the qualifier and of the imports give, in order and each once. Paths
are compared character by character when a qualifier is looked up, so what has to be shown is that
a path is matched at the bounds of its segments only. -/

namespace CallFlow

open CallFlow.Text (segments)

/-! ## Places by segments -/

/-- Where an import of a single class leads a qualifier. Its path is the qualifier or ends in the
segments of it, or else the name that it gives to the class is the first of these segments. -/
def Import.bySegments (qualifier : String) (i : Import) : Option Candidate :=
  let wanted := segments qualifier
  let path := segments i.path
  let simple := wanted.getLastD ""
  if path = wanted then some (".".intercalate wanted.dropLast, simple)
  else if wanted <:+ path then
    some (".".intercalate (path.take (path.length - wanted.length)), simple)
  else if i.renamed = some (wanted.headD "") then
    if wanted.length = 1 then some (".".intercalate path.dropLast, path.getLastD "")
    else some (i.path, simple)
  else none

/-- The places to look in, with repetitions: imports of single classes, the package that the
qualifier is written with, the file's package, imports of whole packages. -/
def SourceFile.bySegments (f : SourceFile) (qualifier : String) : List Candidate :=
  let wanted := segments qualifier
  let simple := wanted.getLastD ""
  (f.imports.filter fun i => !i.wildcard).filterMap (Import.bySegments qualifier) ++
    (if 1 < wanted.length then [(".".intercalate wanted.dropLast, simple)] else []) ++
    [(f.package, simple)] ++
    (f.imports.filter fun i => i.wildcard).map fun i => (i.path, simple)

theorem isDotted_iff_segments {q : String} :
    Text.isDotted q = true ↔ 1 < (segments q).length := by
  have one := Text.length_segments_eq_one_iff (s := q)
  have some_segment := List.length_pos_iff.mpr (Text.segments_ne_nil q)
  rw [Text.isDotted_iff]
  constructor
  · intro dotted
    have several : (segments q).length ≠ 1 := fun h => one.mp h dotted
    omega
  · intro several
    by_contra h
    have := one.mpr h
    omega

theorem SourceFile.viaImport_eq (q : String) (i : Import) :
    viaImport q i = i.bySegments q := by
  unfold viaImport Import.bySegments
  simp only [Text.getLastD_segments, Text.intercalate_dropLast_segments, Text.headD_segments,
    Text.length_segments_eq_one_iff, Text.beforeName?_eq, beq_iff_eq]
  by_cases same : i.path = q
  · rw [if_pos same, if_pos (congrArg segments same), same]
  have differ : segments i.path ≠ segments q := fun h => same (Text.segments_injective h)
  rw [if_neg same, if_neg differ]
  by_cases ends : segments q <:+ segments i.path
  · rw [if_pos ends, if_pos ⟨ends, differ⟩]
  rw [if_neg ends, if_neg (fun h => ends h.1)]
  by_cases renamed : i.renamed = some (Text.firstSegment q)
  · simp only [renamed, if_true, Text.isDotted_iff]
    by_cases dotted : '.' ∈ q.toList
    · rw [if_pos dotted, if_neg (not_not_intro dotted)]
    · rw [if_neg dotted, if_pos dotted]
  · simp only [renamed, if_false]

theorem Import.isSome_bySegments (q : String) (i : Import) : (i.bySegments q).isSome = true ↔
    segments q <:+ segments i.path ∨ i.renamed = some ((segments q).headD "") := by
  unfold bySegments
  dsimp only
  by_cases same : segments i.path = segments q
  · rw [if_pos same, same]
    simp
  rw [if_neg same]
  by_cases ends : segments q <:+ segments i.path
  · simp [ends]
  rw [if_neg ends]
  by_cases renamed : i.renamed = some ((segments q).headD "")
  · rw [if_pos renamed]
    split <;> simp [renamed]
  · rw [if_neg renamed]
    simpa [ends] using renamed

/-! ## Names to look for -/

/-- Only the name that an import gives to a class leads to another name than the written one. -/
theorem SourceFile.snd_of_viaImport {q : String} {i : Import} {c : Candidate}
    (h : viaImport q i = some c) :
    c.2 = Text.lastSegment q ∨ i.renamed = some q ∧ c.2 = Text.lastSegment i.path := by
  unfold viaImport at h
  dsimp only at h
  split at h
  · cases h
    exact .inl rfl
  split at h
  · cases h
    exact .inl rfl
  split at h
  · rename_i renamed
    split at h
    · cases h
      exact .inl rfl
    · rename_i plain
      cases h
      rw [Text.isDotted_iff] at plain
      rw [beq_iff_eq, Text.firstSegment_of_not_mem plain] at renamed
      exact .inr ⟨renamed, rfl⟩
  · cases h

theorem SourceFile.snd_of_mem_candidates {f : SourceFile} {q : String} {c : Candidate}
    (h : c ∈ f.candidates q) :
    c.2 = Text.lastSegment q ∨ ∃ i ∈ f.imports.filter fun i => !i.wildcard,
      i.renamed = some q ∧ c.2 = Text.lastSegment i.path := by
  have h := mem_of_mem_distinctBeyond h
  rw [List.mem_append, List.mem_append, List.mem_append] at h
  rcases h with ((named | own) | package) | wildcard
  · obtain ⟨i, hi, hc⟩ := List.mem_filterMap.mp named
    exact (snd_of_viaImport hc).imp_right fun found => ⟨i, hi, found⟩
  · split at own
    · exact .inl (by rw [List.mem_singleton.mp own])
    · cases own
  · exact .inl (by rw [List.mem_singleton.mp package])
  · obtain ⟨i, _, rfl⟩ := List.mem_map.mp wildcard
    exact .inl rfl

/-! ## The main statement -/

/-- The places to look in are those by segments, each the first time that it comes up. An import
gives one only if its path ends in whole segments, or by the name that it gives to the class. -/
theorem SourceFile.candidates_by_segments (f : SourceFile) (q : String) :
    f.candidates q = (f.bySegments q).eraseDups ∧ (f.candidates q).Nodup ∧
      ∀ i : Import, (viaImport q i).isSome = true ↔
        segments q <:+ segments i.path ∨ i.renamed = some ((segments q).headD "") := by
  have places : f.candidates q = distinct id (f.bySegments q) := by
    unfold candidates bySegments
    simp only [Text.getLastD_segments, Text.intercalate_dropLast_segments,
      isDotted_iff_segments, funext (viaImport_eq q)]
  rw [places]
  refine ⟨distinct_eq_eraseDups _, (nodup_distinctBeyond _ []).1, fun i => ?_⟩
  rw [viaImport_eq]
  exact i.isSome_bySegments q

end CallFlow
