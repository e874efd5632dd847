import CallFlow.Proofs.Flow.Renaming
import CallFlow.Proofs.Project.Candidates
import CallFlow.Proofs.Project.Growth

/-! Files that have nothing to do with each other. The names of classes that a project looks up
can be read off it. Main statement: a further file in which no class has one of these names
changes no trace that starts elsewhere. -/

namespace CallFlow

/-! ## Names that are looked up -/

namespace Project

variable {p : Project}

/-- The names of classes that are looked up for a project: what its qualifiers end in, and what
the paths of renaming imports end in. -/
def sought (p : Project) : List String :=
  (p.qualifiers.map fun qualifier => Text.lastSegment (bare qualifier)) ++
    p.files.toList.flatMap fun f =>
      (f.imports.filter fun i => i.renamed.isSome).map fun i => Text.lastSegment i.path

theorem mem_sought_of_qualifier {qualifier : String} (h : qualifier ∈ p.qualifiers) :
    Text.lastSegment (bare qualifier) ∈ p.sought :=
  List.mem_append_left _ (List.mem_map.mpr ⟨qualifier, h, rfl⟩)

theorem mem_sought_of_candidate {f : SourceFile} (hf : f ∈ p.files) {qualifier : String}
    (written : qualifier ∈ p.qualifiers) {c : Candidate}
    (h : c ∈ f.candidates (bare qualifier)) : c.2 ∈ p.sought := by
  rcases SourceFile.snd_of_mem_candidates h with simple | ⟨i, hi, renamed, last⟩
  · rw [simple]
    exact mem_sought_of_qualifier written
  · refine List.mem_append_right _ (List.mem_flatMap.mpr ⟨f, Array.mem_toList_iff.mpr hf, ?_⟩)
    have renames : i.renamed.isSome = true := by rw [renamed]; rfl
    exact List.mem_map.mpr ⟨i, List.mem_filter.mpr ⟨List.mem_of_mem_filter hi, renames⟩, last.symm⟩

/-! ## A further file with other names -/

theorem embeds_add (p : Project) (o : Outline) : Embeds .refl p (p.add o) := by
  have le := p.sizes_le_add o
  refine ⟨fun i f hf => ?_, fun i c hc => ?_, fun i f hf => ?_, le.classes, le.functions⟩
  · rw [SourceFile.rename_refl, ← hf]
    exact getElem?_files_add o (Array.getElem?_eq_some_iff.mp hf).1
  · rw [ClassDef.rename_refl, ← hc]
    exact getElem?_classes_add o (Array.getElem?_eq_some_iff.mp hc).1
  · rw [FunctionDef.rename_refl, ← hf]
    exact getElem?_functions_add o (Array.getElem?_eq_some_iff.mp hf).1

section Unsought

variable {o : Outline} (unsought : ∀ c ∈ (p.placed o).classes, c.name ∉ p.sought)
include unsought

theorem allNamed_add (indexed : p.Indexed) {name : String} (h : name ∈ p.sought) :
    (p.add o).allNamed name = p.allNamed name := by
  have none : (((p.placed o).classes.zipIdx p.classes.size).filter fun c => c.1.name == name) =
      [] := by
    refine List.filter_eq_nil_iff.mpr fun c hc named => ?_
    exact unsought c.1 (List.fst_mem_of_mem_zipIdx hc) (beq_iff_eq.mp named ▸ h)
  rw [← (indexed.add o).named, classesNamed_add, none, List.map_nil, List.append_nil,
    indexed.named]

theorem mirrors_add (indexed : p.Indexed) : Mirrors .refl p (p.add o) := by
  have embeds := embeds_add p o
  refine ⟨embeds, fun file hfile qualifier written => ?_⟩
  have hf := Array.getElem?_eq_getElem hfile
  have same : ∀ name ∈ p.sought,
      (p.add o).allNamed name = (p.allNamed name).map Renaming.refl.cls := by
    intro name h
    rw [allNamed_add unsought indexed h]
    exact (List.map_id _).symm
  refine embeds.lookup indexed (indexed.add o) hf (fun c hc => ?_) ?_
  · exact same _ (mem_sought_of_candidate (Array.getElem_mem hfile) written hc)
  · exact same _ (mem_sought_of_qualifier written)

end Unsought

/-- The functions of `p` have the same flows and texts in `q`. -/
structure SameFlows (p q : Project) : Prop where
  traces : ∀ e < p.functions.size, ∀ limit, ∃ t, p.trace e limit = .ok t ∧
    q.trace e limit = .ok t ∧ ∀ once, t.entries q once = t.entries p once
  texts : ∀ i < p.functions.size, q.render i = p.render i

theorem Mirrors.sameFlows {q : Project} (mirrors : Mirrors .refl p q) (built : p.Built) :
    SameFlows p q := by
  refine ⟨fun e he limit => ?_, fun i hi => mirrors.render built.closed hi⟩
  obtain ⟨t, traced, traced', entries⟩ := mirrors.flow built he limit
  rw [Trace.rename_refl] at traced' entries
  exact ⟨t, traced, traced', entries⟩

/-- A further file none of whose classes has a name that the project looks up changes no flow
of the project; in particular one without classes does not. -/
theorem sameFlows_of_unrelated {q : Project} {s : Source} (built : p.Built)
    (added : p.addSource s = .ok q) :
    ((∀ c ∈ q.classes, c.file = p.files.size → c.name ∉ p.sought) → SameFlows p q) ∧
      (q.classes.size = p.classes.size → SameFlows p q) := by
  obtain ⟨o, _, rfl⟩ := map_eq_ok.mp added
  constructor
  · intro unsought
    refine Mirrors.sameFlows (mirrors_add (o := o) (fun c hc => ?_) built.indexed) built
    refine unsought c ?_ ((p.placed_at o).classes c hc).1
    rw [classes_add]
    exact Array.mem_append_right _ (List.mem_toArray.mpr hc)
  · intro same
    have none : (p.placed o).classes = [] := by
      rw [classes_add, Array.size_append, List.size_toArray] at same
      exact List.eq_nil_of_length_eq_zero (Nat.add_eq_left.mp same)
    refine Mirrors.sameFlows (mirrors_add (o := o) (fun c hc => ?_) built.indexed) built
    rw [none] at hc
    cases hc

/-- The two files look for nothing but a class `B`, or one that has the name of the property. -/
theorem sameFlows_of_unrelated_pair :
    Sample.pair.sought = ["B", "b"] ∧ SameFlows Sample.pair (Sample.pair.offer Sample.unrelated) ∧
      SameFlows Sample.pair (Sample.pair.offer Sample.source) := by
  have unsought : ∀ c ∈ (Sample.pair.offer Sample.unrelated).classes,
      c.file = Sample.pair.files.size → c.name ∉ Sample.pair.sought := by
    decide +kernel
  have withClass := sameFlows_of_unrelated Sample.pair_built
    (addSource_eq_ok_offer (s := Sample.unrelated) (by decide +kernel))
  have withoutClass := sameFlows_of_unrelated Sample.pair_built
    (addSource_eq_ok_offer (s := Sample.source) (by decide +kernel))
  exact ⟨by decide +kernel, withClass.1 unsought, withoutClass.2 (by decide +kernel)⟩

end Project

end CallFlow
