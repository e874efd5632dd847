import CallFlow.Proofs.Flow.Renaming
import CallFlow.Proofs.Project.Order

/-! Flows of files in another order. Classes are found in the order of their ids, which is that
of the files. Main statement: as long as classes of the same name lie in the same file, that
order does not show, be it in what qualifiers mean or in traces. -/

namespace CallFlow.Project

variable {r : Renaming} {p q : Project}

/-- Classes of the same name are declared in the same file. -/
def Unambiguous (p : Project) : Prop :=
  ∀ c ∈ p.classes, ∀ d ∈ p.classes, c.name = d.name → c.file = d.file

instance : Decidable p.Unambiguous :=
  inferInstanceAs (Decidable (∀ c ∈ p.classes, ∀ d ∈ p.classes, c.name = d.name → c.file = d.file))

/-- `q` is `p` under other ids, and under these everything is answered in the same way: what is
in the index, what qualifiers mean and where flows go. -/
structure Interchangeable (r : Renaming) (p q : Project) : Prop extends Renames r p q where
  byName : ∀ name : String, q.byName[name]? = p.byName[name]?.map (List.map r.cls)
  lookup : ∀ file < p.files.size, ∀ qualifier,
    q.lookup (r.file file) qualifier = Option.map (Lookup.rename r) <$> p.lookup file qualifier
  flows : ∀ e < p.functions.size, ∀ limit, ∃ t t', p.trace e limit = .ok t ∧
    q.trace (r.function e) limit = .ok t' ∧ t'.functions = t.functions.map r.function ∧
    t'.unresolved = t.unresolved.map (Unresolved.rename r) ∧
    ∀ once, t'.entries q once = t.entries p once

namespace Renames

variable (renames : Renames r p q)
include renames

theorem embeds : Embeds r p q := by
  refine ⟨fun i f hf => ?_, fun i c hc => ?_, fun i f hf => ?_, ?_, ?_⟩
  · rw [renames.files.item, hf, Option.map_some]
  · rw [renames.classes.item, hc, Option.map_some]
  · rw [renames.functions.item, hf, Option.map_some]
  · exact Nat.le_of_eq renames.classes.size.symm
  · exact Nat.le_of_eq renames.functions.size.symm

theorem mem_allNamed_iff {name : String} {i : ClassId} :
    r.cls i ∈ q.allNamed name ↔ i ∈ p.allNamed name := by
  rw [mem_allNamed, mem_allNamed, renames.classes.item]
  cases p.classes[i]? with
  | none => simp
  | some c => simp [ClassDef.rename]

/-- The classes of a name lie in one file, so they are found in the same order. -/
theorem allNamed (unambiguous : p.Unambiguous) (name : String) :
    q.allNamed name = (p.allNamed name).map r.cls := by
  have ascending : ((p.allNamed name).map r.cls).Pairwise (· < ·) := by
    refine List.pairwise_map.mpr ((allNamed_ascending name).imp_of_mem fun hi hj lt => ?_)
    obtain ⟨c, hc, hn⟩ := mem_allNamed.mp hi
    obtain ⟨d, hd, hn'⟩ := mem_allNamed.mp hj
    have same := unambiguous c (Array.mem_of_getElem? hc) d (Array.mem_of_getElem? hd)
      (hn.trans hn'.symm)
    exact renames.classOrder _ _ c d hc hd same lt
  refine (allNamed_ascending name).eq_of_mem_iff ascending fun i => ?_
  rw [← r.cls.apply_symm_apply i, renames.mem_allNamed_iff,
    List.mem_map_of_injective r.cls.injective]

theorem byName (unambiguous : p.Unambiguous) (indexed : p.Indexed) (indexed' : q.Indexed)
    (name : String) : q.byName[name]? = p.byName[name]?.map (List.map r.cls) := by
  refine Option.ext fun ids => ?_
  rw [indexed'.getElem?_eq_some_iff, renames.allNamed unambiguous, Option.map_eq_some_iff]
  constructor
  · rintro ⟨inhabited, rfl⟩
    exact ⟨_, indexed.getElem?_eq_some_iff.mpr ⟨by simpa using inhabited, rfl⟩, rfl⟩
  · rintro ⟨ids, found, rfl⟩
    obtain ⟨inhabited, rfl⟩ := indexed.getElem?_eq_some_iff.mp found
    exact ⟨by simpa using inhabited, rfl⟩

theorem lookup (unambiguous : p.Unambiguous) (indexed : p.Indexed) (indexed' : q.Indexed)
    (file : FileId) (hfile : file < p.files.size) (qualifier : String) :
    q.lookup (r.file file) qualifier = Option.map (Lookup.rename r) <$> p.lookup file qualifier :=
  renames.embeds.lookup indexed indexed' (Array.getElem?_eq_getElem hfile)
    (fun c _ => renames.allNamed unambiguous c.2) (renames.allNamed unambiguous _)

theorem interchangeable (unambiguous : p.Unambiguous) (built : p.Built) (indexed' : q.Indexed) :
    Interchangeable r p q := by
  have indexed := built.indexed
  have lookup := renames.lookup unambiguous indexed indexed'
  have mirrors : Mirrors r p q :=
    ⟨renames.embeds, fun file hfile qualifier _ => lookup file hfile qualifier⟩
  refine ⟨renames, renames.byName unambiguous indexed indexed', lookup, fun e he limit => ?_⟩
  obtain ⟨t, traced, traced', entries⟩ := mirrors.flow built he limit
  exact ⟨t, t.rename r, traced, traced', t.functions_rename r, t.unresolved_rename r, entries⟩

end Renames

/-- Sources in another order make the same project up to ids, where each file goes to its new
place and takes its classes and functions along. If classes of the same name lie in the same
file, then nothing else depends on the order. -/
theorem ofSources_reordered {sources : List Source} (read : ofSources sources = .ok p)
    (unambiguous : p.Unambiguous) (σ : Equiv.Perm (Fin sources.length)) :
    ∃ q r, ofSources (List.ofFn fun j => sources.get (σ j)) = .ok q ∧
      (∀ j : Fin sources.length, r.file (σ j) = j.val) ∧ Interchangeable r p q := by
  obtain ⟨q, r, read', renames, places⟩ := exists_renames_ofSources read σ
  have indexed' := (built_ofSources read').indexed
  exact ⟨q, r, read', places, renames.interchangeable unambiguous (built_ofSources read) indexed'⟩

theorem ofSources_reordered_pair :
    ofSources [Sample.caller, Sample.callee] = .ok Sample.pair ∧ Sample.pair.Unambiguous ∧
      ∃ q r, ofSources [Sample.callee, Sample.caller] = .ok q ∧ r.file 1 = 0 ∧ r.file 0 = 1 ∧
        Interchangeable r Sample.pair q := by
  have accepted : [Sample.caller, Sample.callee].filter Source.accepted =
      [Sample.caller, Sample.callee] := List.filter_eq_self.mpr (by decide +kernel)
  have read : ofSources [Sample.caller, Sample.callee] = .ok Sample.pair :=
    accepted ▸ foldlM_filter_accepted [Sample.caller, Sample.callee] (empty ".")
  have unambiguous : Sample.pair.Unambiguous := by decide +kernel
  obtain ⟨q, r, read', places, same⟩ := ofSources_reordered read unambiguous (Equiv.swap 0 1)
  exact ⟨read, unambiguous, q, r, read', places 0, places 1, same⟩

end CallFlow.Project
