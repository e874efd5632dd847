import CallFlow.Proofs.Project.Built
import CallFlow.Scope
import Mathlib.Data.List.Find
import Mathlib.Data.List.Sort

/-! The index of class names against the classes themselves. Main statement: in every project
that is built from sources, accepted or refused, the index lists for each name the classes of
that name in the order of their ids, so looking a qualifier up through it finds what a scan
of all classes finds. -/

namespace CallFlow

section Except

variable {ε α β : Type}

theorem findM?_eq_find? {f : α → Except ε Bool} {g : α → Bool} :
    ∀ {l : List α}, (∀ a ∈ l, f a = .ok (g a)) → l.findM? f = .ok (l.find? g)
  | [], _ => rfl
  | a :: l, h => by
    have rest := findM?_eq_find? fun b hb => h b (List.mem_cons_of_mem a hb)
    rw [List.findM?, h a List.mem_cons_self, List.find?_cons]
    cases g a with
    | true => rfl
    | false => exact rest

theorem findSomeM?_eq_findSome? {f : α → Except ε (Option β)} {g : α → Option β}
    (h : ∀ a, f a = .ok (g a)) (l : List α) : l.findSomeM? f = .ok (l.findSome? g) := by
  have hf : f = fun a => pure (g a) := funext h
  rw [hf, List.findSomeM?_pure]
  rfl

end Except

namespace Project

variable {p : Project}

/-! ## The index -/

/-- The classes of a name, as a look at all classes finds them. -/
def allNamed (p : Project) (name : String) : List ClassId :=
  (p.classes.toList.zipIdx.filter fun c => c.1.name == name).map Prod.snd

theorem mem_allNamed {name : String} {i : ClassId} :
    i ∈ p.allNamed name ↔ ∃ c, p.classes[i]? = some c ∧ c.name = name := by
  simp only [allNamed, List.mem_map, List.mem_filter, beq_iff_eq, Prod.exists, exists_eq_right,
    List.mk_mem_zipIdx_iff_getElem?, Array.getElem?_toList]

theorem allNamed_ascending (name : String) : (p.allNamed name).Pairwise (· < ·) := by
  have all : (p.classes.toList.zipIdx.map Prod.snd).Pairwise (· < ·) := by
    rw [List.zipIdx_map_snd]
    exact List.pairwise_lt_range'
  exact all.sublist (List.filter_sublist.map Prod.snd)

/-- Entering classes leaves no name with an empty entry. -/
theorem enter_ne_nil : ∀ (cs : List ClassDef) (index : Std.TreeMap String (List ClassId))
    (first : ClassId), (∀ name : String, index[name]? ≠ some []) →
      ∀ name : String, (enter index first cs)[name]? ≠ some []
  | [], _, _, h => h
  | c :: cs, index, first, h => by
    rw [enter]
    refine enter_ne_nil cs _ _ fun name => ?_
    rw [Std.TreeMap.getElem?_insert]
    split
    · simp
    · exact h name

/-- The index says what a look at all classes finds, and has no entry for nothing. -/
structure Indexed (p : Project) : Prop where
  named : ∀ name, p.classesNamed name = p.allNamed name
  inhabited : ∀ name : String, p.byName[name]? ≠ some []

theorem classesNamed_add (o : Outline) (name : String) :
    (p.add o).classesNamed name = p.classesNamed name ++
      (((p.placed o).classes.zipIdx p.classes.size).filter fun c => c.1.name == name).map
        Prod.snd :=
  getD_enter name _ _ _

theorem Indexed.add (h : p.Indexed) (o : Outline) : (p.add o).Indexed := by
  refine ⟨fun name => ?_, enter_ne_nil _ _ _ h.inhabited⟩
  rw [classesNamed_add, h.named, allNamed, allNamed, classes_add]
  simp [List.zipIdx_append]

theorem indexed_empty (root : String) : (empty root).Indexed := by
  constructor <;> simp [empty, classesNamed, allNamed]

theorem Built.indexed (built : p.Built) : p.Indexed :=
  built.invariant indexed_empty fun _ _ o _ _ h => h.add o

theorem Indexed.getElem?_eq_some_iff (h : p.Indexed) {name : String} {ids : List ClassId} :
    p.byName[name]? = some ids ↔ ids ≠ [] ∧ ids = p.allNamed name := by
  have found : p.byName[name]?.getD [] = p.allNamed name := by
    rw [← Std.TreeMap.getD_eq_getD_getElem?]
    exact h.named name
  constructor
  · intro hi
    refine ⟨?_, by simpa [hi] using found⟩
    rintro rfl
    exact h.inhabited name hi
  · rintro ⟨hne, rfl⟩
    cases hi : p.byName[name]? with
    | none => exact absurd (by simpa [hi] using found.symm) hne
    | some ids => simpa [hi] using found

/-! ## Scanning all classes -/

/-- What a qualifier that is not blank means in a file, without the index: the first class of
all that lies where a candidate says, for the first candidate that has one, else the first
class of the simple name. -/
def scanIn (p : Project) (f : SourceFile) (qualifier : String) : Option Lookup :=
  ((f.candidates qualifier).findSome? fun candidate =>
    (p.classes.findIdx? fun c => c.name == candidate.2 && c.package == candidate.1).map
      (.byPackage candidate.1)).or
    ((p.classes.findIdx? fun c => c.name == Text.lastSegment qualifier).map .byName)

/-- What a qualifier means in a file, without the index. -/
def scan (p : Project) (f : SourceFile) (qualifier : String) : Option Lookup :=
  let q := bare qualifier
  if q.isEmpty then none else p.scanIn f q

theorem findIdx?_eq_find?_zipIdx {α : Type} (xs : Array α) (q : α → Bool) :
    xs.findIdx? q = (xs.toList.zipIdx.find? fun c => q c.1).map Prod.snd := by
  obtain ⟨l⟩ := xs
  rw [List.findIdx?_toArray]
  exact List.findIdx?_eq_fst_find?_zipIdx

theorem head?_allNamed (name : String) :
    (p.allNamed name).head? = p.classes.findIdx? fun c => c.name == name := by
  rw [allNamed, List.head?_map, List.head?_filter, findIdx?_eq_find?_zipIdx]

theorem find?_allNamed (name : String) (q : ClassDef → Bool) :
    ((p.allNamed name).find? fun i => p.classes[i]?.any q) =
      p.classes.findIdx? fun c => c.name == name && q c := by
  rw [allNamed, List.find?_map, List.find?_filter, findIdx?_eq_find?_zipIdx]
  refine congrArg (Option.map Prod.snd) (List.find?_congr fun c hc => ?_)
  have hi : p.classes[c.2]? = some c.1 := by
    rw [← Array.getElem?_toList]
    exact List.mk_mem_zipIdx_iff_getElem?.mp hc
  by_cases h : c.1.name = name
  · simp [hi, h]
  · simp [h]

namespace Indexed

theorem inPackage?_eq (h : p.Indexed) (candidate : Candidate) :
    p.inPackage? candidate = .ok ((p.classes.findIdx? fun c =>
      c.name == candidate.2 && c.package == candidate.1).map (.byPackage candidate.1)) := by
  have found : ((p.classesNamed candidate.2).findM? fun c =>
      return (← p.classDef c).package == candidate.1) = .ok (p.classes.findIdx? fun c =>
        c.name == candidate.2 && c.package == candidate.1) := by
    rw [h.named, ← find?_allNamed]
    refine findM?_eq_find? fun i hi => ?_
    obtain ⟨c, hc, _⟩ := mem_allNamed.mp hi
    simp [classDef, hc]
  unfold inPackage?
  rw [found]
  rfl

theorem lookupIn_eq (h : p.Indexed) (f : SourceFile) (q : String) :
    p.lookupIn f q = .ok (p.scanIn f q) := by
  unfold lookupIn scanIn
  rw [findSomeM?_eq_findSome? h.inPackage?_eq, h.named, head?_allNamed]
  cases (f.candidates q).findSome? fun candidate => (p.classes.findIdx? fun c =>
    c.name == candidate.2 && c.package == candidate.1).map (Lookup.byPackage candidate.1) with
  | none => rfl
  | some found => rfl

theorem lookup_eq (h : p.Indexed) {file : FileId} {f : SourceFile}
    (hf : p.files[file]? = some f) (qualifier : String) :
    p.lookup file qualifier = .ok (p.scan f qualifier) := by
  have found : p.file file = .ok f := by simp [Project.file, hf]
  unfold lookup scan
  dsimp only
  split
  · rfl
  · rw [found]
    exact h.lookupIn_eq f _

end Indexed

/-- The index has an entry for exactly the names of classes, with the ids of those classes
in order; and whatever file a qualifier stands in, it means what the scan says. -/
theorem lookup_eq_scan (built : p.Built) :
    (∀ (name : String) (ids : List ClassId), p.byName[name]? = some ids ↔
      ids ≠ [] ∧ ids.Pairwise (· < ·) ∧
        ∀ i, i ∈ ids ↔ ∃ c, p.classes[i]? = some c ∧ c.name = name) ∧
    ∀ (file : FileId) (f : SourceFile) (qualifier : String), p.files[file]? = some f →
      p.lookup file qualifier = .ok (p.scan f qualifier) := by
  have indexed := built.indexed
  constructor
  · intro name ids
    rw [indexed.getElem?_eq_some_iff]
    refine and_congr_right fun _ => ⟨?_, ?_⟩
    · rintro rfl
      exact ⟨allNamed_ascending name, fun i => mem_allNamed⟩
    · -- an ascending list is determined by its members
      rintro ⟨ascending, members⟩
      exact ascending.eq_of_mem_iff (allNamed_ascending name)
        fun i => (members i).trans mem_allNamed.symm
  · intro file f qualifier hf
    exact indexed.lookup_eq hf qualifier

theorem lookup_eq_scan_nested :
    ∃ f, (Sample.project.offer Sample.nested).files[1]? = some f ∧
      (Sample.project.offer Sample.nested).scan f " B" = some (.byPackage "" 1) ∧
      (Sample.project.offer Sample.nested).lookup 1 " B" = .ok (some (.byPackage "" 1)) := by
  have found : ∀ f ∈ (Sample.project.offer Sample.nested).files[1]?,
      (Sample.project.offer Sample.nested).scan f " B" = some (.byPackage "" 1) := by
    decide +kernel
  have file := Array.getElem?_eq_getElem
    (by decide +kernel : 1 < (Sample.project.offer Sample.nested).files.size)
  have same := (lookup_eq_scan (.offer Sample.built Sample.nested)).2 1 _ " B" file
  exact ⟨_, file, found _ file, found _ file ▸ same⟩

end Project

end CallFlow
