import CallFlow.Proofs.Outline.Reading
import CallFlow.Proofs.Project.Forest
import Mathlib.Logic.Relation

/-! Who owns what in a project. Main statement: in every project that is built from sources,
accepted or refused, the lists of files and classes hold each class and each function once,
the entries agree with those lists, and what lies inside a class has the ids right behind
it. An outline's entries are a row of trees behind the row of those that are there already. -/

namespace CallFlow

open Outline (Decl Passed)

/-- No entry, and no property of one, has a blank name. -/
abbrev Placement.Named : Placement → Prop :=
  All (fun c => Legible c.name ∧ ∀ q ∈ c.properties, Legible q.name) fun f => Legible f.name

theorem Outline.placeAll_named (home : Home) (ds : List Decl) (owner : Option ClassId)
    (first : Ids) (named : ∀ d ∈ ds, d.Named) : (placeAll home owner first ds).Named := by
  have passed : Passed home Decl.Named
      (fun c => Legible c.name ∧ ∀ q ∈ c.properties, Legible q.name) fun f => Legible f.name := by
    refine ⟨fun h _ hd => named_function.mp hd, fun h members _ _ _ hd => ?_,
      fun h members hd => (named_classLike.mp hd).2⟩
    obtain ⟨name, inner⟩ := named_classLike.mp hd
    refine ⟨name, fun q hq => ?_⟩
    obtain ⟨m, hm, hq⟩ := List.mem_filterMap.mp hq
    exact legible_of_property? (inner m hm) hq
  exact passed.placeAll ds owner first named

theorem Source.decls_named {s : Source} {o : Outline} (h : s.outline = .ok o) :
    ∀ d ∈ o.decls, d.Named := by
  unfold Source.outline at h
  split at h
  · cases h
  · exact Outline.decls_named h

namespace Project

/-! ## The entries of a project as one row -/

def whole (p : Project) : Placement :=
  ⟨p.classes.toList, p.functions.toList, p.files.toList.flatMap (·.classes),
    p.files.toList.flatMap (·.functions)⟩

theorem whole_add (p : Project) (o : Outline) :
    (p.add o).whole = p.whole.append (p.placed o) := by
  simp [whole, Placement.append, files_add, classes_add, functions_add]

theorem nextIds_eq_after (p : Project) : p.nextIds = p.whole.after ⟨0, 0⟩ := by
  simp [nextIds, whole, Placement.after]

theorem placed_forest (p : Project) (o : Outline) : (p.placed o).Forest none p.nextIds :=
  Outline.placeAll_forest _ o.decls none p.nextIds (by simp)

theorem placed_at (p : Project) (o : Outline) : (p.placed o).At ⟨p.files.size, o.package⟩ :=
  Outline.placeAll_at _ o.decls none p.nextIds

/-! ## Files -/

/-- Entries in the order of their ids, and the lists of what each file has outermost: an
entry without an owner is listed by its file, and the files of the entries ascend. -/
structure Filed {α : Type} (file : α → FileId) (owner : α → Option ClassId)
    (lists : List (List Nat)) (entries : List α) : Prop where
  within : ∀ x ∈ entries, file x < lists.length
  listed : ∀ x i, (x, i) ∈ entries.zipIdx → owner x = none → ∃ l ∈ lists[file x]?, i ∈ l
  order : entries.Pairwise fun x y => file x ≤ file y

theorem Filed.append {α : Type} {file : α → FileId} {owner : α → Option ClassId}
    {lists : List (List Nat)} {entries more : List α} {l : List Nat}
    (h : Filed file owner lists entries) (new : ∀ x ∈ more, file x = lists.length)
    (top : ∀ x i, (x, i) ∈ more.zipIdx entries.length → owner x = none → i ∈ l) :
    Filed file owner (lists ++ [l]) (entries ++ more) := by
  refine ⟨?_, ?_, ?_⟩
  · intro x hx
    rw [List.length_append, List.length_singleton]
    rcases List.mem_append.mp hx with hx | hx
    · have := h.within x hx
      lia
    · have := new x hx
      lia
  · intro x i hx ho
    rw [List.zipIdx_append, Nat.zero_add] at hx
    rcases List.mem_append.mp hx with hx | hx
    · have hlt := h.within x (List.fst_mem_of_mem_zipIdx hx)
      rw [List.getElem?_append_left hlt]
      exact h.listed x i hx ho
    · rw [new x (List.fst_mem_of_mem_zipIdx hx), List.getElem?_concat_length]
      exact ⟨l, rfl, top x i hx ho⟩
  · refine List.pairwise_append.mpr ⟨h.order, ?_, ?_⟩
    · refine List.pairwise_of_forall_mem_list fun x hx y hy => ?_
      exact Nat.le_of_eq ((new x hx).trans (new y hy).symm)
    · intro x hx y hy
      rw [new y hy]
      exact Nat.le_of_lt (h.within x hx)

theorem Filed.exists_file {α : Type} {file : α → FileId} {owner : α → Option ClassId}
    {listed : SourceFile → List Nat} {files : Array SourceFile} {entries : List α}
    (h : Filed file owner (files.toList.map listed) entries) {x : α} {i : Nat}
    (hx : (x, i) ∈ entries.zipIdx) (ho : owner x = none) :
    ∃ f, files[file x]? = some f ∧ i ∈ listed f := by
  obtain ⟨l, hl, hi⟩ := h.listed x i hx ho
  rw [List.getElem?_map, Array.getElem?_toList] at hl
  obtain ⟨f, hf, rfl⟩ := Option.map_eq_some_iff.mp hl
  exact ⟨f, hf, hi⟩

/-- The entries of a project are one row of trees, sorted into its files. -/
structure Orderly (p : Project) : Prop where
  forest : p.whole.Forest none ⟨0, 0⟩
  classes : Filed (·.file) (·.parent) (p.files.toList.map (·.classes)) p.classes.toList
  functions : Filed (·.file) (·.owner) (p.files.toList.map (·.functions)) p.functions.toList
  packages : ∀ c ∈ p.classes, ∃ f ∈ p.files[c.file]?, c.package = f.package
  ascending : ∀ f ∈ p.files, f.classes.Pairwise (· < ·) ∧ f.functions.Pairwise (· < ·)
  named : p.whole.Named

theorem orderly_empty (root : String) : (empty root).Orderly := by
  refine ⟨.empty, ⟨?_, ?_, ?_⟩, ⟨?_, ?_, ?_⟩, ?_, ?_, ?_, ?_⟩ <;> simp [empty, whole]

theorem Orderly.add {p : Project} (h : p.Orderly) {o : Outline} (named : ∀ d ∈ o.decls, d.Named) :
    (p.add o).Orderly := by
  have forest := p.placed_forest o
  have home := p.placed_at o
  refine ⟨?_, ?_, ?_, ?_, ?_, ?_⟩
  · rw [whole_add]
    exact h.forest.append (by simp) (p.nextIds_eq_after ▸ forest)
  · simp only [files_add, classes_add, Array.toList_push, Array.toList_append, List.map_append,
      List.map_singleton]
    have new (c) (hc : c ∈ (p.placed o).classes) :
        c.file = (p.files.toList.map (·.classes)).length := by
      simpa using (home.classes c hc).1
    refine h.classes.append new fun c i hc ho => ?_
    exact (ho ▸ forest.parents c i hc).mem_top_of_none
  · simp only [files_add, functions_add, Array.toList_push, Array.toList_append, List.map_append,
      List.map_singleton]
    have new (f) (hf : f ∈ (p.placed o).functions) :
        f.file = (p.files.toList.map (·.functions)).length := by
      simpa using home.functions f hf
    refine h.functions.append new fun f i hf ho => ?_
    exact (ho ▸ forest.owners f i hf).mem_top_of_none
  · intro c hc
    rw [classes_add] at hc
    rw [files_add]
    rcases Array.mem_append.mp hc with hc | hc
    · obtain ⟨f, hf, hp⟩ := h.packages c hc
      refine ⟨f, ?_, hp⟩
      rw [Array.getElem?_push, if_neg (Nat.ne_of_lt (Array.getElem?_eq_some_iff.mp hf).1)]
      exact hf
    · obtain ⟨hf, hp⟩ := home.classes c (List.mem_toArray.mp hc)
      rw [hf, hp, Array.getElem?_push_size]
      exact ⟨_, rfl, rfl⟩
  · intro f hf
    rw [files_add] at hf
    rcases Array.mem_push.mp hf with hf | rfl
    · exact h.ascending f hf
    · exact ⟨forest.classIds.ascending, forest.functionIds.ascending⟩
  · rw [whole_add]
    exact h.named.append (Outline.placeAll_named _ o.decls none p.nextIds named)

theorem Built.orderly {p : Project} (built : p.Built) : p.Orderly :=
  built.invariant orderly_empty fun _ _ _ _ ho h => h.add (Source.decls_named ho)

/-! ## Ownership -/

/-- Class `q` is the class right around class `i`. -/
def Around (p : Project) (q i : ClassId) : Prop :=
  ∃ c, p.classes[i]? = some c ∧ c.parent = some q

/-- The ids of classes in the lists of all files and classes, list after list. -/
def ownedClasses (p : Project) : List ClassId :=
  p.files.toList.flatMap (·.classes) ++ p.classes.toList.flatMap (·.classes)

/-- The ids of functions in the lists of all files and classes, list after list. -/
def ownedFunctions (p : Project) : List FunctionId :=
  p.files.toList.flatMap (·.functions) ++ p.classes.toList.flatMap (·.functions)

theorem mem_zipIdx_toList {α : Type} {xs : Array α} {x : α} {i : Nat} :
    (x, i) ∈ xs.toList.zipIdx ↔ xs[i]? = some x := by
  rw [List.mk_mem_zipIdx_iff_getElem?, Array.getElem?_toList]

/-- What lies inside a class, at whatever depth, are the classes with the ids behind it. -/
theorem Orderly.extent {p : Project} (h : p.Orderly) {i : ClassId} (hi : i < p.classes.size) :
    ∃ n, ∀ j, Relation.ReflTransGen p.Around i j ↔ i ≤ j ∧ j < i + n := by
  have self : (p.classes[i], i) ∈ p.classes.toList.zipIdx :=
    mem_zipIdx_toList.mpr (Array.getElem?_eq_getElem hi)
  obtain ⟨n, pos, hn, encloses⟩ := h.forest.extents _ i self
  refine ⟨n, fun j => ⟨fun inside => ?_, ?_⟩⟩
  · induction inside with
    | refl => lia
    | @tail q j _ around ih =>
      obtain ⟨c, hc, hq⟩ := around
      by_cases hj : j = i
      · lia
      · exact (encloses c j (mem_zipIdx_toList.mpr hc) hj).mpr ⟨q, hq, ih⟩
  · -- from a class to its parent, which has a smaller id and still lies in the range
    induction j using Nat.strongRecOn with
    | ind j ih =>
      intro hj
      by_cases hij : j = i
      · rw [hij]
      · have hsize : j < p.classes.size := by
          simp only [whole, Placement.after, Array.length_toList] at hn
          lia
        have hc : p.classes[j]? = some p.classes[j] := Array.getElem?_eq_getElem hsize
        obtain ⟨q, hq, hin⟩ := (encloses _ j (mem_zipIdx_toList.mpr hc) hij).mp hj
        have older := h.forest.older _ j (mem_zipIdx_toList.mpr hc) q hq
        exact (ih q older hin).tail ⟨_, hc, hq⟩

/-- Files and classes own the classes and functions of a project as the trees of a forest,
and what an entry says of its owner, its file and its package agrees with that. -/
structure Forest (p : Project) : Prop where
  /-- Every id that is stored anywhere belongs to an entry. -/
  closed : p.Closed
  classOnce : ∀ i < p.classes.size, p.ownedClasses.count i = 1
  functionOnce : ∀ i < p.functions.size, p.ownedFunctions.count i = 1
  topClass : ∀ i (c : ClassDef), p.classes[i]? = some c → c.parent = none →
    ∃ f : SourceFile, p.files[c.file]? = some f ∧ i ∈ f.classes
  innerClass : ∀ i (c : ClassDef) q, p.classes[i]? = some c → c.parent = some q →
    q < i ∧ ∃ d : ClassDef, p.classes[q]? = some d ∧ d.file = c.file ∧ i ∈ d.classes
  topFunction : ∀ i (g : FunctionDef), p.functions[i]? = some g → g.owner = none →
    ∃ f : SourceFile, p.files[g.file]? = some f ∧ i ∈ f.functions
  memberFunction : ∀ i (g : FunctionDef) q, p.functions[i]? = some g → g.owner = some q →
    ∃ d : ClassDef, p.classes[q]? = some d ∧ d.file = g.file ∧ i ∈ d.functions
  package : ∀ c ∈ p.classes, ∃ f : SourceFile, p.files[c.file]? = some f ∧ c.package = f.package
  filesAscend : ∀ f ∈ p.files, f.classes.Pairwise (· < ·) ∧ f.functions.Pairwise (· < ·)
  classesAscend : ∀ c ∈ p.classes, c.classes.Pairwise (· < ·) ∧ c.functions.Pairwise (· < ·)
  classOrder : (p.classes.toList.map (·.file)).Pairwise (· ≤ ·)
  functionOrder : (p.functions.toList.map (·.file)).Pairwise (· ≤ ·)
  /-- A class and what lies inside it, at whatever depth, have consecutive ids. -/
  extent : ∀ i < p.classes.size,
    ∃ n, ∀ j, Relation.ReflTransGen p.Around i j ↔ i ≤ j ∧ j < i + n
  classNames : ∀ c ∈ p.classes, Legible c.name ∧ ∀ q ∈ c.properties, Legible q.name
  functionNames : ∀ f ∈ p.functions, Legible f.name

/-- However sources are offered, accepted or refused, ownership makes a forest. -/
theorem forest_of_built {p : Project} (built : p.Built) : p.Forest := by
  have orderly := built.orderly
  have forest := orderly.forest
  have numbered {i : ClassId} {c : ClassDef} (hc : p.classes[i]? = some c) :
      (c, i) ∈ p.whole.classes.zipIdx 0 := mem_zipIdx_toList.mpr hc
  refine ⟨built.closed, ?_, ?_, ?_, ?_, ?_, ?_, orderly.packages, orderly.ascending, ?_, ?_, ?_,
    fun i hi => orderly.extent hi, ?_, ?_⟩
  · intro i hi
    exact forest.classIds.count_eq_one ⟨Nat.zero_le i, by simpa [whole] using hi⟩
  · intro i hi
    exact forest.functionIds.count_eq_one ⟨Nat.zero_le i, by simpa [whole] using hi⟩
  · intro i c hc hp
    exact orderly.classes.exists_file (mem_zipIdx_toList.mpr hc) hp
  · intro i c q hc hq
    obtain ⟨d, hd, hf, hi⟩ := (hq ▸ forest.parents c i (numbered hc)).exists_of_some
    exact ⟨forest.older c i (numbered hc) q hq, d, mem_zipIdx_toList.mp hd, hf, hi⟩
  · intro i g hg ho
    exact orderly.functions.exists_file (mem_zipIdx_toList.mpr hg) ho
  · intro i g q hg hq
    obtain ⟨d, hd, hf, hi⟩ := (hq ▸ forest.owners g i (mem_zipIdx_toList.mpr hg)).exists_of_some
    exact ⟨d, mem_zipIdx_toList.mp hd, hf, hi⟩
  · intro c hc
    exact forest.ascending c (Array.mem_toList_iff.mpr hc)
  · exact List.pairwise_map.mpr orderly.classes.order
  · exact List.pairwise_map.mpr orderly.functions.order
  · intro c hc
    exact orderly.named.classes c (Array.mem_toList_iff.mpr hc)
  · intro f hf
    exact orderly.named.functions f (Array.mem_toList_iff.mpr hf)

theorem forest_of_built_nested : (Sample.project.offer Sample.nested).classes.size = 3 ∧
    (Sample.project.offer Sample.nested).Forest :=
  ⟨by decide +kernel, forest_of_built (.offer Sample.built Sample.nested)⟩

end Project

end CallFlow
