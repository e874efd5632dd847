import CallFlow.Proofs.Project.Built
import Mathlib.Data.List.Nodup
import Mathlib.Data.List.Perm.Basic

/-! What placing an outline builds: a row of trees whose ids run on without a gap, each class
in front of what lies inside it. A row is made in three ways, from nothing, by putting one
row behind another and by putting a class around a row, and each keeps the same facts about
ids, owners and extents. -/

namespace CallFlow

theorem bounds_of_mem_zipIdx {α : Type} {l : List α} {x : α} {start i : Nat}
    (h : (x, i) ∈ l.zipIdx start) : start ≤ i ∧ i < start + l.length :=
  ⟨(List.mem_zipIdx h).1, (List.mem_zipIdx h).2.1⟩

/-! ## Ids in a row -/

/-- The ids in `top`, which ascend, and those in `below` are the `n` ids from `start` on,
each once. -/
structure Row (start n : Nat) (top below : List Nat) : Prop where
  once : (top ++ below).Perm (List.range' start n)
  ascending : top.Pairwise (· < ·)

namespace Row

variable {start m n : Nat} {top below : List Nat}

theorem bounds (h : Row start n top below) {i : Nat} (hi : i ∈ top) :
    start ≤ i ∧ i < start + n :=
  List.mem_range'_1.mp (h.once.mem_iff.mp (List.mem_append_left below hi))

theorem count_eq_one (h : Row start n top below) {i : Nat} (hi : start ≤ i ∧ i < start + n) :
    (top ++ below).count i = 1 := by
  rw [h.once.count_eq]
  exact List.count_eq_one_of_mem List.nodup_range' (List.mem_range'_1.mpr hi)

theorem append {top' below' : List Nat} (h : Row start m top below)
    (h' : Row (start + m) n top' below') :
    Row start (m + n) (top ++ top') (below ++ below') := by
  constructor
  · have swap : ((top ++ top') ++ (below ++ below')).Perm
        ((top ++ below) ++ (top' ++ below')) := by
      rw [List.append_assoc, List.append_assoc]
      refine List.Perm.append_left top ?_
      rw [← List.append_assoc, ← List.append_assoc]
      exact List.perm_append_comm.append_right below'
    have join : List.range' start m ++ List.range' (start + m) n = List.range' start (m + n) := by
      simp
    exact swap.trans (join ▸ h.once.append h'.once)
  · refine List.pairwise_append.mpr ⟨h.ascending, h'.ascending, fun i hi j hj => ?_⟩
    exact Nat.lt_of_lt_of_le (h.bounds hi).2 (h'.bounds hj).1

/-- The row inside an entry makes a row together with the id of that entry. -/
theorem wrap (h : Row (start + 1) n top below) : Row start (n + 1) [start] (top ++ below) :=
  ⟨h.once.cons start, List.pairwise_singleton _ _⟩

end Row

/-! ## Who owns an entry -/

/-- Classes with their ids. -/
abbrev Numbered := List (ClassDef × ClassId)

/-- Entry `i` of a file states its owner rightly: either it names the common owner of a row
and is outermost there, or it names a class of the same file that lists it. -/
def Owned (classes : Numbered) (owner : Option ClassId) (top : List Nat)
    (listed : ClassDef → List Nat) (file : FileId) (stated : Option ClassId) (i : Nat) : Prop :=
  (stated = owner ∧ i ∈ top) ∨
    ∃ d q, (d, q) ∈ classes ∧ stated = some q ∧ d.file = file ∧ i ∈ listed d

namespace Owned

variable {classes classes' : Numbered} {owner : Option ClassId} {top top' : List Nat}
  {listed : ClassDef → List Nat} {file : FileId} {stated : Option ClassId} {i : Nat}
  {d : ClassDef} {q : ClassId}

theorem mono (h : Owned classes owner top listed file stated i) (hc : classes ⊆ classes')
    (ht : top ⊆ top') : Owned classes' owner top' listed file stated i := by
  rcases h with ⟨hs, hi⟩ | ⟨d, q, hd, hs, hf, hi⟩
  · exact .inl ⟨hs, ht hi⟩
  · exact .inr ⟨d, q, hc hd, hs, hf, hi⟩

/-- What is outermost inside a class is listed by that class. -/
theorem wrap (h : Owned classes (some q) top listed file stated i) (hc : classes ⊆ classes')
    (hd : (d, q) ∈ classes') (hf : d.file = file) (hl : listed d = top) :
    Owned classes' owner top' listed file stated i := by
  rcases h with ⟨hs, hi⟩ | ⟨d', q', hd', hs, hf', hi⟩
  · exact .inr ⟨d, q, hd, hs, hf, hl ▸ hi⟩
  · exact .inr ⟨d', q', hc hd', hs, hf', hi⟩

theorem mem_top_of_none (h : Owned classes none top listed file none i) : i ∈ top := by
  rcases h with ⟨_, hi⟩ | ⟨_, _, _, hs, _⟩
  · exact hi
  · cases hs

theorem exists_of_some (h : Owned classes none top listed file (some q) i) :
    ∃ d, (d, q) ∈ classes ∧ d.file = file ∧ i ∈ listed d := by
  rcases h with ⟨hs, _⟩ | ⟨d, q', hd, hs, hf, hi⟩
  · cases hs
  · cases hs
    exact ⟨d, hd, hf, hi⟩

end Owned

/-! ## What lies inside a class -/

/-- The classes with the `n` ids from `i` on are class `i` and those whose parent is one
of them. -/
def Encloses (classes : Numbered) (i : ClassId) (n : Nat) : Prop :=
  ∀ c j, (c, j) ∈ classes → j ≠ i →
    ((i ≤ j ∧ j < i + n) ↔ ∃ q ∈ c.parent, i ≤ q ∧ q < i + n)

/-- Neither the classes nor their parents have one of the `n` ids from `i` on. -/
def Apart (classes : Numbered) (i : ClassId) (n : Nat) : Prop :=
  ∀ c j, (c, j) ∈ classes →
    ¬ (i ≤ j ∧ j < i + n) ∧ ∀ q ∈ c.parent, ¬ (i ≤ q ∧ q < i + n)

theorem Encloses.extend {classes near far : Numbered} {i n : Nat} (h : Encloses near i n)
    (apart : Apart far i n) (split : ∀ x ∈ classes, x ∈ near ∨ x ∈ far) :
    Encloses classes i n := by
  intro c j hj hne
  rcases split (c, j) hj with hj | hj
  · exact h c j hj hne
  · obtain ⟨hout, hparent⟩ := apart c j hj
    refine ⟨fun hin => absurd hin hout, ?_⟩
    rintro ⟨q, hq, hin⟩
    exact absurd hin (hparent q hq)

namespace Placement

/-- The placed entries are a row of trees with ids from `first` on; what lies outermost
has the owner `owner`. -/
structure Forest (owner : Option ClassId) (first : Ids) (a : Placement) : Prop where
  classIds : Row first.cls a.classes.length a.topClasses (a.classes.flatMap (·.classes))
  functionIds :
    Row first.function a.functions.length a.topFunctions (a.classes.flatMap (·.functions))
  parents : ∀ c i, (c, i) ∈ a.classes.zipIdx first.cls →
    Owned (a.classes.zipIdx first.cls) owner a.topClasses (·.classes) c.file c.parent i
  owners : ∀ f i, (f, i) ∈ a.functions.zipIdx first.function →
    Owned (a.classes.zipIdx first.cls) owner a.topFunctions (·.functions) f.file f.owner i
  older : ∀ c i, (c, i) ∈ a.classes.zipIdx first.cls → ∀ q ∈ c.parent, q < i
  ascending : ∀ c ∈ a.classes, c.classes.Pairwise (· < ·) ∧ c.functions.Pairwise (· < ·)
  extents : ∀ c i, (c, i) ∈ a.classes.zipIdx first.cls →
    ∃ n, 0 < n ∧ i + n ≤ (a.after first).cls ∧ Encloses (a.classes.zipIdx first.cls) i n

variable {owner : Option ClassId} {first : Ids} {a b : Placement}

theorem zipIdx_classes_append : (a.append b).classes.zipIdx first.cls =
    a.classes.zipIdx first.cls ++ b.classes.zipIdx (a.after first).cls :=
  List.zipIdx_append

theorem zipIdx_functions_append : (a.append b).functions.zipIdx first.function =
    a.functions.zipIdx first.function ++ b.functions.zipIdx (a.after first).function :=
  List.zipIdx_append

namespace Forest

theorem empty : Placement.empty.Forest owner first := by
  refine ⟨⟨?_, ?_⟩, ⟨?_, ?_⟩, ?_, ?_, ?_, ?_, ?_⟩ <;> simp [Placement.empty]

/-- A row is apart from ids in front of it that its owner is not among. -/
theorem apart_in_front (h : a.Forest owner first) {i n : Nat} (howner : ∀ q ∈ owner, q < i)
    (hn : i + n ≤ first.cls) : Apart (a.classes.zipIdx first.cls) i n := by
  intro c j hc
  have hj := (bounds_of_mem_zipIdx hc).1
  refine ⟨by lia, fun q hq => ?_⟩
  rcases h.parents c j hc with ⟨hp, _⟩ | ⟨d, q', hd, hp, _⟩
  · have := howner q (hp ▸ hq)
    lia
  · rw [hp] at hq
    obtain rfl := Option.some.inj hq
    have := (bounds_of_mem_zipIdx hd).1
    lia

/-- A row is apart from the ids behind it. -/
theorem apart_behind (h : a.Forest owner first) {i : Nat} (n : Nat)
    (hi : (a.after first).cls ≤ i) : Apart (a.classes.zipIdx first.cls) i n := by
  intro c j hc
  have hj : j < (a.after first).cls := (bounds_of_mem_zipIdx hc).2
  refine ⟨by lia, fun q hq => ?_⟩
  have := h.older c j hc q hq
  lia

/-- Two rows one behind the other. -/
theorem append (howner : ∀ q ∈ owner, q < first.cls) (ha : a.Forest owner first)
    (hb : b.Forest owner (a.after first)) : (a.append b).Forest owner first := by
  refine ⟨?_, ?_, ?_, ?_, ?_, ?_, ?_⟩
  · simpa [Placement.append] using ha.classIds.append hb.classIds
  · simpa [Placement.append] using ha.functionIds.append hb.functionIds
  · intro c i hc
    rw [zipIdx_classes_append] at hc ⊢
    rcases List.mem_append.mp hc with hc | hc
    · exact (ha.parents c i hc).mono (List.subset_append_left _ _) (List.subset_append_left _ _)
    · exact (hb.parents c i hc).mono (List.subset_append_right _ _) (List.subset_append_right _ _)
  · intro f i hf
    rw [zipIdx_functions_append] at hf
    rw [zipIdx_classes_append]
    rcases List.mem_append.mp hf with hf | hf
    · exact (ha.owners f i hf).mono (List.subset_append_left _ _) (List.subset_append_left _ _)
    · exact (hb.owners f i hf).mono (List.subset_append_right _ _) (List.subset_append_right _ _)
  · intro c i hc
    rw [zipIdx_classes_append] at hc
    rcases List.mem_append.mp hc with hc | hc
    · exact ha.older c i hc
    · exact hb.older c i hc
  · intro c hc
    exact (List.mem_append.mp hc).elim (ha.ascending c) (hb.ascending c)
  · have hlen : ((a.append b).after first).cls = (a.after first).cls + b.classes.length := by
      simp [Placement.append, Placement.after, Nat.add_assoc]
    intro c i hc
    rw [zipIdx_classes_append] at hc ⊢
    -- an extent stays what it is: the other row lies wholly in front of it or behind it
    rcases List.mem_append.mp hc with hc | hc
    · obtain ⟨n, pos, hn, h⟩ := ha.extents c i hc
      have hi := (bounds_of_mem_zipIdx hc).1
      have apart := hb.apart_in_front (fun q hq => Nat.lt_of_lt_of_le (howner q hq) hi) hn
      exact ⟨n, pos, by lia, h.extend apart fun x => List.mem_append.mp⟩
    · obtain ⟨n, pos, hn, h⟩ := hb.extents c i hc
      have apart := ha.apart_behind n (bounds_of_mem_zipIdx hc).1
      exact ⟨n, pos, hlen ▸ hn, h.extend apart fun x hx => (List.mem_append.mp hx).symm⟩

/-- All that lies in the row around which a class is put lies inside the class. -/
theorem encloses_wrap {c : ClassDef}
    (inner : a.Forest (some first.cls) ⟨first.cls + 1, first.function⟩) :
    Encloses ((c :: a.classes).zipIdx first.cls) first.cls (a.classes.length + 1) := by
  intro d j hd hne
  rcases List.mem_cons.mp hd with hd | hd
  · cases hd
    exact absurd rfl hne
  have hj := bounds_of_mem_zipIdx hd
  refine ⟨fun _ => ?_, fun _ => by lia⟩
  rcases inner.parents d j hd with ⟨hp, _⟩ | ⟨e, q, he, hp, _⟩
  · exact ⟨first.cls, hp, by lia⟩
  · have hq := bounds_of_mem_zipIdx he
    exact ⟨q, hp, by lia⟩

/-- A class around a row. -/
theorem wrap {c : ClassDef} (howner : ∀ q ∈ owner, q < first.cls)
    (inner : a.Forest (some first.cls) ⟨first.cls + 1, first.function⟩)
    (hparent : c.parent = owner) (hclasses : c.classes = a.topClasses)
    (hfunctions : c.functions = a.topFunctions) (classFiles : ∀ d ∈ a.classes, c.file = d.file)
    (functionFiles : ∀ f ∈ a.functions, c.file = f.file) :
    Forest owner first ⟨c :: a.classes, a.functions, [first.cls], []⟩ := by
  have hself : (c, first.cls) ∈ (c :: a.classes).zipIdx first.cls := List.mem_cons_self
  have hsub : a.classes.zipIdx (first.cls + 1) ⊆ (c :: a.classes).zipIdx first.cls :=
    List.subset_cons_self _ _
  refine ⟨?_, ?_, ?_, ?_, ?_, ?_, ?_⟩
  · rw [List.flatMap_cons, hclasses]
    exact inner.classIds.wrap
  · rw [List.flatMap_cons, hfunctions]
    exact ⟨inner.functionIds.once, .nil⟩
  · intro d i hd
    rcases List.mem_cons.mp hd with hd | hd
    · cases hd
      exact .inl ⟨hparent, List.mem_singleton.mpr rfl⟩
    · exact (inner.parents d i hd).wrap hsub hself
        (classFiles d (List.fst_mem_of_mem_zipIdx hd)) hclasses
  · intro f i hf
    exact (inner.owners f i hf).wrap hsub hself
      (functionFiles f (List.fst_mem_of_mem_zipIdx hf)) hfunctions
  · intro d i hd
    rcases List.mem_cons.mp hd with hd | hd
    · cases hd
      exact hparent ▸ howner
    · exact inner.older d i hd
  · intro d hd
    rcases List.mem_cons.mp hd with rfl | hd
    · rw [hclasses, hfunctions]
      exact ⟨inner.classIds.ascending, inner.functionIds.ascending⟩
    · exact inner.ascending d hd
  · have hlen : (Placement.after first ⟨c :: a.classes, a.functions, [first.cls], []⟩).cls =
        first.cls + 1 + a.classes.length := by
      simp only [Placement.after, List.length_cons]
      lia
    intro d i hd
    rcases List.mem_cons.mp hd with hd | hd
    · cases hd
      exact ⟨a.classes.length + 1, Nat.succ_pos _, by lia, inner.encloses_wrap⟩
    · obtain ⟨n, pos, hn, h⟩ := inner.extents d i hd
      have hi := (bounds_of_mem_zipIdx hd).1
      have apart : Apart [(c, first.cls)] i n := by
        intro e j he
        cases List.mem_singleton.mp he
        refine ⟨by lia, fun q hq => ?_⟩
        have := howner q (hparent ▸ hq)
        lia
      refine ⟨n, pos, by rw [hlen]; exact hn, h.extend apart fun x hx => ?_⟩
      exact (List.mem_cons.mp hx).elim (fun hx => .inr (List.mem_singleton.mpr hx)) .inl

end Forest

/-! ## Facts about all placed entries -/

/-- `C` holds of all placed classes and `F` of all placed functions. -/
structure All (C : ClassDef → Prop) (F : FunctionDef → Prop) (a : Placement) : Prop where
  classes : ∀ c ∈ a.classes, C c
  functions : ∀ f ∈ a.functions, F f

theorem All.append {C : ClassDef → Prop} {F : FunctionDef → Prop} (ha : a.All C F)
    (hb : b.All C F) : (a.append b).All C F := by
  constructor
  · intro c hc
    exact (List.mem_append.mp hc).elim (ha.classes c) (hb.classes c)
  · intro f hf
    exact (List.mem_append.mp hf).elim (ha.functions f) (hb.functions f)

/-- The placed entries belong to one file. -/
abbrev At (home : Home) : Placement → Prop :=
  All (fun c => c.file = home.file ∧ c.package = home.package) fun f => f.file = home.file

end Placement

namespace Outline

/-- What `D` says of a declaration is passed on to its members, and is enough for `C` and
`F` to hold of the entries it is placed as, whatever the ids. -/
structure Passed (home : Home) (D : Decl → Prop) (C : ClassDef → Prop)
    (F : FunctionDef → Prop) : Prop where
  function : ∀ h owner, D (.function h) →
    F ⟨h.name, home.file, owner, h.doc, h.span, h.line, h.annotations, h.calls⟩
  classLike : ∀ h members owner classes functions, D (.classLike h members) →
    C ⟨h.name, home.file, owner, home.package, h.isObject, h.doc, h.span,
      members.filterMap Decl.property?, classes, functions⟩
  inner : ∀ h members, D (.classLike h members) → ∀ m ∈ members, D m

namespace Passed

variable {home : Home} {D : Decl → Prop} {C : ClassDef → Prop} {F : FunctionDef → Prop}

mutual

theorem place (passed : Passed home D C F) : ∀ (d : Decl) (owner : Option ClassId) (first : Ids),
    D d → (d.place home owner first).All C F
  | .property _, _, _, _ => by
    constructor <;> simp [Decl.place, Placement.empty]
  | .function h, owner, _, hd => by
    have f := passed.function h owner hd
    constructor <;> simp [Decl.place, f]
  | .classLike h members, owner, first, hd => by
    have inner := passed.placeAll members (some first.cls) ⟨first.cls + 1, first.function⟩
      (passed.inner h members hd)
    rw [Decl.place]
    constructor
    · intro c hc
      rcases List.mem_cons.mp hc with rfl | hc
      · exact passed.classLike h members owner _ _ hd
      · exact inner.classes c hc
    · exact inner.functions

theorem placeAll (passed : Passed home D C F) :
    ∀ (ds : List Decl) (owner : Option ClassId) (first : Ids), (∀ d ∈ ds, D d) →
      (Outline.placeAll home owner first ds).All C F
  | [], _, _, _ => by
    constructor <;> simp [Outline.placeAll, Placement.empty]
  | d :: ds, owner, first, hds => by
    rw [Outline.placeAll]
    exact (passed.place d owner first (hds d List.mem_cons_self)).append
      (passed.placeAll ds owner _ fun d' hd' => hds d' (List.mem_cons_of_mem d hd'))

end

end Passed

/-- The file of an entry is handed down, so no declaration has to be asked for it. -/
theorem placeAll_at (home : Home) (ds : List Decl) (owner : Option ClassId) (first : Ids) :
    (placeAll home owner first ds).At home := by
  have passed : Passed home (fun _ => True)
      (fun c => c.file = home.file ∧ c.package = home.package) fun f => f.file = home.file := by
    refine ⟨?_, ?_, ?_⟩ <;> simp
  exact passed.placeAll ds owner first fun _ _ => trivial

mutual

theorem Decl.place_forest (home : Home) : ∀ (d : Decl) (owner : Option ClassId) (first : Ids),
    (∀ q ∈ owner, q < first.cls) → (d.place home owner first).Forest owner first
  | .property _, _, _, _ => .empty
  | .function h, _, _, _ => by
    refine ⟨⟨?_, ?_⟩, ⟨?_, ?_⟩, ?_, ?_, ?_, ?_, ?_⟩ <;> simp [Decl.place, Owned]
  | .classLike h members, owner, first, howner => by
    have files := placeAll_at home members (some first.cls) ⟨first.cls + 1, first.function⟩
    have inner := placeAll_forest home members (some first.cls) ⟨first.cls + 1, first.function⟩
      (by intro q hq; cases hq; exact Nat.lt_succ_self _)
    rw [Decl.place]
    exact inner.wrap howner rfl rfl rfl (fun d hd => (files.classes d hd).1.symm)
      fun f hf => (files.functions f hf).symm

theorem placeAll_forest (home : Home) :
    ∀ (ds : List Decl) (owner : Option ClassId) (first : Ids),
      (∀ q ∈ owner, q < first.cls) → (placeAll home owner first ds).Forest owner first
  | [], _, _, _ => .empty
  | d :: ds, owner, first, howner => by
    have head := d.place_forest home owner first howner
    have tail := placeAll_forest home ds owner ((d.place home owner first).after first)
      fun q hq => Nat.lt_of_lt_of_le (howner q hq) (Nat.le_add_right _ _)
    rw [placeAll]
    exact head.append howner tail

end

end Outline

end CallFlow
