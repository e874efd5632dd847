import CallFlow.Proofs.Project.Contribution
import CallFlow.Proofs.Project.Renaming
import Mathlib.Data.List.FinRange

/-! The order of files. Main statement: sources in another order make the same project up to ids,
where files go to their new places and each takes its classes and functions along in their
order. Two files that follow each other can change places, and any other order is reached by
that. -/

namespace CallFlow

/-! ## Arrays in another order -/

/-- Two ranges of numbers that follow each other change places: `m` numbers from `start` on, and
the next `n`. -/
def swapRanges (start m n i : Nat) : Nat :=
  if i < start then i
  else if i < start + m then i + n
  else if i < start + m + n then i - m
  else i

theorem swapRanges_swapRanges (start m n i : Nat) :
    swapRanges start n m (swapRanges start m n i) = i := by
  unfold swapRanges
  grind

def swapBlocks (start m n : Nat) : Equiv.Perm Nat where
  toFun := swapRanges start m n
  invFun := swapRanges start n m
  left_inv := swapRanges_swapRanges start m n
  right_inv := swapRanges_swapRanges start n m

section SwapBlocks

variable {start m n i : Nat}

theorem swapBlocks_below (h : i < start) : swapBlocks start m n i = i := by
  simp [swapBlocks, swapRanges, h]

theorem swapBlocks_first (h : i < m) : swapBlocks start m n (i + start) = i + (start + n) := by
  simp only [swapBlocks, Equiv.coe_fn_mk, swapRanges]
  grind

theorem swapBlocks_second (h : i < n) : swapBlocks start m n (i + (start + m)) = i + start := by
  simp only [swapBlocks, Equiv.coe_fn_mk, swapRanges]
  grind

theorem swapBlocks_beyond (h : start + m + n ≤ i) : swapBlocks start m n i = i := by
  simp only [swapBlocks, Equiv.coe_fn_mk, swapRanges]
  grind

end SwapBlocks

section Relocated

variable {α : Type} {d e : Equiv.Perm Nat} {f g : α → α} {xs ys zs : Array α}

/-- `ys` has the items of `xs` at other places, and changed by `g`. -/
structure Relocated (e : Equiv.Perm Nat) (g : α → α) (xs ys : Array α) : Prop where
  size : ys.size = xs.size
  fixes : ∀ i, xs.size ≤ i → e i = i
  item : ∀ i, ys[e i]? = xs[i]?.map g

namespace Relocated

theorem refl (h : ∀ x ∈ xs, g x = x) : Relocated (.refl _) g xs xs := by
  refine ⟨rfl, fun _ _ => rfl, fun i => ?_⟩
  cases hx : xs[i]? with
  | none => exact hx
  | some x => exact hx.trans (congrArg some (h x (Array.mem_of_getElem? hx)).symm)

theorem trans (hd : Relocated d f xs ys) (he : Relocated e g ys zs) :
    Relocated (d.trans e) (g ∘ f) xs zs := by
  refine ⟨he.size.trans hd.size, fun i hi => ?_, fun i => ?_⟩
  · rw [Equiv.trans_apply, hd.fixes i hi, he.fixes i (hd.size ▸ hi)]
  · rw [Equiv.trans_apply, he.item, hd.item, Option.map_map]

theorem lt (h : Relocated e g xs ys) {i : Nat} (hi : i < xs.size) : e i < xs.size := by
  have found := h.item i
  rw [Array.getElem?_eq_getElem hi, Option.map_some] at found
  exact h.size ▸ (Array.getElem?_eq_some_iff.mp found).1

theorem append (h : Relocated e g xs ys) (hz : ∀ z ∈ zs, g z = z) :
    Relocated e g (xs ++ zs) (ys ++ zs) := by
  refine ⟨by simp [h.size], fun i hi => h.fixes i ?_, fun i => ?_⟩
  · exact Nat.le_trans (Nat.le_add_right _ _) (Array.size_append ▸ hi)
  · by_cases hi : i < xs.size
    · rw [Array.getElem?_append_left hi, Array.getElem?_append_left (h.size ▸ h.lt hi), h.item]
    · have hi := Nat.le_of_not_lt hi
      rw [h.fixes i hi, Array.getElem?_append_right hi, Array.getElem?_append_right (h.size ▸ hi),
        h.size]
      exact (refl hz).item (i - xs.size)

/-- Two parts change places. -/
theorem swap {as as' bs bs' : Array α} {m n : Nat} (hx : ∀ x ∈ xs, g x = x)
    (ha : as.map g = as') (hb : bs.map g = bs') (hm : as.size = m) (hn : bs.size = n) :
    Relocated (swapBlocks xs.size m n) g (xs ++ as ++ bs) (xs ++ bs' ++ as') := by
  subst ha hb hm hn
  refine ⟨by simp; omega, fun i hi => swapBlocks_beyond ?_, fun i => ?_⟩
  · simpa [Nat.add_assoc] using hi
  obtain below | ⟨k, hk, rfl⟩ | ⟨k, hk, rfl⟩ | beyond : i < xs.size ∨
      (∃ k < as.size, i = k + xs.size) ∨ (∃ k < bs.size, i = k + (xs.size + as.size)) ∨
        xs.size + as.size + bs.size ≤ i := by
    by_cases below : i < xs.size
    · exact .inl below
    · by_cases first : i < xs.size + as.size
      · exact .inr (.inl ⟨i - xs.size, by omega, by omega⟩)
      · by_cases second : i < xs.size + as.size + bs.size
        · exact .inr (.inr (.inl ⟨i - (xs.size + as.size), by omega, by omega⟩))
        · exact .inr (.inr (.inr (by omega)))
  · have same := (refl hx).item i
    rw [swapBlocks_below below]
    simpa [Array.getElem?_append, below, Nat.lt_add_right] using same
  · rw [swapBlocks_first hk]
    grind
  · rw [swapBlocks_second hk]
    grind
  · rw [swapBlocks_beyond beyond]
    grind

end Relocated

/-- Items of the same file stay in their order. -/
def KeepsOrder (e : Equiv.Perm Nat) (file : α → FileId) (xs : Array α) : Prop :=
  ∀ i j x y, xs[i]? = some x → xs[j]? = some y → file x = file y → i < j → e i < e j

namespace KeepsOrder

variable {file : α → FileId}

theorem trans (first : KeepsOrder d file xs) (hd : Relocated d f xs ys)
    (hf : ∀ x y, file x = file y → file (f x) = file (f y)) (second : KeepsOrder e file ys) :
    KeepsOrder (d.trans e) file xs := by
  intro i j x y hx hy same lt
  have hx' : ys[d i]? = some (f x) := by rw [hd.item, hx, Option.map_some]
  have hy' : ys[d j]? = some (f y) := by rw [hd.item, hy, Option.map_some]
  exact second _ _ _ _ hx' hy' (hf x y same) (first i j x y hx hy same lt)

theorem append (keeps : KeepsOrder e file xs) (h : Relocated e g xs ys) :
    KeepsOrder e file (xs ++ zs) := by
  intro i j x y hx hy same lt
  by_cases hj : j < xs.size
  · have hi := Nat.lt_trans lt hj
    rw [Array.getElem?_append_left hi] at hx
    rw [Array.getElem?_append_left hj] at hy
    exact keeps i j x y hx hy same lt
  · have hj := Nat.le_of_not_lt hj
    rw [h.fixes j hj]
    by_cases hi : i < xs.size
    · exact Nat.lt_of_lt_of_le (h.lt hi) hj
    · rw [h.fixes i (Nat.le_of_not_lt hi)]
      exact lt

theorem swap {as bs : Array α} {m n : Nat} (apart : ∀ a ∈ as, ∀ b ∈ bs, file a ≠ file b)
    (hm : as.size = m) (hn : bs.size = n) :
    KeepsOrder (swapBlocks xs.size m n) file (xs ++ as ++ bs) := by
  subst hm hn
  intro i j x y hx hy same lt
  have hj : j < xs.size + as.size + bs.size := by
    simpa [Nat.add_assoc] using (Array.getElem?_eq_some_iff.mp hy).1
  by_cases across : xs.size ≤ i ∧ i < xs.size + as.size ∧ xs.size + as.size ≤ j
  · obtain ⟨lower, upper, behind⟩ := across
    rw [Array.getElem?_append_left (by simpa using upper), Array.getElem?_append_right lower] at hx
    rw [Array.getElem?_append_right (by simpa using behind)] at hy
    exact absurd same (apart x (Array.mem_of_getElem? hx) y (Array.mem_of_getElem? hy))
  · simp only [swapBlocks, Equiv.coe_fn_mk, swapRanges]
    grind

end KeepsOrder

end Relocated

theorem map_toArray_eq {α : Type} {f f' g : α → α} {l : List α} (h : ∀ x ∈ l, g (f x) = f' x) :
    (l.map f).toArray.map g = (l.map f').toArray := by
  rw [List.map_toArray, List.map_map]
  exact congrArg List.toArray (List.map_congr_left h)

/-! ## Shifted entries under other ids -/

namespace Sizes

def zero : Sizes := ⟨0, 0, 0⟩

def add (m n : Sizes) : Sizes :=
  ⟨m.files + n.files, m.classes + n.classes, m.functions + n.functions⟩

end Sizes

/-- The renaming takes ids below `m`, shifted by `n`, to those shifted by `n'`. -/
structure Renaming.Carries (r : Renaming) (m n n' : Sizes) : Prop where
  file : ∀ i < m.files, r.file (i + n.files) = i + n'.files
  cls : ∀ i < m.classes, r.cls (i + n.classes) = i + n'.classes
  function : ∀ i < m.functions, r.function (i + n.functions) = i + n'.functions

section Carries

variable {r : Renaming} {m n n' : Sizes} (carries : r.Carries m n n')
include carries

theorem SourceFile.rename_shift {f : SourceFile} (h : f.Within m) :
    (f.shift n).rename r = f.shift n' := by
  have classes := fun i hi => carries.cls i (h.classes i hi)
  have functions := fun i hi => carries.function i (h.functions i hi)
  simpa [SourceFile.shift, SourceFile.rename] using ⟨classes, functions⟩

theorem ClassDef.rename_shift {c : ClassDef} (h : c.Within m) :
    (c.shift n).rename r = c.shift n' := by
  have parent : (c.parent.map (· + n.classes)).map r.cls = c.parent.map (· + n'.classes) := by
    rw [Option.map_map]
    exact Option.map_congr fun i hi => carries.cls i (h.parent i hi)
  have classes := fun i hi => carries.cls i (h.classes i hi)
  have functions := fun i hi => carries.function i (h.functions i hi)
  simpa [ClassDef.shift, ClassDef.rename, parent] using
    ⟨carries.file c.file h.file, classes, functions⟩

theorem FunctionDef.rename_shift {f : FunctionDef} (h : f.Within m) :
    (f.shift n).rename r = f.shift n' := by
  have owner : (f.owner.map (· + n.classes)).map r.cls = f.owner.map (· + n'.classes) := by
    rw [Option.map_map]
    exact Option.map_congr fun i hi => carries.cls i (h.owner i hi)
  simpa [FunctionDef.shift, FunctionDef.rename, owner] using carries.file f.file h.file

end Carries

/-- Two outlines change places behind the entries of a project. -/
def Renaming.swap (n a b : Sizes) : Renaming :=
  ⟨swapBlocks n.files a.files b.files, swapBlocks n.classes a.classes b.classes,
    swapBlocks n.functions a.functions b.functions⟩

section Swap

variable (n a b : Sizes)

theorem Renaming.swap_below : (swap n a b).Carries n .zero .zero :=
  ⟨fun _ => swapBlocks_below, fun _ => swapBlocks_below, fun _ => swapBlocks_below⟩

theorem Renaming.swap_first : (swap n a b).Carries a n (n.add b) :=
  ⟨fun _ => swapBlocks_first, fun _ => swapBlocks_first, fun _ => swapBlocks_first⟩

theorem Renaming.swap_second : (swap n a b).Carries b (n.add a) n :=
  ⟨fun _ => swapBlocks_second, fun _ => swapBlocks_second, fun _ => swapBlocks_second⟩

end Swap

@[simp] theorem SourceFile.shift_zero (f : SourceFile) : f.shift .zero = f := by
  simp [SourceFile.shift, Sizes.zero]

@[simp] theorem ClassDef.shift_zero (c : ClassDef) : c.shift .zero = c := by
  simp [ClassDef.shift, Sizes.zero]

@[simp] theorem FunctionDef.shift_zero (f : FunctionDef) : f.shift .zero = f := by
  simp [FunctionDef.shift, Sizes.zero]

namespace Outline

/-! ## Outlines by themselves -/

/-- The entries of an outline with ids of their own. -/
def placement (o : Outline) : Placement := (Project.empty ".").placed o

def file (o : Outline) : SourceFile :=
  ⟨o.path, o.package, o.imports, o.placement.topClasses, o.placement.topFunctions, o.source⟩

def sizes (o : Outline) : Sizes := ⟨1, o.placement.classes.length, o.placement.functions.length⟩

theorem placement_within (o : Outline) : o.placement.Within o.sizes := by
  have sizes : ((Project.empty ".").add o).sizes = o.sizes := by
    rw [Project.sizes_add]
    simp [Project.empty, sizes, placement]
  exact sizes ▸ (Project.empty ".").placed_within o

theorem file_within (o : Outline) : o.file.Within o.sizes :=
  ⟨o.placement_within.topClasses, o.placement_within.topFunctions⟩

end Outline

namespace Project

variable {r s : Renaming} {p q t : Project}

theorem files_add_shift (p : Project) (o : Outline) :
    (p.add o).files = p.files ++ #[o.file.shift p.sizes] := by
  rw [files_add, p.placed_shift ".", Array.push_eq_append]
  rfl

theorem classes_add_shift (p : Project) (o : Outline) :
    (p.add o).classes = p.classes ++ (o.placement.classes.map (·.shift p.sizes)).toArray := by
  rw [classes_add, p.placed_shift "."]
  rfl

theorem functions_add_shift (p : Project) (o : Outline) :
    (p.add o).functions = p.functions ++ (o.placement.functions.map (·.shift p.sizes)).toArray := by
  rw [functions_add, p.placed_shift "."]
  rfl

theorem sizes_add_outline (p : Project) (o : Outline) : (p.add o).sizes = p.sizes.add o.sizes := by
  rw [sizes_add, p.placed_shift "."]
  simp [Placement.shift, Sizes.add, sizes, Outline.sizes, Outline.placement]

/-! ## Projects that differ in ids only -/

/-- `q` is `p` under the ids that `r` says. Classes and functions of the same file keep their
order, and numbers that are no ids stay what they are. -/
structure Renames (r : Renaming) (p q : Project) : Prop where
  root : q.root = p.root
  files : Relocated r.file (SourceFile.rename r) p.files q.files
  classes : Relocated r.cls (ClassDef.rename r) p.classes q.classes
  functions : Relocated r.function (FunctionDef.rename r) p.functions q.functions
  classOrder : KeepsOrder r.cls ClassDef.file p.classes
  functionOrder : KeepsOrder r.function FunctionDef.file p.functions

namespace Renames

theorem refl (p : Project) : Renames .refl p p :=
  ⟨rfl, .refl fun f _ => f.rename_refl, .refl fun c _ => c.rename_refl,
    .refl fun f _ => f.rename_refl, fun _ _ _ _ _ _ _ lt => lt, fun _ _ _ _ _ _ _ lt => lt⟩

theorem trans (h : Renames r p q) (h' : Renames s q t) : Renames (r.trans s) p t := by
  have file : SourceFile.rename (r.trans s) = SourceFile.rename s ∘ SourceFile.rename r := by
    funext f
    simp [SourceFile.rename, Renaming.trans]
  have cls : ClassDef.rename (r.trans s) = ClassDef.rename s ∘ ClassDef.rename r := by
    funext c
    simp [ClassDef.rename, Renaming.trans, Function.comp_def]
  have function : FunctionDef.rename (r.trans s) = FunctionDef.rename s ∘ FunctionDef.rename r := by
    funext f
    simp [FunctionDef.rename, Renaming.trans, Function.comp_def]
  refine ⟨h'.root.trans h.root, file ▸ h.files.trans h'.files, cls ▸ h.classes.trans h'.classes,
    function ▸ h.functions.trans h'.functions, ?_, ?_⟩
  · exact h.classOrder.trans h.classes (fun _ _ same => congrArg r.file same) h'.classOrder
  · exact h.functionOrder.trans h.functions (fun _ _ same => congrArg r.file same) h'.functionOrder

theorem sizes (h : Renames r p q) : q.sizes = p.sizes := by
  simp [Project.sizes, h.files.size, h.classes.size, h.functions.size]

/-- What is behind the entries of `p` stays where it is. -/
theorem carries (h : Renames r p q) (m : Sizes) : r.Carries m p.sizes p.sizes :=
  ⟨fun _ _ => h.files.fixes _ (Nat.le_add_left _ _),
    fun _ _ => h.classes.fixes _ (Nat.le_add_left _ _),
    fun _ _ => h.functions.fixes _ (Nat.le_add_left _ _)⟩

/-- One more file comes to the same place in both projects. -/
theorem add (h : Renames r p q) (o : Outline) : Renames r (p.add o) (q.add o) := by
  have within := o.placement_within
  have carries := h.carries o.sizes
  refine ⟨h.root, ?_, ?_, ?_, ?_, ?_⟩
  · rw [files_add_shift, files_add_shift, h.sizes]
    refine h.files.append fun f hf => ?_
    rw [Array.mem_singleton.mp hf]
    exact SourceFile.rename_shift carries o.file_within
  · rw [classes_add_shift, classes_add_shift, h.sizes]
    refine h.classes.append fun c hc => ?_
    obtain ⟨own, hown, rfl⟩ := List.mem_map.mp (List.mem_toArray.mp hc)
    exact ClassDef.rename_shift carries (within.classes own hown)
  · rw [functions_add_shift, functions_add_shift, h.sizes]
    refine h.functions.append fun f hf => ?_
    obtain ⟨own, hown, rfl⟩ := List.mem_map.mp (List.mem_toArray.mp hf)
    exact FunctionDef.rename_shift carries (within.functions own hown)
  · rw [classes_add_shift]
    exact h.classOrder.append h.classes
  · rw [functions_add_shift]
    exact h.functionOrder.append h.functions

/-- Two files that follow each other change places. -/
theorem swap (closed : p.Closed) (a b : Outline) :
    Renames (.swap p.sizes a.sizes b.sizes) ((p.add a).add b) ((p.add b).add a) := by
  have below := Renaming.swap_below p.sizes a.sizes b.sizes
  have first := Renaming.swap_first p.sizes a.sizes b.sizes
  have second := Renaming.swap_second p.sizes a.sizes b.sizes
  have withinA := a.placement_within
  have withinB := b.placement_within
  have apart : ∀ {i j : FileId}, i < a.sizes.files →
      i + p.sizes.files ≠ j + (p.sizes.add a.sizes).files := by
    intro i j hi
    simp only [Sizes.add]
    lia
  refine ⟨rfl, ?_, ?_, ?_, ?_, ?_⟩
  · simp only [files_add_shift, sizes_add_outline]
    refine .swap (fun f hf => ?_) ?_ ?_ rfl rfl
    · simpa using SourceFile.rename_shift below (closed.files f hf)
    · simp [SourceFile.rename_shift first a.file_within]
    · simp [SourceFile.rename_shift second b.file_within]
  · simp only [classes_add_shift, sizes_add_outline]
    refine .swap (fun c hc => ?_) (map_toArray_eq fun c hc => ?_) (map_toArray_eq fun c hc => ?_)
      (by simp [Outline.sizes]) (by simp [Outline.sizes])
    · simpa using ClassDef.rename_shift below (closed.classes c hc)
    · exact ClassDef.rename_shift first (withinA.classes c hc)
    · exact ClassDef.rename_shift second (withinB.classes c hc)
  · simp only [functions_add_shift, sizes_add_outline]
    refine .swap (fun f hf => ?_) (map_toArray_eq fun f hf => ?_) (map_toArray_eq fun f hf => ?_)
      (by simp [Outline.sizes]) (by simp [Outline.sizes])
    · simpa using FunctionDef.rename_shift below (closed.functions f hf)
    · exact FunctionDef.rename_shift first (withinA.functions f hf)
    · exact FunctionDef.rename_shift second (withinB.functions f hf)
  · simp only [classes_add_shift, sizes_add_outline]
    refine .swap (fun c hc d hd same => ?_) (by simp [Outline.sizes]) (by simp [Outline.sizes])
    obtain ⟨own, hown, rfl⟩ := List.mem_map.mp (List.mem_toArray.mp hc)
    obtain ⟨own', _, rfl⟩ := List.mem_map.mp (List.mem_toArray.mp hd)
    exact apart (withinA.classes own hown).file same
  · simp only [functions_add_shift, sizes_add_outline]
    refine .swap (fun f hf g hg same => ?_) (by simp [Outline.sizes]) (by simp [Outline.sizes])
    obtain ⟨own, hown, rfl⟩ := List.mem_map.mp (List.mem_toArray.mp hf)
    obtain ⟨own', _, rfl⟩ := List.mem_map.mp (List.mem_toArray.mp hg)
    exact apart (withinA.functions own hown).file same

end Renames

/-! ## Any order -/

section Perm

variable {ι : Type}

/-- The project with further files, one after the other. -/
def addAll (p : Project) (os : ι → Outline) (l : List ι) : Project :=
  l.foldl (fun p i => p.add (os i)) p

theorem Renames.addAll (h : Renames r p q) (os : ι → Outline) (l : List ι) :
    Renames r (p.addAll os l) (q.addAll os l) := by
  induction l generalizing p q with
  | nil => exact h
  | cons i l ih => exact ih (h.add (os i))

/-- Files in another order, where no file comes twice. The files that were there before stay. -/
theorem exists_renames_of_perm [DecidableEq ι] (os : ι → Outline) {l l' : List ι}
    (perm : l.Perm l') (nodup : l.Nodup) (closed : p.Closed) :
    ∃ r, Renames r (p.addAll os l) (p.addAll os l') ∧ (∀ i < p.files.size, r.file i = i) ∧
      ∀ i ∈ l, r.file (p.files.size + l.idxOf i) = p.files.size + l'.idxOf i := by
  induction perm generalizing p with
  | nil => exact ⟨.refl, .refl p, fun _ _ => rfl, by simp⟩
  | @cons a l l' perm ih =>
    obtain ⟨r, renames, below, moved⟩ := ih (List.nodup_cons.mp nodup).2 (closed.add (os a))
    rw [files_add, Array.size_push] at below moved
    -- the first file is by now one of those that were there before
    refine ⟨r, renames, fun i hi => below i (Nat.lt_succ_of_lt hi), fun i hi => ?_⟩
    by_cases same : a = i
    · rw [same, List.idxOf_cons_self, List.idxOf_cons_self]
      exact below _ (Nat.lt_succ_self _)
    · have hi : i ∈ l := (List.mem_cons.mp hi).resolve_left (Ne.symm same)
      rw [List.idxOf_cons_ne l same, List.idxOf_cons_ne l' same]
      have next : ∀ k, p.files.size + 1 + k = p.files.size + (k + 1) := fun k => by omega
      have moved := moved i hi
      rw [next, next] at moved
      exact moved
  | swap a b l =>
    refine ⟨_, (Renames.swap closed (os b) (os a)).addAll os l, fun i => swapBlocks_below, ?_⟩
    intro i _
    have distinct : b ≠ a := fun same => by simp [same] at nodup
    change swapBlocks p.files.size 1 1 _ = _
    by_cases hb : b = i
    · rw [← hb, List.idxOf_cons_self, List.idxOf_cons_ne _ distinct.symm, List.idxOf_cons_self]
      simp [swapBlocks, swapRanges]
    · by_cases ha : a = i
      · rw [← ha, List.idxOf_cons_self, List.idxOf_cons_ne _ distinct, List.idxOf_cons_self]
        simp [swapBlocks, swapRanges]
      · rw [List.idxOf_cons_ne _ hb, List.idxOf_cons_ne _ ha, List.idxOf_cons_ne _ ha,
          List.idxOf_cons_ne _ hb]
        exact swapBlocks_beyond (by omega)
  | trans perm perm' ih ih' =>
    obtain ⟨r, renames, below, moved⟩ := ih nodup closed
    obtain ⟨s, renames', below', moved'⟩ := ih' (perm.nodup_iff.mp nodup) closed
    refine ⟨r.trans s, renames.trans renames', fun i hi => ?_, fun i hi => ?_⟩
    · exact (congrArg s.file (below i hi)).trans (below' i hi)
    · exact (congrArg s.file (moved i hi)).trans (moved' i (perm.mem_iff.mp hi))

end Perm

/-! ## Sources in another order -/

theorem foldlM_addSource {ι : Type} {sources : ι → Source} {os : ι → Outline}
    (read : ∀ i, (sources i).outline = .ok (os i)) :
    ∀ (l : List ι) (p : Project), (l.map sources).foldlM addSource p = .ok (p.addAll os l)
  | [], _ => rfl
  | i :: l, p => by
    rw [List.map_cons, List.foldlM_cons, addSource_of_outline (read i)]
    exact foldlM_addSource read l (p.add (os i))

theorem built_foldlM : ∀ {sources : List Source} {p : Project}, p.Built →
    sources.foldlM addSource p = .ok q → q.Built
  | [], _, built, read => by
    cases read
    exact built
  | s :: sources, p, built, read => by
    obtain ⟨next, added, read⟩ := bind_eq_ok.mp read
    have offered : p.offer s = next := by rw [offer, added]
    exact built_foldlM (offered ▸ .offer built s) read

theorem built_ofSources {sources : List Source} (read : ofSources sources = .ok p) : p.Built :=
  built_foldlM (.empty ".") read

theorem outline_of_ofSources {sources : List Source} (read : ofSources sources = .ok p) :
    ∀ s ∈ sources, ∃ o, s.outline = .ok o := by
  intro s hs
  cases refused : sources.find? fun s => !s.accepted with
  | none => exact accepted_iff.mp (by simpa using List.find?_eq_none.mp refused s hs)
  | some s' =>
    have notAccepted := List.find?_some refused
    cases ho : s'.outline with
    | ok o => simp [accepted_iff.mpr ⟨o, ho⟩] at notAccepted
    | error cause =>
      rw [ofSources, foldlM_eq_error_iff.mpr ⟨s', refused, ho⟩] at read
      cases read

/-- Sources in another order make the same project up to ids. -/
theorem exists_renames_ofSources {sources : List Source} (read : ofSources sources = .ok p)
    (σ : Equiv.Perm (Fin sources.length)) :
    ∃ q r, ofSources (List.ofFn fun j => sources.get (σ j)) = .ok q ∧ Renames r p q ∧
      ∀ j : Fin sources.length, r.file (σ j) = j.val := by
  choose os hos using fun i : Fin sources.length =>
    outline_of_ofSources read (sources.get i) (sources.get_mem i)
  -- a source is known by its position, as the same one may come twice
  have inOrder : (List.finRange sources.length).map sources.get = sources := by
    simp
  have reordered : ((List.finRange sources.length).map σ).map sources.get =
      List.ofFn fun j => sources.get (σ j) := by
    simp [List.ofFn_eq_map, Function.comp_def]
  have original := foldlM_addSource hos (List.finRange sources.length) (empty ".")
  rw [inOrder] at original
  have hp : p = (empty ".").addAll os (List.finRange sources.length) :=
    Except.ok.inj (read.symm.trans original)
  obtain ⟨r, renames, _, moved⟩ := exists_renames_of_perm os σ.map_finRange_perm.symm
    (List.nodup_finRange _) (closed_empty ".")
  refine ⟨_, r, reordered ▸ foldlM_addSource hos _ _, hp ▸ renames, fun j => ?_⟩
  have place := moved (σ j) (List.mem_finRange _)
  have after : ((List.finRange sources.length).map σ).idxOf (σ j) = j := by
    have nodup := (List.nodup_finRange sources.length).map σ.injective
    simpa using nodup.idxOf_getElem j (by simp)
  simpa [empty, after] using place

end Project

end CallFlow
