import CallFlow.Proofs.Outline.Reading
import CallFlow.Proofs.Project.Index
import CallFlow.Proofs.Project.Ownership
import Mathlib.Logic.Equiv.Defs

/-! Entries under other ids. A renaming of ids takes the entries of one project to those of
another, which may have more of them. Main statements: what is asked of an entry by its id has
the same answer there, up to the renaming, and the same one if the answer holds no ids. -/

namespace CallFlow

section Except

variable {ε α β γ δ : Type}

theorem bind_eq_map_bind {x : Except ε α} {y : Except ε β} {g : α → β} {h : γ → δ}
    {k : α → Except ε γ} {l : β → Except ε δ} (hy : y = g <$> x)
    (hl : ∀ a, x = .ok a → l (g a) = h <$> k a) : y >>= l = h <$> (x >>= k) := by
  subst hy
  cases x with
  | error cause => rfl
  | ok a => exact hl a rfl

theorem bind_eq_bind {x : Except ε α} {y : Except ε β} {g : α → β} {k : α → Except ε γ}
    {l : β → Except ε γ} (hy : y = g <$> x) (hl : ∀ a, x = .ok a → l (g a) = k a) :
    y >>= l = x >>= k := by
  subst hy
  cases x with
  | error cause => rfl
  | ok a => exact hl a rfl

theorem filterM_map {f : β → Except ε Bool} {f' : α → Except ε Bool} {g : α → β} {l : List α}
    (h : ∀ a ∈ l, f (g a) = f' a) : (l.map g).filterM f = List.map g <$> l.filterM f' := by
  have aux : ∀ l acc, (∀ a ∈ l, f (g a) = f' a) →
      List.filterAuxM f (l.map g) (acc.map g) = List.map g <$> List.filterAuxM f' l acc := by
    intro l
    induction l with
    | nil => intro acc _; rfl
    | cons a l ih =>
      intro acc h
      rw [List.map_cons, List.filterAuxM, List.filterAuxM, h a List.mem_cons_self]
      refine bind_eq_map_bind (id_map _).symm fun keep _ => ?_
      rw [← ih _ fun b hb => h b (List.mem_cons_of_mem a hb)]
      cases keep <;> rfl
  refine bind_eq_map_bind (aux l [] h) fun kept _ => ?_
  rw [← List.map_reverse]
  rfl

end Except

theorem findSome?_congr {α β : Type} {f g : α → Option β} :
    ∀ {l : List α}, (∀ a ∈ l, f a = g a) → l.findSome? f = l.findSome? g
  | [], _ => rfl
  | a :: l, h => by
    have rest := findSome?_congr fun b hb => h b (List.mem_cons_of_mem a hb)
    rw [List.findSome?_cons, List.findSome?_cons, h a List.mem_cons_self, rest]

/-! ## Renamings -/

/-- New ids for files, classes and functions. -/
structure Renaming where
  file : Equiv.Perm FileId
  cls : Equiv.Perm ClassId
  function : Equiv.Perm FunctionId

namespace Renaming

def refl : Renaming := ⟨.refl _, .refl _, .refl _⟩

def trans (r s : Renaming) : Renaming :=
  ⟨r.file.trans s.file, r.cls.trans s.cls, r.function.trans s.function⟩

end Renaming

def SourceFile.rename (r : Renaming) (f : SourceFile) : SourceFile :=
  { f with
    classes := f.classes.map r.cls
    functions := f.functions.map r.function }

def ClassDef.rename (r : Renaming) (c : ClassDef) : ClassDef :=
  { c with
    file := r.file c.file
    parent := c.parent.map r.cls
    classes := c.classes.map r.cls
    functions := c.functions.map r.function }

def FunctionDef.rename (r : Renaming) (f : FunctionDef) : FunctionDef :=
  { f with
    file := r.file f.file
    owner := f.owner.map r.cls }

def Lookup.rename (r : Renaming) : Lookup → Lookup
  | byPackage package c => byPackage package (r.cls c)
  | byName c => byName (r.cls c)

@[simp] theorem SourceFile.rename_refl (f : SourceFile) : f.rename .refl = f := by
  simp [SourceFile.rename, Renaming.refl]

@[simp] theorem ClassDef.rename_refl (c : ClassDef) : c.rename .refl = c := by
  simp [ClassDef.rename, Renaming.refl]

@[simp] theorem FunctionDef.rename_refl (f : FunctionDef) : f.rename .refl = f := by
  simp [FunctionDef.rename, Renaming.refl]

@[simp] theorem Lookup.rename_refl (l : Lookup) : l.rename .refl = l := by
  cases l <;> rfl

@[simp] theorem Lookup.cls_rename (r : Renaming) (l : Lookup) : (l.rename r).cls = r.cls l.cls := by
  cases l <;> rfl

namespace Project

variable {r : Renaming} {p q : Project}

/-- `q` has the entries of `p` under the ids that `r` says, and maybe more. -/
structure Embeds (r : Renaming) (p q : Project) : Prop where
  files : ∀ i f, p.files[i]? = some f → q.files[r.file i]? = some (f.rename r)
  classes : ∀ i c, p.classes[i]? = some c → q.classes[r.cls i]? = some (c.rename r)
  functions : ∀ i f, p.functions[i]? = some f → q.functions[r.function i]? = some (f.rename r)
  classCount : p.classes.size ≤ q.classes.size
  functionCount : p.functions.size ≤ q.functions.size

namespace Embeds

variable (embeds : Embeds r p q)
include embeds

theorem file {i : FileId} (h : i < p.files.size) :
    q.file (r.file i) = SourceFile.rename r <$> p.file i := by
  have hf := Array.getElem?_eq_getElem h
  simp only [Project.file, hf, embeds.files i _ hf]
  rfl

theorem classDef {i : ClassId} (h : i < p.classes.size) :
    q.classDef (r.cls i) = ClassDef.rename r <$> p.classDef i := by
  have hc := Array.getElem?_eq_getElem h
  simp only [Project.classDef, hc, embeds.classes i _ hc]
  rfl

theorem function {i : FunctionId} (h : i < p.functions.size) :
    q.function (r.function i) = FunctionDef.rename r <$> p.function i := by
  have hf := Array.getElem?_eq_getElem h
  simp only [Project.function, hf, embeds.functions i _ hf]
  rfl

/-! ## Members -/

theorem named {ids : List FunctionId} (h : ∀ i ∈ ids, i < p.functions.size) (name : String) :
    q.named name (ids.map r.function) = List.map r.function <$> p.named name ids := by
  refine filterM_map fun i hi => ?_
  exact bind_eq_bind (embeds.function (h i hi)) fun _ _ => rfl

theorem property? {c : ClassId} (hc : c < p.classes.size) (name : String) :
    q.property? (r.cls c) name = p.property? c name :=
  bind_eq_bind (embeds.classDef hc) fun _ _ => rfl

section Closed

variable (closed : p.Closed)
include closed

theorem membersNamed {c : ClassId} (hc : c < p.classes.size) (name : String) :
    q.membersNamed (r.cls c) name = List.map r.function <$> p.membersNamed c name := by
  refine bind_eq_map_bind (embeds.classDef hc) fun d hd => ?_
  have within := closed.classes d (Array.mem_of_getElem? (classDef_eq_ok.mp hd))
  exact embeds.named within.functions name

theorem topLevelNamed {i : FileId} (hi : i < p.files.size) (name : String) :
    q.topLevelNamed (r.file i) name = List.map r.function <$> p.topLevelNamed i name := by
  refine bind_eq_map_bind (embeds.file hi) fun f hf => ?_
  have within := closed.files f (Array.mem_of_getElem? (file_eq_ok.mp hf))
  exact embeds.named within.functions name

end Closed

/-! ## Qualified names -/

/-- A class lies no deeper than its id says, so that much depth is as good as any. -/
theorem namesDownTo (forest : p.whole.Forest none ⟨0, 0⟩) (c : ClassId) (hc : c < p.classes.size)
    {depth depth' : Nat} (h : c < depth) (h' : c < depth') :
    q.namesDownTo depth' (r.cls c) = p.namesDownTo depth c := by
  induction c using Nat.strongRecOn generalizing depth depth' with
  | ind c ih =>
    obtain ⟨depth, rfl⟩ : ∃ n, depth = n + 1 := ⟨depth - 1, by lia⟩
    obtain ⟨depth', rfl⟩ : ∃ n, depth' = n + 1 := ⟨depth' - 1, by lia⟩
    rw [Project.namesDownTo, Project.namesDownTo]
    refine bind_eq_bind (embeds.classDef hc) fun d hd => ?_
    have hd := classDef_eq_ok.mp hd
    cases hp : d.parent with
    | none => simp [ClassDef.rename, hp]
    | some outer =>
      have older : outer < c := forest.older d c (mem_zipIdx_toList.mpr hd) outer hp
      have inner := ih outer older (Nat.lt_trans older hc) (show outer < depth by lia)
        (show outer < depth' by lia)
      simp [ClassDef.rename, hp, inner]

theorem qualifiedClass (forest : p.whole.Forest none ⟨0, 0⟩) {c : ClassId}
    (hc : c < p.classes.size) : q.qualifiedClass (r.cls c) = p.qualifiedClass c := by
  have same := embeds.namesDownTo forest c hc (Nat.lt_succ_of_lt hc)
    (Nat.lt_succ_of_lt (Nat.lt_of_lt_of_le hc embeds.classCount))
  unfold Project.qualifiedClass
  rw [same]

/-! ## Qualifiers -/

theorem findIdx?_package {name : String} (same : q.allNamed name = (p.allNamed name).map r.cls)
    (package : String) :
    (q.classes.findIdx? fun c => c.name == name && c.package == package) =
      (p.classes.findIdx? fun c => c.name == name && c.package == package).map r.cls := by
  rw [← find?_allNamed name fun c => c.package == package,
    ← find?_allNamed name fun c => c.package == package, same, List.find?_map]
  refine congrArg (Option.map r.cls) (List.find?_congr fun i hi => ?_)
  obtain ⟨c, hc, _⟩ := mem_allNamed.mp hi
  simp [hc, embeds.classes i c hc, ClassDef.rename]

/-- A scan depends on the classes of those names alone that it looks for. -/
theorem scan {f : SourceFile} {qualifier : String}
    (candidates : ∀ c ∈ f.candidates (bare qualifier),
      q.allNamed c.2 = (p.allNamed c.2).map r.cls)
    (simple : q.allNamed (Text.lastSegment (bare qualifier)) =
      (p.allNamed (Text.lastSegment (bare qualifier))).map r.cls) :
    q.scan (f.rename r) qualifier = (p.scan f qualifier).map (Lookup.rename r) := by
  have byName := congrArg List.head? simple
  rw [List.head?_map, head?_allNamed, head?_allNamed] at byName
  unfold Project.scan
  dsimp only
  split
  · rfl
  · unfold scanIn
    rw [byName, Option.map_or, List.map_findSome?, Option.map_map, Option.map_map]
    refine congrArg (Option.or · _) (findSome?_congr fun c hc => ?_)
    rw [embeds.findIdx?_package (candidates c hc), Function.comp_apply, Option.map_map,
      Option.map_map]
    rfl

theorem lookup (indexed : p.Indexed) (indexed' : q.Indexed) {file : FileId} {f : SourceFile}
    (hf : p.files[file]? = some f) {qualifier : String}
    (candidates : ∀ c ∈ f.candidates (bare qualifier),
      q.allNamed c.2 = (p.allNamed c.2).map r.cls)
    (simple : q.allNamed (Text.lastSegment (bare qualifier)) =
      (p.allNamed (Text.lastSegment (bare qualifier))).map r.cls) :
    q.lookup (r.file file) qualifier =
      Option.map (Lookup.rename r) <$> p.lookup file qualifier := by
  rw [indexed.lookup_eq hf, indexed'.lookup_eq (embeds.files file f hf),
    embeds.scan candidates simple]
  rfl

end Embeds

end Project

end CallFlow
