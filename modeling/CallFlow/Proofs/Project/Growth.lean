import CallFlow.Proofs.Project.Contribution
import CallFlow.Proofs.Project.Index
import CallFlow.Proofs.Project.Ownership

/-! A project with one more file. Main statement: all that is there stays under its id, and in
a file that was there before a qualifier means what it meant, or else a class of the new
file. Classes are found in the order of their ids, so a new class is taken only where no old
one fits. -/

namespace CallFlow.Project

variable {p : Project}

/-! ## What is there stays -/

theorem getElem?_files_add (o : Outline) {i : FileId} (h : i < p.files.size) :
    (p.add o).files[i]? = p.files[i]? := by
  rw [files_add, Array.getElem?_push, if_neg (Nat.ne_of_lt h)]

theorem getElem?_classes_add (o : Outline) {i : ClassId} (h : i < p.classes.size) :
    (p.add o).classes[i]? = p.classes[i]? := by
  rw [classes_add, Array.getElem?_append_left h]

theorem getElem?_functions_add (o : Outline) {i : FunctionId} (h : i < p.functions.size) :
    (p.add o).functions[i]? = p.functions[i]? := by
  rw [functions_add, Array.getElem?_append_left h]

/-- `q` is `p` with one more file: the entries of `p` have kept their ids, and the new classes
of a name come behind those of `p`. -/
structure Extends (p q : Project) : Prop where
  size : q.files.size = p.files.size + 1
  files : ∀ i < p.files.size, q.files[i]? = p.files[i]?
  classes : ∀ i < p.classes.size, q.classes[i]? = p.classes[i]?
  functions : ∀ i < p.functions.size, q.functions[i]? = p.functions[i]?
  index : ∀ (name : String) ids, p.byName[name]? = some ids →
    ∃ more, q.byName[name]? = some (ids ++ more)

theorem extends_add (indexed : p.Indexed) (o : Outline) : p.Extends (p.add o) := by
  refine ⟨?_, fun i => getElem?_files_add o, fun i => getElem?_classes_add o,
    fun i => getElem?_functions_add o, ?_⟩
  · rw [files_add, Array.size_push]
  · intro name ids h
    obtain ⟨hne, hids⟩ := indexed.getElem?_eq_some_iff.mp h
    have grown := p.classesNamed_add o name
    rw [indexed.named, ← hids] at grown
    refine ⟨_, (indexed.add o).getElem?_eq_some_iff.mpr ⟨?_, grown ▸ (indexed.add o).named name⟩⟩
    intro hnil
    exact hne (List.append_eq_nil_iff.mp hnil).1

/-! ## What a qualifier means then -/

/-- The class lies in a file that is not one of `p`, but the next one. -/
def New (p q : Project) (i : ClassId) : Prop :=
  ∃ c, q.classes[i]? = some c ∧ c.file = p.files.size

/-- Who found something finds it again, and who found nothing may find something for which
`N` holds. -/
def Kept (N : ClassId → Prop) (found found' : Option Lookup) : Prop :=
  found' = found ∨ found = none ∧ ∃ l, found' = some l ∧ N l.cls

/-- The same is found again, or something for which `N` holds. -/
def Redirected (N : ClassId → Prop) (found found' : Option Lookup) : Prop :=
  found' = found ∨ ∃ l, found' = some l ∧ N l.cls

section Redirected

variable {N : ClassId → Prop}

/-- Each place keeps what it has, but an earlier place may have something now. -/
theorem redirected_findSome? {α : Type} {f f' : α → Option Lookup}
    (h : ∀ a, Kept N (f a) (f' a)) : ∀ l : List α, Redirected N (l.findSome? f) (l.findSome? f')
  | [] => .inl rfl
  | a :: l => by
    rw [List.findSome?_cons, List.findSome?_cons]
    rcases h a with same | ⟨_, new, hnew, hN⟩
    · rw [same]
      cases f a with
      | some found => exact .inl rfl
      | none => exact redirected_findSome? h l
    · rw [hnew]
      exact .inr ⟨new, rfl, hN⟩

theorem Redirected.or {x x' y y' : Option Lookup} (hx : Redirected N x x') (hy : Kept N y y') :
    Redirected N (x.or y) (x'.or y') := by
  rcases hx with rfl | ⟨new, rfl, hN⟩
  · cases x' with
    | some found => exact .inl rfl
    | none => exact hy.imp_right And.right
  · exact .inr ⟨new, rfl, hN⟩

end Redirected

theorem findIdx?_add (o : Outline) (q : ClassDef → Bool) :
    (p.add o).classes.findIdx? q = (p.classes.findIdx? q).or
      (((p.placed o).classes.findIdx? q).map (· + p.classes.size)) := by
  rw [classes_add, Array.findIdx?_append, List.findIdx?_toArray (l := (p.placed o).classes)]

theorem new_of_findIdx?_placed {o : Outline} {q : ClassDef → Bool} {i : Nat}
    (h : (p.placed o).classes.findIdx? q = some i) : New p (p.add o) (i + p.classes.size) := by
  obtain ⟨hi, _⟩ := List.findIdx?_eq_some_iff_getElem.mp h
  refine ⟨(p.placed o).classes[i], ?_, ((p.placed_at o).classes _ (List.getElem_mem hi)).1⟩
  rw [classes_add, Array.getElem?_append_right (Nat.le_add_left _ _), Nat.add_sub_cancel,
    List.getElem?_toArray, List.getElem?_eq_getElem hi]

theorem kept_findIdx? (o : Outline) (q : ClassDef → Bool) {kind : ClassId → Lookup}
    (cls : ∀ i, (kind i).cls = i) :
    Kept (New p (p.add o)) ((p.classes.findIdx? q).map kind)
      (((p.add o).classes.findIdx? q).map kind) := by
  rw [findIdx?_add]
  cases p.classes.findIdx? q with
  | some i => exact .inl rfl
  | none =>
    cases h : (p.placed o).classes.findIdx? q with
    | none => exact .inl rfl
    | some i => exact .inr ⟨rfl, _, rfl, by rw [cls]; exact new_of_findIdx?_placed h⟩

theorem redirected_scan (o : Outline) (f : SourceFile) (qualifier : String) :
    Redirected (New p (p.add o)) (p.scan f qualifier) ((p.add o).scan f qualifier) := by
  unfold scan
  dsimp only
  split
  · exact .inl rfl
  · refine (redirected_findSome? (fun candidate => ?_) _).or (kept_findIdx? o _ fun _ => rfl)
    exact kept_findIdx? o _ fun _ => rfl

/-- After one more file a qualifier means in an old file what it meant, be it a class or
nothing, or else a class of the new file. All that was there has stayed. -/
theorem lookup_stays_or_enters {q : Project} {s : Source} (built : p.Built)
    (added : p.addSource s = .ok q) :
    p.Extends q ∧ ∀ file < p.files.size, ∀ qualifier, ∃ found found',
      p.lookup file qualifier = .ok found ∧ q.lookup file qualifier = .ok found' ∧
        (found'.map Lookup.cls = found.map Lookup.cls ∨
          ∃ i, found'.map Lookup.cls = some i ∧ New p q i) := by
  obtain ⟨o, _, rfl⟩ := map_eq_ok.mp added
  have indexed := built.indexed
  refine ⟨extends_add indexed o, fun file hfile qualifier => ?_⟩
  have hf := Array.getElem?_eq_getElem hfile
  have hf' := (getElem?_files_add o hfile).trans hf
  refine ⟨_, _, indexed.lookup_eq hf qualifier, (indexed.add o).lookup_eq hf' qualifier, ?_⟩
  rcases p.redirected_scan o p.files[file] qualifier with same | ⟨l, hl, new⟩
  · exact .inl (congrArg _ same)
  · exact .inr ⟨l.cls, by rw [hl]; rfl, new⟩

theorem addSource_eq_ok_offer {s : Source} (h : (p.addSource s).isOk = true) :
    p.addSource s = .ok (p.offer s) := by
  unfold offer
  cases hs : p.addSource s with
  | error cause => simp [hs, Except.isOk, Except.toBool] at h
  | ok q => rfl

/-- A second file with the same classes: those of the first one are still meant. -/
theorem lookup_stays_or_enters_twice :
    (Sample.project.offer Sample.nested).Extends
        ((Sample.project.offer Sample.nested).offer Sample.nested) ∧
      ∀ file < (Sample.project.offer Sample.nested).files.size, ∀ qualifier, ∃ found found',
        (Sample.project.offer Sample.nested).lookup file qualifier = .ok found ∧
        ((Sample.project.offer Sample.nested).offer Sample.nested).lookup file qualifier =
          .ok found' ∧
        (found'.map Lookup.cls = found.map Lookup.cls ∨
          ∃ i, found'.map Lookup.cls = some i ∧ New (Sample.project.offer Sample.nested)
            ((Sample.project.offer Sample.nested).offer Sample.nested) i) :=
  lookup_stays_or_enters (.offer Sample.built Sample.nested)
    (addSource_eq_ok_offer (by decide +kernel))

end CallFlow.Project
