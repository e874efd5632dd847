import CallFlow.Proofs.Project.Built

/-! What a source brings into a project. Ids are handed out from the project's sizes on, so
placing an outline further up gives the same entries with all ids shifted. Main statement:
a project has no other influence on what a source brings, hence a refused source leaves
nothing behind and the accepted ones could have come alone. -/

namespace CallFlow

/-! ## Shifted ids

Entries with all ids moved up by the sizes of a project, as they are behind its entries. -/

def SourceFile.shift (n : Sizes) (f : SourceFile) : SourceFile :=
  { f with
    classes := f.classes.map (· + n.classes)
    functions := f.functions.map (· + n.functions) }

def ClassDef.shift (n : Sizes) (c : ClassDef) : ClassDef :=
  { c with
    file := c.file + n.files
    parent := c.parent.map (· + n.classes)
    classes := c.classes.map (· + n.classes)
    functions := c.functions.map (· + n.functions) }

def FunctionDef.shift (n : Sizes) (f : FunctionDef) : FunctionDef :=
  { f with
    file := f.file + n.files
    owner := f.owner.map (· + n.classes) }

def Ids.shift (n : Sizes) (first : Ids) : Ids :=
  ⟨first.cls + n.classes, first.function + n.functions⟩

def Home.shift (n : Sizes) (home : Home) : Home := { home with file := home.file + n.files }

def Placement.shift (n : Sizes) (a : Placement) : Placement where
  classes := a.classes.map (·.shift n)
  functions := a.functions.map (·.shift n)
  topClasses := a.topClasses.map (· + n.classes)
  topFunctions := a.topFunctions.map (· + n.functions)

theorem Placement.shift_append (n : Sizes) (a b : Placement) :
    (a.append b).shift n = (a.shift n).append (b.shift n) := by
  simp [Placement.append, Placement.shift]

theorem Placement.after_shift (n : Sizes) (first : Ids) (a : Placement) :
    (a.shift n).after (first.shift n) = (a.after first).shift n := by
  simp only [Placement.after, Placement.shift, Ids.shift, List.length_map, Ids.mk.injEq]
  exact ⟨Nat.add_right_comm _ _ _, Nat.add_right_comm _ _ _⟩

namespace Outline

mutual

theorem Decl.place_shift (n : Sizes) (home : Home) :
    ∀ (d : Decl) (owner : Option ClassId) (first : Ids),
      d.place (home.shift n) (owner.map (· + n.classes)) (first.shift n) =
        (d.place home owner first).shift n
  | .property _, _, _ => rfl
  | .function _, _, _ => rfl
  | .classLike h members, owner, first => by
    have inner := placeAll_shift n home members (some first.cls) ⟨first.cls + 1, first.function⟩
    have next : (⟨first.cls + 1, first.function⟩ : Ids).shift n =
        ⟨first.cls + n.classes + 1, first.function + n.functions⟩ := by
      simp only [Ids.shift, Ids.mk.injEq, and_true]
      exact Nat.add_right_comm _ _ _
    rw [next, Option.map_some] at inner
    rw [Decl.place, Decl.place]
    simp only [Ids.shift, inner]
    rfl

theorem placeAll_shift (n : Sizes) (home : Home) :
    ∀ (ds : List Decl) (owner : Option ClassId) (first : Ids),
      placeAll (home.shift n) (owner.map (· + n.classes)) (first.shift n) ds =
        (placeAll home owner first ds).shift n
  | [], _, _ => rfl
  | d :: ds, owner, first => by
    have head := d.place_shift n home owner first
    have tail := placeAll_shift n home ds owner ((d.place home owner first).after first)
    simp only [placeAll]
    rw [head, Placement.after_shift, tail, Placement.shift_append]

end

end Outline

/-! ## What a source brings into a project -/

/-- A file and the classes and functions in it, numbered for some project. -/
structure Contribution where
  file : SourceFile
  classes : List ClassDef
  functions : List FunctionDef
deriving Repr, DecidableEq

def Contribution.shift (n : Sizes) (m : Contribution) : Contribution :=
  ⟨m.file.shift n, m.classes.map (·.shift n), m.functions.map (·.shift n)⟩

namespace Project

/-- What a source would bring into the project, or why it is refused. -/
def contribution (p : Project) (s : Source) : Except Error Contribution := do
  let o ← s.outline
  let placed := p.placed o
  return ⟨⟨o.path, o.package, o.imports, placed.topClasses, placed.topFunctions, o.source⟩,
    placed.classes, placed.functions⟩

/-- The project with a contribution that was numbered for it. -/
def receive (p : Project) (m : Contribution) : Project where
  root := p.root
  files := p.files.push m.file
  classes := p.classes ++ m.classes
  functions := p.functions ++ m.functions
  byName := enter p.byName p.classes.size m.classes

theorem addSource_eq_receive (p : Project) (s : Source) :
    p.addSource s = p.receive <$> p.contribution s := by
  unfold addSource contribution
  cases s.outline <;> rfl

theorem placed_shift (p : Project) (root : String) (o : Outline) :
    p.placed o = ((empty root).placed o).shift p.sizes := by
  have shifted := Outline.placeAll_shift p.sizes ⟨0, o.package⟩ o.decls none ⟨0, 0⟩
  simp only [Home.shift, Ids.shift, Nat.zero_add, Option.map_none] at shifted
  exact shifted

theorem contribution_shift (p : Project) (root : String) (s : Source) :
    p.contribution s = Contribution.shift p.sizes <$> (empty root).contribution s := by
  unfold contribution
  cases s.outline with
  | error cause => rfl
  | ok o =>
    simp only [Bind.bind, Except.bind, Pure.pure, Except.pure, Functor.map, Except.map,
      p.placed_shift root]
    rfl

end Project

/-! ## Sources one after the other -/

/-- The source makes a project by itself. -/
def Source.accepted (s : Source) : Bool := (Project.ofSources [s]).isOk

namespace Project

theorem ofSources_singleton (s : Source) : ofSources [s] = (empty ".").add <$> s.outline := by
  unfold ofSources
  rw [List.foldlM_cons]
  unfold addSource
  cases s.outline <;> rfl

theorem accepted_iff {s : Source} : s.accepted = true ↔ ∃ o, s.outline = .ok o := by
  rw [Source.accepted, ofSources_singleton]
  cases s.outline with
  | error cause => simp [Functor.map, Except.map, Except.isOk, Except.toBool]
  | ok o => simp [Functor.map, Except.map, Except.isOk, Except.toBool]

theorem ofSources_singleton_eq_error {s : Source} {e : Error} :
    ofSources [s] = .error e ↔ s.outline = .error e := by
  rw [ofSources_singleton]
  cases s.outline with
  | error cause => simp [Functor.map, Except.map]
  | ok o => simp [Functor.map, Except.map]

theorem addSource_of_outline {p : Project} {s : Source} {o : Outline} (h : s.outline = .ok o) :
    p.addSource s = .ok (p.add o) := by
  rw [addSource, h]
  rfl

theorem addSource_of_refused {p : Project} {s : Source} {e : Error} (h : s.outline = .error e) :
    p.addSource s = .error e := by
  rw [addSource, h]
  rfl

theorem isOk_addSource (p : Project) (s : Source) : (p.addSource s).isOk = s.accepted := by
  rw [Source.accepted, ofSources_singleton, addSource]
  cases s.outline <;> rfl

theorem offer_of_outline {p : Project} {s : Source} {o : Outline} (h : s.outline = .ok o) :
    p.offer s = p.add o := by
  rw [offer, addSource_of_outline h]

theorem offer_of_refused {p : Project} {s : Source} {e : Error} (h : s.outline = .error e) :
    p.offer s = p := by
  rw [offer, addSource_of_refused h]

/-- Refused sources might as well not have been offered. -/
theorem foldlM_filter_accepted : ∀ (sources : List Source) (p : Project),
    (sources.filter Source.accepted).foldlM addSource p = .ok (sources.foldl offer p)
  | [], p => rfl
  | s :: sources, p => by
    rw [List.foldl_cons]
    cases h : s.outline with
    | error cause =>
      have refused : ¬ s.accepted = true := by simp [accepted_iff, h]
      rw [List.filter_cons_of_neg refused, offer_of_refused h]
      exact foldlM_filter_accepted sources p
    | ok o =>
      rw [List.filter_cons_of_pos (accepted_iff.mpr ⟨o, h⟩), List.foldlM_cons,
        addSource_of_outline h, offer_of_outline h]
      exact foldlM_filter_accepted sources (p.add o)

/-- The first source that is refused is the one that is complained about. -/
theorem foldlM_eq_error_iff {e : Error} : ∀ {sources : List Source} {p : Project},
    sources.foldlM addSource p = .error e ↔
      ∃ s, sources.find? (fun s => !s.accepted) = some s ∧ s.outline = .error e
  | [], p => by simp [Pure.pure, Except.pure]
  | s :: sources, p => by
    rw [List.foldlM_cons]
    cases h : s.outline with
    | error cause =>
      have refused : s.accepted = false := by simp [← Bool.not_eq_true, accepted_iff, h]
      simp [refused, addSource_of_refused h, h, Bind.bind, Except.bind]
    | ok o =>
      have accepted : s.accepted = true := accepted_iff.mpr ⟨o, h⟩
      rw [addSource_of_outline h, List.find?_cons_of_neg (by simp [accepted])]
      exact foldlM_eq_error_iff

/-- The root of a project has no part in what comes into it. -/
theorem foldl_offer_root (root : String) : ∀ (sources : List Source) (p : Project),
    sources.foldl offer { p with root } = { sources.foldl offer p with root }
  | [], _ => rfl
  | s :: sources, p => by
    have step : offer { p with root } s = { p.offer s with root } := by
      cases h : s.outline with
      | error cause => rw [offer_of_refused h, offer_of_refused h]
      | ok o => rw [offer_of_outline h, offer_of_outline h]; rfl
    rw [List.foldl_cons, List.foldl_cons, step]
    exact foldl_offer_root root sources (p.offer s)

/-- What a source brings into a project depends on the project through the ids alone, so refused
sources leave no trace, and the first of them is the reason why sources make no project. -/
theorem contributes_alone :
    (∀ (p : Project) (s : Source), p.addSource s = p.receive <$> p.contribution s) ∧
    (∀ (p : Project) (root : String) (s : Source),
      p.contribution s = Contribution.shift p.sizes <$> (empty root).contribution s) ∧
    (∀ (p : Project) (s : Source), (p.addSource s).isOk = s.accepted) ∧
    (∀ (root : String) (sources : List Source), ∃ q,
      ofSources (sources.filter Source.accepted) = .ok q ∧
        sources.foldl offer (empty root) = { q with root }) ∧
    ∀ (sources : List Source) (e : Error), ofSources sources = .error e ↔
      ∃ s, sources.find? (fun s => !s.accepted) = some s ∧ ofSources [s] = .error e := by
  refine ⟨addSource_eq_receive, contribution_shift, isOk_addSource, fun root sources => ?_,
    fun sources e => ?_⟩
  · exact ⟨_, foldlM_filter_accepted sources _, foldl_offer_root root sources (empty ".")⟩
  · simp only [ofSources_singleton_eq_error]
    exact foldlM_eq_error_iff

end Project

end CallFlow
