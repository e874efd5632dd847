import CallFlow.Proofs.Outline.Documentation
import CallFlow.Proofs.Project.Contribution

/-! Files with and without comments in a project. Ids are handed out without a look at
documentation. Main statement: a file brings the same into a project with and without its
comments, except that in the second case nothing is documented. -/

namespace CallFlow

open CallFlow.Tree

def ClassDef.undocumented (c : ClassDef) : ClassDef := { c with doc := none }

def FunctionDef.undocumented (f : FunctionDef) : FunctionDef := { f with doc := none }

def Placement.undocumented (a : Placement) : Placement :=
  { a with
    classes := a.classes.map ClassDef.undocumented
    functions := a.functions.map FunctionDef.undocumented }

def Contribution.undocumented (m : Contribution) : Contribution :=
  { m with
    classes := m.classes.map ClassDef.undocumented
    functions := m.functions.map FunctionDef.undocumented }

theorem Placement.undocumented_append (a b : Placement) :
    (a.append b).undocumented = a.undocumented.append b.undocumented := by
  simp [Placement.append, Placement.undocumented]

theorem Placement.after_undocumented (first : Ids) (a : Placement) :
    a.undocumented.after first = a.after first := by
  simp [Placement.after, Placement.undocumented]

namespace Outline

theorem filterMap_property?_undocumented (ds : List Decl) :
    (undocumentedAll ds).filterMap Decl.property? = ds.filterMap Decl.property? := by
  rw [undocumentedAll_eq, List.filterMap_map]
  refine List.filterMap_congr fun d _ => ?_
  cases d <;> simp [Decl.undocumented, Decl.property?]

mutual

/-- Documentation has no influence on ids. -/
theorem Decl.place_undocumented (home : Home) :
    ∀ (d : Decl) (owner : Option ClassId) (first : Ids),
      d.undocumented.place home owner first = (d.place home owner first).undocumented
  | .property _, _, _ => by rw [Decl.undocumented]; rfl
  | .function _, _, _ => by rw [Decl.undocumented]; rfl
  | .classLike h members, owner, first => by
    have inner := placeAll_undocumented home members (some first.cls)
      ⟨first.cls + 1, first.function⟩
    rw [Decl.undocumented, Decl.place, Decl.place, inner, filterMap_property?_undocumented]
    rfl

theorem placeAll_undocumented (home : Home) :
    ∀ (ds : List Decl) (owner : Option ClassId) (first : Ids),
      placeAll home owner first (undocumentedAll ds) = (placeAll home owner first ds).undocumented
  | [], _, _ => by rw [undocumentedAll]; rfl
  | d :: ds, owner, first => by
    have head := d.place_undocumented home owner first
    have tail := placeAll_undocumented home ds owner ((d.place home owner first).after first)
    rw [undocumentedAll, placeAll, placeAll]
    rw [head, Placement.after_undocumented, tail, Placement.undocumented_append]

end

end Outline

namespace Project

/-- What an outline brings into the project. -/
def brought (p : Project) (o : Outline) : Contribution :=
  ⟨⟨o.path, o.package, o.imports, (p.placed o).topClasses, (p.placed o).topFunctions, o.source⟩,
    (p.placed o).classes, (p.placed o).functions⟩

theorem contribution_eq_brought (p : Project) (s : Source) :
    p.contribution s = p.brought <$> s.outline := by
  unfold contribution
  cases s.outline <;> rfl

theorem brought_undocumented (p : Project) (o : Outline) :
    p.brought o.undocumented = (p.brought o).undocumented := by
  have placed : p.placed o.undocumented = (p.placed o).undocumented :=
    Outline.placeAll_undocumented _ o.decls none p.nextIds
  rw [brought, placed]
  rfl

/-- With or without its comments, a file brings the same into a project, but that nothing is
documented, or is refused for the same reason; or else a comment starts inside a character of the
text, and reading stops at that. -/
theorem contribution_alike (p : Project) (path text : String) {t t' : Flagged}
    (tidy : t.root.Tidy) (same : t'.root = t.root.uncommented) :
    Contribution.undocumented <$> p.contribution ⟨path, text, some t⟩ =
        Contribution.undocumented <$> p.contribution ⟨path, text, some t'⟩ ∨
      (∃ c ∈ t.root.preorder, c.isComment = true ∧ Outline.StartsInside text.toList c) ∧
        p.contribution ⟨path, text, some t⟩ = .error (.fault .insideCharacter) := by
  have ready : Outline.Ready (∃ c ∈ t.root.preorder, c.isComment = true ∧
      Outline.StartsInside text.toList c) text.toList t.root :=
    ⟨tidy, fun c hc comment inside => ⟨c, hc, comment, inside⟩⟩
  have outlines := Outline.alike_ofTree path ready same
  rw [contribution_eq_brought, contribution_eq_brought]
  refine outlines.map fun o o' ho => ?_
  rw [← brought_undocumented, ← brought_undocumented, ho]

/-- A file without its comments brings the same into a project as with them, or is refused for
the same reason, but that nothing is documented. -/
theorem contribution_uncommented (p : Project) (path text : String) {t t' : Flagged}
    (tidy : t.root.Tidy) (same : t'.root = t.root.uncommented)
    (outside : ∀ c ∈ t.root.preorder, c.isComment = true →
      ¬ Outline.StartsInside text.toList c) :
    Contribution.undocumented <$> p.contribution ⟨path, text, some t⟩ =
      Contribution.undocumented <$> p.contribution ⟨path, text, some t'⟩ := by
  refine (p.contribution_alike path text tidy same).resolve_right ?_
  intro ⟨⟨c, hc, comment, inside⟩, _⟩
  exact outside c hc comment inside

theorem contribution_uncommented_nested :
    Sample.nestedTree.Tidy ∧ (∀ c ∈ Sample.nestedTree.preorder, c.isComment = true →
      ¬ Outline.StartsInside Sample.nested.text.toList c) ∧
      (Sample.project.contribution Sample.nested).isOk = true ∧
      Contribution.undocumented <$> Sample.project.contribution Sample.nested =
        Contribution.undocumented <$> Sample.project.contribution
          { Sample.nested with tree := some Sample.nestedTree.uncommented } := by
  have tidy : Sample.nestedTree.Tidy := by decide +kernel
  have outside : ∀ c ∈ Sample.nestedTree.preorder, c.isComment = true →
      ¬ Outline.StartsInside Sample.nested.text.toList c := by
    decide +kernel
  exact ⟨tidy, outside, by decide +kernel, contribution_uncommented Sample.project
    Sample.nested.path Sample.nested.text (t := Sample.nestedTree) tidy rfl outside⟩

end Project

end CallFlow
