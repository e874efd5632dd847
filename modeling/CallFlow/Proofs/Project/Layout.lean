import CallFlow.Proofs.Outline.Layout
import CallFlow.Proofs.Project.Ownership

/-! The order of ids against the order of the text. Main statement: in a project whose trees have
ranges that nest, a smaller id within a file means an earlier place. Functions lie one ahead of the
other, and of two classes the later one lies either behind the earlier one or inside it. Rows of
entries are made in the same three ways as in the forest of owners. -/

namespace CallFlow

open Outline (Decl FunctionHead ClassHead LaidOut Passed spans)

/-! ## Rows of entries in the order of the text -/

/-- Class `q` is the class right around class `i`. -/
def Numbered.Around (classes : Numbered) (q i : ClassId) : Prop :=
  ∃ c, (c, i) ∈ classes ∧ c.parent = some q

theorem Numbered.around_mono {classes classes' : Numbered} (sub : classes ⊆ classes') :
    classes.Around ≤ classes'.Around := by
  intro q i around
  obtain ⟨c, hc, parent⟩ := around
  exact ⟨c, sub hc, parent⟩

/-- If `c` and `d` belong to one file, then `d` lies inside `c`, in the sense of ids and of ranges,
or behind it. -/
def Numbered.Follows (classes : Numbered) (c d : ClassDef × ClassId) : Prop :=
  c.1.file = d.1.file →
    Relation.TransGen classes.Around c.2 d.2 ∧ d.1.span.Inside c.1.span ∨ c.1.span.Ahead d.1.span

theorem Numbered.Follows.mono {classes classes' : Numbered} (sub : classes ⊆ classes')
    {c d : ClassDef × ClassId} (h : classes.Follows c d) : classes'.Follows c d :=
  fun file => (h file).imp_left fun ⟨around, inside⟩ =>
    ⟨Relation.TransGen.mono (around_mono sub) _ _ around, inside⟩

namespace Placement

/-- The entries lie in the text as their ids say; what lies outermost has the owner `owner`. -/
structure Laid (owner : Option ClassId) (first : Ids) (a : Placement) : Prop where
  functions : a.functions.Pairwise fun f g => f.file = g.file → f.span.Ahead g.span
  classes : (a.classes.zipIdx first.cls).Pairwise (Numbered.Follows (a.classes.zipIdx first.cls))
  rooted : ∀ d j, (d, j) ∈ a.classes.zipIdx first.cls → ∀ q ∈ owner,
    Relation.TransGen (Numbered.Around (a.classes.zipIdx first.cls)) q j
  members : ∀ f ∈ a.functions, ∀ q ∈ f.owner,
    owner = some q ∨ ∃ c, (c, q) ∈ a.classes.zipIdx first.cls ∧ f.span.Inside c.span

namespace Laid

variable {owner : Option ClassId} {first : Ids} {a b : Placement}

theorem empty : Placement.empty.Laid owner first := by
  refine ⟨.nil, .nil, ?_, ?_⟩ <;> simp [Placement.empty]

/-- Two rows, of two files or one behind the other. -/
theorem append (ha : a.Laid owner first) (hb : b.Laid owner (a.after first))
    (functions : ∀ f ∈ a.functions, ∀ g ∈ b.functions, f.file = g.file → f.span.Ahead g.span)
    (classes : ∀ c ∈ a.classes, ∀ d ∈ b.classes, c.file = d.file → c.span.Ahead d.span) :
    (a.append b).Laid owner first := by
  have left : a.classes.zipIdx first.cls ⊆ (a.append b).classes.zipIdx first.cls := by
    rw [zipIdx_classes_append]
    exact List.subset_append_left _ _
  have right : b.classes.zipIdx (a.after first).cls ⊆ (a.append b).classes.zipIdx first.cls := by
    rw [zipIdx_classes_append]
    exact List.subset_append_right _ _
  refine ⟨List.pairwise_append.mpr ⟨ha.functions, hb.functions, functions⟩, ?_, ?_, ?_⟩
  · rw [zipIdx_classes_append, ← zipIdx_classes_append]
    nth_rewrite 2 [zipIdx_classes_append]
    refine List.pairwise_append.mpr ⟨ha.classes.imp (.mono left), hb.classes.imp (.mono right), ?_⟩
    rintro ⟨c, i⟩ hc ⟨d, j⟩ hd file
    exact .inr (classes c (List.fst_mem_of_mem_zipIdx hc) d (List.fst_mem_of_mem_zipIdx hd) file)
  · intro d j hd q hq
    rw [zipIdx_classes_append] at hd
    rcases List.mem_append.mp hd with hd | hd
    · exact Relation.TransGen.mono (Numbered.around_mono left) _ _ (ha.rooted d j hd q hq)
    · exact Relation.TransGen.mono (Numbered.around_mono right) _ _ (hb.rooted d j hd q hq)
  · intro f hf q hq
    rcases List.mem_append.mp hf with hf | hf
    · exact (ha.members f hf q hq).imp_right fun ⟨c, hc, inside⟩ => ⟨c, left hc, inside⟩
    · exact (hb.members f hf q hq).imp_right fun ⟨c, hc, inside⟩ => ⟨c, right hc, inside⟩

/-- A class around a row that lies inside the class. -/
theorem wrap {c : ClassDef} (inner : a.Laid (some first.cls) ⟨first.cls + 1, first.function⟩)
    (parent : c.parent = owner)
    (inside : a.All (fun d => d.span.Inside c.span) fun f => f.span.Inside c.span) :
    Laid owner first ⟨c :: a.classes, a.functions, [first.cls], []⟩ := by
  have self : (c, first.cls) ∈ (c :: a.classes).zipIdx first.cls := List.mem_cons_self
  have sub : a.classes.zipIdx (first.cls + 1) ⊆ (c :: a.classes).zipIdx first.cls :=
    List.subset_cons_self _ _
  have rooted (d) (j) (hd : (d, j) ∈ a.classes.zipIdx (first.cls + 1)) :
      Relation.TransGen (Numbered.Around ((c :: a.classes).zipIdx first.cls)) first.cls j :=
    Relation.TransGen.mono (Numbered.around_mono sub) _ _ (inner.rooted d j hd first.cls rfl)
  refine ⟨inner.functions, List.pairwise_cons.mpr ⟨?_, inner.classes.imp (.mono sub)⟩, ?_, ?_⟩
  · rintro ⟨d, j⟩ hd _
    exact .inl ⟨rooted d j hd, inside.classes d (List.fst_mem_of_mem_zipIdx hd)⟩
  · intro d j hd q hq
    have around : Numbered.Around ((c :: a.classes).zipIdx first.cls) q first.cls :=
      ⟨c, self, parent.trans hq⟩
    rcases List.mem_cons.mp hd with hd | hd
    · cases hd
      exact .single around
    · exact (rooted d j hd).head around
  · intro f hf q hq
    rcases inner.members f hf q hq with own | ⟨d, hd, hin⟩
    · cases own
      exact .inr ⟨c, self, inside.functions f hf⟩
    · exact .inr ⟨d, sub hd, hin⟩

end Laid

end Placement

/-! ## Placing an outline -/

def FunctionDef.head (f : FunctionDef) : FunctionHead :=
  ⟨f.name, f.doc, f.span, f.line, f.annotations, f.calls⟩

def ClassDef.head (c : ClassDef) : ClassHead := ⟨c.name, c.isObject, c.doc, c.span⟩

namespace Outline

variable {F : FunctionHead → Prop} {C : ClassHead → Prop}

/-- What is declared anywhere lies in the range of an outermost declaration. -/
theorem placeAll_inside (home : Home) {ds : List Decl} (laid : ∀ d ∈ ds, d.Laid F C)
    (owner : Option ClassId) (first : Ids) {l : List Span}
    (within : ∀ a ∈ spans ds, ∃ b ∈ l, a.Inside b) :
    (placeAll home owner first ds).All (fun c => ∃ b ∈ l, c.span.Inside b)
      fun f => ∃ b ∈ l, f.span.Inside b := by
  have passed : Passed home (fun d => d.Laid F C ∧ ∀ a ∈ d.span?, ∃ b ∈ l, a.Inside b)
      (fun c => ∃ b ∈ l, c.span.Inside b) fun f => ∃ b ∈ l, f.span.Inside b := by
    refine ⟨fun h _ hd => hd.2 h.span rfl, fun h _ _ _ _ hd => hd.2 h.span rfl, ?_⟩
    rintro h members ⟨laid, hspan⟩ m hm
    cases laid with
    | classLike _ inner spread =>
      refine ⟨inner m hm, fun a ha => ?_⟩
      obtain ⟨b, hb, hin⟩ := hspan h.span rfl
      exact ⟨b, hb, (spread.inside a (List.mem_filterMap.mpr ⟨m, hm, ha⟩)).trans hin⟩
  refine passed.placeAll ds owner first fun d hd => ⟨laid d hd, fun a ha => ?_⟩
  exact within a (List.mem_filterMap.mpr ⟨d, hd, ha⟩)

theorem placeAll_singleton (home : Home) (owner : Option ClassId) (first : Ids) (d : Decl) :
    placeAll home owner first [d] = d.place home owner first := by
  simp [placeAll, Placement.append, Placement.empty]

mutual

theorem Decl.place_laid (home : Home) : ∀ (d : Decl) (owner : Option ClassId) (first : Ids),
    d.Laid F C → (d.place home owner first).Laid owner first
  | .property _, _, _, _ => .empty
  | .function h, owner, first, _ => by
    refine ⟨List.pairwise_singleton _ _, .nil, by simp [Decl.place], fun f hf q hq => .inl ?_⟩
    rw [Decl.place] at hf
    cases List.mem_singleton.mp hf
    exact hq
  | .classLike h members, owner, first, hd => by
    cases hd with
    | classLike _ inner spread =>
      have row := placeAll_laid home members (some first.cls) ⟨first.cls + 1, first.function⟩ inner
        spread.ahead
      have inside := placeAll_inside home inner (some first.cls) ⟨first.cls + 1, first.function⟩
        (l := [h.span]) fun a ha => ⟨h.span, List.mem_singleton_self _, spread.inside a ha⟩
      simp only [List.mem_singleton, exists_eq_left] at inside
      rw [Decl.place]
      exact row.wrap rfl inside

theorem placeAll_laid (home : Home) : ∀ (ds : List Decl) (owner : Option ClassId) (first : Ids),
    (∀ d ∈ ds, d.Laid F C) → (spans ds).Pairwise Span.Ahead →
      (placeAll home owner first ds).Laid owner first
  | [], _, _, _, _ => .empty
  | d :: ds, owner, first, laid, ahead => by
    obtain ⟨head, tail⟩ := List.forall_mem_cons.mp laid
    rw [show d :: ds = [d] ++ ds from rfl, spans_append] at ahead
    obtain ⟨_, later, cross⟩ := List.pairwise_append.mp ahead
    have left := placeAll_inside home (List.forall_mem_singleton.mpr head) owner first
      fun a ha => ⟨a, ha, .refl a⟩
    have right := placeAll_inside home tail owner ((d.place home owner first).after first)
      fun a ha => ⟨a, ha, .refl a⟩
    rw [placeAll_singleton] at left
    rw [placeAll]
    refine (d.place_laid home owner first head).append (placeAll_laid home ds owner _ tail later)
      (fun f hf g hg _ => ?_) fun c hc e he _ => ?_
    · obtain ⟨a, ha, hfa⟩ := left.functions f hf
      obtain ⟨b, hb, hgb⟩ := right.functions g hg
      exact (cross a ha b hb).mono hfa hgb
    · obtain ⟨a, ha, hca⟩ := left.classes c hc
      obtain ⟨b, hb, heb⟩ := right.classes e he
      exact (cross a ha b hb).mono hca heb

end

/-- What holds of the declarations holds of the entries. -/
theorem placeAll_attested (home : Home) {ds : List Decl} (laid : ∀ d ∈ ds, d.Laid F C)
    (owner : Option ClassId) (first : Ids) :
    (placeAll home owner first ds).All (fun c => C c.head) fun f => F f.head := by
  have passed : Passed home (fun d => d.Laid F C) (fun c => C c.head) fun f => F f.head := by
    refine ⟨fun h _ hd => ?_, fun h members _ _ _ hd => ?_, fun h members hd => ?_⟩
    · cases hd with
      | function fact => exact fact
    · cases hd with
      | classLike fact _ _ => exact fact
    · cases hd with
      | classLike _ inner _ => exact inner
  exact passed.placeAll ds owner first laid

end Outline

/-- The tree of the source, if there is one, has ranges that nest. -/
def Source.Nested (s : Source) : Prop := ∀ tree ∈ s.tree, tree.root.WellNested

theorem Outline.source_of_ofTree {path source : String} {tree : Tree.Flagged} {o : Outline}
    (h : ofTree path source tree = .ok o) : o.source = source := by
  unfold ofTree at h
  dsimp only at h
  split at h
  · cases h
  split at h
  · cases h
  · obtain ⟨decls, _, h⟩ := bind_eq_ok.mp h
    cases h
    rfl

theorem Source.laidOut {s : Source} {o : Outline} {Q : Tree.Node → Prop}
    {F : List Char → FunctionHead → Prop} {C : List Char → ClassHead → Prop}
    (founded : Outline.Founded ⟨s.path, s.text.toList⟩ Q (F s.text.toList) (C s.text.toList))
    (holds : ∀ tree ∈ s.tree, Q tree.root) (h : s.outline = .ok o) :
    LaidOut (F o.source.toList) (C o.source.toList) o := by
  unfold Source.outline at h
  split at h
  · cases h
  · rename_i root hroot
    rw [Outline.source_of_ofTree h]
    exact Outline.laidOut_of_ofTree founded (holds root hroot) h

theorem Outline.founded_lined (s : Sheet) :
    Founded s Tree.Node.WellNested (FunctionHead.Lined s.source) fun _ => True := by
  refine ⟨fun n hn => hn, fun n hn c hc => hn.child hc, ?_, fun _ _ _ _ _ => trivial⟩
  intro spot head hn _ hf
  exact lined_of_function hn hf

theorem Sample.wellNested_nestedTree : Sample.nestedTree.WellNested :=
  ⟨by decide +kernel, by decide +kernel, by decide +kernel⟩

/-! ## Projects -/

namespace Project

variable {p : Project}

/-- A statement about each function and each class by itself and the text it comes from. -/
structure Attested (F : List Char → FunctionHead → Prop) (C : List Char → ClassHead → Prop)
    (p : Project) : Prop where
  functions : ∀ f ∈ p.functions, ∃ s, p.files[f.file]? = some s ∧ F s.source.toList f.head
  classes : ∀ c ∈ p.classes, ∃ s, p.files[c.file]? = some s ∧ C s.source.toList c.head

section Attested

variable {F : List Char → FunctionHead → Prop} {C : List Char → ClassHead → Prop}

theorem attested_empty (root : String) : (empty root).Attested F C := by
  constructor <;> simp [empty]

theorem Attested.add (h : p.Attested F C) {o : Outline}
    (laid : LaidOut (F o.source.toList) (C o.source.toList) o) : (p.add o).Attested F C := by
  have home := p.placed_at o
  have new := Outline.placeAll_attested ⟨p.files.size, o.package⟩ laid.laid none p.nextIds
  have kept {k : FileId} {s : SourceFile} (hs : p.files[k]? = some s) :
      (p.add o).files[k]? = some s := by
    rw [files_add, Array.getElem?_push, if_neg (Nat.ne_of_lt (Array.getElem?_eq_some_iff.mp hs).1)]
    exact hs
  constructor
  · intro f hf
    rw [functions_add] at hf
    rcases Array.mem_append.mp hf with hf | hf
    · obtain ⟨s, hs, fact⟩ := h.functions f hf
      exact ⟨s, kept hs, fact⟩
    · have hf := List.mem_toArray.mp hf
      rw [home.functions f hf, files_add, Array.getElem?_push_size]
      exact ⟨_, rfl, new.functions f hf⟩
  · intro c hc
    rw [classes_add] at hc
    rcases Array.mem_append.mp hc with hc | hc
    · obtain ⟨s, hs, fact⟩ := h.classes c hc
      exact ⟨s, kept hs, fact⟩
    · have hc := List.mem_toArray.mp hc
      rw [(home.classes c hc).1, files_add, Array.getElem?_push_size]
      exact ⟨_, rfl, new.classes c hc⟩

/-- What is founded in the trees of all sources holds of all functions and classes. -/
theorem BuiltFrom.attested {S : Source → Prop} {Q : List Char → Tree.Node → Prop}
    (founded : ∀ s : Outline.Sheet, Outline.Founded s (Q s.source) (F s.source) (C s.source))
    (holds : ∀ s, S s → ∀ tree ∈ s.tree, Q s.text.toList tree.root) (built : p.BuiltFrom S) :
    p.Attested F C := by
  refine built.invariant attested_empty fun p s o hs ho h => h.add ?_
  exact s.laidOut (founded ⟨s.path, s.text.toList⟩) (holds s hs) ho

end Attested

/-- The new file's entries come behind all others, which belong to other files. -/
theorem laid_add (closed : p.Closed) (h : p.whole.Laid none ⟨0, 0⟩) {F : FunctionHead → Prop}
    {C : ClassHead → Prop} {o : Outline} (laid : LaidOut F C o) :
    (p.add o).whole.Laid none ⟨0, 0⟩ := by
  have home := p.placed_at o
  have new := Outline.placeAll_laid ⟨p.files.size, o.package⟩ o.decls none p.nextIds laid.laid
    laid.ahead
  rw [whole_add]
  refine h.append (p.nextIds_eq_after ▸ new) (fun f hf g hg file => ?_) fun c hc d hd file => ?_
  · have old := (closed.functions f (Array.mem_toList_iff.mp hf)).file
    rw [file, home.functions g hg] at old
    exact absurd old (Nat.lt_irrefl _)
  · have old := (closed.classes c (Array.mem_toList_iff.mp hc)).file
    rw [file, (home.classes d hd).1] at old
    exact absurd old (Nat.lt_irrefl _)

theorem pairwise_getElem? {α : Type} {xs : Array α} {R : α → α → Prop} (h : xs.toList.Pairwise R)
    {i j : Nat} {x y : α} (hx : xs[i]? = some x) (hy : xs[j]? = some y) (hij : i < j) : R x y := by
  obtain ⟨hi, rfl⟩ := Array.getElem?_eq_some_iff.mp hx
  obtain ⟨hj, rfl⟩ := Array.getElem?_eq_some_iff.mp hy
  exact List.pairwise_iff_getElem.mp h i j hi hj hij

theorem around_eq (p : Project) : Numbered.Around (p.classes.toList.zipIdx 0) = p.Around := by
  funext q i
  simp only [Numbered.Around, Project.Around, mem_zipIdx_toList]

theorem BuiltFrom.laid (built : p.BuiltFrom Source.Nested) : p.whole.Laid none ⟨0, 0⟩ := by
  have invariant : p.Closed ∧ p.whole.Laid none ⟨0, 0⟩ := by
    refine built.invariant (P := fun p => p.Closed ∧ p.whole.Laid none ⟨0, 0⟩)
      (fun root => ⟨closed_empty root, .empty⟩) ?_
    rintro p s o nested ho ⟨closed, laid⟩
    have out := s.laidOut (F := FunctionHead.Lined) (C := fun _ _ => True)
      (Outline.founded_lined ⟨s.path, s.text.toList⟩) nested ho
    exact ⟨closed.add o, laid_add closed laid out⟩
  exact invariant.2

/-- Within a file, ids are in the order of the text. -/
structure TextOrder (p : Project) : Prop where
  /-- Of two functions the one with the smaller id ends before the other starts. -/
  functions : ∀ (i j : FunctionId) (f g : FunctionDef), p.functions[i]? = some f →
    p.functions[j]? = some g → i < j → f.file = g.file →
      f.span.stop ≤ g.span.start ∧ f.line ≤ g.line
  /-- Of two classes the one with the smaller id does so too, or the other lies inside it. -/
  classes : ∀ (i j : ClassId) (c d : ClassDef), p.classes[i]? = some c → p.classes[j]? = some d →
    i < j → c.file = d.file →
      Relation.TransGen p.Around i j ∧ d.span.Inside c.span ∨ c.span.stop ≤ d.span.start
  members : ∀ f ∈ p.functions, ∀ q ∈ f.owner,
    ∃ c : ClassDef, p.classes[q]? = some c ∧ f.span.Inside c.span
  /-- Calls come line after line, between the first and the last line of the function. -/
  calls : ∀ f ∈ p.functions, ∃ s : SourceFile, p.files[f.file]? = some s ∧
    f.line = Text.row f.span.start s.source.toList + 1 ∧
    (f.calls.map CallSite.line).Pairwise (· ≤ ·) ∧
    ∀ site ∈ f.calls, f.line ≤ site.line ∧ site.line ≤ Text.row f.span.stop s.source.toList + 1

theorem textOrder_of_nested (built : p.BuiltFrom Source.Nested) : p.TextOrder := by
  have laid := built.laid
  have lined : p.Attested FunctionHead.Lined fun _ _ => True :=
    built.attested (Q := fun _ => Tree.Node.WellNested) Outline.founded_lined fun _ hs => hs
  refine ⟨fun i j f g hf hg hij file => ?_, fun i j c d hc hd hij file => ?_, fun f hf q hq => ?_,
    fun f hf => ?_⟩
  · have ahead := pairwise_getElem? laid.functions hf hg hij file
    obtain ⟨s, hs, lf⟩ := lined.functions f (Array.mem_of_getElem? hf)
    obtain ⟨s', hs', lg⟩ := lined.functions g (Array.mem_of_getElem? hg)
    obtain rfl := Option.some.inj (hs.symm.trans (file ▸ hs'))
    refine ⟨ahead, ?_⟩
    rw [show f.line = _ from lf.first, show g.line = _ from lg.first]
    exact Nat.succ_le_succ (Text.row_le_row _ (lf.ordered.trans ahead))
  · have follows : Numbered.Follows (p.classes.toList.zipIdx 0) (c, i) (d, j) := by
      have pairs := List.pairwise_iff_getElem.mp laid.classes
      obtain ⟨hi, rfl⟩ := Array.getElem?_eq_some_iff.mp hc
      obtain ⟨hj, rfl⟩ := Array.getElem?_eq_some_iff.mp hd
      simpa [whole] using pairs i j (by simpa [whole] using hi) (by simpa [whole] using hj) hij
    rw [← around_eq]
    exact follows file
  · rcases laid.members f (Array.mem_toList_iff.mpr hf) q hq with own | ⟨c, hc, inside⟩
    · cases own
    · exact ⟨c, mem_zipIdx_toList.mp hc, inside⟩
  · obtain ⟨s, hs, line⟩ := lined.functions f hf
    exact ⟨s, hs, line.first, line.ascend, line.between⟩

/-- Two files, one of them with classes in a class. -/
theorem textOrder_of_nested_pair :
    (Sample.project.offer Sample.nested).classes.size = 3 ∧
    (Sample.project.offer Sample.nested).TextOrder := by
  have source : Sample.source.Nested := by
    rintro root ⟨⟩
    exact ⟨by decide +kernel, by decide +kernel, by decide +kernel⟩
  have nested : Sample.nested.Nested := by
    rintro root ⟨⟩
    exact Sample.wellNested_nestedTree
  exact ⟨by decide +kernel,
    textOrder_of_nested (.offer (.offer (.empty ".") Sample.source source) Sample.nested nested)⟩

end Project

end CallFlow
