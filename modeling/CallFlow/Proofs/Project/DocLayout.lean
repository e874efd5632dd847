import CallFlow.Proofs.Outline.DocComments
import CallFlow.Proofs.Outline.Fitting
import CallFlow.Proofs.Project.Growth
import CallFlow.Proofs.Project.Layout

/-! Documentation in a project. Main statement: in a file whose tree has ranges that nest,
documentation belongs to one declaration only and overlaps no code but that of the classes around
it. Classes and functions are taken together as entries, each with its documentation as one range;
of two entries one lies ahead of the other, or inside it if that is a class. -/

namespace CallFlow

open CallFlow.Tree
open Outline (Sheet Documents DocPlaced Extends Firm)

/-- The ranges have no byte in common. -/
def Span.Apart (a b : Span) : Prop := a.Ahead b ∨ b.Ahead a

theorem Span.Apart.symm {a b : Span} (h : a.Apart b) : b.Apart a := Or.symm h

/-! ## Entries -/

/-- A class with its id, or a function. -/
inductive Entry where
  | cls (i : ClassId) (c : ClassDef)
  | function (f : FunctionDef)

namespace Entry

def file : Entry → FileId
  | cls _ c => c.file
  | function f => f.file

def cls? : Entry → Option ClassId
  | cls i _ => some i
  | function _ => none

/-- The class right around the entry. -/
def owner : Entry → Option ClassId
  | cls _ c => c.parent
  | function f => f.owner

def span : Entry → Span
  | cls _ c => c.span
  | function f => f.span

def doc : Entry → Option Span
  | cls _ c => c.doc
  | function f => f.doc

/-- The entry is what the node at the spot is read as. -/
def ReadAt (s : Sheet) : Entry → Spot → Prop
  | cls _ c, spot => spot.node.kind ∈ Outline.classKinds ∧ s.classHead spot = .ok c.head
  | function f, spot => spot.node.kind = "function_declaration" ∧ s.function spot = .ok f.head

/-- The entry with its documentation. -/
def extent (e : Entry) : Span := Outline.extent e.span e.doc

end Entry

/-- The entry `e` is a class around `e'`, at whatever depth. -/
def Numbered.Encloses (classes : Numbered) (e e' : Entry) : Prop :=
  ∃ i ∈ e.cls?, ∃ o ∈ e'.owner, Relation.ReflTransGen classes.Around i o

/-- One of the entries with its documentation lies ahead of the other, or inside a class that
encloses it. -/
def Numbered.Settled (classes : Numbered) (e e' : Entry) : Prop :=
  e.extent.Apart e'.extent ∨ classes.Encloses e e' ∧ e'.extent.Inside e.span ∨
    classes.Encloses e' e ∧ e.extent.Inside e'.span

namespace Numbered

variable {classes classes' : Numbered} {e e' : Entry}

theorem Encloses.mono (sub : classes ⊆ classes') (h : classes.Encloses e e') :
    classes'.Encloses e e' := by
  obtain ⟨i, hi, o, ho, around⟩ := h
  exact ⟨i, hi, o, ho, Relation.ReflTransGen.mono (around_mono sub) _ _ around⟩

theorem Settled.mono (sub : classes ⊆ classes') (h : classes.Settled e e') :
    classes'.Settled e e' := by
  rcases h with apart | ⟨outer, inside⟩ | ⟨outer, inside⟩
  · exact .inl apart
  · exact .inr (.inl ⟨outer.mono sub, inside⟩)
  · exact .inr (.inr ⟨outer.mono sub, inside⟩)

theorem Settled.symm (h : classes.Settled e e') : classes.Settled e' e := by
  rcases h with apart | inside | inside
  · exact .inl apart.symm
  · exact .inr (.inr inside)
  · exact .inr (.inl inside)

end Numbered

/-! ## Rows of entries -/

namespace Placement

/-- The entries of a row whose classes have ids from `first` on. -/
def entries (first : ClassId) (a : Placement) : List Entry :=
  (a.classes.zipIdx first).map (fun x => .cls x.2 x.1) ++ a.functions.map .function

/-- The entries of a row are settled, and what lies outermost has the owner `owner`. -/
structure Spaced (owner : Option ClassId) (first : Ids) (a : Placement) : Prop where
  settled : (a.entries first.cls).Pairwise (Numbered.Settled (a.classes.zipIdx first.cls))
  rooted : ∀ e ∈ a.entries first.cls, ∀ q ∈ owner, ∃ o ∈ e.owner,
    Relation.ReflTransGen (Numbered.Around (a.classes.zipIdx first.cls)) q o

variable {owner : Option ClassId} {first : Ids} {a b : Placement}

theorem entries_append (first : Ids) (a b : Placement) : ((a.append b).entries first.cls).Perm
    (a.entries first.cls ++ b.entries (a.after first).cls) := by
  rw [entries, zipIdx_classes_append, entries, entries, Placement.append, List.map_append,
    List.map_append, List.append_assoc, List.append_assoc]
  refine List.Perm.append_left _ ?_
  rw [← List.append_assoc, ← List.append_assoc]
  exact List.perm_append_comm.append_right _

theorem entries_wrap (c : ClassDef) (top : List ClassId) (functions : List FunctionId) :
    entries first.cls ⟨c :: a.classes, a.functions, top, functions⟩ =
      .cls first.cls c :: a.entries (first.cls + 1) := rfl

namespace Spaced

theorem empty : Placement.empty.Spaced owner first := by
  refine ⟨.nil, ?_⟩
  intro e he
  cases he

/-- Two rows one behind the other. -/
theorem append (ha : a.Spaced owner first) (hb : b.Spaced owner (a.after first))
    (ahead : ∀ e ∈ a.entries first.cls, ∀ e' ∈ b.entries (a.after first).cls,
      e.extent.Ahead e'.extent) : (a.append b).Spaced owner first := by
  have left : a.classes.zipIdx first.cls ⊆ (a.append b).classes.zipIdx first.cls := by
    rw [zipIdx_classes_append]
    exact List.subset_append_left _ _
  have right : b.classes.zipIdx (a.after first).cls ⊆ (a.append b).classes.zipIdx first.cls := by
    rw [zipIdx_classes_append]
    exact List.subset_append_right _ _
  constructor
  · rw [(entries_append first a b).pairwise_iff Numbered.Settled.symm]
    refine List.pairwise_append.mpr ⟨ha.settled.imp (.mono left), hb.settled.imp (.mono right), ?_⟩
    intro e he e' he'
    exact .inl (.inl (ahead e he e' he'))
  · intro e he q hq
    rcases List.mem_append.mp ((entries_append first a b).mem_iff.mp he) with he | he
    · obtain ⟨o, ho, around⟩ := ha.rooted e he q hq
      exact ⟨o, ho, Relation.ReflTransGen.mono (Numbered.around_mono left) _ _ around⟩
    · obtain ⟨o, ho, around⟩ := hb.rooted e he q hq
      exact ⟨o, ho, Relation.ReflTransGen.mono (Numbered.around_mono right) _ _ around⟩

/-- A class around a row that lies inside the class. -/
theorem wrap {c : ClassDef} (inner : a.Spaced (some first.cls) ⟨first.cls + 1, first.function⟩)
    (parent : c.parent = owner) (inside : ∀ e ∈ a.entries (first.cls + 1), e.extent.Inside c.span) :
    Spaced owner first ⟨c :: a.classes, a.functions, [first.cls], []⟩ := by
  have sub : a.classes.zipIdx (first.cls + 1) ⊆ (c :: a.classes).zipIdx first.cls :=
    List.subset_cons_self _ _
  have rooted (e) (he : e ∈ a.entries (first.cls + 1)) : ∃ o ∈ e.owner, Relation.ReflTransGen
      (Numbered.Around ((c :: a.classes).zipIdx first.cls)) first.cls o := by
    obtain ⟨o, ho, around⟩ := inner.rooted e he first.cls rfl
    exact ⟨o, ho, Relation.ReflTransGen.mono (Numbered.around_mono sub) _ _ around⟩
  constructor
  · rw [entries_wrap]
    refine List.pairwise_cons.mpr ⟨?_, inner.settled.imp (.mono sub)⟩
    intro e he
    exact .inr (.inl ⟨⟨first.cls, rfl, rooted e he⟩, inside e he⟩)
  · intro e he q hq
    rw [entries_wrap] at he
    rcases List.mem_cons.mp he with rfl | he
    · exact ⟨q, parent.trans hq, .refl⟩
    · obtain ⟨o, ho, around⟩ := rooted e he
      exact ⟨o, ho, around.head ⟨c, List.mem_cons_self, parent.trans hq⟩⟩

end Spaced

end Placement

/-! ## Placing what is read -/

namespace Outline

variable {s : Sheet} {spot : Spot}

theorem firm_of_kind {n : Node} (h : n.kind ∈ "function_declaration" :: classKinds) : Firm n := by
  simp only [classKinds, List.mem_cons, List.not_mem_nil, or_false] at h
  rcases h with h | h | h | h <;> simp [Firm, Node.isComment, headerKinds, h]

/-- Properties get no ids. -/
theorem placeAll_properties (home : Home) (owner : Option ClassId) (first : Ids) {found : List Decl}
    (ds : List Decl) (h : ∀ d ∈ found, ∃ p, d = .property p) :
    placeAll home owner first (found ++ ds) = placeAll home owner first ds := by
  induction found with
  | nil => rfl
  | cons d found ih =>
    obtain ⟨⟨p, rfl⟩, rest⟩ := List.forall_mem_cons.mp h
    rw [List.cons_append, placeAll, Decl.place]
    exact ih rest

end Outline

namespace Entry

variable {s : Sheet} {root : Node} {e : Entry} {spot : Spot}

theorem ReadAt.span (h : e.ReadAt s spot) : e.span = spot.node.span := by
  cases e with
  | cls i c => exact (Outline.isOf_of_classHead h.2).span
  | function f => exact (Outline.isOf_of_function h.2).span

/-- What is read at a spot has the documentation that the nodes around the spot give. -/
theorem ReadAt.documents (h : e.ReadAt s spot) (nested : root.WellNested) (hspot : spot.In root) :
    Documents s.source spot e.doc := by
  refine Outline.documents_of_docOf nested hspot ?_
  cases e with
  | cls i c => exact (Outline.isOf_of_classHead h.2).doc
  | function f => exact (Outline.isOf_of_function h.2).doc

theorem ReadAt.placed (h : e.ReadAt s spot) (nested : root.WellNested) (hspot : spot.In root) :
    ∀ a ∈ e.doc, DocPlaced s.source root e.span a := by
  intro a ha
  have documents := h.documents nested hspot
  rw [show e.doc = some a from ha] at documents
  rw [h.span]
  exact documents.placed nested hspot

/-- The documentation lies ahead of the entry, and both have ranges. -/
structure Headed (e : Entry) : Prop where
  range : e.span.start ≤ e.span.stop
  doc : ∀ a ∈ e.doc, a.start ≤ a.stop ∧ a.Ahead e.span

theorem Headed.doc_inside (h : e.Headed) {a : Span} (ha : a ∈ e.doc) : a.Inside e.extent := by
  have ahead := (h.doc a ha).2.trans h.range
  have start : e.extent.start = a.start := by
    rw [Entry.extent, Outline.extent, show e.doc = some a from ha]
    rfl
  exact ⟨Nat.le_of_eq start, ahead⟩

theorem Headed.span_inside (h : e.Headed) : e.span.Inside e.extent := Outline.inside_extent h.doc

theorem ReadAt.headed (h : e.ReadAt s spot) (nested : root.WellNested) (hspot : spot.In root) :
    e.Headed := by
  have placed := h.placed nested hspot
  refine ⟨?_, fun a ha => ⟨(placed a ha).ordered, (placed a ha).ahead⟩⟩
  rw [h.span]
  exact nested.ordered _ (hspot.mem _ List.mem_cons_self)

end Entry

namespace Placement

variable {s : Sheet} {root parent n : Node} {before rest : List Node} {owner : Option ClassId}
  {first : Ids} {a b : Placement}

/-- The row is read from children of `parent` that stand behind those in `before`. -/
structure Stands (s : Sheet) (root parent : Node) (before : List Node) (owner : Option ClassId)
    (first : Ids) (a : Placement) : Prop where
  spaced : a.Spaced owner first
  read : ∀ e ∈ a.entries first.cls, ∃ spot : Spot, spot.In root ∧ e.ReadAt s spot
  place : ∀ e ∈ a.entries first.cls, Extends parent before e.extent

theorem Stands.empty : Placement.empty.Stands s root parent before owner first := by
  refine ⟨.empty, ?_, ?_⟩ <;> simp [entries, Placement.empty]

/-- A node may be passed over. -/
theorem Stands.skip (h : a.Stands s root parent (n :: before) owner first) :
    a.Stands s root parent before owner first := by
  refine ⟨h.spaced, h.read, fun e he => ?_⟩
  have place := h.place e he
  exact ⟨place.inside, fun b hb => place.behind b (List.mem_cons_of_mem n hb)⟩

/-- What one node is read as, and behind it what its later siblings are read as. -/
theorem Stands.append (firm : Firm n) (ha : a.Stands s root parent before owner first)
    (stop : ∀ e ∈ a.entries first.cls, e.extent.stop ≤ n.span.stop)
    (hb : b.Stands s root parent (n :: before) owner (a.after first)) :
    (a.append b).Stands s root parent before owner first := by
  have split {e : Entry} (he : e ∈ (a.append b).entries first.cls) :=
    List.mem_append.mp ((entries_append first a b).mem_iff.mp he)
  refine ⟨ha.spaced.append hb.spaced fun e he e' he' => ?_, fun e he => ?_, fun e he => ?_⟩
  · exact (stop e he).trans ((hb.place e' he').behind n List.mem_cons_self firm)
  · exact (split he).elim (ha.read e) (hb.read e)
  · exact (split he).elim (ha.place e) (hb.skip.place e)

/-- An entry in the place of the node that it is read from. -/
theorem extends_of_readAt {e : Entry} (nested : root.WellNested) (hparent : parent ∈ root.preorder)
    (children : parent.children = before.reverse ++ n :: rest) (h : e.ReadAt s ⟨n, before⟩) :
    Extends parent before e.extent ∧ n.span.Inside e.extent ∧ e.extent.stop = n.span.stop := by
  have hspot : Spot.In root ⟨n, before⟩ := ⟨parent, hparent, rest, children⟩
  have self := (h.headed nested hspot).span_inside
  rw [Entry.extent, h.span] at self ⊢
  exact ⟨(h.documents nested hspot).extends nested hparent children, self, rfl⟩

section

variable (nested : root.WellNested) (hparent : parent ∈ root.preorder)
  (children : parent.children = before.reverse ++ n :: rest)
include nested hparent children

theorem Stands.function {f : FunctionDef} (h : Entry.ReadAt s (.function f) ⟨n, before⟩)
    (howner : f.owner = owner) :
    Stands s root parent before owner first ⟨[], [f], [], [first.function]⟩ := by
  have single {P : Entry → Prop} (hf : P (.function f)) (e : Entry)
      (he : e ∈ entries first.cls ⟨[], [f], [], [first.function]⟩) : P e :=
    List.mem_singleton.mp he ▸ hf
  refine ⟨⟨List.pairwise_singleton _ _, single fun q hq => ⟨q, howner.trans hq, .refl⟩⟩,
    single ⟨_, ⟨parent, hparent, rest, children⟩, h⟩, single ?_⟩
  exact (extends_of_readAt nested hparent children h).1

/-- A class around what its body is read as. -/
theorem Stands.wrap {c : ClassDef} {body : Node} (h : Entry.ReadAt s (.cls first.cls c) ⟨n, before⟩)
    (howner : c.parent = owner) (inside : body.span.Inside n.span)
    (inner : a.Stands s root body [] (some first.cls) ⟨first.cls + 1, first.function⟩) :
    Stands s root parent before owner first ⟨c :: a.classes, a.functions, [first.cls], []⟩ ∧
      ∀ e ∈ entries first.cls ⟨c :: a.classes, a.functions, [first.cls], []⟩,
        e.extent.stop ≤ n.span.stop := by
  obtain ⟨own, self, stop⟩ := extends_of_readAt nested hparent children h
  have within (e) (he : e ∈ a.entries (first.cls + 1)) : e.extent.Inside n.span :=
    (inner.place e he).inside.trans inside
  have span : n.span = c.span := h.span.symm
  refine ⟨⟨inner.spaced.wrap howner (span ▸ within), ?_, ?_⟩, ?_⟩
  · intro e he
    rcases List.mem_cons.mp he with rfl | he
    · exact ⟨_, ⟨parent, hparent, rest, children⟩, h⟩
    · exact inner.read e he
  · intro e he
    rcases List.mem_cons.mp he with rfl | he
    · exact own
    · -- what lies in front of the class lies in front of all inside it
      have deep := (within e he).trans self
      exact ⟨deep.trans own.inside, fun b hb firm => (own.behind b hb firm).mono (.refl _) deep⟩
  · intro e he
    rcases List.mem_cons.mp he with rfl | he
    · exact Nat.le_of_eq stop
    · exact (within e he).stop

end

end Placement

namespace Outline

variable {s : Sheet} {root : Node} {before ns : List Node} {ds : List Decl}

theorem Reads.stands (nested : root.WellNested) (h : Reads s before ns ds) :
    ∀ (home : Home) (owner : Option ClassId) (first : Ids) (parent : Node),
      parent ∈ root.preorder → parent.children = before.reverse ++ ns →
        (placeAll home owner first ds).Stands s root parent before owner first := by
  induction h with
  | nil before =>
    intro home owner first parent hparent children
    exact .empty
  | @plain before rest n found ds properties _ ih =>
    intro home owner first parent hparent children
    rw [placeAll_properties home owner first ds properties.are_properties]
    exact (ih home owner first parent hparent (by simpa using children)).skip
  | @function before rest n head ds kind read _ ih =>
    intro home owner first parent hparent children
    have entry : Entry.ReadAt s (.function ⟨head.name, home.file, owner, head.doc, head.span,
      head.line, head.annotations, head.calls⟩) ⟨n, before⟩ := ⟨kind, read⟩
    have stop := (Placement.extends_of_readAt nested hparent children entry).2.2
    rw [placeAll, Decl.place]
    refine .append (firm_of_kind (by simp [kind])) (.function nested hparent children entry rfl) ?_
      (ih home owner _ parent hparent (by simpa using children))
    intro e he
    exact List.mem_singleton.mp he ▸ Nat.le_of_eq stop
  | @cls before rest n head parameters inner ds kind read properties body _ ihBody ih =>
    intro home owner first parent hparent children
    have hspot : Spot.In root ⟨n, before⟩ := ⟨parent, hparent, rest, children⟩
    have hn : n ∈ root.preorder := hspot.mem n List.mem_cons_self
    obtain ⟨b, inside, members⟩ : ∃ b : Node, b.span.Inside n.span ∧
        (placeAll home (some first.cls) ⟨first.cls + 1, first.function⟩ inner).Stands s root b []
          (some first.cls) ⟨first.cls + 1, first.function⟩ := by
      rcases body.of_body with rfl | ⟨b, hb, nodes⟩
      · exact ⟨n, .refl _, .empty⟩
      · have below := Node.mem_preorder_of_child hn hb
        exact ⟨b, nested.inside n hn b hb, ihBody home _ _ b below nodes.symm⟩
    rw [placeAll, Decl.place, placeAll_properties home _ _ inner properties.are_properties]
    have entry {props : List Property} {cs : List ClassId} {fs : List FunctionId} :
        Entry.ReadAt s (.cls first.cls ⟨head.name, home.file, owner, home.package, head.isObject,
          head.doc, head.span, props, cs, fs⟩) ⟨n, before⟩ := ⟨kind, read⟩
    obtain ⟨row, stop⟩ := Placement.Stands.wrap nested hparent children entry rfl inside members
    exact .append (firm_of_kind (List.mem_cons_of_mem _ kind)) row stop
      (ih home owner _ parent hparent (by simpa using children))

end Outline

/-! ## Documentation and code -/

namespace Entry

variable {classes : Numbered} {e e' : Entry}

theorem apart_docs (h : e.Headed) (h' : e'.Headed) (settled : classes.Settled e e') {a b : Span}
    (ha : a ∈ e.doc) (hb : b ∈ e'.doc) : a.Apart b := by
  have inside := h.doc_inside ha
  have inside' := h'.doc_inside hb
  rcases settled with (ahead | ahead) | ⟨_, within⟩ | ⟨_, within⟩
  · exact .inl (ahead.mono inside inside')
  · exact .inr (ahead.mono inside' inside)
  · exact .inl ((h.doc a ha).2.mono (.refl a) (inside'.trans within))
  · exact .inr ((h'.doc b hb).2.mono (.refl b) (inside.trans within))

theorem apart_code (h : e.Headed) (h' : e'.Headed) (settled : classes.Settled e e')
    (outside : ¬ classes.Encloses e' e) {a : Span} (ha : a ∈ e.doc) : a.Apart e'.span := by
  have inside := h.doc_inside ha
  have inside' := h'.span_inside
  rcases settled with (ahead | ahead) | ⟨_, within⟩ | ⟨encloses, _⟩
  · exact .inl (ahead.mono inside inside')
  · exact .inr (ahead.mono inside' inside)
  · exact .inl ((h.doc a ha).2.mono (.refl a) (inside'.trans within))
  · exact absurd encloses outside

end Entry

namespace Project

variable {p q : Project}

/-- The classes and functions of a file. -/
def entriesIn (p : Project) (file : FileId) : List Entry :=
  (p.whole.entries 0).filter fun e => e.file == file

/-- The entry `e` is a class around `e'`, at whatever depth. -/
def Encloses (p : Project) (e e' : Entry) : Prop :=
  ∃ i ∈ e.cls?, ∃ o ∈ e'.owner, Relation.ReflTransGen p.Around i o

/-- The documentation of a file's classes and functions against its tree. -/
structure Documented (p : Project) (file : FileId) (s : Sheet) (root : Node) : Prop where
  /-- Each entry is documented by the comments around the node that it is read from. -/
  read : ∀ e ∈ p.entriesIn file, ∃ spot : Spot, spot.In root ∧ e.ReadAt s spot ∧
    e.span = spot.node.span ∧ Documents s.source spot e.doc
  placed : ∀ e ∈ p.entriesIn file, ∀ a ∈ e.doc, DocPlaced s.source root e.span a
  /-- No two entries share documentation. -/
  once : (p.entriesIn file).Pairwise fun e e' => ∀ a ∈ e.doc, ∀ b ∈ e'.doc, a.Apart b
  /-- Documentation overlaps no function, and no class but those around the documented entry. -/
  clear : ∀ e ∈ p.entriesIn file, ∀ e' ∈ p.entriesIn file, ¬ p.Encloses e' e →
    ∀ a ∈ e.doc, a.Apart e'.span

end Project

theorem Placement.forall_entries {a : Placement} {first : ClassId} {P : Entry → Prop}
    (classes : ∀ c ∈ a.classes, ∀ i, P (.cls i c)) (functions : ∀ f ∈ a.functions, P (.function f)) :
    ∀ e ∈ a.entries first, P e := by
  intro e he
  rcases List.mem_append.mp he with he | he
  · obtain ⟨⟨c, i⟩, hc, rfl⟩ := List.mem_map.mp he
    exact classes c (List.fst_mem_of_mem_zipIdx hc) i
  · obtain ⟨f, hf, rfl⟩ := List.mem_map.mp he
    exact functions f hf

namespace Project

variable {p q : Project}

/-- The entries of the file that was added last are those that it brought. -/
theorem entriesIn_add (closed : p.Closed) (o : Outline) :
    ((p.add o).entriesIn p.files.size).Perm ((p.placed o).entries p.nextIds.cls) := by
  have old : (p.whole.entries 0).filter (fun e => e.file == p.files.size) = [] := by
    refine List.filter_eq_nil_iff.mpr (Placement.forall_entries (fun c hc i => ?_) fun f hf => ?_)
    · have within : c.file < p.files.size := (closed.classes c (Array.mem_toList_iff.mp hc)).file
      simpa [Entry.file] using Nat.ne_of_lt within
    · have within : f.file < p.files.size := (closed.functions f (Array.mem_toList_iff.mp hf)).file
      simpa [Entry.file] using Nat.ne_of_lt within
  have new : ((p.placed o).entries p.nextIds.cls).filter (fun e => e.file == p.files.size) =
      (p.placed o).entries p.nextIds.cls := by
    have home := p.placed_at o
    refine List.filter_eq_self.mpr (Placement.forall_entries (fun c hc i => ?_) fun f hf => ?_)
    · simpa [Entry.file] using (home.classes c hc).1
    · simpa [Entry.file] using home.functions f hf
  have row : ((p.add o).whole.entries 0).Perm
      (p.whole.entries 0 ++ (p.placed o).entries p.nextIds.cls) := by
    rw [whole_add, nextIds_eq_after]
    exact Placement.entries_append ⟨0, 0⟩ p.whole (p.placed o)
  have kept := row.filter fun e => e.file == p.files.size
  rwa [List.filter_append, old, new, List.nil_append] at kept

theorem encloses_add {o : Outline} {e e' : Entry}
    (h : Numbered.Encloses ((p.placed o).classes.zipIdx p.nextIds.cls) e e') :
    (p.add o).Encloses e e' := by
  have sub : (p.placed o).classes.zipIdx p.nextIds.cls ⊆ (p.add o).classes.toList.zipIdx 0 := by
    show _ ⊆ (p.add o).whole.classes.zipIdx (Ids.mk 0 0).cls
    rw [whole_add, Placement.zipIdx_classes_append, ← nextIds_eq_after]
    exact List.subset_append_right _ _
  have mono := h.mono sub
  rwa [Numbered.Encloses, around_eq] at mono

/-- Documentation is attached to one declaration only and never overlaps code. -/
theorem documented_of_nested {s : Source} {t : Flagged} (built : p.Built)
    (added : p.addSource s = .ok q) (tree : s.tree = some t) (nested : t.root.WellNested) :
    q.Documented p.files.size ⟨s.path, s.text.toList⟩ t.root := by
  obtain ⟨o, ho, rfl⟩ := map_eq_ok.mp added
  rw [Source.outline, tree] at ho
  have entries := p.entriesIn_add built.closed o
  have stands := (Outline.reads_ofTree ho).stands nested ⟨p.files.size, o.package⟩ none p.nextIds
    t.root t.root.mem_preorder_self rfl
  have read (e) (he : e ∈ (p.add o).entriesIn p.files.size) := stands.read e (entries.mem_iff.mp he)
  have placed (e) (he : e ∈ (p.add o).entriesIn p.files.size) (a) (ha : a ∈ e.doc) :
      DocPlaced s.text.toList t.root e.span a := by
    obtain ⟨spot, hspot, h⟩ := read e he
    exact h.placed nested hspot a ha
  have headed (e) (he : e ∈ (p.add o).entriesIn p.files.size) : e.Headed := by
    obtain ⟨spot, hspot, h⟩ := read e he
    exact h.headed nested hspot
  have settled := (entries.pairwise_iff Numbered.Settled.symm).mpr stands.spaced.settled
  refine ⟨fun e he => ?_, placed, ?_, ?_⟩
  · obtain ⟨spot, hspot, h⟩ := read e he
    exact ⟨spot, hspot, h, h.span, h.documents nested hspot⟩
  · refine settled.imp_of_mem fun he he' settled a ha b hb => ?_
    exact Entry.apart_docs (headed _ he) (headed _ he') settled ha hb
  · intro e he e' he' outside a ha
    have either := List.Pairwise.forall_of_forall_of_flip (R := fun e e' : Entry => e = e' ∨ _)
      (fun _ _ => .inl rfl) (settled.imp .inr) (settled.imp fun h => .inr h.symm) he he'
    rcases either with rfl | settled
    · exact .inl (placed e he a ha).ahead
    · exact Entry.apart_code (headed e he) (headed e' he') settled
        (fun around => outside (encloses_add around)) ha

end Project

namespace Sample

/-- A class behind an import that ends in a comment, and in it a class behind two of them. -/
def documentedTree : Node :=
  node "source_file" 0 47
    [node "import_list" 0 16
      [node "import_header" 0 16
        [token "import" 0,
          node "identifier" 7 10 [node "simple_identifier" 7 8 [], node "simple_identifier" 9 10 []],
          node "line_comment" 12 16 []]],
      node "class_declaration" 17 46
        [token "class" 17, node "type_identifier" 23 24 [],
          node "class_body" 25 46
            [token "\x7b" 25, node "line_comment" 27 31 [], node "line_comment" 32 36 [],
              node "class_declaration" 37 44
                [token "class" 37, node "type_identifier" 43 44 []],
              token "\x7d" 45]]]

def documented : Source where
  path := "Documented.kt"
  text := "import a.B\n" ++ "\n" ++ "// c\n" ++ "class A \x7b\n" ++ "// d\n" ++ "// e\n" ++
    "class B\n" ++ "\x7d\n"
  tree := some documentedTree

theorem wellNested_documentedTree : documentedTree.WellNested :=
  ⟨by decide +kernel, by decide +kernel, by decide +kernel⟩

end Sample

namespace Project

/-- The comment that an import ends in, and two lines of comment inside a class. -/
theorem documented_of_nested_twice :
    ((Sample.project.offer Sample.documented).entriesIn 1).map Entry.doc =
      [some ⟨12, 16⟩, some ⟨27, 36⟩] ∧
    (Sample.project.offer Sample.documented).Documented 1
      ⟨Sample.documented.path, Sample.documented.text.toList⟩ Sample.documentedTree :=
  ⟨by decide +kernel, documented_of_nested (s := Sample.documented) (t := Sample.documentedTree)
    Sample.built (addSource_eq_ok_offer (by decide +kernel)) rfl Sample.wellNested_documentedTree⟩

end Project

end CallFlow
