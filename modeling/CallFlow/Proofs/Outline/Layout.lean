import CallFlow.Proofs.Outline.Reading
import CallFlow.Proofs.Tree.Nesting

/-! Where the declarations of a file stand in its text. The declarations that a list of nodes is
read as have ranges that are among those of the nodes, in the same order; so in a tree whose ranges
nest, what a class declares lies inside the class and one member ahead of the next. Along with
this, facts about each declaration by itself are carried from the nodes to the whole outline. -/

namespace CallFlow

open CallFlow.Tree

/-! ## Calls -/

namespace CallSite

theorem line_ofCall (source : List Char) (n : Node) : (ofCall source n).line = n.line source := by
  unfold ofCall
  dsimp only
  repeat' split
  all_goals rfl

/-- The calls of a function are read from nodes of it, in pre-order. -/
theorem exists_nodes_of_function (source : List Char) (n : Node) :
    ∃ calls : List Node, calls.Sublist n.preorder ∧
      ofFunction source n = calls.map (ofCall source) := by
  have below {m : Node} (hm : m.preorder.Sublist n.preorder) : ∃ calls : List Node,
      calls.Sublist n.preorder ∧ CallSite.below source m = calls.map (ofCall source) := by
    refine ⟨_, ?_, rfl⟩
    rw [Node.collect_eq_filter]
    refine (List.filter_sublist.trans ?_).trans hm
    rw [m.preorder_eq]
    exact List.sublist_cons_self m _
  unfold ofFunction
  cases hb : n.child? "function_body" with
  | none => exact ⟨[], List.nil_sublist _, rfl⟩
  | some body =>
    have hbody := Node.preorder_sublist (List.mem_of_find?_eq_some hb)
    dsimp only
    split
    · cases he : body.lastContent? with
      | none => exact ⟨[], List.nil_sublist _, rfl⟩
      | some expr =>
        have child : expr ∈ body.children := List.mem_reverse.mp (List.mem_of_find?_eq_some he)
        have hexpr := (Node.preorder_sublist child).trans hbody
        dsimp only
        split
        · exact ⟨[expr], (List.singleton_sublist.mpr expr.mem_preorder_self).trans hexpr, rfl⟩
        · exact below hexpr
    · exact below hbody

end CallSite

namespace Outline

variable {s : Sheet}

/-- The line of a function, and those of its calls, as the text has them: calls come line after
line, from the first line of the function to the last. -/
structure FunctionHead.Lined (source : List Char) (h : FunctionHead) : Prop where
  ordered : h.span.start ≤ h.span.stop
  first : h.line = Text.row h.span.start source + 1
  ascend : (h.calls.map CallSite.line).Pairwise (· ≤ ·)
  between : ∀ site ∈ h.calls, h.line ≤ site.line ∧ site.line ≤ Text.row h.span.stop source + 1

theorem lined_of_function {spot : Spot} {head : FunctionHead} (nested : spot.node.WellNested)
    (h : s.function spot = .ok head) : head.Lined s.source := by
  have isOf := isOf_of_function h
  obtain ⟨calls, sub, eq⟩ := CallSite.exists_nodes_of_function s.source spot.node
  have row {a b : Nat} (hab : a ≤ b) : Text.row a s.source + 1 ≤ Text.row b s.source + 1 :=
    Nat.succ_le_succ (Text.row_le_row s.source hab)
  rw [← isOf.calls] at eq
  constructor
  case ordered =>
    rw [isOf.span]
    exact nested.range
  case first =>
    rw [isOf.line, isOf.span]
    rfl
  case ascend =>
    simp only [eq, List.map_map, List.pairwise_map, Function.comp_apply, CallSite.line_ofCall]
    exact (nested.starts_ascend.sublist sub).imp row
  case between =>
    intro site hs
    rw [eq] at hs
    obtain ⟨call, hc, rfl⟩ := List.mem_map.mp hs
    have mem := sub.subset hc
    have inside := nested.inside_of_mem call mem
    rw [CallSite.line_ofCall, isOf.line, isOf.span]
    exact ⟨row inside.start, row ((nested.of_mem mem).range.trans inside.stop)⟩

/-! ## Ranges of declarations -/

/-- The range of a function or class; what a property covers is not kept. -/
def Decl.span? : Decl → Option Span
  | property _ => none
  | function head => some head.span
  | classLike head _ => some head.span

/-- The ranges of what is declared, in order. -/
def spans (ds : List Decl) : List Span := ds.filterMap Decl.span?

theorem spans_append (ds es : List Decl) : spans (ds ++ es) = spans ds ++ spans es :=
  List.filterMap_append

theorem spans_of_properties {ds : List Decl} (h : s.Properties ds) : spans ds = [] := by
  refine List.filterMap_eq_nil_iff.mpr fun d hd => ?_
  obtain ⟨p, rfl⟩ := h.are_properties d hd
  rfl

/-- A node has at most one range to give. -/
theorem Reads.spans {before ns : List Node} {ds : List Decl} (h : Reads s before ns ds) :
    (Outline.spans ds).Sublist (ns.map Node.span) := by
  induction h with
  | nil before => exact List.nil_sublist _
  | @plain _ _ n _ _ properties _ ih =>
    rw [spans_append, spans_of_properties properties, List.nil_append]
    exact ih.cons n.span
  | @function _ _ n _ _ _ read _ ih =>
    rw [List.map_cons, ← (isOf_of_function read).span]
    exact ih.cons_cons _
  | @cls _ _ n _ _ _ _ _ read _ _ _ _ ih =>
    rw [List.map_cons, ← (isOf_of_classHead read).span]
    exact ih.cons_cons _

/-! ## Layout -/

/-- All from the declaration down is laid out as the text nests it: the members of a class lie
inside the class, each ahead of the next. Besides, `F` holds of all functions and `C` of all
classes. -/
inductive Decl.Laid (F : FunctionHead → Prop) (C : ClassHead → Prop) : Decl → Prop where
  | property (p : Property) : Laid F C (.property p)
  | function {head : FunctionHead} (fact : F head) : Laid F C (.function head)
  | classLike {head : ClassHead} {members : List Decl} (fact : C head)
    (inner : ∀ m ∈ members, m.Laid F C) (spread : head.span.Spread (spans members)) :
    Laid F C (.classLike head members)

/-- `Q` holds from a node down, and where it holds of a node and of what stands in front of it, `F`
or `C` holds of the declaration that is read there. -/
structure Founded (s : Sheet) (Q : Node → Prop) (F : FunctionHead → Prop) (C : ClassHead → Prop) :
    Prop where
  nested : ∀ n, Q n → n.WellNested
  child : ∀ n, Q n → ∀ c ∈ n.children, Q c
  function : ∀ spot : Spot, ∀ head, Q spot.node → (∀ b ∈ spot.before, Q b) →
    s.function spot = .ok head → F head
  classLike : ∀ spot : Spot, ∀ head, Q spot.node → (∀ b ∈ spot.before, Q b) →
    s.classHead spot = .ok head → C head

namespace Founded

variable {Q : Node → Prop} {F : FunctionHead → Prop} {C : ClassHead → Prop}

/-- The class body lies in the class, and the members lie in the body. -/
theorem spread_of_body (founded : Founded s Q F C) {n : Node} {inner : List Decl} (hn : Q n)
    (h : Reads s [] (bodyAmong n.children) inner) : n.span.Spread (spans inner) := by
  rcases h.of_body with rfl | ⟨body, hb, nodes⟩
  · exact ⟨by simp [spans], .nil⟩
  · rw [nodes] at h
    have inside := (founded.nested n hn).inside n n.mem_preorder_self body hb
    exact ((founded.nested body (founded.child n hn body hb)).spread.sublist h.spans).widen inside

theorem laid (founded : Founded s Q F C) {before ns : List Node} {ds : List Decl}
    (h : Reads s before ns ds) (hns : ∀ n ∈ ns, Q n) (hbefore : ∀ b ∈ before, Q b) :
    ∀ d ∈ ds, d.Laid F C := by
  have properties {ds : List Decl} (h : s.Properties ds) : ∀ d ∈ ds, d.Laid F C := by
    intro d hd
    obtain ⟨p, rfl⟩ := h.are_properties d hd
    exact .property p
  induction h with
  | nil before => simp
  | plain found _ ih =>
    obtain ⟨hn, hrest⟩ := List.forall_mem_cons.mp hns
    exact List.forall_mem_append.mpr
      ⟨properties found, ih hrest (List.forall_mem_cons.mpr ⟨hn, hbefore⟩)⟩
  | function _ read _ ih =>
    obtain ⟨hn, hrest⟩ := List.forall_mem_cons.mp hns
    exact List.forall_mem_cons.mpr ⟨.function (founded.function _ _ hn hbefore read),
      ih hrest (List.forall_mem_cons.mpr ⟨hn, hbefore⟩)⟩
  | cls _ read parameters inner _ ihInner ih =>
    obtain ⟨hn, hrest⟩ := List.forall_mem_cons.mp hns
    have members := List.forall_mem_append.mpr
      ⟨properties parameters, ihInner (forall_bodyAmong founded.child hn) (by simp)⟩
    refine List.forall_mem_cons.mpr
      ⟨.classLike (founded.classLike _ _ hn hbefore read) members ?_,
        ih hrest (List.forall_mem_cons.mpr ⟨hn, hbefore⟩)⟩
    rw [spans_append, spans_of_properties parameters, List.nil_append,
      (isOf_of_classHead read).span]
    exact founded.spread_of_body hn inner

end Founded

/-- The declarations at the top level are laid out like the members of a class. -/
structure LaidOut (F : FunctionHead → Prop) (C : ClassHead → Prop) (o : Outline) : Prop where
  laid : ∀ d ∈ o.decls, d.Laid F C
  ahead : (spans o.decls).Pairwise Span.Ahead

theorem laidOut_of_ofTree {Q : Node → Prop} {F : FunctionHead → Prop} {C : ClassHead → Prop}
    {path source : String} {tree : Flagged} {o : Outline}
    (founded : Founded ⟨path, source.toList⟩ Q F C) (hroot : Q tree.root)
    (h : ofTree path source tree = .ok o) : LaidOut F C o := by
  have reads := reads_ofTree h
  exact ⟨founded.laid reads (founded.child _ hroot) (by simp),
    ((founded.nested _ hroot).spread.sublist reads.spans).ahead⟩

end Outline

end CallFlow
