import CallFlow.Proofs.Tree.Search
import Mathlib.Data.List.Chain

/-! Trees whose ranges nest: a node lies in the range of its parent, and behind the sibling in
front of it. Main statements: all nodes below a node lie in its range, and from one node to the
next in pre-order the ranges never start further to the left. -/

namespace CallFlow

/-! ## Ranges -/

namespace Span

/-- The range `a` lies in the range `b`. -/
structure Inside (a b : Span) : Prop where
  start : b.start ≤ a.start
  stop : a.stop ≤ b.stop

instance (a b : Span) : Decidable (a.Inside b) :=
  decidable_of_iff (b.start ≤ a.start ∧ a.stop ≤ b.stop)
    ⟨fun h => ⟨h.1, h.2⟩, fun h => ⟨h.start, h.stop⟩⟩

theorem Inside.refl (a : Span) : a.Inside a := ⟨Nat.le_refl _, Nat.le_refl _⟩

theorem Inside.trans {a b c : Span} (h : a.Inside b) (h' : b.Inside c) : a.Inside c :=
  ⟨h'.start.trans h.start, h.stop.trans h'.stop⟩

/-- The range `a` ends before `b` starts, or where it starts. -/
def Ahead (a b : Span) : Prop := a.stop ≤ b.start

instance (a b : Span) : Decidable (a.Ahead b) := inferInstanceAs (Decidable (a.stop ≤ b.start))

theorem Ahead.mono {a b a' b' : Span} (h : a.Ahead b) (ha : a'.Inside a) (hb : b'.Inside b) :
    a'.Ahead b' :=
  (ha.stop.trans h).trans hb.start

/-- Ranges in `bounds`, each ahead of the next. -/
structure Spread (bounds : Span) (spans : List Span) : Prop where
  inside : ∀ a ∈ spans, a.Inside bounds
  ahead : spans.Pairwise Ahead

theorem Spread.sublist {bounds : Span} {spans spans' : List Span} (h : Spread bounds spans)
    (sub : spans'.Sublist spans) : Spread bounds spans' :=
  ⟨fun a ha => h.inside a (sub.subset ha), h.ahead.sublist sub⟩

theorem Spread.widen {bounds bounds' : Span} {spans : List Span} (h : Spread bounds spans)
    (inside : bounds.Inside bounds') : Spread bounds' spans :=
  ⟨fun a ha => (h.inside a ha).trans inside, h.ahead⟩

end Span

namespace Tree.Node

/-! ## Nesting -/

/-- Every node from `root` down has a range, which lies in that of its parent, and children do not
overlap and are in order. -/
structure WellNested (root : Node) : Prop where
  ordered : ∀ n ∈ root.preorder, n.span.start ≤ n.span.stop
  inside : ∀ n ∈ root.preorder, ∀ c ∈ n.children, c.span.Inside n.span
  ahead : ∀ n ∈ root.preorder, n.children.IsChain fun c d => c.span.Ahead d.span

mutual

/-- What holds of a node if it holds of its children holds of all nodes. -/
theorem of_children {P : Node → Prop} (step : ∀ n : Node, (∀ c ∈ n.children, P c) → P n) :
    ∀ n, P n
  | mk l cs => step (mk l cs) (of_children_among step cs)

theorem of_children_among {P : Node → Prop} (step : ∀ n : Node, (∀ c ∈ n.children, P c) → P n) :
    ∀ (cs : List Node), ∀ c ∈ cs, P c
  | [] => by simp
  | d :: cs => List.forall_mem_cons.mpr ⟨of_children step d, of_children_among step cs⟩

end

theorem preorder_sublist {n c : Node} (h : c ∈ n.children) : c.preorder.Sublist n.preorder := by
  rw [n.preorder_eq, descendants, List.flatMap_def]
  exact (List.sublist_flatten_of_mem (List.mem_map.mpr ⟨c, h, rfl⟩)).cons n

namespace WellNested

variable {n : Node}

theorem of_mem {m : Node} (h : n.WellNested) (hm : m ∈ n.preorder) : m.WellNested :=
  ⟨fun k hk => h.ordered k (preorder_subset hm hk), fun k hk => h.inside k (preorder_subset hm hk),
    fun k hk => h.ahead k (preorder_subset hm hk)⟩

theorem child {c : Node} (h : n.WellNested) (hc : c ∈ n.children) : c.WellNested :=
  h.of_mem (mem_preorder_of_mem_descendants (mem_descendants_of_mem_children hc))

theorem range (h : n.WellNested) : n.span.start ≤ n.span.stop := h.ordered n n.mem_preorder_self

/-- Ranges that are each ahead of the next one are ahead of all that follow. -/
theorem ahead_of_isChain : ∀ {cs : List Node}, (∀ c ∈ cs, c.span.start ≤ c.span.stop) →
    cs.IsChain (fun c d => c.span.Ahead d.span) → (cs.map span).Pairwise Span.Ahead
  | [], _, _ => .nil
  | [c], _, _ => List.pairwise_singleton _ _
  | c :: d :: cs, ordered, chain => by
    obtain ⟨next, chain⟩ := List.isChain_cons_cons.mp chain
    have rest := ahead_of_isChain (fun e he => ordered e (List.mem_cons_of_mem c he)) chain
    refine List.pairwise_cons.mpr ⟨fun a ha => ?_, rest⟩
    rcases List.mem_cons.mp ha with rfl | ha
    · exact next
    · have behind := (List.pairwise_cons.mp rest).1 a ha
      exact (next.trans (ordered d (by simp))).trans behind

theorem spread (h : n.WellNested) : n.span.Spread (n.children.map span) := by
  constructor
  · intro a ha
    obtain ⟨c, hc, rfl⟩ := List.mem_map.mp ha
    exact h.inside n n.mem_preorder_self c hc
  · exact ahead_of_isChain (fun c hc => (h.child hc).range) (h.ahead n n.mem_preorder_self)

/-- What lies below a node lies in its range. -/
theorem inside_of_mem : ∀ {n : Node}, n.WellNested → ∀ m ∈ n.preorder, m.span.Inside n.span := by
  intro n
  induction n using of_children with
  | step n ih =>
    intro h m hm
    rw [preorder_eq] at hm
    rcases List.mem_cons.mp hm with rfl | hm
    · exact .refl _
    · obtain ⟨c, hc, hm⟩ := List.mem_flatMap.mp hm
      exact (ih c hc (h.child hc) m hm).trans (h.inside n n.mem_preorder_self c hc)

/-- In pre-order ranges never start further to the left. -/
theorem starts_ascend : ∀ {n : Node}, n.WellNested →
    n.preorder.Pairwise fun a b => a.span.start ≤ b.span.start := by
  intro n
  induction n using of_children with
  | step n ih =>
    intro h
    have below (m) (hm : m ∈ n.descendants) : n.span.start ≤ m.span.start :=
      (h.inside_of_mem m (mem_preorder_of_mem_descendants hm)).start
    rw [preorder_eq]
    refine List.pairwise_cons.mpr ⟨below, List.pairwise_flatMap.mpr
      ⟨fun c hc => ih c hc (h.child hc), ?_⟩⟩
    refine (List.pairwise_map.mp h.spread.ahead).imp_of_mem fun hc hd ahead a ha b hb => ?_
    have left := (h.child hc).inside_of_mem a ha
    have right := (h.child hd).inside_of_mem b hb
    exact (((h.child hc).of_mem ha).range).trans (ahead.mono left right)

end WellNested

end Tree.Node

/-- Further to the right, a text has more line feeds in front. -/
theorem Text.row_le_row : ∀ (cs : List Char) {m n : Nat}, m ≤ n → row m cs ≤ row n cs
  | _, 0, _, _ => by simp [row]
  | [], m + 1, n + 1, _ => by simp [row]
  | c :: cs, m + 1, n + 1, h => by
    rw [row, row]
    exact Nat.add_le_add_left (row_le_row cs (Nat.sub_le_sub_right h _)) _

end CallFlow
