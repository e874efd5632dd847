import CallFlow.Proofs.Tree.Nesting

/-! Nodes told apart by their numbers in pre-order. Two nodes of a tree may be alike, the calls in
`f(); f()` but for their ranges for instance, so what is counted are numbered nodes. -/

namespace CallFlow.Tree

/-- A node and its number, which those below it continue in pre-order. -/
abbrev Place := Node × Nat

namespace Place

/-- The node and everything below it. -/
def preorder (x : Place) : List Place := x.1.preorder.zipIdx x.2

/-- Neighbours, the first of which has the given number. -/
def among : List Node → Nat → List Place
  | [], _ => []
  | c :: cs, k => (c, k) :: among cs (k + c.preorder.length)

def children (x : Place) : List Place := among x.1.children (x.2 + 1)

/-- All nodes below a node. -/
def descendants (x : Place) : List Place := x.children.flatMap preorder

def child? (kind : String) (x : Place) : Option Place := x.children.find? fun c => c.1.kind == kind

theorem map_fst_preorder (x : Place) : x.preorder.map Prod.fst = x.1.preorder :=
  List.zipIdx_map_fst ..

theorem map_fst_among : ∀ (cs : List Node) (k : Nat), (among cs k).map Prod.fst = cs
  | [], _ => rfl
  | c :: cs, k => by rw [among, List.map_cons, map_fst_among cs]

theorem map_fst_children (x : Place) : x.children.map Prod.fst = x.1.children :=
  map_fst_among _ _

/-- Numbers run on from one neighbour to the next. -/
theorem flatMap_among : ∀ (cs : List Node) (k : Nat),
    (among cs k).flatMap preorder = (cs.flatMap Node.preorder).zipIdx k
  | [], _ => rfl
  | c :: cs, k => by
    rw [among, List.flatMap_cons, flatMap_among cs, List.flatMap_cons, List.zipIdx_append]
    rfl

theorem preorder_eq (x : Place) : x.preorder = x :: x.descendants := by
  rw [preorder, Node.preorder_eq, List.zipIdx_cons, descendants, children, flatMap_among]
  rfl

theorem map_fst_descendants (x : Place) : x.descendants.map Prod.fst = x.1.descendants := by
  have all := x.map_fst_preorder
  rw [preorder_eq, Node.preorder_eq, List.map_cons] at all
  exact (List.cons.inj all).2

theorem sublist_descendants {x c : Place} (h : c ∈ x.children) :
    c.preorder.Sublist x.descendants := by
  rw [descendants, List.flatMap_def]
  exact List.sublist_flatten_of_mem (List.mem_map.mpr ⟨c, h, rfl⟩)

theorem descendants_sublist (x : Place) : x.descendants.Sublist x.preorder := by
  rw [preorder_eq]
  exact List.sublist_cons_self x _

/-- A child of the node is a child of the numbered node. -/
theorem exists_child {x : Place} {c : Node} (h : c ∈ x.1.children) : ∃ k, (c, k) ∈ x.children := by
  rw [← x.map_fst_children] at h
  obtain ⟨⟨c', k⟩, hc, rfl⟩ := List.mem_map.mp h
  exact ⟨k, hc⟩

theorem map_child? (kind : String) (x : Place) :
    (x.child? kind).map Prod.fst = x.1.child? kind := by
  rw [Node.child?, ← x.map_fst_children, List.find?_map]
  rfl

/-- No number is given twice. -/
theorem nodup_snd (x : Place) : (x.preorder.map Prod.snd).Nodup := by
  rw [preorder, List.zipIdx_map_snd]
  exact List.nodup_range'

/-- Numbered nodes are among what they and the nodes below them are. -/
theorem sublist_flatMap : ∀ fs : List Place, fs.Sublist (fs.flatMap preorder)
  | [] => .slnil
  | f :: fs => by
    rw [List.flatMap_cons, preorder_eq]
    exact ((sublist_flatMap fs).trans (List.sublist_append_right _ _)).cons_cons f

end Place

end CallFlow.Tree
