import CallFlow.Proofs.Project.Growth
import CallFlow.Proofs.Project.Layout
import CallFlow.Proofs.Tree.Places

/-! Calls against the nodes they are read from. Functions are found by a walk through class bodies,
calls by a search through all below a function body. Main statement: the calls of a file come from
as many nodes of its tree, each function's from the body of its own node; for no function that is
found lies inside another one. -/

namespace CallFlow

open CallFlow.Tree

/-! ## The calls of one function -/

/-- Where a function and its calls are read from. -/
structure Origin where
  function : Place
  calls : List Place

def Tree.Place.isCall (x : Place) : Bool := x.1.kind == CallSite.callKind

/-- All call expressions below a node. -/
def Tree.Place.calls (x : Place) : List Place := x.descendants.filter Place.isCall

namespace CallSite

/-- The calls are read from call expressions in the body of the function, and if the body is not
given by `=`, from all of them in pre-order. -/
structure ReadFrom (source : List Char) (calls : List CallSite) (o : Origin) : Prop where
  read : calls = o.calls.map fun c => ofCall source c.1
  below : ∀ c ∈ o.calls, c.1.kind = callKind ∧
    ∃ body ∈ o.function.child? "function_body", c ∈ body.descendants
  all : ∀ body ∈ o.function.child? "function_body",
    (∀ t ∈ body.1.children, t.kind ≠ "=") → o.calls = body.calls

theorem below_eq (source : List Char) (x : Place) :
    below source x.1 = x.calls.map fun c => ofCall source c.1 := by
  rw [below, Node.collect_eq_filter, ← x.map_fst_descendants, List.filter_map, List.map_map]
  rfl

theorem mem_calls {x c : Place} : c ∈ x.calls ↔ c ∈ x.descendants ∧ c.1.kind = callKind := by
  simp [Place.calls, Place.isCall]

/-- A body given by `=` makes one call or those below one of its children. -/
theorem exists_calls (source : List Char) {n : Node} {body : Place}
    (h : n.child? "function_body" = some body.1) : ∃ calls : List Place,
      calls.Sublist body.calls ∧ ofFunction source n = calls.map (fun c => ofCall source c.1) ∧
        ((∀ t ∈ body.1.children, t.kind ≠ "=") → calls = body.calls) := by
  unfold ofFunction
  rw [h]
  dsimp only
  split
  · rename_i given
    have other {calls : List Place} (block : ∀ t ∈ body.1.children, t.kind ≠ "=") :
        calls = body.calls := by
      obtain ⟨t, ht⟩ := Option.isSome_iff_exists.mp given
      exact absurd (by simpa using List.find?_some ht) (block t (List.mem_of_find?_eq_some ht))
    cases he : body.1.lastContent? with
    | none => exact ⟨[], List.nil_sublist _, rfl, other⟩
    | some expr =>
      have child : expr ∈ body.1.children := List.mem_reverse.mp (List.mem_of_find?_eq_some he)
      obtain ⟨k, hk⟩ := Place.exists_child child
      have sub := Place.sublist_descendants hk
      dsimp only
      split
      · rename_i kind
        refine ⟨[(expr, k)], List.singleton_sublist.mpr ?_, rfl, other⟩
        rw [Place.preorder_eq] at sub
        exact mem_calls.mpr ⟨sub.subset List.mem_cons_self, by simpa using kind⟩
      · refine ⟨Place.calls (expr, k), ?_, below_eq source (expr, k), other⟩
        exact ((Place.descendants_sublist _).trans sub).filter _
  · exact ⟨body.calls, .refl _, below_eq source body, fun _ => rfl⟩

/-- A function has as many origins of calls as it has calls. -/
theorem exists_origin (source : List Char) (x : Place) : ∃ calls : List Place,
    calls.Sublist x.calls ∧ ReadFrom source (ofFunction source x.1) ⟨x, calls⟩ := by
  have node := x.map_child? "function_body"
  cases hb : x.child? "function_body" with
  | none =>
    rw [hb] at node
    refine ⟨[], List.nil_sublist _, ?_, by simp, by simp [hb]⟩
    rw [ofFunction, ← node]
    rfl
  | some body =>
    rw [hb] at node
    obtain ⟨calls, sub, eq, all⟩ := exists_calls source node.symm
    have mem : body ∈ x.children := List.mem_of_find?_eq_some hb
    have inside := body.descendants_sublist.trans (Place.sublist_descendants mem)
    refine ⟨calls, sub.trans (inside.filter _), eq, fun c hc => ?_, fun b hb' => ?_⟩
    · obtain ⟨below, kind⟩ := mem_calls.mp (sub.subset hc)
      exact ⟨kind, body, hb, below⟩
    · cases hb.symm.trans hb'
      exact all

end CallSite

/-! ## The functions of a file -/

namespace Outline

variable {s : Sheet}

mutual

/-- The functions from a declaration down, in the order of the text. -/
def Decl.functions : Decl → List FunctionHead
  | .property _ => []
  | .function head => [head]
  | .classLike _ members => functionsAmong members

def functionsAmong : List Decl → List FunctionHead
  | [] => []
  | d :: ds => d.functions ++ functionsAmong ds

end

theorem functionsAmong_append (ds es : List Decl) :
    functionsAmong (ds ++ es) = functionsAmong ds ++ functionsAmong es := by
  induction ds with
  | nil => rfl
  | cons d ds ih => rw [List.cons_append, functionsAmong, functionsAmong, ih, List.append_assoc]

theorem functionsAmong_properties {ds : List Decl} (h : ∀ d ∈ ds, ∃ p, d = .property p) :
    functionsAmong ds = [] := by
  induction ds with
  | nil => rfl
  | cons d ds ih =>
    obtain ⟨⟨p, rfl⟩, rest⟩ := List.forall_mem_cons.mp h
    rw [functionsAmong, ih rest, Decl.functions]
    rfl

/-- The function is what a function declaration is read as. -/
def FunctionHead.ReadAt (s : Sheet) (head : FunctionHead) (x : Place) : Prop :=
  x.1.kind = "function_declaration" ∧ ∃ before, s.function ⟨x.1, before⟩ = .ok head

/-- Functions are read from nodes that have no node in common with each other, each from the node
in its place. -/
theorem Reads.exists_places {before ns : List Node} {ds : List Decl} (h : Reads s before ns ds) :
    ∀ k, ∃ xs : List Place, List.Forall₂ (FunctionHead.ReadAt s) (functionsAmong ds) xs ∧
      (xs.flatMap Place.preorder).Sublist ((Place.among ns k).flatMap Place.preorder) := by
  induction h with
  | nil before => exact fun k => ⟨[], .nil, List.nil_sublist _⟩
  | @plain _ _ n found ds properties _ ih =>
    intro k
    obtain ⟨xs, read, sub⟩ := ih (k + n.preorder.length)
    refine ⟨xs, ?_, ?_⟩
    · rwa [functionsAmong_append, functionsAmong_properties properties.are_properties]
    · exact sub.trans (List.sublist_append_right _ _)
  | @function before _ n head ds kind read _ ih =>
    intro k
    obtain ⟨xs, others, sub⟩ := ih (k + n.preorder.length)
    refine ⟨(n, k) :: xs, .cons ⟨kind, before, read⟩ others, ?_⟩
    exact (List.Sublist.refl _).append sub
  | @cls before _ n head parameters inner ds kind read properties body _ ihBody ih =>
    intro k
    obtain ⟨xs, others, sub⟩ := ih (k + n.preorder.length)
    have members : functionsAmong (.classLike head (parameters ++ inner) :: ds) =
        functionsAmong inner ++ functionsAmong ds := by
      rw [functionsAmong, Decl.functions, functionsAmong_append,
        functionsAmong_properties properties.are_properties, List.nil_append]
    rw [members]
    rcases body.of_body with rfl | ⟨b, hb, nodes⟩
    · exact ⟨xs, others, sub.trans (List.sublist_append_right _ _)⟩
    · obtain ⟨j, hj⟩ := Place.exists_child (x := (n, k)) hb
      obtain ⟨ys, found, below⟩ := ihBody (j + 1)
      rw [nodes] at below
      have inside : (ys.flatMap Place.preorder).Sublist (Place.preorder (n, k)) :=
        ((below.trans (Place.descendants_sublist (b, j))).trans
          (Place.sublist_descendants hj)).trans (Place.descendants_sublist _)
      refine ⟨ys ++ xs, List.rel_append found others, ?_⟩
      rw [List.flatMap_append]
      exact inside.append sub

/-- The function and its calls are read from the nodes in `o`. -/
structure FunctionHead.Originates (s : Sheet) (head : FunctionHead) (o : Origin) : Prop where
  node : head.ReadAt s o.function
  span : head.span = o.function.1.span
  calls : CallSite.ReadFrom s.source head.calls o

/-- As functions share no nodes, their calls do not either. -/
theorem exists_origins {heads : List FunctionHead} {xs : List Place}
    (h : List.Forall₂ (FunctionHead.ReadAt s) heads xs) : ∃ origins : List Origin,
      List.Forall₂ (FunctionHead.Originates s) heads origins ∧
        origins.map Origin.function = xs ∧
          (origins.flatMap Origin.calls).Sublist
            ((xs.flatMap Place.preorder).filter Place.isCall) := by
  induction h with
  | nil => exact ⟨[], .nil, rfl, List.nil_sublist _⟩
  | @cons head x _ _ first _ ih =>
    obtain ⟨origins, others, functions, sub⟩ := ih
    obtain ⟨before, read⟩ := first.2
    obtain ⟨calls, below, origin⟩ := CallSite.exists_origin s.source x
    have isOf := isOf_of_function read
    rw [← isOf.calls] at origin
    have own : head.Originates s ⟨x, calls⟩ := ⟨first, isOf.span, origin⟩
    refine ⟨⟨x, calls⟩ :: origins, .cons own others, congrArg (x :: ·) functions, ?_⟩
    rw [List.flatMap_cons, List.flatMap_cons, List.filter_append]
    exact (below.trans (x.descendants_sublist.filter _)).append sub

mutual

theorem Decl.heads_place (home : Home) : ∀ (d : Decl) (owner : Option ClassId) (first : Ids),
    (d.place home owner first).functions.map FunctionDef.head = d.functions
  | .property _, _, _ => by
    rw [Decl.functions]
    rfl
  | .function h, _, _ => by
    rw [Decl.functions]
    rfl
  | .classLike h members, _, first => by
    rw [Decl.place, Decl.functions]
    exact heads_placeAll home members (some first.cls) ⟨first.cls + 1, first.function⟩

/-- Placing keeps the functions and their order. -/
theorem heads_placeAll (home : Home) : ∀ (ds : List Decl) (owner : Option ClassId) (first : Ids),
    (placeAll home owner first ds).functions.map FunctionDef.head = functionsAmong ds
  | [], _, _ => by
    rw [functionsAmong]
    rfl
  | d :: ds, owner, first => by
    rw [placeAll, functionsAmong, ← d.heads_place home owner first,
      ← heads_placeAll home ds owner ((d.place home owner first).after first)]
    exact List.map_append

end

end Outline

namespace Project

open Outline (Sheet)

variable {p q : Project}

/-- The functions of a file, in the order of their ids. -/
def functionsIn (p : Project) (file : FileId) : List FunctionDef :=
  p.functions.toList.filter fun f => f.file == file

/-- The functions of the file that was added last are those that it brought. -/
theorem functionsIn_add (closed : p.Closed) (o : Outline) :
    (p.add o).functionsIn p.files.size = (p.placed o).functions := by
  have old : p.functions.toList.filter (fun f => f.file == p.files.size) = [] := by
    refine List.filter_eq_nil_iff.mpr fun f hf => ?_
    have within : f.file < p.files.size := (closed.functions f (Array.mem_toList_iff.mp hf)).file
    simpa using Nat.ne_of_lt within
  have new : (p.placed o).functions.filter (fun f => f.file == p.files.size) =
      (p.placed o).functions := by
    refine List.filter_eq_self.mpr fun f hf => ?_
    simpa using (p.placed_at o).functions f hf
  rw [functionsIn, functions_add, Array.toList_append, List.filter_append, old, List.nil_append]
  exact new

/-- The functions of a file and their calls, in the order of ids, are read from the nodes in
`origins`, which are numbered nodes of the tree in pre-order. -/
structure CallsFrom (p : Project) (file : FileId) (s : Sheet) (root : Node)
    (origins : List Origin) : Prop where
  functions : List.Forall₂ (fun f => f.head.Originates s) (p.functionsIn file) origins
  nodes : (origins.map Origin.function).Sublist (Place.preorder (root, 0))
  calls : (origins.flatMap Origin.calls).Sublist (Place.calls (root, 0))
  /-- No node is the origin of two calls. -/
  once : ((origins.flatMap Origin.calls).map Prod.snd).Nodup
  count : ((p.functionsIn file).flatMap FunctionDef.calls).length ≤
    root.preorder.countP fun n => n.kind == CallSite.callKind

/-- Each call has an origin, and each origin is that of one call. -/
theorem flatMap_calls {s : Sheet} {fs : List FunctionDef} {origins : List Origin}
    (h : List.Forall₂ (fun f => f.head.Originates s) fs origins) :
    fs.flatMap FunctionDef.calls =
      (origins.flatMap Origin.calls).map fun c => CallSite.ofCall s.source c.1 := by
  induction h with
  | nil => rfl
  | @cons f o _ _ first _ ih =>
    have read : f.calls = o.calls.map fun c => CallSite.ofCall s.source c.1 := first.calls.read
    rw [List.flatMap_cons, List.flatMap_cons, List.map_append, read, ih]

/-- The calls of an accepted file are neither invented nor counted twice. -/
theorem calls_have_origins {s : Source} {t : Flagged} (built : p.Built)
    (added : p.addSource s = .ok q) (tree : s.tree = some t) :
    ∃ origins, q.CallsFrom p.files.size ⟨s.path, s.text.toList⟩ t.root origins := by
  obtain ⟨o, ho, rfl⟩ := map_eq_ok.mp added
  rw [Source.outline, tree] at ho
  obtain ⟨xs, read, sub⟩ := (Outline.reads_ofTree ho).exists_places 1
  obtain ⟨origins, heads, functions, calls⟩ := Outline.exists_origins read
  have below : (xs.flatMap Place.preorder).Sublist (Place.descendants (t.root, 0)) := sub
  have found : List.Forall₂ (fun f => f.head.Originates ⟨s.path, s.text.toList⟩)
      ((p.add o).functionsIn p.files.size) origins := by
    rw [functionsIn_add built.closed]
    rw [← Outline.heads_placeAll ⟨p.files.size, o.package⟩ o.decls none p.nextIds,
      List.forall₂_map_left_iff] at heads
    exact heads
  have nodes := calls.trans (below.filter Place.isCall)
  refine ⟨origins, found, ?_, nodes, ?_, ?_⟩
  · rw [functions]
    exact (Place.sublist_flatMap xs).trans (below.trans (Place.descendants_sublist _))
  · have all := (nodes.trans List.filter_sublist).trans (Place.descendants_sublist (t.root, 0))
    exact (Place.nodup_snd (t.root, 0)).sublist (all.map Prod.snd)
  · rw [flatMap_calls found, List.length_map]
    have among : (Place.calls (t.root, 0)).length =
        (t.root.descendants.filter fun n => n.kind == CallSite.callKind).length := by
      rw [← Place.map_fst_descendants (t.root, 0), List.filter_map, List.length_map]
      rfl
    rw [List.countP_eq_length_filter, Node.preorder_eq]
    exact (nodes.length_le.trans_eq among).trans ((List.sublist_cons_self _ _).filter _).length_le

/-- Two functions, one of them in a class in a class, with a call each. -/
theorem calls_have_origins_nested :
    ((Sample.project.offer Sample.nested).functionsIn 1).map FunctionDef.calls =
      [[.simple (some "g") 3], [.simple (some "x") 6]] ∧
    ∃ origins, (Sample.project.offer Sample.nested).CallsFrom 1
      ⟨Sample.nested.path, Sample.nested.text.toList⟩ Sample.nestedTree origins :=
  ⟨by decide +kernel,
    calls_have_origins (s := Sample.nested) (t := Sample.nestedTree) Sample.built
      (addSource_eq_ok_offer (by decide +kernel)) rfl⟩

end Project

end CallFlow
