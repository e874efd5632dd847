import CallFlow.Proofs.Tree.Nesting

/-! Nodes told apart by the way down to them. Trails compare like words, so in ascending order a
trail stands in front of all that continue it, and these in front of those through the next child.
Main statement: each search from a node down looks through the nodes below it in the order of their
trails, be it that the search goes through all of them, stops at the first hit or leaves out what is
flagged to hold none. -/

namespace CallFlow.Tree.Node

mutual

/-- The node and everything below it, with the trails that lead there. -/
def tracked : Node → List (Trail × Node)
  | mk l cs => ([], mk l cs) :: trackedAmong 0 cs

/-- As `tracked` for neighbours, the first of which is child `i`. -/
def trackedAmong (i : Nat) : List Node → List (Trail × Node)
  | [] => []
  | c :: cs => c.tracked.map (fun x => (i :: x.1, x.2)) ++ trackedAmong (i + 1) cs

end

def trackedBelow (n : Node) : List (Trail × Node) := trackedAmong 0 n.children

theorem tracked_eq (n : Node) : n.tracked = ([], n) :: n.trackedBelow := by
  cases n with
  | mk l cs => rw [tracked]; rfl

theorem trackedAmong_eq : ∀ (i : Nat) (cs : List Node), trackedAmong i cs =
    (cs.zipIdx i).flatMap fun c => c.1.tracked.map fun x => (c.2 :: x.1, x.2)
  | _, [] => by rw [trackedAmong]; rfl
  | i, c :: cs => by rw [trackedAmong, trackedAmong_eq, List.zipIdx_cons, List.flatMap_cons]

mutual

theorem map_snd_tracked : ∀ n : Node, n.tracked.map Prod.snd = n.preorder
  | mk l cs => by rw [tracked, preorder, List.map_cons, map_snd_trackedAmong]

theorem map_snd_trackedAmong : ∀ (i : Nat) (cs : List Node),
    (trackedAmong i cs).map Prod.snd = preorderAmong cs
  | _, [] => by rw [trackedAmong, preorderAmong]; rfl
  | i, c :: cs => by
    have first : (c.tracked.map fun x => (i :: x.1, x.2)).map Prod.snd = c.tracked.map Prod.snd :=
      List.map_map
    rw [trackedAmong, preorderAmong, List.map_append, first, map_snd_tracked c,
      map_snd_trackedAmong (i + 1) cs]

end

theorem mem_trackedBelow {n m : Node} {trail : Trail} : (trail, m) ∈ n.trackedBelow ↔
    ∃ i rest c, trail = i :: rest ∧ n.children[i]? = some c ∧ (rest, m) ∈ c.tracked := by
  rw [trackedBelow, trackedAmong_eq]
  simp only [List.mem_flatMap, List.mem_map, Prod.exists, List.mem_zipIdx_iff_getElem?,
    Prod.mk.injEq]
  constructor
  · intro h
    obtain ⟨c, i, hc, rest, _, hm, rfl, rfl⟩ := h
    exact ⟨i, rest, c, rfl, hc, hm⟩
  · intro h
    obtain ⟨i, rest, c, rfl, hc, hm⟩ := h
    exact ⟨c, i, hc, rest, m, hm, rfl, rfl⟩

theorem mem_tracked_iff {trail : Trail} : ∀ {n m : Node},
    (trail, m) ∈ n.tracked ↔ n.at? trail = some m := by
  induction trail with
  | nil =>
    intro n m
    rw [tracked_eq, List.mem_cons, mem_trackedBelow]
    simp [at?, eq_comm]
  | cons i trail ih =>
    intro n m
    rw [tracked_eq, List.mem_cons, mem_trackedBelow]
    simp [at?, ih, Option.bind_eq_some_iff]

theorem mem_trackedBelow_iff {n m : Node} {trail : Trail} :
    (trail, m) ∈ n.trackedBelow ↔ trail ≠ [] ∧ n.at? trail = some m := by
  rw [← mem_tracked_iff, tracked_eq]
  cases trail with
  | nil => simp [mem_trackedBelow]
  | cons i trail => simp

theorem trackedBelow_sorted {n : Node}
    (h : ∀ c ∈ n.children, c.tracked.Pairwise fun a b => a.1 < b.1) :
    n.trackedBelow.Pairwise fun a b => a.1 < b.1 := by
  have numbered : n.children.zipIdx.Pairwise fun c d => c.2 < d.2 := by
    apply List.pairwise_map.mp
    rw [List.zipIdx_map_snd]
    exact List.pairwise_lt_range'
  rw [trackedBelow, trackedAmong_eq]
  refine List.pairwise_flatMap.mpr ⟨fun c hc => ?_, numbered.imp fun lt x hx y hy => ?_⟩
  · have sorted := h c.1 (List.mem_of_getElem? (List.mem_zipIdx_iff_getElem?.mp hc))
    exact sorted.map _ fun _ _ => List.Lex.cons
  · obtain ⟨_, _, rfl⟩ := List.mem_map.mp hx
    obtain ⟨_, _, rfl⟩ := List.mem_map.mp hy
    exact List.Lex.rel lt

theorem tracked_sorted (n : Node) : n.tracked.Pairwise fun a b => a.1 < b.1 := by
  induction n using of_children with
  | step n ih =>
    rw [tracked_eq]
    refine List.pairwise_cons.mpr ⟨fun x hx => ?_, trackedBelow_sorted ih⟩
    obtain ⟨i, rest, _, eq, _⟩ := mem_trackedBelow.mp hx
    rw [eq]
    exact List.nil_lt_cons i rest

/-! ## Searches -/

/-- The trails lead to all nodes below `n`, which are `below`, each in front of what lies below it
and that in front of its next sibling. -/
structure Traverses (n : Node) (trails : List Trail) (below : List Node) : Prop where
  all : ∀ trail, trail ∈ trails ↔ trail ≠ [] ∧ (n.at? trail).isSome = true
  ascending : trails.Pairwise (· < ·)
  nodes : trails.map n.at? = below.map some

theorem exists_traverses (n : Node) : ∃ trails, n.Traverses trails n.descendants := by
  have below : n.trackedBelow.map Prod.snd = n.descendants := by
    have whole := n.map_snd_tracked
    rw [tracked_eq, preorder_eq, List.map_cons] at whole
    exact (List.cons.inj whole).2
  refine ⟨n.trackedBelow.map Prod.fst, ?_, ?_, ?_⟩
  · intro trail
    simp [Option.isSome_iff_exists, mem_trackedBelow_iff]
  · exact List.pairwise_map.mpr (trackedBelow_sorted fun c _ => c.tracked_sorted)
  · rw [← below, List.map_map, List.map_map]
    exact List.map_congr_left fun x hx => (mem_trackedBelow_iff.mp hx).2

instance (n : Node) (flag : Trail → Bool) : Decidable (n.FlagsErrors flag) :=
  decidable_of_iff
    (∀ x ∈ n.tracked, (∃ w ∈ x.2.descendants, w.wrong = true) → flag x.1 = true)
    ⟨fun h trail m hm => h (trail, m) (mem_tracked_iff.mpr hm),
      fun h x hx => h x.1 x.2 (mem_tracked_iff.mp hx)⟩

/-- All searches go through the nodes below a node in the same order. -/
theorem searches_traverse (n : Node) :
    (∃ trails, n.Traverses trails n.descendants) ∧
    (∀ p, n.collect p = n.descendants.filter p) ∧
    (∀ kind, n.below? kind = (n.collect fun c => c.kind == kind).head? ∧
      (n.below? kind = none ↔ (n.collect fun c => c.kind == kind) = [])) ∧
    ∀ flag, n.FlagsErrors flag → n.firstError? flag = (n :: n.descendants).find? wrong := by
  have first (kind : String) : n.below? kind = (n.collect fun c => c.kind == kind).head? := by
    rw [below?_eq_find?, collect_eq_filter, List.head?_filter]
  refine ⟨n.exists_traverses, fun p => n.collect_eq_filter p, fun kind => ⟨first kind, ?_⟩, ?_⟩
  · rw [first, List.head?_eq_none_iff]
  · intro flag h
    rw [firstError?_of_flagsErrors h, preorder_eq]

/-- Two nodes that look alike, and a call that lacks its bracket. -/
def twins : Node :=
  let empty : Node := mk ⟨"statements", true, false, ⟨0, 0⟩⟩ []
  let name : Node := mk ⟨"simple_identifier", true, false, ⟨0, 1⟩⟩ []
  let bracket : Node := mk ⟨")", false, true, ⟨2, 2⟩⟩ []
  mk ⟨"source_file", true, false, ⟨0, 2⟩⟩
    [empty, empty, mk ⟨"call_expression", true, false, ⟨0, 2⟩⟩ [name, bracket]]

/-- The look-alikes have different flags, which makes no difference. -/
theorem searches_traverse_twins :
    let flag : Trail → Bool := fun trail => trail ∈ [[], [1], [2]]
    twins.FlagsErrors flag ∧ twins.at? [0] = twins.at? [1] ∧ flag [0] ≠ flag [1] ∧
    twins.firstError? flag = twins.at? [2, 1] := by
  intro flag
  have flags : twins.FlagsErrors flag := by decide +kernel
  refine ⟨flags, rfl, by decide, ?_⟩
  rw [(searches_traverse twins).2.2.2 flag flags]
  rfl

end CallFlow.Tree.Node
