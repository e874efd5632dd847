import CallFlow.Tree.Search

/-! Searches against the order of nodes. Every search from a node down looks through the same
list, the node and everything below it, each node in front of its children. -/

namespace CallFlow.Tree.Node

theorem preorderAmong_eq : ∀ cs : List Node, preorderAmong cs = cs.flatMap preorder
  | [] => by rw [preorderAmong, List.flatMap_nil]
  | c :: cs => by rw [preorderAmong, List.flatMap_cons, preorderAmong_eq cs]

theorem preorder_eq : ∀ n : Node, n.preorder = n :: n.descendants
  | mk l cs => by rw [preorder, preorderAmong_eq]; rfl

theorem mem_preorder_self (n : Node) : n ∈ n.preorder := by
  rw [preorder_eq]
  exact List.mem_cons_self

theorem mem_preorder_of_mem_descendants {n m : Node} (h : m ∈ n.descendants) : m ∈ n.preorder := by
  rw [preorder_eq]
  exact List.mem_cons_of_mem n h

theorem mem_descendants_of_mem_children {n c : Node} (h : c ∈ n.children) : c ∈ n.descendants :=
  List.mem_flatMap.mpr ⟨c, h, c.mem_preorder_self⟩

mutual

theorem preorder_subset : ∀ {n m : Node}, m ∈ n.preorder → m.preorder ⊆ n.preorder
  | mk l cs, m, h => by
    rw [preorder] at h ⊢
    rcases List.mem_cons.mp h with rfl | h
    · rw [preorder]
      exact List.Subset.refl _
    · exact List.subset_cons_of_subset _ (preorder_subset_among h)

theorem preorder_subset_among : ∀ {cs : List Node} {m : Node}, m ∈ preorderAmong cs →
    m.preorder ⊆ preorderAmong cs
  | c :: cs, m, h => by
    rw [preorderAmong] at h ⊢
    rcases List.mem_append.mp h with h | h
    · exact List.subset_append_of_subset_left _ (preorder_subset h)
    · exact List.subset_append_of_subset_right _ (preorder_subset_among h)

end

theorem mem_preorder_of_child {root n c : Node} (hn : n ∈ root.preorder) (hc : c ∈ n.children) :
    c ∈ root.preorder :=
  preorder_subset hn (mem_preorder_of_mem_descendants (mem_descendants_of_mem_children hc))

mutual

theorem collect_eq_filter (p : Node → Bool) : ∀ n : Node, n.collect p = n.descendants.filter p
  | .mk l cs => by
    rw [collect]
    exact collectAmong_eq_filter p cs

theorem collectAmong_eq_filter (p : Node → Bool) :
    ∀ cs : List Node, collectAmong p cs = (cs.flatMap preorder).filter p
  | [] => by simp [collectAmong]
  | c :: cs => by
    rw [collectAmong, collect_eq_filter p c, collectAmong_eq_filter p cs, List.flatMap_cons,
      preorder_eq, List.cons_append, List.filter_cons, List.filter_append]

end

mutual

theorem below?_eq_find? (kind : String) :
    ∀ n : Node, n.below? kind = n.descendants.find? fun c => c.kind == kind
  | mk l cs => by
    rw [below?]
    exact amongBelow?_eq_find? kind cs

theorem amongBelow?_eq_find? (kind : String) : ∀ cs : List Node,
    amongBelow? kind cs = (cs.flatMap preorder).find? fun c => c.kind == kind
  | [] => by rw [amongBelow?]; rfl
  | c :: cs => by
    rw [amongBelow?, below?_eq_find? kind c, amongBelow?_eq_find? kind cs, List.flatMap_cons,
      preorder_eq, List.cons_append, List.find?_cons, List.find?_append]
    cases c.kind == kind with
    | true => rfl
    | false => cases c.descendants.find? fun c => c.kind == kind <;> rfl

end

/-! ## Searches that leave out parts of the tree -/

theorem FlagsErrors.child {n c : Node} {flag : Trail → Bool} {i : Nat} (h : n.FlagsErrors flag)
    (hc : n.children[i]? = some c) : c.FlagsErrors fun trail => flag (i :: trail) := by
  intro trail m hm
  refine h (i :: trail) m ?_
  rw [at?, hc]
  exact hm

theorem FlagsErrors.sound {n : Node} {flag : Trail → Bool} (h : n.FlagsErrors flag)
    (unset : flag [] = false) : n.descendants.find? wrong = none := by
  rw [List.find?_eq_none]
  intro m hm hw
  have set := h [] n rfl ⟨m, hm, hw⟩
  rw [unset] at set
  cases set

mutual

/-- What is left out holds nothing wrong, so the first error is that of the whole tree. -/
theorem firstError?_of_flagsErrors : ∀ {n : Node} {flag : Trail → Bool}, n.FlagsErrors flag →
    n.firstError? flag = n.preorder.find? wrong
  | mk l cs, flag, h => by
    have below : (if flag [] = true then amongError? flag 0 cs else none) =
        (preorderAmong cs).find? wrong := by
      cases hf : flag [] with
      | true => exact amongError?_of_flagsErrors fun j c hc => by simpa using h.child hc
      | false =>
        -- what is not entered would have given nothing
        rw [preorderAmong_eq]
        exact (h.sound hf).symm
    rw [firstError?, preorder, List.find?_cons, below]
    cases hw : wrong (mk l cs) with
    | true => exact if_pos hw
    | false => exact if_neg (Bool.eq_false_iff.mp hw)

theorem amongError?_of_flagsErrors : ∀ {cs : List Node} {flag : Trail → Bool} {i : Nat},
    (∀ (j : Nat) (c : Node), cs[j]? = some c →
      c.FlagsErrors fun trail => flag ((i + j) :: trail)) →
    amongError? flag i cs = (preorderAmong cs).find? wrong
  | [], _, _, _ => by rw [amongError?, preorderAmong]; rfl
  | c :: cs, flag, i, h => by
    have first := firstError?_of_flagsErrors (h 0 c rfl)
    have rest : amongError? flag (i + 1) cs = (preorderAmong cs).find? wrong := by
      refine amongError?_of_flagsErrors fun j d hd => ?_
      rw [Nat.add_assoc, Nat.add_comm 1 j]
      exact h (j + 1) d hd
    rw [amongError?, preorderAmong, List.find?_append, ← first, ← rest]
    cases c.firstError? fun trail => flag (i :: trail) <;> rfl

end

mutual

/-- What is found at the end of a node, and what stands in front of it, lies below the node. -/
theorem mem_descendants_of_trailing? {p : Node → Bool} : ∀ {n : Node} {spot : Spot},
    n.trailing? p = some spot → ∀ m ∈ spot.node :: spot.before, m ∈ n.descendants
  | mk l cs, spot, h, m, hm => by
    rw [trailing?] at h
    exact (mem_of_trailingAmong? h m hm).resolve_left List.not_mem_nil

theorem mem_of_trailingAmong? {p : Node → Bool} : ∀ {cs before : List Node} {spot : Spot},
    trailingAmong? p before cs = some spot → ∀ m ∈ spot.node :: spot.before,
      m ∈ before ∨ m ∈ cs.flatMap preorder
  | [], _, _, h, _, _ => by
    rw [trailingAmong?] at h
    cases h
  | [c], before, spot, h, m, hm => by
    rw [List.flatMap_singleton]
    rw [trailingAmong?] at h
    split at h
    · cases h
      rcases List.mem_cons.mp hm with rfl | hm
      · exact .inr (mem_preorder_self _)
      · exact .inl hm
    · exact .inr (mem_preorder_of_mem_descendants (mem_descendants_of_trailing? h m hm))
  | c :: d :: cs, before, spot, h, m, hm => by
    rw [trailingAmong?] at h
    rw [List.flatMap_cons]
    rcases mem_of_trailingAmong? h m hm with hm | hm
    · rcases List.mem_cons.mp hm with rfl | hm
      · exact .inr (List.mem_append_left _ (mem_preorder_self _))
      · exact .inl hm
    · exact .inr (List.mem_append_right _ hm)

end

mutual

theorem of_trailing? {p : Node → Bool} : ∀ {n : Node} {spot : Spot},
    n.trailing? p = some spot → p spot.node = true
  | mk l cs, spot, h => by
    rw [trailing?] at h
    exact of_trailingAmong? h

theorem of_trailingAmong? {p : Node → Bool} : ∀ {cs before : List Node} {spot : Spot},
    trailingAmong? p before cs = some spot → p spot.node = true
  | [], _, _, h => by
    rw [trailingAmong?] at h
    cases h
  | [c], _, _, h => by
    rw [trailingAmong?] at h
    split at h
    · cases h
      assumption
    · exact of_trailing? h
  | c :: d :: cs, before, spot, h => by
    rw [trailingAmong?] at h
    exact of_trailingAmong? h

end

/-- Nothing is found at the end of a node if there is nothing to be found below it. -/
theorem trailing?_eq_none {p : Node → Bool} {n : Node} (h : ∀ m ∈ n.descendants, p m = false) :
    n.trailing? p = none := by
  cases ht : n.trailing? p with
  | none => rfl
  | some spot =>
    have below := mem_descendants_of_trailing? ht spot.node List.mem_cons_self
    exact absurd (of_trailing? ht) (by simp [h spot.node below])

end CallFlow.Tree.Node

namespace CallFlow.Tree.Flagged

theorem firstError?_eq_find? (t : Flagged) : t.firstError? = t.root.preorder.find? Node.wrong :=
  Node.firstError?_of_flagsErrors t.sound

theorem firstError?_eq_none {t : Flagged} :
    t.firstError? = none ↔ ∀ m ∈ t.root.preorder, m.wrong = false := by
  simp [firstError?_eq_find?]

end CallFlow.Tree.Flagged
