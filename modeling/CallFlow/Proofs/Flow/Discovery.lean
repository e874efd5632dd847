import CallFlow.Proofs.Flow.CallGraph

/-! The order in which functions are discovered. A walk enters a node once for each
route; what is new in it comes in the order of the plain depth-first search, which
enters each node once. Main invariant: a node that was entered and is no longer being
expanded has all its successors entered, so entering it again brings nothing new. -/

namespace CallFlow

namespace Flow

variable {α σ : Type}

/-- Depth-first search over `succ`. It works off a list of nodes and turns the list of
nodes discovered so far, in order, into the list of those discovered afterwards. A
discovered node is passed over. -/
inductive Discovers (succ : α → List α) : List α → List α → List α → Prop where
  | done (seen : List α) : Discovers succ seen [] seen
  | skip {seen rest result : List α} {a : α} (old : a ∈ seen)
      (others : Discovers succ seen rest result) : Discovers succ seen (a :: rest) result
  | enter {seen rest inner result : List α} {a : α} (new : a ∉ seen)
      (below : Discovers succ (seen ++ [a]) (succ a) inner)
      (others : Discovers succ inner rest result) : Discovers succ seen (a :: rest) result

namespace Discovers

variable {succ : α → List α}

theorem unique {seen work r r' : List α} (h : Discovers succ seen work r)
    (h' : Discovers succ seen work r') : r = r' := by
  induction h generalizing r' with
  | done seen => cases h'; rfl
  | skip old _ ih =>
    cases h' with
    | skip _ others => exact ih others
    | enter new _ _ => exact absurd old new
  | enter new _ _ ihBelow ihOthers =>
    cases h' with
    | skip old _ => exact absurd old new
    | enter _ below others =>
      obtain rfl := ihBelow below
      exact ihOthers others

theorem append {seen a b mid result : List α} (ha : Discovers succ seen a mid)
    (hb : Discovers succ mid b result) : Discovers succ seen (a ++ b) result := by
  induction ha with
  | done seen => exact hb
  | skip old _ ih => exact .skip old (ih hb)
  | enter new below _ _ ih => exact .enter new below (ih hb)

theorem seen_subset {seen work result : List α} (h : Discovers succ seen work result) :
    ∀ a ∈ seen, a ∈ result := by
  induction h with
  | done seen => exact fun a ha => ha
  | skip _ _ ih => exact ih
  | enter _ _ _ ihBelow ihOthers =>
    exact fun a ha => ihOthers a (ihBelow a (List.mem_append_left _ ha))

theorem work_subset {seen work result : List α} (h : Discovers succ seen work result) :
    ∀ a ∈ work, a ∈ result := by
  induction h with
  | done seen => simp
  | skip old others ih =>
    intro a ha
    rcases List.mem_cons.mp ha with rfl | ha
    · exact others.seen_subset a old
    · exact ih a ha
  | enter new below others _ ih =>
    intro a ha
    rcases List.mem_cons.mp ha with rfl | ha
    · exact others.seen_subset a (below.seen_subset a (by simp))
    · exact ih a ha

end Discovers

/-! ## What is new in a list -/

section Distinct

variable [BEq α] [LawfulBEq α]

/-- `seen`, and behind it what is new in `items`. -/
def absorb (seen items : List α) : List α := seen ++ distinctBeyond id seen items

theorem distinctBeyond_congr {s s' : List α} (h : ∀ a, a ∈ s ↔ a ∈ s') :
    ∀ items : List α, distinctBeyond id s items = distinctBeyond id s' items := by
  intro items
  induction items generalizing s s' with
  | nil => rfl
  | cons a items ih =>
    have head : s.contains a = s'.contains a := by
      rw [Bool.eq_iff_iff, List.contains_iff_mem, List.contains_iff_mem, h]
    simp only [distinctBeyond, id, head]
    split
    · exact ih h
    · rw [ih fun b => ?_]
      simp only [List.mem_cons, h]

omit [LawfulBEq α] in
theorem absorb_nil (seen : List α) : absorb seen [] = seen := List.append_nil seen

theorem absorb_cons_of_mem {seen items : List α} {a : α} (h : a ∈ seen) :
    absorb seen (a :: items) = absorb seen items := by
  simp [absorb, distinctBeyond, h]

theorem absorb_cons_of_not_mem {seen items : List α} {a : α} (h : a ∉ seen) :
    absorb seen (a :: items) = absorb (seen ++ [a]) items := by
  have same : distinctBeyond id (a :: seen) items = distinctBeyond id (seen ++ [a]) items :=
    distinctBeyond_congr (by simp [or_comm]) items
  simp [absorb, distinctBeyond, h, same]

theorem absorb_append (seen a b : List α) : absorb seen (a ++ b) = absorb (absorb seen a) b := by
  induction a generalizing seen with
  | nil => rw [absorb_nil, List.nil_append]
  | cons x a ih =>
    by_cases h : x ∈ seen
    · rw [List.cons_append, absorb_cons_of_mem h, absorb_cons_of_mem h, ih]
    · rw [List.cons_append, absorb_cons_of_not_mem h, absorb_cons_of_not_mem h, ih]

theorem absorb_of_subset {seen items : List α} (h : ∀ a ∈ items, a ∈ seen) :
    absorb seen items = seen := by
  induction items with
  | nil => exact absorb_nil seen
  | cons a items ih =>
    rw [absorb_cons_of_mem (h a (by simp)), ih fun b hb => h b (by simp [hb])]

end Distinct

/-! ## Walks discover in the order of the search -/

def Event.entered? : Event α σ → Option α
  | .enter node _ => some node
  | _ => none

/-- The targets of all sites of a node. -/
def successors (out : α → List (σ × List α)) (a : α) : List α := (out a).flatMap Prod.snd

variable [DecidableEq α]

/-- The nodes that a walk enters. -/
def visits (out : α → List (σ × List α)) (levels : Nat) (path : List α) (node : α) : List α :=
  (walk out levels path node).filterMap Event.entered?

/-- As `visits`, below the nodes of `path` if that allows it. -/
def fresh (out : α → List (σ × List α)) (levels : Nat) (path : List α) (node : α) : List α :=
  if node ∈ path then [] else visits out levels path node

variable {out : α → List (σ × List α)}

theorem visits_zero (path : List α) (node : α) : visits out 0 path node = [node] := rfl

theorem visits_succ (levels : Nat) (path : List α) (node : α) :
    visits out (levels + 1) path node =
      node :: (successors out node).flatMap (fresh out levels (node :: path)) := by
  simp only [visits, walk, List.filterMap_cons, Event.entered?, List.filterMap_flatMap,
    successors, List.flatMap_assoc]
  refine congrArg _ (congrArg (List.flatMap · _) (funext fun s => ?_))
  refine congrArg (List.flatMap · _) (funext fun t => ?_)
  unfold fresh visits
  split <;> rfl

/-- The nodes being expanded are discovered, and of the other discovered nodes all
successors are. -/
structure Settled (succ : α → List α) (path seen : List α) : Prop where
  active : ∀ a ∈ path, a ∈ seen
  closed : ∀ a ∈ seen, a ∉ path → ∀ b ∈ succ a, b ∈ seen

/-- Expanding a node again brings nothing new. -/
theorem Settled.visits_subset {seen : List α} : ∀ {levels : Nat} {path : List α} {node : α},
    Settled (successors out) path seen → node ∈ seen → node ∉ path →
      ∀ a ∈ visits out levels path node, a ∈ seen
  | 0, path, node, _, hn, _ => by
    rw [visits_zero]
    simpa using hn
  | levels + 1, path, node, h, hn, hp => by
    have below : Settled (successors out) (node :: path) seen := by
      refine ⟨fun a ha => ?_, fun a ha hpa => h.closed a ha fun hm => hpa (by simp [hm])⟩
      rcases List.mem_cons.mp ha with rfl | ha
      · exact hn
      · exact h.active a ha
    intro a ha
    rw [visits_succ] at ha
    rcases List.mem_cons.mp ha with rfl | ha
    · exact hn
    · obtain ⟨t, ht, ha⟩ := List.mem_flatMap.mp ha
      unfold fresh at ha
      split at ha
      · cases ha
      · rename_i hback
        exact below.visits_subset (h.closed node hn hp t ht) hback a ha

/-- The targets of a node, worked off one after the other, if each of them alone is
searched as it should be. -/
theorem discovers_targets {levels : Nat} {path : List α} {P : α → Prop}
    (each : ∀ seen node, Settled (successors out) path seen → node ∉ seen → P node →
      Discovers (successors out) seen [node] (absorb seen (visits out levels path node)) ∧
        Settled (successors out) path (absorb seen (visits out levels path node))) :
    ∀ (work seen : List α), (∀ a ∈ work, P a) → Settled (successors out) path seen →
      Discovers (successors out) seen work (absorb seen (work.flatMap (fresh out levels path))) ∧
        Settled (successors out) path (absorb seen (work.flatMap (fresh out levels path)))
  | [], seen, _, h => by
    rw [List.flatMap_nil, absorb_nil]
    exact ⟨.done seen, h⟩
  | t :: work, seen, hP, h => by
    have others := fun a ha => hP a (List.mem_cons_of_mem t ha)
    rw [List.flatMap_cons, absorb_append]
    by_cases ht : t ∈ seen
    · -- either the walk turns back at `t` or it only meets what was met before
      have quiet : absorb seen (fresh out levels path t) = seen := by
        unfold fresh
        split
        · exact absorb_nil seen
        · rename_i hback
          exact absorb_of_subset (h.visits_subset ht hback)
      rw [quiet]
      obtain ⟨hd, hs⟩ := discovers_targets each work seen others h
      exact ⟨.skip ht hd, hs⟩
    · have hpath : t ∉ path := fun hm => ht (h.active t hm)
      have enters : fresh out levels path t = visits out levels path t := if_neg hpath
      rw [enters]
      obtain ⟨hd, hs⟩ := each seen t h ht (hP t List.mem_cons_self)
      obtain ⟨hd', hs'⟩ := discovers_targets each work _ others hs
      exact ⟨hd.append hd', hs'⟩

/-- The walk from an undiscovered node, with more levels than the nodes of `all` can
fill, discovers what the search discovers. -/
theorem discovers_visits {all : List α} (hall : ∀ a ∈ all, ∀ b ∈ successors out a, b ∈ all) :
    ∀ (levels : Nat) (path seen : List α) (node : α), path.Nodup → (∀ a ∈ path, a ∈ all) →
      all.length < levels + path.length → Settled (successors out) path seen →
      node ∉ seen → node ∈ all →
      Discovers (successors out) seen [node] (absorb seen (visits out levels path node)) ∧
        Settled (successors out) path (absorb seen (visits out levels path node))
  | 0, path, _, _, hn, hsub, hlen, _, _, _ => by
    have := (hn.subperm hsub).length_le
    omega
  | levels + 1, path, seen, node, hn, hsub, hlen, h, hnew, hnode => by
    rw [visits_succ, absorb_cons_of_not_mem hnew]
    have hpath : node ∉ path := fun hm => hnew (h.active node hm)
    have entered : Settled (successors out) (node :: path) (seen ++ [node]) := by
      constructor
      · intro a ha
        rcases List.mem_cons.mp ha with rfl | ha
        · simp
        · exact List.mem_append_left _ (h.active a ha)
      · intro a ha hpa b hb
        have hseen : a ∈ seen := (List.mem_append.mp ha).resolve_right fun hm =>
          hpa (by simp [List.mem_singleton.mp hm])
        exact List.mem_append_left _ (h.closed a hseen (fun hm => hpa (by simp [hm])) b hb)
    have each := fun seen' t hs ht hm => discovers_visits hall levels (node :: path) seen' t
      (List.nodup_cons.mpr ⟨hpath, hn⟩) (by simpa [hnode] using hsub)
      (by rw [List.length_cons]; omega) hs ht hm
    obtain ⟨hd, hs⟩ := discovers_targets each (successors out node) (seen ++ [node])
      (hall node hnode) entered
    refine ⟨.enter hnew hd (.done _), ?_⟩
    -- `node` leaves the path: its successors were just worked off
    constructor
    · exact fun a ha => hs.active a (List.mem_cons_of_mem node ha)
    · intro a ha hpa b hb
      by_cases hanode : a = node
      · subst hanode
        exact hd.work_subset b hb
      · exact hs.closed a ha (by simp [hanode, hpa]) b hb

end Flow

namespace Project

variable {p : Project}

/-- What a trace without limit visits, each function where it comes first, is what the
depth-first search over the targets of the calls discovers. -/
theorem distinct_trace_iff_discovers (built : p.Built) {e : FunctionId}
    (he : e < p.functions.size) :
    ∃ t, p.trace e none = .ok t ∧
      ∀ order, Flow.Discovers p.callees [] [e] order ↔ order = distinct id t.functions := by
  have closed := built.closed
  have edges : Flow.successors p.calls = p.callees := funext (flatMap_snd_calls p)
  have inRange : ∀ f ∈ List.range p.functions.size, ∀ g ∈ Flow.successors p.calls f,
      g ∈ List.range p.functions.size := by
    intro f _ g hg
    rw [edges, mem_callees_iff] at hg
    exact List.mem_range.mpr (lt_of_calls closed hg)
  have search := (Flow.discovers_visits inRange (p.functions.size + 1) [] [] e List.nodup_nil
    (by simp) (by simp) ⟨by simp, by simp⟩ (by simp) (List.mem_range.mpr he)).1
  have visited : Flow.visits p.calls (p.functions.size + 1) [] e =
      Trace.functions ⟨e, (p.run e none).map Prod.snd⟩ := by
    rw [Trace.functions, run, Flow.map_snd_located]
    refine congrArg (List.filterMap · _) (funext fun x => ?_)
    cases x <;> rfl
  rw [visited, edges] at search
  refine ⟨_, trace_eq closed he none, fun order => ⟨fun h => h.unique search, ?_⟩⟩
  rintro rfl
  exact search

theorem distinct_trace_iff_discovers_sample :
    0 < Sample.project.functions.size ∧
    ∃ t, Sample.project.trace 0 none = .ok t ∧
      ∀ order, Flow.Discovers Sample.project.callees [] [0] order ↔
        order = distinct id t.functions :=
  ⟨Sample.entry, distinct_trace_iff_discovers Sample.built Sample.entry⟩

end Project

end CallFlow
