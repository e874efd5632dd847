import CallFlow.Flow.Walk
import Mathlib.Data.List.Nodup

/-! Routes through a graph, and the walk as a list of routes. Every event of a walk has
an address, the numbers of the sites and targets that were chosen on the way to it.
Main statements: events happen in the order of their addresses, the nodes entered are
the ends of the routes that repeat no node, and sites are met exactly where a node
was entered above the last level. -/

namespace CallFlow.Flow

variable {α σ : Type}

/-- One step of a route: a site of the node, and one of the targets of that site. -/
structure Choice where
  site : Nat
  target : Nat
deriving Repr, DecidableEq

def Choice.Before (a b : Choice) : Prop :=
  a.site < b.site ∨ a.site = b.site ∧ a.target < b.target

/-- The nodes that a sequence of choices passes through, its start included. -/
def along (next : α → Choice → Option α) : α → List Choice → Option (List α)
  | a, [] => some [a]
  | a, c :: cs => (next a c).bind fun b => (along next b cs).map (a :: ·)

/-- Choices that can be made from `a` on, that lead through `nodes` and to none of them
twice, and of which there are at most `limit`. -/
structure IsRoute (next : α → Choice → Option α) (limit : Option Nat) (a : α) (r : List Choice)
    (nodes : List α) : Prop where
  follows : along next a r = some nodes
  simple : nodes.Nodup
  within : ∀ d ∈ limit, r.length ≤ d

theorem along_cons_eq_some {next : α → Choice → Option α} {a : α} {c : Choice}
    {cs : List Choice} {nodes : List α} :
    along next a (c :: cs) = some nodes ↔
      ∃ b rest, next a c = some b ∧ along next b cs = some rest ∧ nodes = a :: rest := by
  simp only [along, Option.bind_eq_some_iff, Option.map_eq_some_iff]
  constructor
  · rintro ⟨b, hb, rest, hr, rfl⟩
    exact ⟨b, rest, hb, hr, rfl⟩
  · rintro ⟨b, rest, hb, hr, rfl⟩
    exact ⟨b, hb, rest, hr, rfl⟩

theorem along_eq_cons {next : α → Choice → Option α} {a : α} {r : List Choice} {nodes : List α}
    (h : along next a r = some nodes) : ∃ rest, nodes = a :: rest := by
  cases r with
  | nil => cases h; exact ⟨[], rfl⟩
  | cons c cs =>
    obtain ⟨_, rest, _, _, rfl⟩ := along_cons_eq_some.mp h
    exact ⟨rest, rfl⟩

theorem length_of_along {next : α → Choice → Option α} :
    ∀ {r : List Choice} {a : α} {nodes : List α}, along next a r = some nodes →
      nodes.length = r.length + 1
  | [], _, _, h => by cases h; rfl
  | c :: cs, _, _, h => by
    obtain ⟨_, _, _, hr, rfl⟩ := along_cons_eq_some.mp h
    simp [length_of_along hr]

/-- Routes from inside a set that no choice leaves stay in it. -/
theorem mem_of_along {next : α → Choice → Option α} {P : α → Prop}
    (closed : ∀ a c b, P a → next a c = some b → P b) :
    ∀ {r : List Choice} {a : α} {nodes : List α}, P a → along next a r = some nodes →
      ∀ x ∈ nodes, P x
  | [], a, _, ha, h => by
    cases h
    simpa using ha
  | c :: cs, a, _, ha, h => by
    obtain ⟨b, rest, hb, hr, rfl⟩ := along_cons_eq_some.mp h
    intro x hx
    rcases List.mem_cons.mp hx with rfl | hx
    · exact ha
    · exact mem_of_along closed (closed a c b ha hb) hr x hx

/-! ## Addresses -/

/-- The numbers of a route, site and target in turn. -/
def address (r : List Choice) : List Nat := r.flatMap fun c => [c.site, c.target]

@[simp] theorem address_nil : address [] = [] := rfl

@[simp] theorem address_cons (c : Choice) (r : List Choice) :
    address (c :: r) = c.site :: c.target :: address r := rfl

theorem address_injective : ∀ {r r' : List Choice}, address r = address r' → r = r'
  | [], [], _ => rfl
  | [], _ :: _, h => by simp at h
  | _ :: _, [], h => by simp at h
  | ⟨i, j⟩ :: r, ⟨i', j'⟩ :: r', h => by
    simp only [address_cons, List.cons.injEq] at h
    obtain ⟨rfl, rfl, h⟩ := h
    rw [address_injective h]

theorem address_lt_iff : ∀ {r r' : List Choice},
    address r < address r' ↔ List.Lex Choice.Before r r'
  | [], [] => by simp
  | [], _ :: _ => by simp
  | _ :: _, [] => by simp
  | ⟨i, j⟩ :: r, ⟨i', j'⟩ :: r' => by
    simp only [address_cons, List.cons_lt_cons_iff, address_lt_iff, List.cons_lex_cons_iff,
      Choice.Before, Choice.mk.injEq]
    tauto

/-! ## The walk with addresses -/

/-- The site and target that a choice stands for. -/
def choose (out : α → List (σ × List α)) (a : α) (c : Choice) : Option α :=
  ((out a)[c.site]?).bind fun s => s.2[c.target]?

theorem choose_eq_some {out : α → List (σ × List α)} {a b : α} {c : Choice} :
    choose out a c = some b ↔
      ∃ s ts, (out a)[c.site]? = some (s, ts) ∧ ts[c.target]? = some b := by
  simp only [choose, Option.bind_eq_some_iff, Prod.exists]

variable [DecidableEq α]

/-- What a target of site `i` brings. `go` is the walk that starts there. -/
def atTarget (go : α → List (List Nat × Event α σ)) (path : List α) (node : α) (i : Nat)
    (t : α × Nat) : List (List Nat × Event α σ) :=
  if t.1 ∈ node :: path then [([i, t.2], .back node t.1)]
  else (go t.1).map fun e => (i :: t.2 :: e.1, e.2)

def atSite (go : α → List (List Nat × Event α σ)) (path : List α) (node : α)
    (s : (σ × List α) × Nat) : List (List Nat × Event α σ) :=
  ([s.2], .site node s.1.1) :: s.1.2.zipIdx.flatMap (atTarget go path node s.2)

/-- A walk in which every event carries its address. -/
def located (out : α → List (σ × List α)) :
    (levels : Nat) → (path : List α) → (node : α) → List (List Nat × Event α σ)
  | 0, path, node => [([], .enter node path), ([0], .limit node path)]
  | levels + 1, path, node =>
    ([], .enter node path) ::
      (out node).zipIdx.flatMap (atSite (located out levels (node :: path)) path node)

variable {out : α → List (σ × List α)}

omit [DecidableEq α] in
theorem flatMap_zipIdx {β γ : Type} (l : List β) (f : β → List γ) :
    (l.zipIdx.flatMap fun x => f x.1) = l.flatMap f := by
  rw [← List.flatMap_map Prod.fst f, List.zipIdx_map_fst]

/-- Taking the addresses away gives the walk. -/
theorem map_snd_located : ∀ (levels : Nat) (path : List α) (node : α),
    (located out levels path node).map Prod.snd = walk out levels path node
  | 0, _, _ => rfl
  | levels + 1, path, node => by
    simp only [located, walk, List.map_cons, List.map_flatMap]
    rw [← flatMap_zipIdx (out node)]
    refine congrArg _ (congrArg (List.flatMap · _) (funext fun ⟨⟨s, ts⟩, i⟩ => ?_))
    simp only [atSite, List.map_cons, List.map_flatMap]
    rw [← flatMap_zipIdx ts]
    refine congrArg _ (congrArg (List.flatMap · _) (funext fun ⟨t, j⟩ => ?_))
    simp only [atTarget]
    split
    · rfl
    · rw [List.map_map]
      exact map_snd_located levels (node :: path) t

/-- All that one level of a walk brings. -/
theorem mem_located_succ {levels : Nat} {path : List α} {node : α} {e : List Nat × Event α σ} :
    e ∈ located out (levels + 1) path node ↔
      e = ([], .enter node path) ∨
      ∃ i s ts, (out node)[i]? = some (s, ts) ∧
        (e = ([i], .site node s) ∨
         ∃ j t, ts[j]? = some t ∧
          (t ∈ node :: path ∧ e = ([i, j], .back node t) ∨
           t ∉ node :: path ∧ ∃ k v, (k, v) ∈ located out levels (node :: path) t ∧
             e = (i :: j :: k, v))) := by
  simp only [located, atSite, List.mem_cons (a := e), List.mem_flatMap, Prod.exists,
    List.mk_mem_zipIdx_iff_getElem?]
  refine or_congr_right ⟨?_, ?_⟩
  · rintro ⟨s, ts, i, hs, he | ⟨t, j, ht, he⟩⟩
    · exact ⟨i, s, ts, hs, .inl he⟩
    · refine ⟨i, s, ts, hs, .inr ⟨j, t, ht, ?_⟩⟩
      unfold atTarget at he
      split at he
      · rename_i hback
        exact .inl ⟨hback, List.mem_singleton.mp he⟩
      · rename_i hnew
        obtain ⟨⟨k, v⟩, hk, rfl⟩ := List.mem_map.mp he
        exact .inr ⟨hnew, k, v, hk, rfl⟩
  · rintro ⟨i, s, ts, hs, he | ⟨j, t, ht, ⟨hback, he⟩ | ⟨hnew, k, v, hk, rfl⟩⟩⟩
    · exact ⟨s, ts, i, hs, .inl he⟩
    · refine ⟨s, ts, i, hs, .inr ⟨t, j, ht, ?_⟩⟩
      rw [atTarget, if_pos hback]
      exact List.mem_singleton.mpr he
    · refine ⟨s, ts, i, hs, .inr ⟨t, j, ht, ?_⟩⟩
      rw [atTarget, if_neg hnew]
      exact List.mem_map.mpr ⟨(k, v), hk, rfl⟩

/-! ## Order of events -/

section Order

variable {go : α → List (List Nat × Event α σ)} {path : List α} {node : α}
  {e : List Nat × Event α σ}

theorem exists_address_of_mem_atTarget {i : Nat} {t : α × Nat}
    (h : e ∈ atTarget go path node i t) : ∃ k, e.1 = i :: t.2 :: k := by
  unfold atTarget at h
  split at h
  · rw [List.mem_singleton.mp h]
    exact ⟨[], rfl⟩
  · obtain ⟨e', _, rfl⟩ := List.mem_map.mp h
    exact ⟨e'.1, rfl⟩

theorem exists_address_of_mem_atSite {s : (σ × List α) × Nat} (h : e ∈ atSite go path node s) :
    ∃ k, e.1 = s.2 :: k := by
  rcases List.mem_cons.mp h with rfl | h
  · exact ⟨[], rfl⟩
  · obtain ⟨t, _, h⟩ := List.mem_flatMap.mp h
    obtain ⟨k, hk⟩ := exists_address_of_mem_atTarget h
    exact ⟨t.2 :: k, hk⟩

omit [DecidableEq α] in
theorem pairwise_zipIdx {β : Type} (l : List β) : l.zipIdx.Pairwise fun a b => a.2 < b.2 := by
  apply List.pairwise_map.mp
  rw [List.zipIdx_map_snd]
  exact List.pairwise_lt_range'

theorem atTarget_sorted (hgo : ∀ t, (go t).Pairwise fun a b => a.1 < b.1) (i : Nat)
    (t : α × Nat) : (atTarget go path node i t).Pairwise fun a b => a.1 < b.1 := by
  unfold atTarget
  split
  · exact List.pairwise_singleton _ _
  · exact (hgo t.1).map _ fun a b h => List.Lex.cons (List.Lex.cons h)

theorem atSite_sorted (hgo : ∀ t, (go t).Pairwise fun a b => a.1 < b.1)
    (s : (σ × List α) × Nat) : (atSite go path node s).Pairwise fun a b => a.1 < b.1 := by
  refine List.pairwise_cons.mpr ⟨fun e he => ?_, List.pairwise_flatMap.mpr
    ⟨fun t _ => atTarget_sorted hgo s.2 t, ?_⟩⟩
  · obtain ⟨t, _, he⟩ := List.mem_flatMap.mp he
    obtain ⟨k, hk⟩ := exists_address_of_mem_atTarget he
    rw [hk]
    exact List.Lex.cons List.Lex.nil
  · refine (pairwise_zipIdx s.1.2).imp fun hlt e he e' he' => ?_
    obtain ⟨k, hk⟩ := exists_address_of_mem_atTarget he
    obtain ⟨k', hk'⟩ := exists_address_of_mem_atTarget he'
    rw [hk, hk']
    exact List.Lex.cons (List.Lex.rel hlt)

end Order

/-- Events happen in the order of their addresses. -/
theorem located_sorted : ∀ (levels : Nat) (path : List α) (node : α),
    (located out levels path node).Pairwise fun a b => a.1 < b.1
  | 0, path, node => by simp [located]
  | levels + 1, path, node => by
    have below := located_sorted levels (node :: path)
    refine List.pairwise_cons.mpr ⟨fun e he => ?_, List.pairwise_flatMap.mpr
      ⟨fun s _ => atSite_sorted below s, ?_⟩⟩
    · obtain ⟨s, _, he⟩ := List.mem_flatMap.mp he
      obtain ⟨k, hk⟩ := exists_address_of_mem_atSite he
      rw [hk]
      exact List.Lex.nil
    · refine (pairwise_zipIdx (out node)).imp fun hlt e he e' he' => ?_
      obtain ⟨k, hk⟩ := exists_address_of_mem_atSite he
      obtain ⟨k', hk'⟩ := exists_address_of_mem_atSite he'
      rw [hk, hk']
      exact List.Lex.rel hlt

/-! ## Entered nodes and sites -/

/-- The nodes entered are the ends of the routes. On top of `path` such a route still
repeats no node, and with its nodes stacked on `path` the last one lies on top. -/
theorem mem_located_enter {levels : Nat} {path : List α} {node v : α} {k : List Nat}
    {below : List α} (fresh : (node :: path).Nodup) :
    (k, .enter v below) ∈ located out levels path node ↔
      ∃ r nodes, address r = k ∧ along (choose out) node r = some nodes ∧
        (nodes.reverse ++ path).Nodup ∧ r.length ≤ levels ∧
        nodes.reverse ++ path = v :: below := by
  induction levels generalizing path node k with
  | zero =>
    constructor
    · intro h
      simp only [located, List.mem_cons, Prod.mk.injEq, Event.enter.injEq, reduceCtorEq, and_false,
        List.not_mem_nil, or_false] at h
      obtain ⟨rfl, rfl, rfl⟩ := h
      exact ⟨[], [v], rfl, rfl, fresh, Nat.le_refl 0, rfl⟩
    · rintro ⟨r, nodes, rfl, ha, _, hl, he⟩
      obtain rfl := List.length_eq_zero_iff.mp (Nat.le_zero.mp hl)
      cases ha
      obtain ⟨rfl, rfl⟩ := List.cons.inj he
      exact List.mem_cons_self
  | succ levels ih =>
    rw [mem_located_succ]
    constructor
    · rintro (h | ⟨i, s, ts, hs, h | ⟨j, t, ht, ⟨_, h⟩ | ⟨hnew, k', w, hk, h⟩⟩⟩)
      · cases h
        exact ⟨[], [v], rfl, rfl, fresh, Nat.zero_le _, rfl⟩
      · cases h
      · cases h
      · cases h
        obtain ⟨r, nodes, rfl, ha, hn, hl, he⟩ := (ih (List.nodup_cons.mpr ⟨hnew, fresh⟩)).mp hk
        refine ⟨⟨i, j⟩ :: r, node :: nodes, rfl, ?_, ?_, Nat.succ_le_succ hl, ?_⟩
        · exact along_cons_eq_some.mpr ⟨t, nodes, choose_eq_some.mpr ⟨s, ts, hs, ht⟩, ha, rfl⟩
        · simpa using hn
        · simpa using he
    · rintro ⟨r, nodes, rfl, ha, hn, hl, he⟩
      cases r with
      | nil =>
        cases ha
        obtain ⟨rfl, rfl⟩ := List.cons.inj he
        exact .inl rfl
      | cons c cs =>
        obtain ⟨b, rest, hb, hr, rfl⟩ := along_cons_eq_some.mp ha
        obtain ⟨s, ts, hs, ht⟩ := choose_eq_some.mp hb
        have stacked : (node :: rest).reverse ++ path = rest.reverse ++ node :: path := by simp
        rw [stacked] at hn he
        obtain ⟨more, rfl⟩ := along_eq_cons hr
        have hnew : b ∉ node :: path := fun hm =>
          (List.nodup_append.mp hn).2.2 b (by simp) b hm rfl
        have hk := (ih (List.nodup_cons.mpr ⟨hnew, fresh⟩)).mpr
          ⟨cs, b :: more, rfl, hr, hn, Nat.le_of_succ_le_succ hl, he⟩
        exact .inr ⟨c.site, s, ts, hs, .inr ⟨c.target, b, ht, .inr ⟨hnew, _, _, hk, rfl⟩⟩⟩

/-- A node's sites are met each time it is entered above the last level. -/
theorem mem_located_site {levels : Nat} {path : List α} {node v : α} {k : List Nat} {s : σ} :
    (k, .site v s) ∈ located out levels path node ↔
      ∃ k' i below ts, k = k' ++ [i] ∧ (k', .enter v below) ∈ located out levels path node ∧
        below.length < path.length + levels ∧ (out v)[i]? = some (s, ts) := by
  induction levels generalizing path node k with
  | zero =>
    constructor
    · intro h
      simp [located] at h
    · rintro ⟨k', i, below, ts, rfl, h, hl, _⟩
      simp only [located, List.mem_cons, Prod.mk.injEq, Event.enter.injEq, reduceCtorEq, and_false,
        List.not_mem_nil, or_false] at h
      obtain ⟨_, _, rfl⟩ := h
      exact absurd hl (Nat.lt_irrefl _)
  | succ levels ih =>
    simp only [mem_located_succ]
    constructor
    · rintro (h | ⟨i, s', ts, hs, h | ⟨j, t, ht, ⟨_, h⟩ | ⟨hnew, k', w, hk, h⟩⟩⟩)
      · cases h
      · cases h
        exact ⟨[], i, path, ts, rfl, .inl rfl, Nat.lt_add_of_pos_right (Nat.succ_pos _), hs⟩
      · cases h
      · cases h
        obtain ⟨k, i', below, ts', rfl, he, hl, hs'⟩ := ih.mp hk
        have hl : below.length < path.length + (levels + 1) := by
          rw [List.length_cons] at hl; omega
        exact ⟨i :: j :: k, i', below, ts', rfl,
          .inr ⟨i, s', ts, hs, .inr ⟨j, t, ht, .inr ⟨hnew, k, _, he, rfl⟩⟩⟩, hl, hs'⟩
    · rintro ⟨k', i, below, ts, rfl,
        h | ⟨i', s', ts', hs', h | ⟨j, t, ht, ⟨_, h⟩ | ⟨hnew, k, w, hk, h⟩⟩⟩, hl, hs⟩
      · cases h
        exact .inr ⟨i, s, ts, hs, .inl rfl⟩
      · cases h
      · cases h
      · cases h
        have hl : below.length < (node :: path).length + levels := by
          rw [List.length_cons]; omega
        exact .inr ⟨i', s', ts', hs', .inr ⟨j, t, ht, .inr ⟨hnew, k ++ [i], _,
          ih.mpr ⟨k, i, below, ts, rfl, hk, hl, hs⟩, rfl⟩⟩⟩

end CallFlow.Flow
