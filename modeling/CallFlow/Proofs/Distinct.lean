import CallFlow.Scope
import Mathlib.Data.List.Induction
import Mathlib.Data.List.Nodup

/-! One item per key. What is kept is described from three sides: it is taken from the items, no key
is kept twice, and no key is lost. Main statement: what is kept are the items whose key no item in
front of them has. Keys seen so far only ever take items away, so that every law is one about a
filter. -/

namespace CallFlow

section Keys

variable {α κ : Type} [BEq κ]

theorem mem_of_mem_distinctBeyond {key : α → κ} {a : α} :
    ∀ {seen : List κ} {items : List α}, a ∈ distinctBeyond key seen items → a ∈ items
  | _, [], h => h
  | _, b :: items, h => by
    rw [distinctBeyond] at h
    split at h
    · exact List.mem_cons_of_mem b (mem_of_mem_distinctBeyond h)
    · rcases List.mem_cons.mp h with rfl | h
      · exact List.mem_cons_self
      · exact List.mem_cons_of_mem b (mem_of_mem_distinctBeyond h)

/-- What is kept has a new key: neither among those seen nor kept a second time. -/
theorem nodup_keys_distinctBeyond [LawfulBEq κ] (key : α → κ) : ∀ (items : List α) (seen : List κ),
    ((distinctBeyond key seen items).map key).Nodup ∧
      ∀ a ∈ distinctBeyond key seen items, key a ∉ seen
  | [], _ => ⟨List.nodup_nil, fun _ h => by cases h⟩
  | a :: items, seen => by
    rw [distinctBeyond]
    split
    · exact nodup_keys_distinctBeyond key items seen
    · rename_i new
      obtain ⟨once, later⟩ := nodup_keys_distinctBeyond key items (key a :: seen)
      refine ⟨List.nodup_cons.mpr ⟨fun again => ?_, once⟩, ?_⟩
      · obtain ⟨b, hb, same⟩ := List.mem_map.mp again
        exact later b hb (same ▸ List.mem_cons_self)
      · intro b hb
        rcases List.mem_cons.mp hb with rfl | hb
        · simpa using new
        · exact fun seen => later b hb (List.mem_cons_of_mem _ seen)

theorem mem_keys_distinctBeyond [LawfulBEq κ] (key : α → κ) {k : κ} :
    ∀ (items : List α) (seen : List κ), k ∈ items.map key →
      k ∈ seen ∨ k ∈ (distinctBeyond key seen items).map key
  | [], _, h => by cases h
  | a :: items, seen, h => by
    rw [distinctBeyond]
    rcases List.mem_cons.mp h with rfl | h
    · split
      · rename_i known
        exact .inl (by simpa using known)
      · exact .inr List.mem_cons_self
    · split
      · exact mem_keys_distinctBeyond key items seen h
      · rcases mem_keys_distinctBeyond key items (key a :: seen) h with known | kept
        · rcases List.mem_cons.mp known with rfl | known
          · exact .inr List.mem_cons_self
          · exact .inl known
        · exact .inr (List.mem_cons_of_mem _ kept)

/-- Of the items with a key one is kept. -/
theorem count_keys_distinct [LawfulBEq κ] (key : α → κ) {k : κ} {items : List α}
    (h : k ∈ items.map key) : ((distinct key items).map key).count k = 1 :=
  List.count_eq_one_of_mem (nodup_keys_distinctBeyond key items []).1
    ((mem_keys_distinctBeyond key items [] h).resolve_left (List.not_mem_nil))

end Keys

section Firsts

variable {α κ : Type} [BEq κ]

/-- The items whose key no item in front of them has. -/
def firsts (key : α → κ) (items : List α) : List α :=
  (items.zipIdx.filter fun a => !((items.take a.2).map key).contains (key a.1)).map Prod.fst

theorem firsts_concat (key : α → κ) (items : List α) (a : α) :
    firsts key (items ++ [a]) =
      firsts key items ++ if (items.map key).contains (key a) then [] else [a] := by
  have front : (items.zipIdx.filter fun b =>
        !(((items ++ [a]).take b.2).map key).contains (key b.1)) =
      items.zipIdx.filter fun b => !((items.take b.2).map key).contains (key b.1) := by
    refine List.filter_congr fun b hb => ?_
    have place := (List.mem_zipIdx hb).2.1
    rw [List.take_append_of_le_length (by omega)]
  rw [firsts, List.zipIdx_append, List.filter_append, List.map_append, front, ← firsts]
  congr 1
  cases known : (items.map key).contains (key a) <;> simp [known]

theorem distinctBeyond_sublist (key : α → κ) : ∀ (items : List α) (seen : List κ),
    (distinctBeyond key seen items).Sublist items
  | [], _ => List.nil_sublist _
  | a :: items, seen => by
    rw [distinctBeyond]
    split
    · exact (distinctBeyond_sublist key items seen).cons a
    · exact (distinctBeyond_sublist key items _).cons_cons a

/-- Items that differ in their keys are all kept. -/
theorem distinctBeyond_of_apart (key : α → κ) : ∀ (items : List α) (seen : List κ),
    items.Pairwise (fun a b => (key b == key a) = false) →
      (∀ a ∈ items, seen.contains (key a) = false) → distinctBeyond key seen items = items
  | [], _, _, _ => rfl
  | a :: items, seen, apart, new => by
    obtain ⟨first, apart⟩ := List.pairwise_cons.mp apart
    rw [distinctBeyond, if_neg (by simp [new a])]
    congr 1
    refine distinctBeyond_of_apart key items _ apart fun b hb => ?_
    rw [List.contains_cons, first b hb, new b (List.mem_cons_of_mem a hb)]
    rfl

/-- What it means to keep the first item of every key, keys being compared by `==`. -/
structure KeepsFirsts (key : α → κ) (keep : List α → List α) : Prop where
  firsts : ∀ items, keep items = firsts key items
  sublist : ∀ items, (keep items).Sublist items
  apart : ∀ items, (keep items).Pairwise fun a b => (key b == key a) = false
  survives : ∀ items, ∀ a ∈ items, ∃ b ∈ keep items, (key b == key a) = true
  idempotent : ∀ items, keep (keep items) = keep items
  append : ∀ xs ys,
    keep (xs ++ ys) = keep xs ++ (keep ys).filter fun a => !(xs.map key).contains (key a)

variable [EquivBEq κ] (key : α → κ)

theorem distinctBeyond_eq_filter : ∀ (items : List α) (seen : List κ),
    distinctBeyond key seen items = (distinct key items).filter fun a => !seen.contains (key a)
  | [], _ => rfl
  | a :: items, seen => by
    have first : distinct key (a :: items) = a :: distinctBeyond key [key a] items := rfl
    rw [first, distinctBeyond, List.filter_cons, distinctBeyond_eq_filter items [key a],
      List.filter_filter]
    cases known : seen.contains (key a) with
    | true =>
      rw [if_pos rfl, distinctBeyond_eq_filter items seen]
      refine List.filter_congr fun b _ => ?_
      -- a key that equals a known one is known itself
      cases same : key b == key a with
      | false => simp [same]
      | true => simp [List.contains_congr same, known]
    | false =>
      rw [if_neg (by simp), distinctBeyond_eq_filter items (key a :: seen)]
      refine congrArg (a :: ·) (List.filter_congr fun b _ => ?_)
      simp [List.contains_cons, Bool.and_comm]

theorem distinct_cons (a : α) (items : List α) : distinct key (a :: items) =
    a :: (distinct key items).filter fun b => !(key b == key a) := by
  have first : distinct key (a :: items) = a :: distinctBeyond key [key a] items := rfl
  rw [first, distinctBeyond_eq_filter]
  simp [List.contains_cons]

theorem distinct_append (xs ys : List α) : distinct key (xs ++ ys) =
    distinct key xs ++ (distinct key ys).filter fun a => !(xs.map key).contains (key a) := by
  induction xs with
  | nil => simp [distinct, distinctBeyond]
  | cons x xs ih =>
    rw [List.cons_append, distinct_cons, distinct_cons, ih, List.filter_append, List.filter_filter]
    simp [List.contains_cons]

theorem distinct_eq_firsts (items : List α) : distinct key items = firsts key items := by
  induction items using List.reverseRecOn with
  | nil => rfl
  | append_singleton items a ih =>
    have last : distinct key [a] = [a] := rfl
    rw [distinct_append, firsts_concat, ih, last, List.filter_cons, List.filter_nil]
    cases (items.map key).contains (key a) <;> rfl

theorem apart_distinct : ∀ items : List α,
    (distinct key items).Pairwise fun a b => (key b == key a) = false
  | [] => .nil
  | a :: items => by
    rw [distinct_cons]
    refine List.pairwise_cons.mpr ⟨fun b hb => ?_, (apart_distinct items).filter _⟩
    simpa using (List.mem_filter.mp hb).2

theorem exists_mem_distinct {a : α} : ∀ {items : List α}, a ∈ items →
    ∃ b ∈ distinct key items, (key b == key a) = true
  | c :: items, h => by
    rw [distinct_cons]
    cases same : key c == key a with
    | true => exact ⟨c, List.mem_cons_self, same⟩
    | false =>
      have other : a ∈ items := by
        refine (List.mem_cons.mp h).resolve_left ?_
        rintro rfl
        simp at same
      obtain ⟨b, hb, eq⟩ := exists_mem_distinct other
      have new : (key b == key c) = false := by rw [BEq.congr_left eq, BEq.comm, same]
      exact ⟨b, List.mem_cons_of_mem c (List.mem_filter.mpr ⟨hb, by simp [new]⟩), eq⟩

theorem keepsFirsts_distinct : KeepsFirsts key (distinct key) where
  firsts := distinct_eq_firsts key
  sublist items := distinctBeyond_sublist key items []
  apart := apart_distinct key
  survives _ _ h := exists_mem_distinct key h
  idempotent items := distinctBeyond_of_apart key _ [] (apart_distinct key items) (by simp)
  append := distinct_append key

end Firsts

section Items

variable {α : Type} [BEq α]

theorem distinctBeyond_eq_eraseDups : ∀ (items seen : List α),
    distinctBeyond id seen items = (items.filter fun a => !seen.contains a).eraseDups
  | [], _ => rfl
  | a :: items, seen => by
    rw [distinctBeyond, List.filter_cons]
    cases h : seen.contains a with
    | true =>
      simp only [id, h, if_true, Bool.not_true, Bool.false_eq_true, if_false]
      exact distinctBeyond_eq_eraseDups items seen
    | false =>
      simp only [id, h, Bool.false_eq_true, if_false, Bool.not_false, if_true]
      rw [List.eraseDups_cons, List.filter_filter, distinctBeyond_eq_eraseDups items (a :: seen)]
      simp only [List.contains_cons, Bool.not_or]

theorem distinct_eq_eraseDups (items : List α) : distinct id items = items.eraseDups := by
  rw [distinct, distinctBeyond_eq_eraseDups]
  simp

theorem nodup_distinctBeyond [LawfulBEq α] (items seen : List α) :
    (distinctBeyond id seen items).Nodup ∧ ∀ a ∈ distinctBeyond id seen items, a ∉ seen := by
  simpa using nodup_keys_distinctBeyond id items seen

end Items

end CallFlow
