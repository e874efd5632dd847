import CallFlow.Proofs.Outline.Reading
import CallFlow.Proofs.Tree.Search

/-! When the parts of one declaration are read and when they are refused. Documentation is
never the reason: in a tree whose nodes fit the text, only a name that is blank or not there
is. Each part is read exactly if its own rule holds. -/

namespace CallFlow

/-! ## Succeeding -/

/-- There is a result. -/
def Succeeds {ε α : Type} (x : Except ε α) : Prop := ∃ a, x = .ok a

namespace Succeeds

variable {ε α β : Type}

theorem ok (a : α) : Succeeds (.ok a : Except ε α) := ⟨a, rfl⟩

theorem pure (a : α) : Succeeds (Pure.pure a : Except ε α) := ⟨a, rfl⟩

theorem of_isOk {x : Except ε α} (h : x.isOk = true) : Succeeds x := by
  cases x with
  | error e => cases h
  | ok a => exact ok a

theorem not_error {e : ε} : ¬ Succeeds (.error e : Except ε α) := by
  rintro ⟨a, h⟩
  cases h

theorem bind_ok {x : Except ε α} {f : α → Except ε β} {a : α} (hx : x = .ok a)
    (hf : Succeeds (f a)) : Succeeds (x >>= f) := by
  rw [hx]
  exact hf

/-- What comes second succeeds under the same condition whatever came first. -/
theorem bind_iff {x : Except ε α} {f : α → Except ε β} {S : Prop} (h : ∀ a, Succeeds (f a) ↔ S) :
    Succeeds (x >>= f) ↔ Succeeds x ∧ S := by
  constructor
  · rintro ⟨b, hb⟩
    obtain ⟨a, ha, hb⟩ := bind_eq_ok.mp hb
    exact ⟨⟨a, ha⟩, (h a).mp ⟨b, hb⟩⟩
  · rintro ⟨⟨a, ha⟩, hs⟩
    obtain ⟨b, hb⟩ := (h a).mpr hs
    exact ⟨b, bind_eq_ok.mpr ⟨a, ha, hb⟩⟩

theorem bind_iff_left {x : Except ε α} {f : α → Except ε β} (h : ∀ a, Succeeds (f a)) :
    Succeeds (x >>= f) ↔ Succeeds x := by
  rw [bind_iff fun a => iff_true_intro (h a), and_true]

theorem bind {x : Except ε α} {f : α → Except ε β} (hx : Succeeds x) (hf : ∀ a, Succeeds (f a)) :
    Succeeds (x >>= f) :=
  (bind_iff_left hf).mpr hx

theorem map_iff {x : Except ε α} {f : α → β} : Succeeds (f <$> x) ↔ Succeeds x := by
  rw [map_eq_pure_bind]
  exact bind_iff_left fun a => pure (f a)

theorem mapM_iff {f : α → Except ε β} :
    ∀ {as : List α}, Succeeds (as.mapM f) ↔ ∀ a ∈ as, Succeeds (f a)
  | [] => by simp [pure]
  | a :: as => by
    rw [List.mapM_cons, List.forall_mem_cons, ← mapM_iff]
    exact bind_iff fun b => bind_iff_left fun bs => pure (b :: bs)

end Succeeds

namespace Outline

open CallFlow.Tree

/-! ## Names -/

/-- The first child of the given kind has more to its text than white space. -/
def Titled (source : List Char) (kind : String) (n : Node) : Prop :=
  ∃ name, n.child? kind = some name ∧ Text.allBlank (name.text source) = false

/-- A class has a name; only a companion may go without. -/
def ClassTitled (source : List Char) (n : Node) : Prop :=
  Titled source "type_identifier" n ∨
    n.kind = "companion_object" ∧ n.child? "type_identifier" = none

/-- The parameters of the primary constructor have names. -/
def ParametersTitled (source : List Char) (n : Node) : Prop :=
  ∀ ctor, n.child? "primary_constructor" = some ctor → ∀ p ∈ ctor.descendants,
    p.kind = "class_parameter" → Titled source "simple_identifier" p

/-- A property declaration `n` declares the variable `v`, by itself or in its first list of
destructured variables. -/
def Declares (n v : Node) : Prop :=
  v.kind = "variable_declaration" ∧
    (v ∈ n.children ∨ ∃ multi, n.child? "multi_variable_declaration" = some multi ∧
      v ∈ multi.children)

/-! ## Documentation never stands in the way -/

/-- The node and all below it are there, and start between two characters of the text. -/
def Readable (source : List Char) (n : Node) : Prop :=
  ∀ m ∈ n.preorder, m.missing = false ∧ (Text.splitAt? m.span.start source).isSome

variable {source : List Char}

theorem Readable.of_mem {n m : Node} (h : Readable source n) (hm : m ∈ n.preorder) :
    Readable source m :=
  fun k hk => h k (Node.preorder_subset hm hk)

theorem Readable.child {n m : Node} (h : Readable source n) (hm : m ∈ n.children) :
    Readable source m :=
  h.of_mem (Node.mem_preorder_of_mem_descendants (Node.mem_descendants_of_mem_children hm))

theorem Readable.body {n : Node} (h : Readable source n) :
    ∀ m ∈ bodyAmong n.children, Readable source m :=
  forall_bodyAmong (fun _ hn _ hc => hn.child hc) h

theorem Readable.startsLine {n : Node} (h : Readable source n) :
    Succeeds (n.startsLine source) := by
  obtain ⟨⟨front, rest⟩, hs⟩ := Option.isSome_iff_exists.mp (h n n.mem_preorder_self).2
  obtain ⟨rfl, hw⟩ := Text.splitAt?_eq_some hs
  have hmin : min n.span.start (Text.width (front ++ rest)) = n.span.start := by
    rw [Text.width_append]
    lia
  rw [Node.startsLine, hmin, hs]
  exact ⟨_, rfl⟩

theorem succeeds_commentRun : ∀ {before : List Node} (span : Span) (current : Node),
    (∀ b ∈ before, Readable source b) → Succeeds (commentRun source span current before)
  | [], span, _, _ => ⟨span, rfl⟩
  | prev :: before, span, current, h => by
    obtain ⟨own, hown⟩ := (h prev List.mem_cons_self).startsLine
    rw [commentRun]
    split
    · cases own with
      | true =>
        obtain ⟨run, hrun⟩ := succeeds_commentRun (span.cover prev.span) prev
          fun b hb => h b (List.mem_cons_of_mem prev hb)
        exact ⟨run, by rw [hown]; exact hrun⟩
      | false => exact ⟨span, by rw [hown]; rfl⟩
    · exact ⟨span, rfl⟩

/-- The comment in front of a declaration, and what stands in front of that, is among the nodes in
front of the declaration or below one of them. -/
theorem mem_of_commentBefore? {spot comment : Spot} (h : commentBefore? spot = some comment) :
    comment.node.isComment = true ∧
      ∀ m ∈ comment.node :: comment.before, ∃ b ∈ spot.before, m ∈ b.preorder := by
  unfold commentBefore? at h
  split at h
  · cases h
  · rename_i prev rest hprev
    rw [hprev]
    split at h
    · rename_i hc
      cases h
      exact ⟨hc, fun m hm => ⟨m, hm, m.mem_preorder_self⟩⟩
    split at h
    · refine ⟨Node.of_trailing? h, fun m hm => ⟨prev, List.mem_cons_self, ?_⟩⟩
      exact Node.mem_preorder_of_mem_descendants (Node.mem_descendants_of_trailing? h m hm)
    · cases h

theorem succeeds_docOf {spot : Spot} (before : ∀ b ∈ spot.before, Readable source b) :
    Succeeds (docOf source spot) := by
  unfold docOf
  split
  · exact ⟨none, rfl⟩
  · rename_i comment hc
    have readable (m) (hm : m ∈ comment.node :: comment.before) : Readable source m := by
      obtain ⟨b, hb, hm⟩ := (mem_of_commentBefore? hc).2 m hm
      exact (before b hb).of_mem hm
    obtain ⟨own, hown⟩ := (readable comment.node List.mem_cons_self).startsLine
    obtain ⟨run, hrun⟩ := succeeds_commentRun comment.node.span comment.node
      fun b hb => readable b (List.mem_cons_of_mem comment.node hb)
    rw [hown, hrun]
    split
    · cases own with
      | true =>
        by_cases line : (comment.node.kind == "line_comment") = true
        · exact ⟨some run, if_pos line⟩
        · exact ⟨some comment.node.span, if_neg line⟩
      | false => exact ⟨none, rfl⟩
    · exact ⟨none, rfl⟩

theorem succeeds_lift {α : Type} {x : Except Fault α} (h : Succeeds x) :
    Succeeds (Fault.lift x) := by
  obtain ⟨a, rfl⟩ := h
  exact .ok a

/-! ## One declaration -/

variable {s : Sheet}

theorem not_succeeds_refuse {α : Type} {n : Node} {reason : String} :
    ¬ Succeeds (s.refuse n reason : Except Error α) :=
  Succeeds.not_error

theorem succeeds_nameOf {n : Node} (there : n.missing = false) :
    Succeeds (s.nameOf n) ↔ Text.allBlank (n.text s.source) = false := by
  unfold Sheet.nameOf
  cases h : Text.allBlank (n.text s.source) with
  | true => simpa [there, h] using not_succeeds_refuse
  | false => simpa [there, h] using Succeeds.ok _

theorem succeeds_nameIn {n : Node} (readable : Readable s.source n) (kind : String) :
    Succeeds (s.nameIn kind n) ↔ Titled s.source kind n := by
  unfold Sheet.nameIn Titled
  cases h : n.child? kind with
  | none => simpa using not_succeeds_refuse
  | some name =>
    have child := readable.child (List.mem_of_find?_eq_some h)
    simpa using succeeds_nameOf (child name name.mem_preorder_self).1

theorem succeeds_property {n : Node} (readable : Readable s.source n) (fromConstructor : Bool) :
    Succeeds (s.property fromConstructor n) ↔ Titled s.source "simple_identifier" n := by
  rw [← succeeds_nameIn readable]
  exact Succeeds.bind_iff_left fun _ => .pure _

theorem succeeds_function {spot : Spot} (readable : Readable s.source spot.node)
    (before : ∀ b ∈ spot.before, Readable s.source b) :
    Succeeds (s.function spot) ↔ Titled s.source "simple_identifier" spot.node := by
  have doc := succeeds_lift (succeeds_docOf before)
  rw [← succeeds_nameIn readable]
  exact Succeeds.bind_iff_left fun _ => (Succeeds.bind_iff_left fun _ => .pure _).mpr doc

theorem succeeds_className {n : Node} (readable : Readable s.source n) :
    Succeeds (s.className n) ↔ ClassTitled s.source n := by
  unfold Sheet.className ClassTitled
  by_cases h : n.kind = "companion_object" ∧ n.child? "type_identifier" = none
  · rw [if_pos (by simpa using h)]
    exact iff_of_true (.ok _) (.inr h)
  · rw [if_neg (by simpa using h), succeeds_nameIn readable, or_iff_left h]

theorem succeeds_classHead {spot : Spot} (readable : Readable s.source spot.node)
    (before : ∀ b ∈ spot.before, Readable s.source b) :
    Succeeds (s.classHead spot) ↔ ClassTitled s.source spot.node := by
  have doc := succeeds_lift (succeeds_docOf before)
  rw [← succeeds_className readable]
  exact Succeeds.bind_iff_left fun _ => (Succeeds.bind_iff_left fun _ => .pure _).mpr doc

theorem succeeds_parameters {n : Node} (readable : Readable s.source n) :
    Succeeds (s.parameters n) ↔ ParametersTitled s.source n := by
  unfold Sheet.parameters ParametersTitled
  cases h : n.child? "primary_constructor" with
  | none => simpa using Succeeds.ok _
  | some ctor =>
    have child := readable.child (List.mem_of_find?_eq_some h)
    simp only [Succeeds.mapM_iff, Node.collect_eq_filter, List.mem_filter, beq_iff_eq, and_imp,
      Option.some.injEq, forall_eq']
    refine forall_congr' fun p => forall_congr' fun hp => forall_congr' fun _ => ?_
    exact succeeds_property (child.of_mem (Node.mem_preorder_of_mem_descendants hp)) true

theorem mem_declared {n v : Node} : v ∈ Sheet.declared n ↔ Declares n v := by
  unfold Sheet.declared Declares
  cases n.child? "multi_variable_declaration" with
  | none => simp [Node.childrenOf, and_comm]
  | some multi => simp [Node.childrenOf, and_comm, or_and_right]

theorem succeeds_declared {n : Node} (readable : Readable s.source n) :
    Succeeds ((Sheet.declared n).mapM (s.property false)) ↔
      ∀ v, Declares n v → Titled s.source "simple_identifier" v := by
  simp only [Succeeds.mapM_iff, mem_declared]
  refine forall_congr' fun v => forall_congr' fun hv => succeeds_property ?_ false
  obtain ⟨_, hv | ⟨multi, hm, hv⟩⟩ := hv
  · exact readable.child hv
  · exact (readable.child (List.mem_of_find?_eq_some hm)).child hv

end Outline

end CallFlow
