import CallFlow.Proofs.Outline.Acceptance
import CallFlow.Proofs.Outline.Layout
import CallFlow.Text.Lines

/-! Trees that fit their text: ranges nest and end between two characters. Main statements: reading
such a tree runs into no fault, whatever rule it breaks, and each range that is kept of it can be
cut out of the text, that of documentation included, which is put together from several nodes. -/

namespace CallFlow

open CallFlow.Tree

/-! ## Ranges that can be cut out -/

/-- Between two cuts there is a text of its own. -/
theorem Text.exists_between {source : List Char} {m n : Nat} (hmn : m ≤ n)
    (hm : (splitAt? m source).isSome) (hn : (splitAt? n source).isSome) :
    ∃ front cs rest, source = front ++ cs ++ rest ∧ width front = m ∧ width (front ++ cs) = n := by
  obtain ⟨⟨front, tail⟩, cut⟩ := Option.isSome_iff_exists.mp hm
  obtain ⟨⟨longer, rest⟩, cut'⟩ := Option.isSome_iff_exists.mp hn
  obtain ⟨eq, first⟩ := splitAt?_eq_some cut
  obtain ⟨eq', second⟩ := splitAt?_eq_some cut'
  rcases List.append_eq_append_iff.mp (eq.symm.trans eq') with ⟨cs, rfl, rfl⟩ | ⟨cs, rfl, rfl⟩
  · exact ⟨front, cs, rest, by rw [eq, List.append_assoc], first, second⟩
  · -- the second cut is not behind the first, so it is the first
    have same : width (longer ++ cs) = n := by
      rw [width_append] at first ⊢
      lia
    exact ⟨longer ++ cs, [], tail, by simpa using eq, first, by simpa using same⟩

namespace Span

variable {source cs : List Char} {a b : Span}

/-- Both ends lie in the text, in order and each between two characters. -/
structure Cuts (source : List Char) (a : Span) : Prop where
  ordered : a.start ≤ a.stop
  start : (Text.splitAt? a.start source).isSome
  stop : (Text.splitAt? a.stop source).isSome

/-- The text has the characters `cs` in the range, no more and no less. -/
def Covers (source : List Char) (a : Span) (cs : List Char) : Prop :=
  ∃ front rest, source = front ++ cs ++ rest ∧ Text.width front = a.start ∧
    Text.width (front ++ cs) = a.stop

theorem Cuts.cover (ha : a.Cuts source) (hb : b.Cuts source) : (a.cover b).Cuts source := by
  constructor
  · exact (Nat.min_le_left _ _).trans (ha.ordered.trans (Nat.le_max_left _ _))
  · rcases Nat.le_total a.start b.start with h | h
    · simpa [Span.cover, Nat.min_eq_left h] using ha.start
    · simpa [Span.cover, Nat.min_eq_right h] using hb.start
  · rcases Nat.le_total a.stop b.stop with h | h
    · simpa [Span.cover, Nat.max_eq_right h] using hb.stop
    · simpa [Span.cover, Nat.max_eq_left h] using ha.stop

theorem Cuts.covers (h : a.Cuts source) : ∃ cs, a.Covers source cs := by
  obtain ⟨front, cs, rest, fact⟩ := Text.exists_between h.ordered h.start h.stop
  exact ⟨cs, front, rest, fact⟩

theorem Covers.slice? (h : a.Covers source cs) : Text.slice? a.start a.stop source = some cs := by
  obtain ⟨front, rest, rfl, hstart, hstop⟩ := h
  rw [Text.width_append] at hstop
  have length : a.stop - a.start = Text.width cs := by lia
  rw [Text.slice?, if_neg (by lia), length, ← hstart, List.append_assoc, Text.splitAt?_width]
  simp [Text.splitAt?_width]

/-- The range between two cuts is rendered with what stands in front of it on its line. -/
theorem renderSpan_eq {front rest : List Char} (hstart : Text.width front = a.start)
    (hstop : Text.width (front ++ cs) = a.stop) : renderSpan (front ++ cs ++ rest) a =
      .ok (Text.dedent (padding (Text.lastLine front) ++ cs)) := by
  rw [Text.width_append] at hstop
  have start : min a.start (Text.width (front ++ cs ++ rest)) = Text.width front := by
    rw [Text.width_append, Text.width_append]
    lia
  have length : max (Text.width front) (min a.stop (Text.width (front ++ cs ++ rest))) -
      Text.width front = Text.width cs := by
    rw [Text.width_append, Text.width_append]
    lia
  unfold renderSpan
  dsimp only
  rw [start, length, List.append_assoc, Text.splitAt?_width]
  dsimp only
  rw [Text.splitAt?_width]

theorem Covers.succeeds_render (h : a.Covers source cs) : Succeeds (renderSpan source a) := by
  obtain ⟨front, rest, rfl, hstart, hstop⟩ := h
  rw [renderSpan_eq hstart hstop]
  exact .ok _

end Span

/-! ## Ranges that are kept -/

/-- All ranges from the node down nest and can be cut out of the text. -/
structure Tree.Node.Fitting (source : List Char) (n : Node) : Prop where
  nested : n.WellNested
  fits : ∀ m ∈ n.preorder, Outline.Fits source m

namespace Tree.Node.Fitting

variable {source : List Char} {n m : Node}

theorem of_mem (h : n.Fitting source) (hm : m ∈ n.preorder) : m.Fitting source :=
  ⟨h.nested.of_mem hm, fun k hk => h.fits k (preorder_subset hm hk)⟩

theorem child (h : n.Fitting source) (hm : m ∈ n.children) : m.Fitting source :=
  h.of_mem (mem_preorder_of_mem_descendants (mem_descendants_of_mem_children hm))

theorem cuts (h : n.Fitting source) : n.span.Cuts source :=
  have fits := h.fits n n.mem_preorder_self
  ⟨h.nested.range, fits.1, fits.2⟩

/-- The text of a node is what the source has in its range. -/
theorem covers_text (h : n.Fitting source) : n.span.Covers source (n.text source) := by
  obtain ⟨cs, covers⟩ := h.cuts.covers
  rw [Node.text, covers.slice?]
  exact covers

end Tree.Node.Fitting

namespace Outline

variable {source : List Char} {s : Sheet}

theorem cuts_of_commentRun : ∀ {before : List Node} {span run : Span} {current : Node},
    span.Cuts source → (∀ b ∈ before, b.Fitting source) →
      commentRun source span current before = .ok run → run.Cuts source
  | [], _, _, _, hspan, _, h => by
    cases h
    exact hspan
  | prev :: before, _, _, _, hspan, hbefore, h => by
    obtain ⟨hprev, hbefore⟩ := List.forall_mem_cons.mp hbefore
    rw [commentRun] at h
    split at h
    · obtain ⟨own, _, h⟩ := bind_eq_ok.mp h
      split at h
      · exact cuts_of_commentRun (hspan.cover hprev.cuts) hbefore h
      · cases h
        exact hspan
    · cases h
      exact hspan

theorem cuts_of_docOf {spot : Spot} {doc : Option Span}
    (before : ∀ b ∈ spot.before, b.Fitting source) (h : docOf source spot = .ok doc) :
    ∀ a ∈ doc, a.Cuts source := by
  unfold docOf at h
  split at h
  · cases h
    simp
  · rename_i comment hc
    have fitting (m) (hm : m ∈ comment.node :: comment.before) : m.Fitting source := by
      obtain ⟨b, hb, hm⟩ := (mem_of_commentBefore? hc).2 m hm
      exact (before b hb).of_mem hm
    obtain ⟨self, front⟩ := List.forall_mem_cons.mp fitting
    split at h
    · obtain ⟨own, _, h⟩ := bind_eq_ok.mp h
      split at h
      · split at h
        · obtain ⟨run, hrun, h⟩ := bind_eq_ok.mp h
          cases h
          rintro a ⟨⟩
          exact cuts_of_commentRun self.cuts front hrun
        · cases h
          rintro a ⟨⟩
          exact self.cuts
      · cases h
        simp
    · cases h
      simp

/-- The range of a declaration, and that of its documentation if it has one, can be cut out. -/
def Kept (source : List Char) (span : Span) (doc : Option Span) : Prop :=
  span.Cuts source ∧ ∀ a ∈ doc, a.Cuts source

theorem founded_kept (s : Sheet) : Founded s (Node.Fitting s.source)
    (fun h => Kept s.source h.span h.doc) fun h => Kept s.source h.span h.doc := by
  refine ⟨fun n hn => hn.nested, fun n hn c hc => hn.child hc, ?_, ?_⟩
  · intro spot head hn hbefore h
    have isOf := isOf_of_function h
    exact ⟨isOf.span ▸ hn.cuts, cuts_of_docOf hbefore isOf.doc⟩
  · intro spot head hn hbefore h
    have isOf := isOf_of_classHead h
    exact ⟨isOf.span ▸ hn.cuts, cuts_of_docOf hbefore isOf.doc⟩

end Outline

/-! ## Reading without faults -/

/-- If there is no result, it is not for a fault. -/
def Faultless {α : Type} (x : Except Error α) : Prop := ∀ cause, x ≠ .error (.fault cause)

namespace Faultless

variable {α β : Type}

theorem of_succeeds {x : Except Error α} (h : Succeeds x) : Faultless x := by
  obtain ⟨a, rfl⟩ := h
  intro cause h
  cases h

theorem bind {x : Except Error α} {f : α → Except Error β} (hx : Faultless x)
    (hf : ∀ a, Faultless (f a)) : Faultless (x >>= f) := by
  cases x with
  | error e =>
    intro cause h
    cases h
    exact hx cause rfl
  | ok a => exact hf a

theorem pure (a : α) : Faultless (Pure.pure a) := of_succeeds (.pure a)

theorem map {x : Except Error α} {f : α → β} (hx : Faultless x) : Faultless (f <$> x) := by
  rw [map_eq_pure_bind]
  exact hx.bind fun a => pure (f a)

theorem mapM {f : α → Except Error β} (hf : ∀ a, Faultless (f a)) :
    ∀ as : List α, Faultless (as.mapM f)
  | [] => pure []
  | a :: as => by
    rw [List.mapM_cons]
    exact (hf a).bind fun b => (mapM hf as).bind fun bs => pure (b :: bs)

end Faultless

namespace Outline

variable {s : Sheet}

theorem faultless_refuse {α : Type} (n : Node) (reason : String) :
    Faultless (s.refuse n reason : Except Error α) := by
  intro cause h
  cases h

theorem faultless_nameIn (kind : String) (n : Node) : Faultless (s.nameIn kind n) := by
  unfold Sheet.nameIn Sheet.nameOf
  split
  · dsimp only
    split
    · exact faultless_refuse _ _
    · exact .of_succeeds (.ok _)
  · exact faultless_refuse _ _

theorem faultless_property (fromConstructor : Bool) (n : Node) :
    Faultless (s.property fromConstructor n) :=
  (faultless_nameIn _ n).bind fun _ => .pure _

theorem faultless_doc {spot : Spot} (before : ∀ b ∈ spot.before, Readable s.source b) :
    Faultless (Fault.lift (docOf s.source spot)) :=
  .of_succeeds (succeeds_lift (succeeds_docOf before))

theorem faultless_function {spot : Spot} (before : ∀ b ∈ spot.before, Readable s.source b) :
    Faultless (s.function spot) :=
  (faultless_nameIn _ _).bind fun _ => (faultless_doc before).bind fun _ => .pure _

theorem faultless_classHead {spot : Spot} (before : ∀ b ∈ spot.before, Readable s.source b) :
    Faultless (s.classHead spot) := by
  have name : Faultless (s.className spot.node) := by
    unfold Sheet.className
    split
    · exact .of_succeeds (.ok _)
    · exact faultless_nameIn _ _
  exact name.bind fun _ => (faultless_doc before).bind fun _ => .pure _

theorem faultless_parameters (n : Node) : Faultless (s.parameters n) := by
  unfold Sheet.parameters
  split
  · exact .of_succeeds (.ok _)
  · exact .mapM (faultless_property true) _

/-- Only the documentation of a node depends on what stands in front of it. -/
theorem faultless_readNode {level : Level} {before : List Node} {n : Node}
    (hbefore : ∀ b ∈ before, Readable s.source b)
    (body : Faultless (readAll s .body [] (bodyAmong n.children))) :
    Faultless (readNode s level before n) := by
  rw [readNode_eq]
  split
  · exact .mapM (faultless_property false) _
  split
  · exact (faultless_classHead hbefore).bind fun _ => (faultless_parameters n).bind fun _ =>
      body.bind fun _ => .pure _
  split
  · exact (faultless_function hbefore).map
  split
  · exact faultless_refuse _ _
  · exact .pure _

theorem faultless_readAll {ns : List Node} : ∀ (level : Level) (before : List Node),
    (∀ n ∈ ns, Readable s.source n) → (∀ b ∈ before, Readable s.source b) →
      Faultless (readAll s level before ns) := by
  induction ns using readAll_induction with
  | nil =>
    intro level before _ _
    rw [readAll]
    exact .of_succeeds (.ok _)
  | cons n rest body others =>
    intro level before hns hbefore
    obtain ⟨hn, hrest⟩ := List.forall_mem_cons.mp hns
    have first : Faultless (readNode s level before n) :=
      faultless_readNode hbefore (body .body [] hn.body (by simp))
    have tail : Faultless (readAll s level (n :: before) rest) :=
      others level (n :: before) hrest (List.forall_mem_cons.mpr ⟨hn, hbefore⟩)
    rw [readAll]
    exact first.bind fun _ => tail.bind fun _ => .pure _

theorem faultless_ofTree (path : String) {source : String} {tree : Flagged}
    (fits : ∀ n ∈ tree.root.preorder, Fits source.toList n) :
    Faultless (ofTree path source tree) := by
  unfold ofTree
  dsimp only
  split
  · exact faultless_refuse _ _
  · cases sound : tree.firstError? with
    | some wrong => exact faultless_refuse _ _
    | none =>
      -- no node is missing, so that each is where its range says
      have readable : Readable source.toList tree.root := fun m hm =>
        ⟨(wrong_eq_false.mp (Flagged.firstError?_eq_none.mp sound m hm)).2, (fits m hm).1⟩
      have decls : Faultless
          (readAll ⟨path, source.toList⟩ (.top (isScript path)) [] tree.root.children) :=
        faultless_readAll _ _ (fun c hc => readable.child hc) (by simp)
      exact decls.bind fun _ => .pure _

end Outline

end CallFlow
