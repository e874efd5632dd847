import CallFlow.Proofs.Outline.Rules
import CallFlow.Proofs.Text.Segments
import CallFlow.Proofs.Tree.Nesting

/-! What documentation is taken from, as a relation on the nodes around a declaration. The comment
next to the declaration is its sibling or ends a header in front of it, and line comments go on
upwards as long as they can. Main statement: in a tree whose ranges nest, documentation reaches from
the start of one comment to the end of another one and stays clear of what is declared before. -/

namespace CallFlow

open CallFlow.Tree

/-! ## Starts of lines -/

namespace Text

/-- In front of byte `n`, or of the end if that comes first, stand whole lines and then nothing but
white space. -/
def OpensLine (source : List Char) (n : Nat) : Prop :=
  ∃ lines indent rest, source = lines ++ indent ++ rest ∧
    width (lines ++ indent) = min n (width source) ∧
      (lines = [] ∨ ∃ front, lines = front ++ ['\n']) ∧ '\n' ∉ indent ∧ allBlank indent = true

theorem lastLine_append {lines indent : List Char}
    (whole : lines = [] ∨ ∃ front, lines = front ++ ['\n']) (one : '\n' ∉ indent) :
    lastLine (lines ++ indent) = indent := by
  have last : ∀ c ∈ indent.reverse, decide (c ≠ '\n') = true := by
    intro c hc
    have other : c ≠ '\n' := fun he => one (he ▸ List.mem_reverse.mp hc)
    simpa using other
  have none : lines.reverse.takeWhile (· ≠ '\n') = [] := by
    rcases whole with rfl | ⟨front, rfl⟩ <;> simp
  rw [lastLine, List.reverse_append, List.takeWhile_append_of_pos last, none, List.append_nil,
    List.reverse_reverse]

theorem exists_eq_lastLine (cs : List Char) : ∃ lines, cs = lines ++ lastLine cs ∧
    (lines = [] ∨ ∃ front, lines = front ++ ['\n']) ∧ '\n' ∉ lastLine cs := by
  have one : '\n' ∉ lastLine cs := fun h => not_mem_takeWhile_ne '\n' _ (List.mem_reverse.mp h)
  by_cases h : '\n' ∈ cs.reverse
  · obtain ⟨front, _, cut⟩ := exists_eq_takeWhile_ne h
    have whole := congrArg List.reverse cut
    rw [List.reverse_reverse, List.reverse_append, List.reverse_cons] at whole
    exact ⟨front.reverse ++ ['\n'], whole, .inr ⟨_, rfl⟩, one⟩
  · have whole : lastLine cs = cs := by
      rw [lastLine, takeWhile_ne_of_not_mem h, List.reverse_reverse]
    exact ⟨[], whole.symm, .inl rfl, one⟩

end Text

open Text (OpensLine)

theorem Tree.Node.startsLine_eq_ok {source : List Char} {n : Node} {own : Bool}
    (h : n.startsLine source = .ok own) : own = true ↔ OpensLine source n.span.start := by
  unfold Node.startsLine at h
  split at h
  · rename_i front rest cut
    cases h
    obtain ⟨eq, width⟩ := Text.splitAt?_eq_some cut
    constructor
    · intro blank
      obtain ⟨lines, whole, ends, one⟩ := Text.exists_eq_lastLine front
      exact ⟨lines, Text.lastLine front, rest, by rw [← whole, eq], by rw [← whole, width], ends,
        one, blank⟩
    · intro ⟨lines, indent, rest', eq', width', ends, one, blank⟩
      -- both cuts are at the same byte
      rw [← width', eq', Text.splitAt?_width] at cut
      cases cut
      rwa [Text.lastLine_append ends one]
  · cases h

/-! ## Spots in a tree -/

namespace Tree

/-- The node and those in front of it are children of one node of the tree. -/
def Spot.In (root : Node) (spot : Spot) : Prop :=
  ∃ parent ∈ root.preorder, ∃ after, parent.children = spot.before.reverse ++ spot.node :: after

namespace Node

variable {root n : Node} {p : Node → Bool} {spot : Spot}

/-- From last child to last child, the first node that satisfies `p`. -/
inductive AtEnd (p : Node → Bool) : Node → Spot → Prop where
  | here {n c : Node} {front : List Node} (children : n.children = front ++ [c])
    (found : p c = true) : AtEnd p n ⟨c, front.reverse⟩
  | deeper {n c : Node} {front : List Node} {spot : Spot} (children : n.children = front ++ [c])
    (passed : p c = false) (inner : AtEnd p c spot) : AtEnd p n spot

theorem trailingAmong?_concat (c : Node) : ∀ front before : List Node,
    trailingAmong? p before (front ++ [c]) =
      if p c then some ⟨c, front.reverse ++ before⟩ else c.trailing? p
  | [], before => by rw [List.nil_append, trailingAmong?]; rfl
  | [d], before => by
    rw [List.singleton_append, trailingAmong?, trailingAmong?]
    rfl
  | d :: e :: front, before => by
    rw [List.cons_append, List.cons_append, trailingAmong?, ← List.cons_append,
      trailingAmong?_concat c (e :: front)]
    simp

theorem trailing?_of_children {front : List Node} {c : Node} (h : n.children = front ++ [c]) :
    n.trailing? p = if p c then some ⟨c, front.reverse⟩ else c.trailing? p := by
  cases n with
  | mk l cs =>
    rw [trailing?, show cs = front ++ [c] from h, trailingAmong?_concat, List.append_nil]

theorem trailing?_eq_some_iff : n.trailing? p = some spot ↔ n.AtEnd p spot := by
  constructor
  · induction n using of_children with
    | step n ih =>
      intro h
      rcases List.eq_nil_or_concat' n.children with none | ⟨front, c, last⟩
      · cases n with
        | mk l cs =>
          rw [show cs = [] from none, trailing?, trailingAmong?] at h
          cases h
      · rw [trailing?_of_children last] at h
        split at h
        · rename_i found
          cases h
          exact .here last found
        · rename_i passed
          exact .deeper last (by simpa using passed) (ih c (by simp [last]) h)
  · intro h
    induction h with
    | here last found => rw [trailing?_of_children last, if_pos found]
    | deeper last passed _ ih => rw [trailing?_of_children last, if_neg (by simp [passed]), ih]

theorem AtEnd.spot_in (h : n.AtEnd p spot) (hn : n ∈ root.preorder) : spot.In root := by
  induction h with
  | here last _ => exact ⟨_, hn, [], by simpa using last⟩
  | deeper last _ _ ih =>
    exact ih (mem_preorder_of_child hn (by simp [last]))

end Node

namespace Spot.In

variable {root : Node} {spot : Spot}

/-- Those in front of a node lie ahead of it, the nearest last. -/
theorem behind (h : spot.In root) (nested : root.WellNested) :
    (spot.node :: spot.before).Pairwise fun c d => d.span.Ahead c.span := by
  obtain ⟨parent, hparent, after, children⟩ := h
  have row := List.pairwise_map.mp (nested.of_mem hparent).spread.ahead
  have front : (spot.node :: spot.before).reverse.Sublist parent.children := by
    rw [children, List.reverse_cons]
    exact (List.singleton_sublist.mpr List.mem_cons_self).append_left _
  exact List.pairwise_reverse.mp (row.sublist front)

theorem mem (h : spot.In root) : ∀ m ∈ spot.node :: spot.before, m ∈ root.preorder := by
  obtain ⟨parent, hparent, after, children⟩ := h
  intro m hm
  have child : m ∈ parent.children := by
    rw [children, List.mem_append, List.mem_reverse, List.mem_cons]
    rcases List.mem_cons.mp hm with rfl | hm
    · exact .inr (.inl rfl)
    · exact .inl hm
  exact Node.mem_preorder_of_child hparent child

end Spot.In

end Tree

/-! ## Comments in front of a declaration -/

namespace Outline

variable {source : List Char} {root : Node} {spot comment : Spot}

/-- The comment in the second place stands right in front of the declaration in the first, or is
what a header that stands there ends in. -/
inductive NextTo : Spot → Spot → Prop where
  | sibling {n c : Node} {before : List Node} (kind : c.isComment = true) :
    NextTo ⟨n, c :: before⟩ ⟨c, before⟩
  | header {n h : Node} {before : List Node} {comment : Spot} (kind : h.kind ∈ headerKinds)
    (last : h.AtEnd Node.isComment comment) : NextTo ⟨n, h :: before⟩ comment

theorem isComment_of_header {n : Node} (h : n.kind ∈ headerKinds) : n.isComment = false := by
  simp only [headerKinds, List.mem_cons, List.not_mem_nil, or_false] at h
  rcases h with h | h | h <;> simp [Node.isComment, h]

theorem commentBefore?_eq_some_iff : commentBefore? spot = some comment ↔ NextTo spot comment := by
  obtain ⟨n, before⟩ := spot
  constructor
  · intro h
    unfold commentBefore? at h
    split at h
    · cases h
    · rename_i prev rest hprev
      cases hprev
      split at h
      · rename_i kind
        cases h
        exact .sibling kind
      split at h
      · rename_i kind
        exact .header (by simpa using kind) (Node.trailing?_eq_some_iff.mp h)
      · cases h
  · intro h
    cases h with
    | sibling kind => simp [commentBefore?, kind]
    | header kind last =>
      simp [commentBefore?, isComment_of_header kind, kind, Node.trailing?_eq_some_iff.mpr last]

/-- The line comment `far` goes on upwards from the comment `near`. -/
def Joins (source : List Char) (near far : Node) : Prop :=
  far.kind = "line_comment" ∧ OpensLine source far.span.start ∧
    near.firstRow source ≤ far.lastRow source + 1

/-- All line comments in front of a comment that go on from it upwards, nearest first. -/
structure Run (source : List Char) (comment : Spot) (run : List Node) : Prop where
  joined : (comment.node :: run).IsChain (Joins source)
  longest : ∃ rest, comment.before = run ++ rest ∧
    ∀ next ∈ rest.head?, ¬ Joins source (run.getLastD comment.node) next

/-- The comment stands next to the declaration, on lines of its own above it. -/
structure Heads (source : List Char) (spot comment : Spot) : Prop where
  next : NextTo spot comment
  above : comment.node.lastRow source < spot.node.firstRow source
  opens : OpensLine source comment.node.span.start

/-- The documentation of a declaration by the nodes around it. -/
inductive Documents (source : List Char) (spot : Spot) : Option Span → Prop where
  | none (no : ∀ comment, ¬ Heads source spot comment) : Documents source spot none
  | block {comment : Spot} (heads : Heads source spot comment)
    (kind : comment.node.kind ≠ "line_comment") :
    Documents source spot (some comment.node.span)
  | lines {comment : Spot} {run : List Node} (heads : Heads source spot comment)
    (kind : comment.node.kind = "line_comment") (all : Run source comment run) :
    Documents source spot
      (some ⟨(run.getLastD comment.node).span.start, comment.node.span.stop⟩)

/-- A comment that does not go on upwards is all there is to its run. -/
theorem run_nil {current : Node} {before : List Node}
    (stop : ∀ next ∈ before.head?, ¬ Joins source current next) :
    Run source ⟨current, before⟩ [] :=
  ⟨List.isChain_singleton _, before, rfl, stop⟩

theorem Run.cons {prev current : Node} {before run : List Node}
    (joins : Joins source current prev) (h : Run source ⟨prev, before⟩ run) :
    Run source ⟨current, prev :: before⟩ (prev :: run) := by
  obtain ⟨rest, eq, stop⟩ := h.longest
  refine ⟨List.isChain_cons_cons.mpr ⟨joins, h.joined⟩, rest, congrArg (prev :: ·) eq, ?_⟩
  rwa [List.getLastD_cons]

/-- Ranges of comments that lie one ahead of the other are joined end to end. -/
theorem exists_run : ∀ {before : List Node} {current : Node} {a : Span} (span : Span),
    (current :: before).Pairwise (fun c d => d.span.Ahead c.span) →
      (∀ m ∈ before, m.span.start ≤ m.span.stop) → span.start = current.span.start →
        span.start ≤ span.stop → commentRun source span current before = .ok a →
          ∃ run, Run source ⟨current, before⟩ run ∧
            a = ⟨(run.getLastD current).span.start, span.stop⟩
  | [], current, a, span, _, _, start, _, h => by
    cases h
    exact ⟨[], run_nil (by simp), by rw [List.getLastD_nil, ← start]⟩
  | prev :: before, current, a, span, behind, ordered, start, le, h => by
    have alone (other : ¬ Joins source current prev) :
        Run source ⟨current, prev :: before⟩ [] ∧
          span = ⟨(List.getLastD [] current).span.start, span.stop⟩ := by
      refine ⟨run_nil fun next hnext => ?_, by rw [List.getLastD_nil, ← start]⟩
      cases hnext
      exact other
    rw [commentRun] at h
    split at h
    · rename_i near
      simp only [Bool.and_eq_true, beq_iff_eq, decide_eq_true_eq] at near
      obtain ⟨own, hown, h⟩ := bind_eq_ok.mp h
      have opens := Node.startsLine_eq_ok hown
      split at h
      · rename_i yes
        obtain ⟨ahead, rest⟩ := List.pairwise_cons.mp behind
        obtain ⟨range, others⟩ := List.forall_mem_cons.mp ordered
        have gap : prev.span.stop ≤ span.start := start ▸ ahead prev List.mem_cons_self
        have cover : span.cover prev.span = ⟨prev.span.start, span.stop⟩ := by
          rw [Span.cover, Nat.min_eq_right (range.trans gap), Nat.max_eq_left (gap.trans le)]
        rw [cover] at h
        obtain ⟨run, hrun, eq⟩ := exists_run ⟨prev.span.start, span.stop⟩ rest others rfl
          ((range.trans gap).trans le) h
        refine ⟨prev :: run, hrun.cons ⟨near.1, opens.mp yes, near.2⟩, ?_⟩
        rw [List.getLastD_cons, eq]
      · rename_i no
        cases h
        exact ⟨[], alone fun joins => no (opens.mpr joins.2.1)⟩
    · rename_i far
      cases h
      exact ⟨[], alone fun joins => far (by simp [joins.1, joins.2.2])⟩

theorem NextTo.spot_in (h : NextTo spot comment) (hspot : spot.In root) : comment.In root := by
  cases h with
  | @sibling n c before kind =>
    obtain ⟨parent, hparent, after, children⟩ := hspot
    refine ⟨parent, hparent, n :: after, ?_⟩
    rw [children, List.reverse_cons, List.append_assoc]
    rfl
  | @header n h before comment kind last =>
    exact last.spot_in (hspot.mem h (List.mem_cons_of_mem n List.mem_cons_self))

theorem not_heads {own : Option Spot} (h : commentBefore? spot = own)
    (no : ∀ comment ∈ own, ¬ Heads source spot comment) (comment : Spot) :
    ¬ Heads source spot comment := by
  intro heads
  have found := commentBefore?_eq_some_iff.mpr heads.next
  exact no comment (h ▸ found) heads

theorem documents_of_docOf {doc : Option Span} (nested : root.WellNested) (hspot : spot.In root)
    (h : docOf source spot = .ok doc) : Documents source spot doc := by
  unfold docOf at h
  split at h
  · rename_i none
    cases h
    exact .none (not_heads none (by simp))
  · rename_i comment found
    have next := commentBefore?_eq_some_iff.mp found
    have other (no : ¬ Heads source spot comment) : Documents source spot none := by
      refine .none (not_heads found fun c hc => ?_)
      cases hc
      exact no
    split at h
    · rename_i above
      obtain ⟨own, hown, h⟩ := bind_eq_ok.mp h
      have opens := Node.startsLine_eq_ok hown
      split at h
      · rename_i yes
        have heads : Heads source spot comment := ⟨next, above, opens.mp yes⟩
        split at h
        · rename_i kind
          obtain ⟨a, hrun, h⟩ := bind_eq_ok.mp h
          cases h
          have place := next.spot_in hspot
          have ordered (m) (hm : m ∈ comment.node :: comment.before) :=
            nested.ordered m (place.mem m hm)
          obtain ⟨run, all, rfl⟩ := exists_run comment.node.span (place.behind nested)
            (fun m hm => ordered m (List.mem_cons_of_mem _ hm)) rfl
            (ordered comment.node List.mem_cons_self) hrun
          exact .lines heads (by simpa using kind) all
        · rename_i kind
          cases h
          exact .block heads (by simpa using kind)
      · rename_i no
        cases h
        exact other fun heads => no (opens.mpr heads.opens)
    · rename_i below
      cases h
      exact other fun heads => below heads.above

/-! ## What documentation covers -/

theorem exists_joins : ∀ {run : List Node} {c : Node}, (c :: run).IsChain (Joins source) →
    ∀ m ∈ run, ∃ near, Joins source near m
  | [], _, _, m, hm => by cases hm
  | d :: run, c, h, m, hm => by
    obtain ⟨joins, rest⟩ := List.isChain_cons_cons.mp h
    rcases List.mem_cons.mp hm with rfl | hm
    · exact ⟨c, joins⟩
    · exact exists_joins rest m hm

theorem NextTo.isComment (h : NextTo spot comment) : comment.node.isComment = true :=
  (mem_of_commentBefore? (commentBefore?_eq_some_iff.mpr h)).1

theorem NextTo.exists_sibling (h : NextTo spot comment) :
    ∀ m ∈ comment.node :: comment.before, ∃ b ∈ spot.before, m ∈ b.preorder :=
  (mem_of_commentBefore? (commentBefore?_eq_some_iff.mpr h)).2

/-- Documentation starts with some comment `first` and ends with the one next to the declaration;
what stands in front of the latter and is no comment lies ahead of the former. -/
structure Covers (source : List Char) (comment : Spot) (first : Node) : Prop where
  mem : first ∈ comment.node :: comment.before
  kind : first.isComment = true
  opens : OpensLine source first.span.start
  ordered : first.span.start ≤ comment.node.span.stop
  clear : ∀ b ∈ comment.before, b.isComment = false → b.span.Ahead first.span

theorem Documents.exists_first {a : Span} (nested : root.WellNested) (hspot : spot.In root)
    (h : Documents source spot (some a)) : ∃ comment first, Heads source spot comment ∧
      Covers source comment first ∧ a = ⟨first.span.start, comment.node.span.stop⟩ := by
  -- a block comment is like a run that does not go on upwards
  have run : ∃ comment run rest, Heads source spot comment ∧ comment.before = run ++ rest ∧
      (∀ m ∈ run, ∃ near, Joins source near m) ∧
        a = ⟨(run.getLastD comment.node).span.start, comment.node.span.stop⟩ := by
    cases h with
    | @block comment heads kind => exact ⟨comment, [], comment.before, heads, rfl, by simp, rfl⟩
    | @lines comment run heads kind all =>
      obtain ⟨rest, eq, _⟩ := all.longest
      exact ⟨comment, run, rest, heads, eq, exists_joins all.joined, rfl⟩
  obtain ⟨comment, run, rest, heads, eq, joins, ha⟩ := run
  have place := heads.next.spot_in hspot
  have behind := place.behind nested
  obtain ⟨first, hfirst⟩ : ∃ first, run.getLastD comment.node = first := ⟨_, rfl⟩
  have last : first ∈ comment.node :: run := hfirst ▸ List.getLastD_mem_cons ..
  rw [hfirst] at ha
  have mem : first ∈ comment.node :: comment.before := by
    rw [eq, ← List.cons_append]
    exact List.mem_append_left _ last
  have range := nested.ordered _ (place.mem comment.node List.mem_cons_self)
  have comments : first.isComment = true ∧ OpensLine source first.span.start := by
    rcases List.mem_cons.mp last with rfl | later
    · exact ⟨heads.next.isComment, heads.opens⟩
    · obtain ⟨near, kind, opens, _⟩ := joins first later
      exact ⟨by simp [Node.isComment, kind], opens⟩
  refine ⟨comment, first, heads, ⟨mem, comments.1, comments.2, ?_, ?_⟩, ha⟩
  · rcases List.mem_cons.mp mem with rfl | before
    · exact range
    · have ahead := (List.pairwise_cons.mp behind).1 first before
      exact ((nested.ordered first (place.mem first mem)).trans ahead).trans range
  · intro b hb other
    rw [eq, ← List.cons_append] at behind
    rw [eq] at hb
    rcases List.mem_append.mp hb with hb | hb
    · obtain ⟨near, kind, _⟩ := joins b hb
      simp [Node.isComment, kind] at other
    · exact (List.pairwise_append.mp behind).2.2 first last b hb

/-- Where the documentation `a` of a declaration with the range `span` stands. -/
structure DocPlaced (source : List Char) (root : Node) (span a : Span) : Prop where
  ordered : a.start ≤ a.stop
  ahead : a.Ahead span
  above : Text.row a.stop source < Text.row span.start source
  opens : OpensLine source a.start
  first : ∃ c ∈ root.preorder, c.isComment = true ∧ c.span.start = a.start
  last : ∃ c ∈ root.preorder, c.isComment = true ∧ c.span.stop = a.stop

/-- The comment next to a declaration, and all in front of it, lies ahead of the declaration. -/
theorem NextTo.ahead (h : NextTo spot comment) (nested : root.WellNested) (hspot : spot.In root) :
    ∀ m ∈ comment.node :: comment.before, m.span.Ahead spot.node.span := by
  intro m hm
  obtain ⟨b, hb, below⟩ := h.exists_sibling m hm
  have row := nested.of_mem (hspot.mem b (List.mem_cons_of_mem _ hb))
  have ahead := (List.pairwise_cons.mp (hspot.behind nested)).1 b hb
  exact ahead.mono (row.inside_of_mem m below) (.refl _)

theorem Documents.placed {a : Span} (nested : root.WellNested) (hspot : spot.In root)
    (h : Documents source spot (some a)) : DocPlaced source root spot.node.span a := by
  obtain ⟨comment, first, heads, covers, rfl⟩ := h.exists_first nested hspot
  have place := heads.next.spot_in hspot
  exact ⟨covers.ordered, heads.next.ahead nested hspot _ List.mem_cons_self, heads.above,
    covers.opens, ⟨first, place.mem first covers.mem, covers.kind, rfl⟩,
    ⟨comment.node, place.mem _ List.mem_cons_self, heads.next.isComment, rfl⟩⟩

/-- A node that is neither a comment nor a header. -/
def Firm (n : Node) : Prop := n.isComment = false ∧ n.kind ∉ headerKinds

/-- What stands firm in front of a declaration lies ahead of its documentation. -/
theorem Documents.clear {a : Span} (nested : root.WellNested) (hspot : spot.In root)
    (h : Documents source spot (some a)) {b : Node} (hb : b ∈ spot.before) (firm : Firm b) :
    b.span.Ahead a := by
  obtain ⟨comment, first, heads, covers, rfl⟩ := h.exists_first nested hspot
  have behind := (List.pairwise_cons.mp (hspot.behind nested)).2
  cases heads.next with
  | @sibling n c before kind =>
    rcases List.mem_cons.mp hb with rfl | hb
    · exact absurd kind (by simp [firm.1])
    · exact covers.clear b hb firm.1
  | @header n front before _ kind last =>
    rcases List.mem_cons.mp hb with rfl | hb
    · exact absurd kind firm.2
    · -- the documentation lies in the header, and the other node in front of that
      have below := Node.mem_descendants_of_trailing? (Node.trailing?_eq_some_iff.mpr last) first
        covers.mem
      have row := nested.of_mem (hspot.mem front (List.mem_cons_of_mem n List.mem_cons_self))
      have inside := row.inside_of_mem first (Node.mem_preorder_of_mem_descendants below)
      have ahead := (List.pairwise_cons.mp behind).1 b hb
      exact ahead.trans inside.start

/-! ## Declarations with their documentation -/

/-- The range of a declaration from the start of its documentation on, if it has any. -/
def extent (span : Span) (doc : Option Span) : Span := ⟨(doc.getD span).start, span.stop⟩

theorem inside_extent {span : Span} {doc : Option Span}
    (h : ∀ a ∈ doc, a.start ≤ a.stop ∧ a.Ahead span) : span.Inside (extent span doc) := by
  refine ⟨?_, Nat.le_refl _⟩
  cases doc with
  | none => exact Nat.le_refl _
  | some a =>
    obtain ⟨ordered, ahead⟩ := h a rfl
    exact ordered.trans ahead

/-- A declaration and its documentation lie in the range of the node above, behind all that stands
firm in front of the declaration. -/
structure Extends (parent : Node) (before : List Node) (a : Span) : Prop where
  inside : a.Inside parent.span
  behind : ∀ b ∈ before, Firm b → b.span.Ahead a

theorem Documents.extends {doc : Option Span} {parent : Node} {after : List Node}
    (nested : root.WellNested) (hparent : parent ∈ root.preorder)
    (children : parent.children = spot.before.reverse ++ spot.node :: after)
    (h : Documents source spot doc) :
    Extends parent spot.before (extent spot.node.span doc) := by
  have hspot : spot.In root := ⟨parent, hparent, after, children⟩
  have spread := (nested.of_mem hparent).spread
  have inside (m) (hm : m ∈ parent.children) : m.span.Inside parent.span :=
    spread.inside m.span (List.mem_map.mpr ⟨m, hm, rfl⟩)
  have self := inside spot.node (by simp [children])
  cases doc with
  | none =>
    refine ⟨self, fun b hb _ => ?_⟩
    exact (List.pairwise_cons.mp (hspot.behind nested)).1 b hb
  | some a =>
    refine ⟨⟨?_, self.stop⟩, fun b hb => h.clear nested hspot hb⟩
    -- the first comment of the documentation lies in or below a sibling in front
    obtain ⟨comment, first, heads, covers, rfl⟩ := h.exists_first nested hspot
    obtain ⟨b, hb, below⟩ := heads.next.exists_sibling first covers.mem
    have sibling := nested.of_mem (hspot.mem b (List.mem_cons_of_mem _ hb))
    exact (inside b (by simp [children, hb])).start.trans (sibling.inside_of_mem first below).start

end Outline

end CallFlow
