import CallFlow.Proofs.Tree.Search

/-! Trees without their comments. Main statement: if comments are leaves, the nodes below a
node are the same with and without them, in the same order, less the comments. A search that
passes comments over hence finds the same nodes. -/

namespace CallFlow.Tree.Node

mutual

/-- The node without the comments below it. -/
def uncommented : Node → Node
  | mk l cs => mk l (uncommentedAmong cs)

def uncommentedAmong : List Node → List Node
  | [] => []
  | c :: cs =>
    if c.isComment then uncommentedAmong cs else c.uncommented :: uncommentedAmong cs

end

@[simp] theorem label_uncommented (n : Node) : n.uncommented.label = n.label := by
  cases n with
  | mk l cs => rw [uncommented]; rfl

theorem children_uncommented (n : Node) :
    n.uncommented.children = uncommentedAmong n.children := by
  cases n with
  | mk l cs => rw [uncommented]; rfl

section Label

variable (n : Node) (source : List Char)

@[simp] theorem kind_uncommented : n.uncommented.kind = n.kind := by
  rw [kind, label_uncommented, kind]

@[simp] theorem named_uncommented : n.uncommented.named = n.named := by
  rw [named, label_uncommented, named]

@[simp] theorem missing_uncommented : n.uncommented.missing = n.missing := by
  rw [missing, label_uncommented, missing]

@[simp] theorem span_uncommented : n.uncommented.span = n.span := by
  rw [span, label_uncommented, span]

@[simp] theorem isComment_uncommented : n.uncommented.isComment = n.isComment := by
  simp [isComment]

@[simp] theorem isContent_uncommented : n.uncommented.isContent = n.isContent := by
  simp [isContent]

@[simp] theorem wrong_uncommented : n.uncommented.wrong = n.wrong := by
  simp [wrong, isError]

@[simp] theorem text_uncommented : n.uncommented.text source = n.text source := by
  simp [text]

@[simp] theorem denseText_uncommented : n.uncommented.denseText source = n.denseText source := by
  simp [denseText]

@[simp] theorem line_uncommented : n.uncommented.line source = n.line source := by
  simp [line, firstRow]

end Label

/-! ## Lists of nodes -/

theorem uncommentedAmong_eq (cs : List Node) :
    uncommentedAmong cs = (cs.filter fun c => !c.isComment).map uncommented := by
  induction cs with
  | nil => rw [uncommentedAmong]; rfl
  | cons c cs ih =>
    rw [uncommentedAmong, ih]
    cases h : c.isComment <;> simp [h]

theorem uncommentedAmong_append (as bs : List Node) :
    uncommentedAmong (as ++ bs) = uncommentedAmong as ++ uncommentedAmong bs := by
  simp [uncommentedAmong_eq]

theorem uncommentedAmong_reverse (cs : List Node) :
    uncommentedAmong cs.reverse = (uncommentedAmong cs).reverse := by
  simp [uncommentedAmong_eq]

/-- What is left has no comments. -/
theorem isComment_of_mem_uncommentedAmong {cs : List Node} {m : Node}
    (h : m ∈ uncommentedAmong cs) : m.isComment = false := by
  rw [uncommentedAmong_eq] at h
  obtain ⟨c, hc, rfl⟩ := List.mem_map.mp h
  simpa using (List.mem_filter.mp hc).2

section Searches

variable {p : Node → Bool} {cs : List Node} (same : ∀ n, p n.uncommented = p n)
  (skips : ∀ c ∈ cs, c.isComment = true → p c = false)
include same skips

theorem filter_uncommentedAmong :
    (uncommentedAmong cs).filter p = (cs.filter p).map uncommented := by
  rw [uncommentedAmong_eq, List.filter_map, List.filter_filter]
  refine congrArg _ (List.filter_congr fun c hc => ?_)
  rw [Function.comp_apply, same]
  cases h : c.isComment with
  | true => simp [skips c hc h]
  | false => simp

theorem find?_uncommentedAmong :
    (uncommentedAmong cs).find? p = (cs.find? p).map uncommented := by
  rw [← List.head?_filter, filter_uncommentedAmong same skips, List.head?_map, List.head?_filter]

end Searches

/-! ## Children -/

def isCommentKind (kind : String) : Bool := kind == "line_comment" || kind == "multiline_comment"

/-- Who looks for nodes of other kinds passes comments over. -/
theorem not_contains_of_isComment {c : Node} (h : c.isComment = true) (kinds : List String)
    (others : ∀ kind ∈ kinds, isCommentKind kind = false) :
    kinds.contains c.kind = false := by
  rw [List.contains_eq_mem, decide_eq_false_iff_not]
  intro hc
  exact Bool.false_ne_true ((others _ hc).symm.trans h)

theorem kind_ne_of_isComment {c : Node} (h : c.isComment = true) (kind : String)
    (other : isCommentKind kind = false) : (c.kind == kind) = false := by
  rw [beq_eq_false_iff_ne]
  intro hc
  exact Bool.false_ne_true (other.symm.trans (hc ▸ h))

variable (n : Node)

theorem child?_uncommented (kind : String) (other : isCommentKind kind = false) :
    n.uncommented.child? kind = (n.child? kind).map uncommented := by
  rw [child?, children_uncommented]
  exact find?_uncommentedAmong (by simp) fun c _ h => kind_ne_of_isComment h kind other

theorem childOf?_uncommented (kinds : List String)
    (others : ∀ kind ∈ kinds, isCommentKind kind = false) :
    n.uncommented.childOf? kinds = (n.childOf? kinds).map uncommented := by
  rw [childOf?, children_uncommented]
  exact find?_uncommentedAmong (by simp) fun c _ h => not_contains_of_isComment h kinds others

theorem childrenOf_uncommented (kind : String) (other : isCommentKind kind = false) :
    n.uncommented.childrenOf kind = (n.childrenOf kind).map uncommented := by
  rw [childrenOf, children_uncommented]
  exact filter_uncommentedAmong (by simp) fun c _ h => kind_ne_of_isComment h kind other

theorem isContent_of_isComment {c : Node} (h : c.isComment = true) : c.isContent = false := by
  simp [isContent, h]

theorem firstContent?_uncommented :
    n.uncommented.firstContent? = n.firstContent?.map uncommented := by
  rw [firstContent?, children_uncommented]
  exact find?_uncommentedAmong isContent_uncommented fun _ _ => isContent_of_isComment

theorem lastContent?_uncommented :
    n.uncommented.lastContent? = n.lastContent?.map uncommented := by
  rw [lastContent?, children_uncommented, ← uncommentedAmong_reverse]
  exact find?_uncommentedAmong isContent_uncommented fun _ _ => isContent_of_isComment

/-! ## Descendants -/

/-- The comments in the tree are leaves, and none of them is missing. -/
def Tidy (n : Node) : Prop :=
  ∀ c ∈ n.preorder, c.isComment = true → c.missing = false ∧ c.children = []

instance (n : Node) : Decidable n.Tidy :=
  inferInstanceAs (Decidable (∀ c ∈ n.preorder, c.isComment = true →
    c.missing = false ∧ c.children = []))

variable {n}

theorem Tidy.of_mem {m : Node} (tidy : n.Tidy) (hm : m ∈ n.preorder) : m.Tidy :=
  fun c hc => tidy c (preorder_subset hm hc)

theorem Tidy.child {c : Node} (tidy : n.Tidy) (hc : c ∈ n.children) : c.Tidy :=
  tidy.of_mem (mem_preorder_of_mem_descendants (mem_descendants_of_mem_children hc))

theorem preorder_of_leaf (h : n.children = []) : n.preorder = [n] := by
  rw [preorder_eq, descendants, h]
  rfl

mutual

theorem preorder_uncommented : ∀ {n : Node}, n.Tidy → n.isComment = false →
    n.uncommented.preorder = uncommentedAmong n.preorder
  | mk l cs, tidy, h => by
    have below : ∀ c ∈ cs, c.Tidy := fun c hc => tidy.child hc
    rw [preorder, uncommentedAmong, if_neg (by simp [h]), uncommented, preorder,
      preorderAmong_uncommented below]

theorem preorderAmong_uncommented : ∀ {cs : List Node}, (∀ c ∈ cs, c.Tidy) →
    preorderAmong (uncommentedAmong cs) = uncommentedAmong (preorderAmong cs)
  | [], _ => by rw [uncommentedAmong, preorderAmong, uncommentedAmong]
  | c :: cs, tidy => by
    have rest := preorderAmong_uncommented fun d hd => tidy d (List.mem_cons_of_mem c hd)
    rw [preorderAmong, uncommentedAmong_append, ← rest, uncommentedAmong]
    cases h : c.isComment with
    | true =>
      -- a comment goes with all that lies below it, which is nothing
      have leaf := (tidy c List.mem_cons_self c c.mem_preorder_self h).2
      simp [preorder_of_leaf leaf, uncommentedAmong, h]
    | false =>
      rw [← preorder_uncommented (tidy c List.mem_cons_self) h]
      simp [preorderAmong]

end

theorem descendants_uncommented (tidy : n.Tidy) :
    n.uncommented.descendants = uncommentedAmong n.descendants := by
  rw [descendants, descendants, ← preorderAmong_eq, ← preorderAmong_eq, children_uncommented]
  exact preorderAmong_uncommented fun c hc => tidy.child hc

theorem collect_uncommented (tidy : n.Tidy) (kind : String)
    (other : isCommentKind kind = false) :
    n.uncommented.collect (fun c => c.kind == kind) =
      (n.collect fun c => c.kind == kind).map uncommented := by
  rw [collect_eq_filter, collect_eq_filter, descendants_uncommented tidy]
  exact filter_uncommentedAmong (by simp) fun c _ h => kind_ne_of_isComment h kind other

theorem below?_uncommented (tidy : n.Tidy) (kind : String)
    (other : isCommentKind kind = false) :
    n.uncommented.below? kind = (n.below? kind).map uncommented := by
  rw [below?_eq_find?, below?_eq_find?, descendants_uncommented tidy]
  exact find?_uncommentedAmong (by simp) fun c _ h => kind_ne_of_isComment h kind other

/-- A comment that is there is not what makes a tree wrong. -/
theorem find?_wrong_uncommented (tidy : n.Tidy) (h : n.isComment = false) :
    n.uncommented.preorder.find? wrong = (n.preorder.find? wrong).map uncommented := by
  rw [preorder_uncommented tidy h]
  refine find?_uncommentedAmong wrong_uncommented fun c hc comment => ?_
  have noError : c.isError = false := kind_ne_of_isComment comment "ERROR" rfl
  simp [wrong, noError, (tidy c hc comment).1]

theorem trailing?_uncommented (tidy : n.Tidy) : n.uncommented.trailing? isComment = none := by
  refine trailing?_eq_none fun m hm => ?_
  rw [descendants_uncommented tidy] at hm
  exact isComment_of_mem_uncommentedAmong hm

end CallFlow.Tree.Node
