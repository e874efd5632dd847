import CallFlow.Proofs.Outline.Comments
import CallFlow.Proofs.Outline.Rules

/-! Reading a file with and without its comments. What is found of documentation has no
influence on anything else that is read. Main statement: without comments the outline of a
file is the same, or there is none for the same reason, except that nothing is documented. -/

namespace CallFlow

/-! ## Two ways that come to the same -/

/-- `x` and `y` come to the same in what `g` looks at, unless there is a reason, `F`, for
which `x` fails with `e`. -/
def SameUnless {ε α γ : Type} (F : Prop) (e : ε) (g : α → γ) (x y : Except ε α) : Prop :=
  g <$> x = g <$> y ∨ F ∧ x = .error e

namespace SameUnless

variable {ε α β γ δ : Type} {F : Prop} {e : ε} {g : α → γ} {h : β → δ}

theorem of_eq {x y : Except ε α} (hxy : x = y) : SameUnless F e g x y := .inl (hxy ▸ rfl)

theorem pure {a b : α} (hab : g a = g b) :
    SameUnless F e g (Pure.pure a : Except ε α) (Pure.pure b) :=
  .inl (congrArg Except.ok hab)

theorem bind {x y : Except ε α} {k l : α → Except ε β} (hx : SameUnless F e g x y)
    (hk : ∀ a b, g a = g b → SameUnless F e h (k a) (l b)) :
    SameUnless F e h (x >>= k) (y >>= l) := by
  rcases hx with hx | ⟨hF, rfl⟩
  · cases x with
    | error c =>
      cases y with
      | error d =>
        cases hx
        exact .inl rfl
      | ok b => cases hx
    | ok a =>
      cases y with
      | error d => cases hx
      | ok b => exact hk a b (Except.ok.inj hx)
  · exact .inr ⟨hF, rfl⟩

theorem map {x y : Except ε α} {k : α → β} (hx : SameUnless F e g x y)
    (hk : ∀ a b, g a = g b → h (k a) = h (k b)) : SameUnless F e h (k <$> x) (k <$> y) := by
  rw [map_eq_pure_bind, map_eq_pure_bind]
  exact hx.bind fun a b hab => pure (hk a b hab)

theorem lift {cause : Fault} {x y : Except Fault α} (hx : SameUnless F cause g x y) :
    SameUnless F (.fault cause) g (Fault.lift x) (Fault.lift y) := by
  rcases hx with hx | ⟨hF, rfl⟩
  · left
    cases x with
    | error c =>
      cases y with
      | error d =>
        cases hx
        rfl
      | ok b => cases hx
    | ok a =>
      cases y with
      | error d => cases hx
      | ok b => exact congrArg Except.ok (Except.ok.inj hx)
  · exact .inr ⟨hF, rfl⟩

end SameUnless

open CallFlow.Tree

namespace Outline

/-! ## Documentation -/

/-- The node starts inside a character of the text. -/
def StartsInside (source : List Char) (n : Node) : Prop :=
  Text.splitAt? (min n.span.start (Text.width source)) source = none

instance (source : List Char) (n : Node) : Decidable (StartsInside source n) :=
  inferInstanceAs (Decidable (_ = none))

/-- The comments in the tree are leaves that are there, and if one of them starts inside a
character, that is what `F` says. -/
structure Ready (F : Prop) (source : List Char) (n : Node) : Prop where
  tidy : n.Tidy
  placed : ∀ c ∈ n.preorder, c.isComment = true → StartsInside source c → F

variable {F : Prop} {source : List Char} {n : Node} {before : List Node}

theorem Ready.of_mem {m : Node} (ready : Ready F source n) (hm : m ∈ n.preorder) :
    Ready F source m :=
  ⟨ready.tidy.of_mem hm, fun c hc => ready.placed c (Node.preorder_subset hm hc)⟩

theorem Ready.child {c : Node} (ready : Ready F source n) (hc : c ∈ n.children) :
    Ready F source c :=
  ready.of_mem (Node.mem_preorder_of_mem_descendants (Node.mem_descendants_of_mem_children hc))

theorem Ready.body (ready : Ready F source n) : ∀ m ∈ bodyAmong n.children, Ready F source m :=
  forall_bodyAmong (fun _ hn _ hc => hn.child hc) ready

/-- There is a result, unless a comment starts inside a character. -/
def Answered {α : Type} (F : Prop) (x : Except Fault α) : Prop :=
  Succeeds x ∨ F ∧ x = .error .insideCharacter

namespace Answered

variable {α β : Type}

theorem pure (a : α) : Answered F (Pure.pure a) := .inl (.pure a)

theorem bind {x : Except Fault α} {k : α → Except Fault β} (hx : Answered F x)
    (hk : ∀ a, Answered F (k a)) : Answered F (x >>= k) := by
  rcases hx with ⟨a, rfl⟩ | ⟨hF, rfl⟩
  · exact hk a
  · exact .inr ⟨hF, rfl⟩

/-- What the result is does not matter to one who does not look at it. -/
theorem sameUnless {x : Except Fault α} (hx : Answered F x) (a : α) :
    SameUnless F .insideCharacter (fun _ => ()) x (.ok a) := by
  rcases hx with ⟨b, rfl⟩ | failed
  · exact .inl rfl
  · exact .inr failed

end Answered

theorem Ready.startsLine (ready : Ready F source n) (comment : n.isComment = true) :
    Answered F (n.startsLine source) := by
  unfold Node.startsLine
  cases h : Text.splitAt? (min n.span.start (Text.width source)) source with
  | none => exact .inr ⟨ready.placed n n.mem_preorder_self comment h, rfl⟩
  | some cut => exact .inl ⟨_, rfl⟩

theorem answered_commentRun : ∀ {before : List Node} (span : Span) (current : Node),
    (∀ b ∈ before, Ready F source b) → Answered F (commentRun source span current before)
  | [], span, _, _ => .pure span
  | prev :: before, span, current, h => by
    rw [commentRun]
    split
    · rename_i hprev
      simp only [Bool.and_eq_true, beq_iff_eq] at hprev
      have comment : prev.isComment = true := by simp [Node.isComment, hprev.1]
      refine ((h prev List.mem_cons_self).startsLine comment).bind fun own => ?_
      cases own with
      | true => exact answered_commentRun _ prev fun b hb => h b (List.mem_cons_of_mem prev hb)
      | false => exact .pure span
    · exact .pure span

theorem ready_of_commentBefore? {spot comment : Spot} (h : commentBefore? spot = some comment)
    (before : ∀ b ∈ spot.before, Ready F source b) :
    comment.node.isComment = true ∧ ∀ m ∈ comment.node :: comment.before, Ready F source m := by
  obtain ⟨isComment, mem⟩ := mem_of_commentBefore? h
  refine ⟨isComment, fun m hm => ?_⟩
  obtain ⟨b, hb, hm⟩ := mem m hm
  exact (before b hb).of_mem hm

theorem answered_docOf {spot : Spot} (before : ∀ b ∈ spot.before, Ready F source b) :
    Answered F (docOf source spot) := by
  unfold docOf
  split
  · exact .pure none
  · rename_i comment hc
    obtain ⟨isComment, ready⟩ := ready_of_commentBefore? hc before
    split
    · refine ((ready _ List.mem_cons_self).startsLine isComment).bind fun own => ?_
      cases own with
      | true =>
        have run := answered_commentRun comment.node.span comment.node
          fun b hb => ready b (List.mem_cons_of_mem comment.node hb)
        rw [if_pos rfl]
        split
        · exact run.bind fun span => .pure (some span)
        · exact .pure _
      | false => exact .pure none
    · exact .pure none

/-- Without comments nothing is documented. -/
theorem docOf_uncommented (tidy : ∀ b ∈ before, b.Tidy) :
    docOf source ⟨n.uncommented, Node.uncommentedAmong before⟩ = .ok none := by
  have unseen : commentBefore? ⟨n.uncommented, Node.uncommentedAmong before⟩ = none := by
    rw [commentBefore?, Node.uncommentedAmong_eq]
    cases hb : before.filter fun c => !c.isComment with
    | nil => rfl
    | cons b bs =>
      have hb : b ∈ before.filter fun c => !c.isComment := hb ▸ List.mem_cons_self
      obtain ⟨hb, plain⟩ := List.mem_filter.mp hb
      have trailing := Node.trailing?_uncommented (tidy b hb)
      simp only [List.map_cons, Node.isComment_uncommented, trailing]
      rw [if_neg (by simpa using plain), ite_self]
  rw [docOf, unseen]

/-! ## Declarations -/

def FunctionHead.undocumented (h : FunctionHead) : FunctionHead := { h with doc := none }

def ClassHead.undocumented (h : ClassHead) : ClassHead := { h with doc := none }

mutual

/-- The declaration without its documentation and that of what it declares. -/
def Decl.undocumented : Decl → Decl
  | .property p => .property p
  | .function h => .function h.undocumented
  | .classLike h members => .classLike h.undocumented (undocumentedAll members)

def undocumentedAll : List Decl → List Decl
  | [] => []
  | d :: ds => d.undocumented :: undocumentedAll ds

end

theorem undocumentedAll_eq : ∀ ds : List Decl, undocumentedAll ds = ds.map Decl.undocumented
  | [] => by rw [undocumentedAll]; rfl
  | d :: ds => by rw [undocumentedAll, undocumentedAll_eq ds]; rfl

/-- `x` comes to the same as `y` but for documentation, unless a comment starts inside a
character. -/
abbrev Alike {α γ : Type} (F : Prop) (undocumented : α → γ) (x y : Except Error α) : Prop :=
  SameUnless F (.fault .insideCharacter) undocumented x y

variable {s : Sheet}

theorem alike_doc (ready : ∀ b ∈ before, Ready F source b) :
    Alike F (fun _ => ()) (Fault.lift (docOf source ⟨n, before⟩))
      (Fault.lift (docOf source ⟨n.uncommented, Node.uncommentedAmong before⟩)) := by
  rw [docOf_uncommented fun b hb => (ready b hb).tidy]
  exact ((answered_docOf ready).sameUnless none).lift

theorem alike_function (ready : Ready F s.source n) (hbefore : ∀ b ∈ before, Ready F s.source b) :
    Alike F FunctionHead.undocumented (s.function ⟨n, before⟩)
      (s.function ⟨n.uncommented, Node.uncommentedAmong before⟩) := by
  unfold Sheet.function
  simp only [Node.span_uncommented, Node.line_uncommented, s.annotations_uncommented ready.tidy,
    CallSite.ofFunction_uncommented ready.tidy, s.nameIn_uncommented n "simple_identifier" rfl]
  refine SameUnless.bind (g := id) (.of_eq rfl) fun name name' hname => ?_
  obtain rfl : name = name' := hname
  exact (alike_doc hbefore).bind fun doc doc' _ => .pure rfl

theorem alike_classHead (hbefore : ∀ b ∈ before, Ready F s.source b) :
    Alike F ClassHead.undocumented (s.classHead ⟨n, before⟩)
      (s.classHead ⟨n.uncommented, Node.uncommentedAmong before⟩) := by
  unfold Sheet.classHead
  simp only [Node.span_uncommented, Node.kind_uncommented, s.className_uncommented n]
  refine SameUnless.bind (g := id) (.of_eq rfl) fun name name' hname => ?_
  obtain rfl : name = name' := hname
  exact (alike_doc hbefore).bind fun doc doc' _ => .pure rfl

/-- A comment declares nothing. -/
theorem readNode_of_isComment {level : Level} (h : n.isComment = true) :
    readNode s level before n = pure [] := by
  have noClass : level.classKinds.contains n.kind = false := by
    cases level with
    | body => exact Node.not_contains_of_isComment h classKinds (by decide)
    | top script =>
      exact Node.not_contains_of_isComment h ["class_declaration", "object_declaration"] (by decide)
  have allowed : level.refuses n = false := by
    cases level <;> simp [Level.refuses, Node.isContent_of_isComment h]
  rw [readNode_eq, Node.kind_ne_of_isComment h "property_declaration" rfl, noClass,
    Node.kind_ne_of_isComment h "function_declaration" rfl, allowed, Bool.and_false]
  rfl

theorem undocumentedAll_singleton {d d' : Decl} (h : d.undocumented = d'.undocumented) :
    undocumentedAll [d] = undocumentedAll [d'] := by
  simp [undocumentedAll_eq, h]

theorem undocumentedAll_append {ds ds' es es' : List Decl}
    (hd : undocumentedAll ds = undocumentedAll ds')
    (he : undocumentedAll es = undocumentedAll es') :
    undocumentedAll (ds ++ es) = undocumentedAll (ds' ++ es') := by
  simp only [undocumentedAll_eq, List.map_append] at hd he ⊢
  rw [hd, he]

theorem undocumented_function {h h' : FunctionHead} (hh : h.undocumented = h'.undocumented) :
    (Decl.function h).undocumented = (Decl.function h').undocumented := by
  rw [Decl.undocumented, Decl.undocumented, hh]

theorem undocumented_classLike {h h' : ClassHead} {ds ds' : List Decl}
    (hh : h.undocumented = h'.undocumented) (hd : undocumentedAll ds = undocumentedAll ds') :
    (Decl.classLike h ds).undocumented = (Decl.classLike h' ds').undocumented := by
  rw [Decl.undocumented, Decl.undocumented, hh, hd]

theorem alike_append {x y xs ys : Except Error (List Decl)} (hx : Alike F undocumentedAll x y)
    (hxs : Alike F undocumentedAll xs ys) :
    Alike F undocumentedAll (do let found ← x; let others ← xs; return found ++ others)
      (do let found ← y; let others ← ys; return found ++ others) := by
  refine hx.bind fun found found' hf => ?_
  exact hxs.bind fun others others' ho => .pure (undocumentedAll_append hf ho)

theorem bodyAmong_uncommented (cs : List Node) :
    bodyAmong (Node.uncommentedAmong cs) = Node.uncommentedAmong (bodyAmong cs) := by
  have body : (Node.uncommentedAmong cs).find? isClassBody =
      (cs.find? isClassBody).map Node.uncommented :=
    Node.find?_uncommentedAmong (by simp [isClassBody]) fun c _ h =>
      Node.not_contains_of_isComment h _ (by decide)
  unfold bodyAmong
  rw [body]
  cases cs.find? isClassBody with
  | none => rfl
  | some body => exact body.children_uncommented

theorem alike_readNode {level : Level} (ready : Ready F s.source n)
    (hbefore : ∀ b ∈ before, Ready F s.source b)
    (body : Alike F undocumentedAll (readAll s .body [] (bodyAmong n.children))
      (readAll s .body [] (Node.uncommentedAmong (bodyAmong n.children)))) :
    Alike F undocumentedAll (readNode s level before n)
      (readNode s level (Node.uncommentedAmong before) n.uncommented) := by
  have allowed : level.refuses n.uncommented = level.refuses n := by
    cases level <;> simp only [Level.refuses, Node.kind_uncommented, Node.isContent_uncommented]
  rw [readNode_eq, readNode_eq]
  simp only [Node.kind_uncommented, s.refuse_uncommented, s.variables_uncommented ready.tidy,
    s.parameters_uncommented ready.tidy, Node.children_uncommented, bodyAmong_uncommented, allowed]
  split
  · exact .of_eq rfl
  split
  · refine (alike_classHead hbefore).bind fun h h' hh => ?_
    refine SameUnless.bind (g := id) (.of_eq rfl) fun ps ps' hp => ?_
    obtain rfl : ps = ps' := hp
    refine body.bind fun ds ds' hd => .pure (undocumentedAll_singleton ?_)
    exact undocumented_classLike hh (undocumentedAll_append rfl hd)
  split
  · exact (alike_function ready hbefore).map fun h h' hh =>
      undocumentedAll_singleton (undocumented_function hh)
  · exact .of_eq rfl

/-- A comment is passed over, so that it makes no difference if it is not there. -/
theorem alike_readAll {ns : List Node} : ∀ (level : Level) (before : List Node),
    (∀ n ∈ ns, Ready F s.source n) → (∀ b ∈ before, Ready F s.source b) →
    Alike F undocumentedAll (readAll s level before ns)
      (readAll s level (Node.uncommentedAmong before) (Node.uncommentedAmong ns)) := by
  induction ns using readAll_induction with
  | nil =>
    intro level before _ _
    rw [Node.uncommentedAmong, readAll, readAll]
    exact .of_eq rfl
  | cons n rest body others =>
    intro level before hns hbefore
    obtain ⟨ready, hrest⟩ := List.forall_mem_cons.mp hns
    have others := others level (n :: before) hrest (List.forall_mem_cons.mpr ⟨ready, hbefore⟩)
    have inner := body .body [] ready.body (by simp)
    rw [readAll, Node.uncommentedAmong]
    rw [Node.uncommentedAmong] at others
    cases h : n.isComment with
    | true =>
      rw [h, if_pos rfl] at others
      rw [if_pos rfl, readNode_of_isComment h]
      simpa using others
    | false =>
      rw [h, if_neg Bool.false_ne_true] at others
      rw [if_neg Bool.false_ne_true, readAll]
      exact alike_append (alike_readNode ready hbefore inner) others

end Outline

def Outline.undocumented (o : Outline) : Outline :=
  { o with decls := Outline.undocumentedAll o.decls }

theorem Outline.alike_ofTree {F : Prop} (path : String) {source : String} {tree tree' : Flagged}
    (ready : Ready F source.toList tree.root) (same : tree'.root = tree.root.uncommented) :
    Alike F undocumented (ofTree path source tree) (ofTree path source tree') := by
  unfold ofTree
  simp only [same, Node.kind_uncommented, Sheet.refuse_uncommented, packageOf_uncommented,
    imports_uncommented]
  split
  · exact .of_eq rfl
  rename_i kind
  have plain : tree.root.isComment = false := by
    simp only [bne_iff_ne, ne_eq, Decidable.not_not] at kind
    simp [Node.isComment, kind]
  rw [Flagged.firstError?_eq_find?, Flagged.firstError?_eq_find?, same,
    Node.find?_wrong_uncommented ready.tidy plain]
  cases tree.root.preorder.find? Node.wrong with
  | some wrong =>
    simp only [Option.map_some, Node.missing_uncommented, Sheet.refuse_uncommented]
    exact .of_eq rfl
  | none =>
    have decls := alike_readAll (s := ⟨path, source.toList⟩) (.top (isScript path)) []
      (fun c hc => ready.child hc) (by simp)
    rw [Node.children_uncommented]
    exact decls.bind fun ds ds' hd => .pure (by simp [undocumented, hd])

end CallFlow
