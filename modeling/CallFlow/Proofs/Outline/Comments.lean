import CallFlow.Proofs.Outline.Reading
import CallFlow.Proofs.Tree.Comments
import Mathlib.Data.List.Basic

/-! What reading asks of a single node, with and without the comments below it. But for
documentation every question has the same answer: whatever is looked for is of another kind
than comments, or is looked for by its place among the nodes that are none. -/

namespace CallFlow

open CallFlow.Tree

namespace CallSite

variable {source : List Char} {n : Node}

theorem ofCall_uncommented (source : List Char) (n : Node) :
    ofCall source n.uncommented = ofCall source n := by
  unfold ofCall
  simp only [Node.firstContent?_uncommented, Node.line_uncommented]
  cases n.firstContent? with
  | none => rfl
  | some callee =>
    have member : (callee.uncommented.child? "navigation_suffix").bind
        (·.child? "simple_identifier") = ((callee.child? "navigation_suffix").bind
          (·.child? "simple_identifier")).map Node.uncommented := by
      rw [Node.child?_uncommented callee "navigation_suffix" rfl, Option.bind_map, Option.map_bind]
      exact Option.bind_congr fun suffix _ => Node.child?_uncommented suffix _ rfl
    have receiver : (callee.uncommented.firstContent?).filter
        (fun r => r.kind != "navigation_suffix") = (callee.firstContent?.filter
          fun r => r.kind != "navigation_suffix").map Node.uncommented := by
      simp [Node.firstContent?_uncommented, Option.filter_map, Function.comp_def]
    simp only [Option.map_some, Node.kind_uncommented, Node.text_uncommented, member, receiver]
    cases callee.firstContent?.filter fun r => r.kind != "navigation_suffix" with
    | none => rfl
    | some r =>
      cases (callee.child? "navigation_suffix").bind (·.child? "simple_identifier") with
      | none => rfl
      | some m => simp

theorem below_uncommented (tidy : n.Tidy) : below source n.uncommented = below source n := by
  unfold below
  rw [Node.collect_uncommented tidy callKind rfl, List.map_map]
  exact List.map_congr_left fun c _ => ofCall_uncommented source c

theorem ofFunction_uncommented (tidy : n.Tidy) :
    ofFunction source n.uncommented = ofFunction source n := by
  unfold ofFunction
  rw [Node.child?_uncommented n "function_body" rfl]
  cases hb : n.child? "function_body" with
  | none => rfl
  | some body =>
    have hbody : body.Tidy := tidy.child (List.mem_of_find?_eq_some hb)
    simp only [Option.map_some, Node.child?_uncommented body "=" rfl, Option.isSome_map,
      Node.lastContent?_uncommented, below_uncommented hbody]
    cases he : body.lastContent? with
    | none => rfl
    | some expr =>
      have hexpr : expr.Tidy := hbody.child (List.mem_reverse.mp (List.mem_of_find?_eq_some he))
      simp [ofCall_uncommented, below_uncommented hexpr]

end CallSite

namespace Outline

namespace Sheet

variable (s : Sheet) {n : Node}

theorem refuse_uncommented {α : Type} (n : Node) (reason : String) :
    (s.refuse n.uncommented reason : Except Error α) = s.refuse n reason := by
  simp [refuse]

theorem nameOf_uncommented (n : Node) : s.nameOf n.uncommented = s.nameOf n := by
  simp [nameOf, refuse_uncommented]

theorem nameIn_uncommented (n : Node) (kind : String)
    (other : Node.isCommentKind kind = false) :
    s.nameIn kind n.uncommented = s.nameIn kind n := by
  unfold nameIn
  rw [Node.child?_uncommented n kind other]
  cases n.child? kind with
  | none => exact refuse_uncommented s n _
  | some name => exact nameOf_uncommented s name

theorem typeText?_uncommented (n : Node) : s.typeText? n.uncommented = s.typeText? n := by
  unfold typeText?
  rw [Node.childrenOf_uncommented n "type_identifier" rfl]
  cases n.childrenOf "type_identifier" with
  | nil => rfl
  | cons i ids => simp [Function.comp_def]

theorem typeName?_uncommented (tidy : n.Tidy) : s.typeName? n.uncommented = s.typeName? n := by
  unfold typeName?
  rw [Node.childOf?_uncommented n ["user_type", "nullable_type", "not_nullable_type"]
    (by decide)]
  cases ht : n.childOf? ["user_type", "nullable_type", "not_nullable_type"] with
  | none => rfl
  | some type =>
    have htype : type.Tidy := tidy.child (List.mem_of_find?_eq_some ht)
    simp only [Option.map_some, Option.bind_eq_bind, Option.bind_some, Node.kind_uncommented,
      Node.below?_uncommented htype "user_type" rfl]
    cases type.kind == "user_type" with
    | true => exact typeText?_uncommented s type
    | false =>
      cases type.below? "user_type" with
      | none => rfl
      | some userType => exact typeText?_uncommented s userType

theorem annotations_uncommented (tidy : n.Tidy) :
    s.annotations n.uncommented = s.annotations n := by
  unfold annotations
  rw [Node.child?_uncommented n "modifiers" rfl]
  cases hm : n.child? "modifiers" with
  | none => rfl
  | some modifiers =>
    have hmodifiers : modifiers.Tidy := tidy.child (List.mem_of_find?_eq_some hm)
    simp only [Option.map_some, Node.collect_uncommented hmodifiers "annotation" rfl,
      List.filterMap_map]
    refine List.filterMap_congr fun a ha => ?_
    rw [Node.collect_eq_filter] at ha
    have below := Node.mem_preorder_of_mem_descendants (List.mem_of_mem_filter ha)
    rw [Function.comp_apply, Node.below?_uncommented (hmodifiers.of_mem below) "user_type" rfl,
      Option.bind_map]
    exact Option.bind_congr fun userType _ => typeText?_uncommented s userType

theorem property_uncommented (tidy : n.Tidy) (fromConstructor : Bool) :
    s.property fromConstructor n.uncommented = s.property fromConstructor n := by
  unfold property
  rw [nameIn_uncommented s n "simple_identifier" rfl, typeName?_uncommented s tidy]

theorem parameters_uncommented (tidy : n.Tidy) : s.parameters n.uncommented = s.parameters n := by
  unfold parameters
  rw [Node.child?_uncommented n "primary_constructor" rfl]
  cases hc : n.child? "primary_constructor" with
  | none => rfl
  | some ctor =>
    have hctor : ctor.Tidy := tidy.child (List.mem_of_find?_eq_some hc)
    simp only [Option.map_some, Node.collect_uncommented hctor "class_parameter" rfl]
    refine mapM_map_congr fun p hp => property_uncommented s (hctor.of_mem ?_) true
    rw [Node.collect_eq_filter] at hp
    exact Node.mem_preorder_of_mem_descendants (List.mem_of_mem_filter hp)

theorem declared_uncommented (n : Node) :
    declared n.uncommented = (declared n).map Node.uncommented := by
  unfold declared
  rw [Node.childrenOf_uncommented n "variable_declaration" rfl,
    Node.child?_uncommented n "multi_variable_declaration" rfl, List.map_append]
  cases n.child? "multi_variable_declaration" with
  | none => rfl
  | some multi =>
    simp only [Option.map_some, Node.childrenOf_uncommented multi "variable_declaration" rfl]

theorem tidy_of_mem_declared (tidy : n.Tidy) {v : Node} (hv : v ∈ declared n) : v.Tidy := by
  rcases List.mem_append.mp hv with hv | hv
  · exact tidy.child (List.mem_of_mem_filter hv)
  · split at hv
    · cases hv
    · rename_i multi hm
      exact (tidy.child (List.mem_of_find?_eq_some hm)).child (List.mem_of_mem_filter hv)

theorem variables_uncommented (tidy : n.Tidy) :
    (declared n.uncommented).mapM (s.property false) = (declared n).mapM (s.property false) := by
  rw [declared_uncommented]
  exact mapM_map_congr fun v hv => property_uncommented s (tidy_of_mem_declared tidy hv) false

theorem className_uncommented (n : Node) : s.className n.uncommented = s.className n := by
  unfold className
  rw [Node.kind_uncommented, Node.child?_uncommented n "type_identifier" rfl, Option.isNone_map,
    nameIn_uncommented s n "type_identifier" rfl]

end Sheet

theorem packageOf_uncommented (source : List Char) (root : Node) :
    packageOf source root.uncommented = packageOf source root := by
  unfold packageOf
  rw [Node.child?_uncommented root "package_header" rfl, Option.bind_map]
  cases root.child? "package_header" with
  | none => rfl
  | some header =>
    simp only [Option.bind_some, Function.comp_apply,
      Node.child?_uncommented header "identifier" rfl]
    cases header.child? "identifier" with
    | none => rfl
    | some id => simp

theorem importHeaders_uncommented (root : Node) :
    importHeaders root.uncommented = (importHeaders root).map Node.uncommented := by
  unfold importHeaders
  rw [Node.children_uncommented]
  induction root.children with
  | nil => rw [Node.uncommentedAmong]; rfl
  | cons c cs ih =>
    rw [Node.uncommentedAmong, List.flatMap_cons, List.map_append, ← ih]
    cases h : c.isComment with
    | true =>
      rw [Node.kind_ne_of_isComment h "import_list" rfl,
        Node.kind_ne_of_isComment h "import_header" rfl]
      rfl
    | false =>
      rw [if_neg Bool.false_ne_true, List.flatMap_cons, Node.kind_uncommented,
        Node.childrenOf_uncommented c "import_header" rfl]
      congr 1
      split
      · rfl
      · split <;> rfl

theorem importOf?_uncommented (source : List Char) (header : Node) :
    importOf? source header.uncommented = importOf? source header := by
  unfold importOf?
  rw [Node.child?_uncommented header "identifier" rfl,
    Node.child?_uncommented header "import_alias" rfl,
    Node.child?_uncommented header "wildcard_import" rfl, Option.bind_map, Option.isSome_map,
    Node.denseText_uncommented]
  have renamed : ((header.child? "import_alias").bind (Node.lastContent? ∘ Node.uncommented)).map
      (fun n => String.ofList (n.text source)) =
      ((header.child? "import_alias").bind Node.lastContent?).map
        fun n => String.ofList (n.text source) := by
    cases header.child? "import_alias" with
    | none => rfl
    | some n => simp [Node.lastContent?_uncommented, Function.comp_def]
  rw [renamed]
  cases header.child? "identifier" with
  | none => rfl
  | some id => simp

theorem imports_uncommented (source : List Char) (root : Node) :
    (importHeaders root.uncommented).filterMap (importOf? source) =
      (importHeaders root).filterMap (importOf? source) := by
  rw [importHeaders_uncommented, List.filterMap_map]
  exact List.filterMap_congr fun header _ => importOf?_uncommented source header

end Outline

end CallFlow
