import CallFlow.Proofs.Outline.Rules
import CallFlow.Proofs.Project.Built
import Mathlib.Logic.Relation

/-! Which trees are read. Main statement: a file is read exactly if its tree keeps rules that
speak of the whole tree and of each declaration by itself. Reading walks through classes in
classes and stops at the first broken rule; that the rules hold from a declaration down
comes apart in the same steps. -/

namespace CallFlow.Outline

open CallFlow.Tree

/-! ## The rules -/

/-- The class body of `n` is `body`. -/
def HasBody (n body : Node) : Prop :=
  n.childOf? ["class_body", "enum_class_body"] = some body

/-- The rules for one node of a class body. -/
structure MemberRules (source : List Char) (m : Node) : Prop where
  property : m.kind = "property_declaration" →
    ∀ v, Declares m v → Titled source "simple_identifier" v
  allowed : m.named = true → m.isComment = false → m.kind ∈ memberKinds

/-- The rules for a class without the declarations in its body. -/
structure ClassRules (source : List Char) (n : Node) : Prop where
  name : ClassTitled source n
  parameters : ParametersTitled source n
  members : ∀ body, HasBody n body → ∀ m ∈ body.children, MemberRules source m

/-- The rules for one declaration by itself. -/
structure WellFormed (source : List Char) (n : Node) : Prop where
  function : n.kind = "function_declaration" → Titled source "simple_identifier" n
  classLike : n.kind ∈ classKinds → ClassRules source n

/-- `m` is a declaration in the body of the class `n`. -/
def Holds (n m : Node) : Prop :=
  n.kind ∈ classKinds ∧ (m.kind ∈ classKinds ∨ m.kind = "function_declaration") ∧
    ∃ body, HasBody n body ∧ m ∈ body.children

def topDeclKinds : List String :=
  ["class_declaration", "object_declaration", "function_declaration"]

/-- `d` is a declaration at the top level or in a class that is one, at whatever depth. -/
def Modelled (root d : Node) : Prop :=
  ∃ c ∈ root.children, c.kind ∈ topDeclKinds ∧ Relation.ReflTransGen Holds c d

/-- What a tree has to be like for its file to be read. -/
structure Acceptable (path : String) (source : List Char) (root : Node) : Prop where
  file : root.kind = "source_file"
  sound : ∀ n ∈ root.preorder, n.kind ≠ "ERROR" ∧ n.missing = false
  /-- A script, a file whose name ends in `.kts`, may hold statements besides. -/
  top : ¬ ".kts".toList <:+ path.toList → ∀ c ∈ root.children,
    c.named = true → c.isComment = false → c.kind ∈ topKinds
  declarations : ∀ d, Modelled root d → WellFormed source d

variable {source : List Char} {s : Sheet}

/-! ## Declarations inside declarations -/

/-- All declarations from `n` down keep the rules. -/
def WellFormedBelow (source : List Char) (n : Node) : Prop :=
  ∀ d, Relation.ReflTransGen Holds n d → WellFormed source d

theorem wellFormedBelow_iff {n : Node} : WellFormedBelow source n ↔
    WellFormed source n ∧ ∀ m, Holds n m → WellFormedBelow source m := by
  constructor
  · intro h
    exact ⟨h n .refl, fun m hm d hd => h d (hd.head hm)⟩
  · rintro ⟨self, inner⟩ d hd
    rcases Relation.ReflTransGen.cases_head hd with rfl | ⟨m, hm, hd⟩
    · exact self
    · exact inner m hm d hd

theorem not_mem_classKinds_of_function {n : Node} (h : n.kind = "function_declaration") :
    n.kind ∉ classKinds := by
  rw [h]
  decide

theorem wellFormedBelow_function {n : Node} (h : n.kind = "function_declaration") :
    WellFormedBelow source n ↔ Titled source "simple_identifier" n := by
  have no := not_mem_classKinds_of_function h
  rw [wellFormedBelow_iff]
  constructor
  · rintro ⟨self, _⟩
    exact self.function h
  · intro titled
    exact ⟨⟨fun _ => titled, fun hc => absurd hc no⟩, fun m hm => absurd hm.1 no⟩

/-- The rules for a node that is read at some level, and for all that it declares. -/
structure RulesBelow (level : Level) (source : List Char) (n : Node) : Prop where
  property : level.hasProperties = true → n.kind = "property_declaration" →
    ∀ v, Declares n v → Titled source "simple_identifier" v
  allowed : level.refuses n = false
  inner : n.kind ∈ level.classKinds ∨ n.kind = "function_declaration" → WellFormedBelow source n

theorem refuses_body {n : Node} : Level.body.refuses n = false ↔
    (n.named = true → n.isComment = false → n.kind ∈ memberKinds) := by
  simp [Level.refuses, Node.isContent]

theorem refuses_top {script : Bool} {n : Node} : (Level.top script).refuses n = false ↔
    (script = false → n.named = true → n.isComment = false → n.kind ∈ topKinds) := by
  cases script <;> simp [Level.refuses, Node.isContent]

/-- What is read at a level may stand there. -/
theorem not_refuses_of_mem {level : Level} {n : Node} (h : n.kind ∈ level.classKinds ∨
    n.kind = "function_declaration" ∨ n.kind = "property_declaration") :
    level.refuses n = false := by
  cases level with
  | body =>
    refine refuses_body.mpr fun _ _ => ?_
    rcases h with h | h | h
    · exact List.mem_append_left _ h
    · simp [h, memberKinds]
    · simp [h, memberKinds]
  | top script =>
    refine refuses_top.mpr fun _ _ _ => ?_
    simp only [Level.classKinds, List.mem_cons, List.not_mem_nil, or_false] at h
    rcases h with (h | h) | h | h <;> simp [h, topKinds]

theorem mem_bodyAmong {n m : Node} :
    m ∈ bodyAmong n.children ↔ ∃ body, HasBody n body ∧ m ∈ body.children := by
  have same : n.children.find? isClassBody = n.childOf? ["class_body", "enum_class_body"] := rfl
  unfold bodyAmong HasBody
  rw [same]
  cases n.childOf? ["class_body", "enum_class_body"] with
  | none => simp
  | some body => simp

theorem wellFormedBelow_class {n : Node} (h : n.kind ∈ classKinds) :
    WellFormedBelow source n ↔ ClassTitled source n ∧ ParametersTitled source n ∧
      ∀ m ∈ bodyAmong n.children, RulesBelow .body source m := by
  rw [wellFormedBelow_iff]
  constructor
  · intro ⟨self, inner⟩
    have rules := self.classLike h
    refine ⟨rules.name, rules.parameters, fun m hm => ?_⟩
    obtain ⟨body, hb, hm⟩ := mem_bodyAmong.mp hm
    have own := rules.members body hb m hm
    exact ⟨fun _ => own.property, refuses_body.mpr own.allowed,
      fun hd => inner m ⟨h, hd, body, hb, hm⟩⟩
  · intro ⟨name, parameters, members⟩
    have rules (body) (hb : HasBody n body) (m) (hm : m ∈ body.children) :
        RulesBelow .body source m := members m (mem_bodyAmong.mpr ⟨body, hb, hm⟩)
    constructor
    · refine ⟨fun hf => absurd h (not_mem_classKinds_of_function hf), fun _ => ?_⟩
      refine ⟨name, parameters, fun body hb m hm => ?_⟩
      have own := rules body hb m hm
      exact ⟨own.property rfl, refuses_body.mp own.allowed⟩
    · intro m ⟨_, hd, body, hb, hm⟩
      exact (rules body hb m hm).inner hd

/-! ## Reading node by node -/

theorem succeeds_class {before : List Node} {n : Node} (kind : n.kind ∈ classKinds)
    (readable : Readable s.source n) (hbefore : ∀ b ∈ before, Readable s.source b)
    (body : Succeeds (readAll s .body [] (bodyAmong n.children)) ↔
      ∀ m ∈ bodyAmong n.children, RulesBelow .body s.source m) :
    Succeeds (do
      let head ← s.classHead ⟨n, before⟩
      let parameters ← s.parameters n
      let inner ← readAll s .body [] (bodyAmong n.children)
      return [Decl.classLike head (parameters ++ inner)]) ↔ WellFormedBelow s.source n := by
  have head : Succeeds (s.classHead ⟨n, before⟩) ↔ _ := succeeds_classHead readable hbefore
  rw [wellFormedBelow_class kind, ← head, ← succeeds_parameters readable, ← body]
  exact Succeeds.bind_iff fun _ => Succeeds.bind_iff fun _ =>
    Succeeds.bind_iff_left fun _ => .pure _

theorem succeeds_readNode {level : Level} {before : List Node} {n : Node}
    (readable : Readable s.source n) (hbefore : ∀ b ∈ before, Readable s.source b)
    (body : Succeeds (readAll s .body [] (bodyAmong n.children)) ↔
      ∀ m ∈ bodyAmong n.children, RulesBelow .body s.source m) :
    Succeeds (readNode s level before n) ↔ RulesBelow level s.source n := by
  rw [readNode_eq]
  -- the kinds are asked for one after the other, and no rule is about two of them
  by_cases property : level.hasProperties = true ∧ n.kind = "property_declaration"
  · rw [if_pos (by simpa using property), succeeds_declared readable]
    refine ⟨fun h => ⟨fun _ _ => h, not_refuses_of_mem (.inr (.inr property.2)), ?_⟩,
      fun h => h.property property.1 property.2⟩
    cases level with
    | body => simp [property.2, Level.classKinds, classKinds]
    | top script => simp [Level.hasProperties] at property
  rw [if_neg (by simpa using property)]
  by_cases inner : n.kind ∈ level.classKinds
  · have kind : n.kind ∈ classKinds := mem_classKinds_of_level (by simpa using inner)
    rw [if_pos (by simpa using inner), succeeds_class kind readable hbefore body]
    exact ⟨fun h => ⟨fun hl hk => absurd ⟨hl, hk⟩ property, not_refuses_of_mem (.inl inner),
      fun _ => h⟩, fun h => h.inner (.inl inner)⟩
  rw [if_neg (by simpa using inner)]
  by_cases function : n.kind = "function_declaration"
  · rw [if_pos (by simpa using function), Succeeds.map_iff, succeeds_function readable hbefore,
      ← wellFormedBelow_function function]
    exact ⟨fun h => ⟨fun hl hk => absurd ⟨hl, hk⟩ property,
      not_refuses_of_mem (.inr (.inl function)), fun _ => h⟩, fun h => h.inner (.inr function)⟩
  rw [if_neg (by simpa using function)]
  have other : RulesBelow level s.source n ↔ level.refuses n = false := by
    refine ⟨fun h => h.allowed, fun h => ⟨fun hl hk => absurd ⟨hl, hk⟩ property, h, ?_⟩⟩
    exact fun hd => absurd hd (not_or.mpr ⟨inner, function⟩)
  rw [other]
  cases level.refuses n with
  | true => simpa using not_succeeds_refuse
  | false => simpa using Succeeds.pure _

theorem succeeds_readAll {ns : List Node} : ∀ (level : Level) (before : List Node),
    (∀ n ∈ ns, Readable s.source n) → (∀ b ∈ before, Readable s.source b) →
    (Succeeds (readAll s level before ns) ↔ ∀ m ∈ ns, RulesBelow level s.source m) := by
  induction ns using readAll_induction with
  | nil =>
    intro level before _ _
    rw [readAll]
    simpa using Succeeds.ok _
  | cons n rest body others =>
    -- what was read already matters only as a place where documentation is looked for
    intro level before hns hbefore
    obtain ⟨hn, hrest⟩ := List.forall_mem_cons.mp hns
    rw [readAll, List.forall_mem_cons,
      ← succeeds_readNode hn hbefore (body .body [] hn.body (by simp)),
      ← others level (n :: before) hrest (List.forall_mem_cons.mpr ⟨hn, hbefore⟩)]
    exact Succeeds.bind_iff fun _ => Succeeds.bind_iff_left fun _ => .pure _

/-! ## Files -/

/-- Both ends of the node lie in the text, between two characters. -/
def Fits (source : List Char) (n : Node) : Prop :=
  (Text.splitAt? n.span.start source).isSome ∧ (Text.splitAt? n.span.stop source).isSome

instance (source : List Char) (n : Node) : Decidable (Fits source n) :=
  inferInstanceAs (Decidable (_ ∧ _))

theorem isScript_iff {path : String} : isScript path = true ↔ ".kts".toList <:+ path.toList :=
  List.isSuffixOf_iff_suffix

theorem wrong_eq_false {n : Node} : n.wrong = false ↔ n.kind ≠ "ERROR" ∧ n.missing = false := by
  simp [Node.wrong, Node.isError]

theorem succeeds_ofTree {path source : String} {t : Flagged} :
    Succeeds (ofTree path source t) ↔ t.root.kind = "source_file" ∧
      (∀ n ∈ t.root.preorder, n.kind ≠ "ERROR" ∧ n.missing = false) ∧
      Succeeds (readAll ⟨path, source.toList⟩ (.top (isScript path)) [] t.root.children) := by
  unfold ofTree
  dsimp only
  by_cases kind : t.root.kind = "source_file"
  · rw [if_neg (by simpa using kind)]
    simp only [kind, true_and, ← wrong_eq_false, ← Flagged.firstError?_eq_none]
    cases t.firstError? with
    | none => simpa using Succeeds.bind_iff_left fun _ => .pure _
    | some wrong => simpa using not_succeeds_refuse
  · rw [if_pos (by simpa using kind)]
    simpa [kind] using not_succeeds_refuse

theorem mem_topDeclKinds {script : Bool} {n : Node} : n.kind ∈ topDeclKinds ↔
    n.kind ∈ (Level.top script).classKinds ∨ n.kind = "function_declaration" := by
  simp [topDeclKinds, Level.classKinds, or_assoc]

/-- A file is read exactly if its tree keeps the rules. -/
theorem ofTree_ok_iff_acceptable {path source : String} {t : Flagged}
    (fits : ∀ n ∈ t.root.preorder, Fits source.toList n) :
    (∃ o, ofTree path source t = .ok o) ↔ Acceptable path source.toList t.root := by
  have rules (sound : ∀ n ∈ t.root.preorder, n.kind ≠ "ERROR" ∧ n.missing = false) :
      Succeeds (readAll ⟨path, source.toList⟩ (.top (isScript path)) [] t.root.children) ↔
        ∀ c ∈ t.root.children, RulesBelow (.top (isScript path)) source.toList c := by
    have readable : Readable source.toList t.root := fun m hm => ⟨(sound m hm).2, (fits m hm).1⟩
    exact succeeds_readAll _ _ (fun c hc => readable.child hc) (by simp)
  rw [← Succeeds, succeeds_ofTree]
  constructor
  · rintro ⟨file, sound, decls⟩
    rw [rules sound] at decls
    refine ⟨file, sound, fun script c hc => refuses_top.mp (decls c hc).allowed ?_, ?_⟩
    · rwa [← isScript_iff, Bool.not_eq_true] at script
    · rintro d ⟨c, hc, hk, hd⟩
      exact (decls c hc).inner (mem_topDeclKinds.mp hk) d hd
  · rintro ⟨file, sound, top, declarations⟩
    refine ⟨file, sound, (rules sound).mpr fun c hc =>
      ⟨nofun, refuses_top.mpr fun script => top ?_ c hc, ?_⟩⟩
    · rw [← isScript_iff, script]
      exact Bool.false_ne_true
    · intro hk d hd
      exact declarations d ⟨c, hc, mem_topDeclKinds.mpr hk, hd⟩

theorem ofTree_ok_iff_acceptable_nested :
    (∀ n ∈ Sample.nestedTree.preorder, Fits Sample.nested.text.toList n) ∧
      Acceptable Sample.nested.path Sample.nested.text.toList Sample.nestedTree := by
  have fits : ∀ n ∈ Sample.nestedTree.preorder, Fits Sample.nested.text.toList n := by
    decide +kernel
  have read : (ofTree Sample.nested.path Sample.nested.text Sample.nestedTree).isOk = true := by
    decide +kernel
  exact ⟨fits, (ofTree_ok_iff_acceptable (t := Sample.nestedTree) fits).mp (Succeeds.of_isOk read)⟩

end CallFlow.Outline
