import CallFlow.Outline.Reader
import Mathlib.Data.List.Forall2

/-! What reading a tree comes down to, node by node. Nodes are read one after the other, and a class
is read by a walk through the nodes in its body. The walk is put as a relation between nodes and
declarations, so that what is claimed of all that a file declares is proved by induction on it.
First use: nothing that is read has a blank name. -/

namespace CallFlow

section Except

variable {ε α β : Type}

theorem bind_eq_ok {x : Except ε α} {f : α → Except ε β} {b : β} :
    x >>= f = .ok b ↔ ∃ a, x = .ok a ∧ f a = .ok b := by
  cases x with
  | error e => simp [Bind.bind, Except.bind]
  | ok a => simp [Bind.bind, Except.bind]

theorem map_eq_ok {x : Except ε α} {f : α → β} {b : β} :
    f <$> x = .ok b ↔ ∃ a, x = .ok a ∧ f a = b := by
  cases x with
  | error e => simp [Functor.map, Except.map]
  | ok a => simp [Functor.map, Except.map]

theorem mapM_eq_ok {f : α → Except ε β} : ∀ {as : List α} {bs : List β},
    as.mapM f = .ok bs ↔ List.Forall₂ (fun a b => f a = .ok b) as bs
  | [], bs => by
    rw [List.mapM_nil, List.forall₂_nil_left_iff]
    exact ⟨fun h => (Except.ok.inj h).symm, fun h => congrArg Except.ok h.symm⟩
  | a :: as, bs => by
    rw [List.mapM_cons, bind_eq_ok, List.forall₂_cons_left_iff]
    constructor
    · rintro ⟨b, hb, h⟩
      obtain ⟨rest, hrest, h⟩ := bind_eq_ok.mp h
      exact ⟨b, rest, hb, mapM_eq_ok.mp hrest, (Except.ok.inj h).symm⟩
    · rintro ⟨b, rest, hb, hrest, rfl⟩
      exact ⟨b, hb, bind_eq_ok.mpr ⟨rest, mapM_eq_ok.mpr hrest, rfl⟩⟩

theorem mem_of_mapM_eq_ok {f : α → Except ε β} {as : List α} {bs : List β}
    (h : as.mapM f = .ok bs) : ∀ b ∈ bs, ∃ a ∈ as, f a = .ok b := by
  intro b hb
  have rows := mapM_eq_ok.mp h
  obtain ⟨i, hi, rfl⟩ := List.mem_iff_getElem.mp hb
  have hi' : i < as.length := rows.length_eq ▸ hi
  exact ⟨as[i], List.getElem_mem hi', rows.get hi' hi⟩

theorem exists_of_mapM_eq_ok {f : α → Except ε β} {as : List α} {bs : List β}
    (h : as.mapM f = .ok bs) : ∀ a ∈ as, ∃ b ∈ bs, f a = .ok b := by
  intro a ha
  have rows := mapM_eq_ok.mp h
  obtain ⟨i, hi, rfl⟩ := List.mem_iff_getElem.mp ha
  have hi' : i < bs.length := rows.length_eq ▸ hi
  exact ⟨bs[i], List.getElem_mem hi', rows.get hi hi'⟩

theorem mapM_map_congr {γ : Type} {f : α → Except ε β} {f' : γ → Except ε β} {g : γ → α} :
    ∀ {l : List γ}, (∀ c ∈ l, f (g c) = f' c) → (l.map g).mapM f = l.mapM f'
  | [], _ => rfl
  | c :: l, h => by
    have rest := mapM_map_congr fun d hd => h d (List.mem_cons_of_mem c hd)
    rw [List.map_cons, List.mapM_cons, List.mapM_cons, h c List.mem_cons_self, rest]

end Except

/-- The name has more to it than white space. -/
def Legible (name : String) : Prop := Text.allBlank name.toList = false

instance (name : String) : Decidable (Legible name) :=
  inferInstanceAs (Decidable (Text.allBlank name.toList = false))

namespace Outline

open CallFlow.Tree

variable {s : Sheet}

/-! ## One node at a time -/

/-- The nodes in the first class body among the given ones; none if there is no body. -/
def bodyAmong (cs : List Node) : List Node := ((cs.find? isClassBody).map Node.children).getD []

theorem bodyAmong_cons (l : Label) (cs rest : List Node) :
    bodyAmong (.mk l cs :: rest) = if isClassBody (.mk l cs) then cs else bodyAmong rest := by
  cases h : isClassBody (.mk l cs) with
  | true => simp [bodyAmong, h]
  | false => simp [bodyAmong, h]

/-- A body belongs to a child of the class. -/
theorem bodyAmong_cases (cs : List Node) :
    bodyAmong cs = [] ∨ ∃ body ∈ cs, bodyAmong cs = body.children := by
  unfold bodyAmong
  cases h : cs.find? isClassBody with
  | none => exact .inl rfl
  | some body => exact .inr ⟨body, List.mem_of_find?_eq_some h, rfl⟩

/-- What passes from nodes to their children passes to the nodes in a body. -/
theorem forall_bodyAmong {Q : Node → Prop} (child : ∀ n, Q n → ∀ c ∈ n.children, Q c) {n : Node}
    (hn : Q n) : ∀ m ∈ bodyAmong n.children, Q m := by
  rcases bodyAmong_cases n.children with none | ⟨body, hb, nodes⟩
  · simp [none]
  · rw [nodes]
    exact child body (child n hn body hb)

theorem readBody_eq : ∀ cs : List Node, readBody s cs = readAll s .body [] (bodyAmong cs)
  | [] => by
    rw [readBody, bodyAmong, List.find?_nil, Option.map_none, Option.getD_none, readAll]
  | .mk l cs :: rest => by
    rw [readBody, readBody_eq rest, bodyAmong_cons]
    split <;> rfl

theorem readNode_eq (level : Level) (before : List Node) (n : Node) :
    readNode s level before n =
      if level.hasProperties && n.kind == "property_declaration" then
        (Sheet.declared n).mapM (s.property false)
      else if level.classKinds.contains n.kind then do
        let head ← s.classHead ⟨n, before⟩
        let parameters ← s.parameters n
        let inner ← readAll s .body [] (bodyAmong n.children)
        return [.classLike head (parameters ++ inner)]
      else if n.kind == "function_declaration" then
        (fun head => [.function head]) <$> s.function ⟨n, before⟩
      else if level.refuses n then s.refuse n level.reason
      else pure [] := by
  cases n with
  | mk l cs =>
    rw [readNode, readBody_eq]
    rfl

theorem sizeOf_children_lt : ∀ n : Node, 1 + sizeOf n.children < sizeOf n
  | .mk l cs => by
    cases l
    rw [Node.children_mk, Node.mk.sizeOf_spec, Label.mk.sizeOf_spec]
    omega

theorem sizeOf_bodyAmong_lt (n : Node) : sizeOf (bodyAmong n.children) < sizeOf n := by
  have own := sizeOf_children_lt n
  rcases bodyAmong_cases n.children with none | ⟨body, hb, nodes⟩
  · rw [none, List.nil.sizeOf_spec]
    omega
  · rw [nodes]
    have inner := sizeOf_children_lt body
    have child := List.sizeOf_lt_of_mem hb
    omega

/-- Nodes are read one after the other, each by way of the nodes in its body. -/
theorem readAll_induction {Q : List Node → Prop} (nil : Q [])
    (cons : ∀ n rest, Q (bodyAmong n.children) → Q rest → Q (n :: rest)) : ∀ ns, Q ns
  | [] => nil
  | n :: rest =>
    cons n rest (readAll_induction nil cons (bodyAmong n.children))
      (readAll_induction nil cons rest)
termination_by ns => sizeOf ns
decreasing_by
  all_goals
    have body := sizeOf_bodyAmong_lt n
    rw [List.cons.sizeOf_spec]
    omega

/-! ## Heads -/

theorem lift_eq_ok {α : Type} {x : Except Fault α} {a : α} : Fault.lift x = .ok a ↔ x = .ok a := by
  cases x with
  | error cause => simp [Fault.lift]
  | ok b => simp [Fault.lift]

/-- The function is what the node at the spot is read as. -/
structure FunctionHead.IsOf (s : Sheet) (spot : Spot) (head : FunctionHead) : Prop where
  name : s.nameIn "simple_identifier" spot.node = .ok head.name
  doc : docOf s.source spot = .ok head.doc
  span : head.span = spot.node.span
  line : head.line = spot.node.line s.source
  annotations : head.annotations = s.annotations spot.node
  calls : head.calls = CallSite.ofFunction s.source spot.node

theorem isOf_of_function {spot : Spot} {head : FunctionHead} (h : s.function spot = .ok head) :
    head.IsOf s spot := by
  obtain ⟨name, hname, h⟩ := bind_eq_ok.mp h
  obtain ⟨doc, hdoc, h⟩ := bind_eq_ok.mp h
  cases h
  exact ⟨hname, lift_eq_ok.mp hdoc, rfl, rfl, rfl, rfl⟩

/-- The head is what the node at the spot, a class, is read as. -/
structure ClassHead.IsOf (s : Sheet) (spot : Spot) (head : ClassHead) : Prop where
  name : s.className spot.node = .ok head.name
  doc : docOf s.source spot = .ok head.doc
  isObject : head.isObject =
    (spot.node.kind == "companion_object" || spot.node.kind == "object_declaration")
  span : head.span = spot.node.span

theorem isOf_of_classHead {spot : Spot} {head : ClassHead} (h : s.classHead spot = .ok head) :
    head.IsOf s spot := by
  obtain ⟨name, hname, h⟩ := bind_eq_ok.mp h
  obtain ⟨doc, hdoc, h⟩ := bind_eq_ok.mp h
  cases h
  exact ⟨hname, lift_eq_ok.mp hdoc, rfl, rfl⟩

/-! ## The walk as a relation -/

/-- Each of the declarations is a property that was read from some node. -/
def Sheet.Properties (s : Sheet) (ds : List Decl) : Prop :=
  ∀ d ∈ ds, ∃ fromConstructor n, s.property fromConstructor n = .ok d

theorem Sheet.Properties.are_properties {ds : List Decl} (h : s.Properties ds) :
    ∀ d ∈ ds, ∃ p, d = .property p := by
  intro d hd
  obtain ⟨_, n, read⟩ := h d hd
  obtain ⟨name, _, read⟩ := bind_eq_ok.mp read
  cases read
  exact ⟨_, rfl⟩

theorem properties_of_mapM {fromConstructor : Bool} {ns : List Node} {ds : List Decl}
    (h : ns.mapM (s.property fromConstructor) = .ok ds) : s.Properties ds := by
  intro d hd
  obtain ⟨n, _, read⟩ := mem_of_mapM_eq_ok h d hd
  exact ⟨fromConstructor, n, read⟩

theorem properties_of_parameters {cls : Node} {ds : List Decl} (h : s.parameters cls = .ok ds) :
    s.Properties ds := by
  unfold Sheet.parameters at h
  split at h
  · cases h
    simp [Sheet.Properties]
  · exact properties_of_mapM h

/-- Reading the nodes in the second place, behind those in the first, gives the declarations. -/
inductive Reads (s : Sheet) : List Node → List Node → List Decl → Prop where
  | nil (before : List Node) : Reads s before [] []
  | plain {before rest : List Node} {n : Node} {found ds : List Decl}
    (properties : s.Properties found) (tail : Reads s (n :: before) rest ds) :
    Reads s before (n :: rest) (found ++ ds)
  | function {before rest : List Node} {n : Node} {head : FunctionHead} {ds : List Decl}
    (kind : n.kind = "function_declaration") (read : s.function ⟨n, before⟩ = .ok head)
    (tail : Reads s (n :: before) rest ds) : Reads s before (n :: rest) (.function head :: ds)
  | cls {before rest : List Node} {n : Node} {head : ClassHead} {parameters inner ds : List Decl}
    (kind : n.kind ∈ classKinds) (read : s.classHead ⟨n, before⟩ = .ok head)
    (properties : s.Properties parameters) (body : Reads s [] (bodyAmong n.children) inner)
    (tail : Reads s (n :: before) rest ds) :
    Reads s before (n :: rest) (.classLike head (parameters ++ inner) :: ds)

/-- The members of a class are read from the children of one of its children, if there are any. -/
theorem Reads.of_body {cs : List Node} {inner : List Decl} (h : Reads s [] (bodyAmong cs) inner) :
    inner = [] ∨ ∃ body ∈ cs, bodyAmong cs = body.children := by
  rcases bodyAmong_cases cs with none | child
  · rw [none] at h
    cases h
    exact .inl rfl
  · exact .inr child

theorem mem_classKinds_of_level {level : Level} {n : Node}
    (h : level.classKinds.contains n.kind = true) : n.kind ∈ classKinds := by
  cases level with
  | body => simpa [Level.classKinds] using h
  | top script =>
    simp only [Level.classKinds, List.contains_iff_mem, List.mem_cons, List.not_mem_nil,
      or_false] at h
    rcases h with h | h <;> simp [h, classKinds]

/-- What is read from a node goes in front of a walk. -/
theorem Reads.cons {level : Level} {before rest : List Node} {n : Node} {found ds : List Decl}
    (body : ∀ inner, readAll s .body [] (bodyAmong n.children) = .ok inner →
      Reads s [] (bodyAmong n.children) inner)
    (h : readNode s level before n = .ok found) (tail : Reads s (n :: before) rest ds) :
    Reads s before (n :: rest) (found ++ ds) := by
  rw [readNode_eq] at h
  split at h
  · exact .plain (properties_of_mapM h) tail
  split at h
  · rename_i kind
    obtain ⟨head, read, h⟩ := bind_eq_ok.mp h
    obtain ⟨parameters, hp, h⟩ := bind_eq_ok.mp h
    obtain ⟨inner, hi, h⟩ := bind_eq_ok.mp h
    cases h
    exact .cls (mem_classKinds_of_level kind) read (properties_of_parameters hp) (body inner hi)
      tail
  split at h
  · rename_i kind
    obtain ⟨head, read, rfl⟩ := map_eq_ok.mp h
    exact .function (by simpa using kind) read tail
  split at h
  · cases h
  · cases h
    exact .plain (by simp [Sheet.Properties]) tail

theorem reads_readAll {ns : List Node} : ∀ {level : Level} {before : List Node} {ds : List Decl},
    readAll s level before ns = .ok ds → Reads s before ns ds := by
  induction ns using readAll_induction with
  | nil =>
    intro level before ds h
    rw [readAll] at h
    cases h
    exact .nil before
  | cons n rest body others =>
    intro level before ds h
    rw [readAll] at h
    obtain ⟨found, first, h⟩ := bind_eq_ok.mp h
    obtain ⟨tail, last, h⟩ := bind_eq_ok.mp h
    cases h
    exact .cons (fun _ read => body read) first (others last)

theorem readAll_of_ofTree {path source : String} {tree : Flagged} {o : Outline}
    (h : ofTree path source tree = .ok o) : readAll ⟨path, source.toList⟩
      (.top (isScript path)) [] tree.root.children = .ok o.decls := by
  unfold ofTree at h
  dsimp only at h
  split at h
  · cases h
  split at h
  · cases h
  · obtain ⟨decls, hd, h⟩ := bind_eq_ok.mp h
    cases h
    exact hd

/-- What a file declares comes from a walk through the children of its root. -/
theorem reads_ofTree {path source : String} {tree : Flagged} {o : Outline}
    (h : ofTree path source tree = .ok o) :
    Reads ⟨path, source.toList⟩ [] tree.root.children o.decls :=
  reads_readAll (readAll_of_ofTree h)

/-! ## Names -/

/-- The declaration and all inside it have names that are not blank. -/
inductive Decl.Named : Decl → Prop where
  | property {p : Property} (name : Legible p.name) : Named (.property p)
  | function {head : FunctionHead} (name : Legible head.name) : Named (.function head)
  | classLike {head : ClassHead} {members : List Decl} (name : Legible head.name)
    (inner : ∀ m ∈ members, m.Named) : Named (.classLike head members)

@[simp] theorem named_function {head : FunctionHead} :
    (Decl.function head).Named ↔ Legible head.name := by
  refine ⟨fun h => ?_, .function⟩
  cases h with
  | function name => exact name

@[simp] theorem named_classLike {head : ClassHead} {members : List Decl} :
    (Decl.classLike head members).Named ↔ Legible head.name ∧ ∀ m ∈ members, m.Named := by
  refine ⟨fun h => ?_, fun h => .classLike h.1 h.2⟩
  cases h with
  | classLike name inner => exact ⟨name, inner⟩

theorem legible_of_property? {d : Decl} {p : Property} (named : d.Named)
    (h : d.property? = some p) : Legible p.name := by
  cases named with
  | property name => cases h; exact name
  | function _ => cases h
  | classLike _ _ => cases h

theorem legible_of_nameOf {n : Node} {name : String} (h : s.nameOf n = .ok name) :
    Legible name := by
  unfold Sheet.nameOf at h
  dsimp only at h
  split at h
  · cases h
  · rename_i hn
    cases h
    simp only [Bool.or_eq_true, not_or, Bool.not_eq_true] at hn
    simpa [Legible] using hn.2

theorem legible_of_nameIn {kind : String} {n : Node} {name : String}
    (h : s.nameIn kind n = .ok name) : Legible name := by
  unfold Sheet.nameIn at h
  split at h
  · exact legible_of_nameOf h
  · cases h

theorem legible_of_className {n : Node} {name : String} (h : s.className n = .ok name) :
    Legible name := by
  unfold Sheet.className at h
  split at h
  · cases h
    decide
  · exact legible_of_nameIn h

theorem Sheet.Properties.named {ds : List Decl} (h : s.Properties ds) : ∀ d ∈ ds, d.Named := by
  intro d hd
  obtain ⟨_, n, read⟩ := h d hd
  obtain ⟨name, hn, read⟩ := bind_eq_ok.mp read
  cases read
  exact .property (legible_of_nameIn hn)

theorem Reads.named {before ns : List Node} {ds : List Decl} (h : Reads s before ns ds) :
    ∀ d ∈ ds, d.Named := by
  induction h with
  | nil before => simp
  | plain properties _ ih => exact List.forall_mem_append.mpr ⟨properties.named, ih⟩
  | function _ read _ ih =>
    exact List.forall_mem_cons.mpr ⟨.function (legible_of_nameIn (isOf_of_function read).name), ih⟩
  | cls _ read properties _ _ inner ih =>
    have name := legible_of_className (isOf_of_classHead read).name
    exact List.forall_mem_cons.mpr
      ⟨.classLike name (List.forall_mem_append.mpr ⟨properties.named, inner⟩), ih⟩

theorem decls_named {path source : String} {tree : Flagged} {o : Outline}
    (h : ofTree path source tree = .ok o) : ∀ d ∈ o.decls, d.Named :=
  (reads_ofTree h).named

end Outline

end CallFlow
