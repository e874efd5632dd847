import CallFlow.Project.Placement

/-! Projects grown from sources, accepted or refused in any order. Main statement: no
id in them dangles. A placement hands out consecutive ids, so one upper bound, the
size of the project it ends up in, is enough for all entries. -/

namespace CallFlow

namespace Project

/-- The project after a source was offered to it: as before if the source is refused. -/
def offer (p : Project) (s : Source) : Project :=
  match p.addSource s with
  | .ok q => q
  | .error _ => p

theorem offer_cases (p : Project) (s : Source) :
    p.offer s = p ∨ ∃ o, s.outline = .ok o ∧ p.offer s = p.add o := by
  unfold offer addSource
  cases h : s.outline with
  | error cause => exact .inl rfl
  | ok o => exact .inr ⟨o, rfl, rfl⟩

/-- Projects that come from an empty one by offering sources that satisfy `S`, one after the
other. -/
inductive BuiltFrom (S : Source → Prop) : Project → Prop where
  | empty (root : String) : BuiltFrom S (.empty root)
  | offer {p : Project} (built : BuiltFrom S p) (s : Source) (hs : S s) : BuiltFrom S (p.offer s)

/-- Projects that come from an empty one by offering any sources. -/
def Built : Project → Prop := BuiltFrom fun _ => True

theorem Built.empty (root : String) : (Project.empty root).Built := BuiltFrom.empty root

theorem Built.offer {p : Project} (built : p.Built) (s : Source) : (p.offer s).Built :=
  BuiltFrom.offer built s trivial

theorem BuiltFrom.built {S : Source → Prop} {p : Project} (h : p.BuiltFrom S) : p.Built := by
  induction h with
  | empty root => exact .empty root
  | offer _ s _ ih => exact .offer ih s

/-- What holds of empty projects and outlives one more outline holds of built ones. -/
theorem BuiltFrom.invariant {S : Source → Prop} {P : Project → Prop}
    (init : ∀ root, P (.empty root))
    (step : ∀ p (s : Source) o, S s → s.outline = .ok o → P p → P (p.add o)) {p : Project}
    (built : p.BuiltFrom S) : P p := by
  induction built with
  | empty root => exact init root
  | @offer p _ s hs ih =>
    obtain h | ⟨o, ho, h⟩ := p.offer_cases s
    · rw [h]; exact ih
    · rw [h]; exact step p s o hs ho ih

end Project

/-- How many entries of each kind there are. -/
structure Sizes where
  files : Nat
  classes : Nat
  functions : Nat

namespace Sizes

structure Le (m n : Sizes) : Prop where
  files : m.files ≤ n.files
  classes : m.classes ≤ n.classes
  functions : m.functions ≤ n.functions

end Sizes

/-! ## Entries whose ids lie within given sizes -/

structure SourceFile.Within (n : Sizes) (f : SourceFile) : Prop where
  classes : ∀ i ∈ f.classes, i < n.classes
  functions : ∀ i ∈ f.functions, i < n.functions

structure ClassDef.Within (n : Sizes) (c : ClassDef) : Prop where
  file : c.file < n.files
  parent : ∀ i ∈ c.parent, i < n.classes
  classes : ∀ i ∈ c.classes, i < n.classes
  functions : ∀ i ∈ c.functions, i < n.functions

structure FunctionDef.Within (n : Sizes) (f : FunctionDef) : Prop where
  file : f.file < n.files
  owner : ∀ i ∈ f.owner, i < n.classes

structure Placement.Within (n : Sizes) (a : Placement) : Prop where
  classes : ∀ c ∈ a.classes, c.Within n
  functions : ∀ f ∈ a.functions, f.Within n
  topClasses : ∀ i ∈ a.topClasses, i < n.classes
  topFunctions : ∀ i ∈ a.topFunctions, i < n.functions

section Mono

variable {m n : Sizes} (le : m.Le n)
include le

theorem SourceFile.Within.mono {f : SourceFile} (h : f.Within m) : f.Within n :=
  ⟨fun i hi => Nat.lt_of_lt_of_le (h.classes i hi) le.classes,
    fun i hi => Nat.lt_of_lt_of_le (h.functions i hi) le.functions⟩

theorem ClassDef.Within.mono {c : ClassDef} (h : c.Within m) : c.Within n :=
  ⟨Nat.lt_of_lt_of_le h.file le.files,
    fun i hi => Nat.lt_of_lt_of_le (h.parent i hi) le.classes,
    fun i hi => Nat.lt_of_lt_of_le (h.classes i hi) le.classes,
    fun i hi => Nat.lt_of_lt_of_le (h.functions i hi) le.functions⟩

theorem FunctionDef.Within.mono {f : FunctionDef} (h : f.Within m) : f.Within n :=
  ⟨Nat.lt_of_lt_of_le h.file le.files,
    fun i hi => Nat.lt_of_lt_of_le (h.owner i hi) le.classes⟩

end Mono

theorem Placement.Within.append {n : Sizes} {a b : Placement} (ha : a.Within n)
    (hb : b.Within n) : (a.append b).Within n := by
  refine ⟨?_, ?_, ?_, ?_⟩
  · intro c hc
    exact (List.mem_append.mp hc).elim (ha.classes c) (hb.classes c)
  · intro f hf
    exact (List.mem_append.mp hf).elim (ha.functions f) (hb.functions f)
  · intro i hi
    exact (List.mem_append.mp hi).elim (ha.topClasses i) (hb.topClasses i)
  · intro i hi
    exact (List.mem_append.mp hi).elim (ha.topFunctions i) (hb.topFunctions i)

namespace Outline

/-! ## Placing an outline -/

mutual

/-- The hypotheses ask for room: the placed entries, and what they refer to outside
of them, lie within `n`. -/
theorem Decl.place_within {n : Sizes} {home : Home} (hfile : home.file < n.files) :
    ∀ (d : Decl) (owner : Option ClassId) (first : Ids), (∀ i ∈ owner, i < n.classes) →
      ((d.place home owner first).after first).cls ≤ n.classes →
      ((d.place home owner first).after first).function ≤ n.functions →
      (d.place home owner first).Within n
  | .property _, _, _, _, _, _ => by
    refine ⟨?_, ?_, ?_, ?_⟩ <;> simp [Decl.place, Placement.empty]
  | .function h, owner, first, howner, _, hfun => by
    refine ⟨?_, ?_, ?_, ?_⟩
    · simp [Decl.place]
    · intro f hf
      simp only [Decl.place, List.mem_singleton] at hf
      rw [hf]
      exact ⟨hfile, howner⟩
    · simp [Decl.place]
    · intro i hi
      simp only [Decl.place, List.mem_singleton] at hi
      simp only [Decl.place, Placement.after, List.length_singleton] at hfun
      lia
  | .classLike h members, owner, first, howner, hcls, hfun => by
    simp only [Decl.place, Placement.after, List.length_cons] at hcls hfun
    have hself : first.cls < n.classes := by lia
    have inner := placeAll_within hfile members (some first.cls) ⟨first.cls + 1, first.function⟩
      (by intro i hi; cases hi; exact hself)
      (by simp only [Placement.after]; lia) hfun
    refine ⟨?_, ?_, ?_, ?_⟩
    · intro c hc
      simp only [Decl.place, List.mem_cons] at hc
      rcases hc with rfl | hc
      · exact ⟨hfile, howner, inner.topClasses, inner.topFunctions⟩
      · exact inner.classes c hc
    · exact inner.functions
    · intro i hi
      simp only [Decl.place, List.mem_singleton] at hi
      lia
    · simp [Decl.place]

theorem placeAll_within {n : Sizes} {home : Home} (hfile : home.file < n.files) :
    ∀ (ds : List Decl) (owner : Option ClassId) (first : Ids), (∀ i ∈ owner, i < n.classes) →
      ((placeAll home owner first ds).after first).cls ≤ n.classes →
      ((placeAll home owner first ds).after first).function ≤ n.functions →
      (placeAll home owner first ds).Within n
  | [], _, _, _, _, _ => by
    refine ⟨?_, ?_, ?_, ?_⟩ <;> simp [placeAll, Placement.empty]
  | d :: ds, owner, first, howner, hcls, hfun => by
    simp only [placeAll, Placement.append, Placement.after, List.length_append] at hcls hfun
    simp only [placeAll]
    refine (d.place_within hfile owner first howner ?_ ?_).append
      (placeAll_within hfile ds owner _ howner ?_ ?_) <;> simp only [Placement.after] <;> lia

end

end Outline

namespace Project

/-! ## The index of names -/

/-- A name's entry grows by the ids of the entered classes of that name, in order. -/
theorem getD_enter (name : String) :
    ∀ (cs : List ClassDef) (index : Std.TreeMap String (List ClassId)) (first : ClassId),
      (enter index first cs).getD name [] =
        index.getD name [] ++ ((cs.zipIdx first).filter fun c => c.1.name == name).map Prod.snd
  | [], index, first => by simp [enter]
  | c :: cs, index, first => by
    rw [enter, getD_enter name cs, Std.TreeMap.getD_insert]
    by_cases h : c.name = name
    · simp [h]
    · simp [h]

theorem lt_of_mem_enter {name : String} {cs : List ClassDef}
    {index : Std.TreeMap String (List ClassId)} {first i : ClassId}
    (h : i ∈ (enter index first cs).getD name []) :
    i ∈ index.getD name [] ∨ i < first + cs.length := by
  rw [getD_enter, List.mem_append] at h
  refine h.imp_right fun h => ?_
  obtain ⟨⟨c, j⟩, hc, rfl⟩ := List.mem_map.mp h
  exact (List.mem_zipIdx (List.mem_filter.mp hc).1).2.1

/-! ## Looking entries up -/

section

variable {p : Project}

theorem file_eq_ok {i : FileId} {f : SourceFile} : p.file i = .ok f ↔ p.files[i]? = some f := by
  unfold file
  cases p.files[i]? <;> simp

theorem classDef_eq_ok {i : ClassId} {c : ClassDef} :
    p.classDef i = .ok c ↔ p.classes[i]? = some c := by
  unfold classDef
  cases p.classes[i]? <;> simp

theorem function_eq_ok {i : FunctionId} {d : FunctionDef} :
    p.function i = .ok d ↔ p.functions[i]? = some d := by
  unfold function
  cases p.functions[i]? <;> simp

end

/-! ## Closed projects -/

def sizes (p : Project) : Sizes := ⟨p.files.size, p.classes.size, p.functions.size⟩

/-- Every id that is stored anywhere belongs to an entry. -/
structure Closed (p : Project) : Prop where
  files : ∀ f ∈ p.files, f.Within p.sizes
  classes : ∀ c ∈ p.classes, c.Within p.sizes
  functions : ∀ f ∈ p.functions, f.Within p.sizes
  index : ∀ name, ∀ i ∈ p.classesNamed name, i < p.classes.size

theorem closed_empty (root : String) : (empty root).Closed := by
  refine ⟨?_, ?_, ?_, ?_⟩ <;> simp [empty, classesNamed]

/-- The entries that an outline brings into a project. -/
def placed (p : Project) (o : Outline) : Placement :=
  Outline.placeAll ⟨p.files.size, o.package⟩ none p.nextIds o.decls

theorem files_add (p : Project) (o : Outline) :
    (p.add o).files = p.files.push ⟨o.path, o.package, o.imports, (p.placed o).topClasses,
      (p.placed o).topFunctions, o.source⟩ := rfl

theorem classes_add (p : Project) (o : Outline) :
    (p.add o).classes = p.classes ++ (p.placed o).classes.toArray :=
  Array.ext' (by simp [add, placed])

theorem functions_add (p : Project) (o : Outline) :
    (p.add o).functions = p.functions ++ (p.placed o).functions.toArray :=
  Array.ext' (by simp [add, placed])

theorem sizes_add (p : Project) (o : Outline) :
    (p.add o).sizes = ⟨p.files.size + 1, p.classes.size + (p.placed o).classes.length,
      p.functions.size + (p.placed o).functions.length⟩ := by
  simp [sizes, files_add, classes_add, functions_add]

theorem sizes_le_add (p : Project) (o : Outline) : p.sizes.Le (p.add o).sizes := by
  rw [sizes_add]
  exact ⟨Nat.le_add_right _ _, Nat.le_add_right _ _, Nat.le_add_right _ _⟩

theorem placed_within (p : Project) (o : Outline) : (p.placed o).Within (p.add o).sizes := by
  rw [sizes_add]
  exact Outline.placeAll_within (Nat.lt_succ_self _) o.decls none _ (by simp) (Nat.le_refl _)
    (Nat.le_refl _)

theorem Closed.add {p : Project} (h : p.Closed) (o : Outline) : (p.add o).Closed := by
  have le := sizes_le_add p o
  have new := p.placed_within o
  refine ⟨?_, ?_, ?_, ?_⟩
  · intro f hf
    rw [files_add, Array.mem_push] at hf
    rcases hf with hf | rfl
    · exact (h.files f hf).mono le
    · exact ⟨new.topClasses, new.topFunctions⟩
  · intro c hc
    rw [classes_add] at hc
    rcases Array.mem_append.mp hc with hc | hc
    · exact (h.classes c hc).mono le
    · exact new.classes c (List.mem_toArray.mp hc)
  · intro f hf
    rw [functions_add] at hf
    rcases Array.mem_append.mp hf with hf | hf
    · exact (h.functions f hf).mono le
    · exact new.functions f (List.mem_toArray.mp hf)
  · intro name i hi
    rcases lt_of_mem_enter hi with hi | hi
    · exact Nat.lt_of_lt_of_le (h.index name i hi) le.classes
    · rw [classes_add, Array.size_append, List.size_toArray]
      exact hi

theorem Built.closed {p : Project} (built : p.Built) : p.Closed :=
  built.invariant closed_empty fun _ _ o _ _ h => h.add o

end Project

/-! ## A small project -/

namespace Sample

open CallFlow.Tree

def token (text : String) (start : Nat) : Node :=
  .mk ⟨text, false, false, ⟨start, start + text.length⟩⟩ []

def node (kind : String) (start stop : Nat) (children : List Node) : Node :=
  .mk ⟨kind, true, false, ⟨start, stop⟩⟩ children

/-- A call of a function that is named by one letter. -/
def call (start : Nat) : Node :=
  node "call_expression" start (start + 3)
    [node "simple_identifier" start (start + 1) [],
      node "call_suffix" (start + 1) (start + 3)
        [node "value_arguments" (start + 1) (start + 3)
          [token "(" (start + 1), token ")" (start + 2)]]]

/-- Such a function; `calls` says where its calls start. -/
def function (start stop : Nat) (calls : List Nat) : Node :=
  node "function_declaration" start stop
    [token "fun" start, node "simple_identifier" (start + 4) (start + 5) [],
      node "function_value_parameters" (start + 5) (start + 7)
        [token "(" (start + 5), token ")" (start + 6)],
      node "function_body" (start + 8) stop
        [token "\x7b" (start + 8), node "statements" (start + 10) (stop - 2) (calls.map call),
          token "\x7d" (stop - 1)]]

/-- Three functions that call each other in circles, and names that belong to none. -/
def source : Source where
  path := "Sample.kt"
  text := "fun a() \x7b b(); x(); c() \x7d\n" ++ "fun b() \x7b c(); a() \x7d\n" ++
    "fun c() \x7b y(); b() \x7d\n"
  tree := some (node "source_file" 0 68
    [function 0 25 [10, 15, 20], function 26 46 [36, 41], function 47 67 [57, 62]])

def project : Project := (Project.empty ".").offer source

theorem built : project.Built := .offer (.empty ".") source

theorem entry : 0 < project.functions.size := by decide

/-- A class with a parameter, a documented class and a companion inside, a property. -/
def nestedTree : Node :=
  node "source_file" 0 108
    [node "class_declaration" 0 107
      [token "class" 0, node "type_identifier" 6 7 [],
        node "primary_constructor" 7 17
          [token "(" 7,
            node "class_parameter" 8 16
              [node "binding_pattern_kind" 8 11 [token "val" 8], node "simple_identifier" 12 13 [],
                token ":" 13, node "user_type" 15 16 [node "type_identifier" 15 16 []]],
            token ")" 16],
        node "class_body" 18 107
          [token "\x7b" 18, node "line_comment" 22 26 [],
            node "class_declaration" 29 56
              [token "class" 29, node "type_identifier" 35 36 [],
                node "class_body" 37 56 [token "\x7b" 37, function 39 54 [49], token "\x7d" 55]],
            node "companion_object" 59 75 [token "companion" 59, token "object" 69],
            node "property_declaration" 78 87
              [node "binding_pattern_kind" 78 81 [token "val" 78],
                node "variable_declaration" 82 83 [node "simple_identifier" 82 83 []],
                token "=" 84, node "integer_literal" 86 87 []],
            function 90 105 [100], token "\x7d" 106]]]

def nested : Source where
  path := "Nested.kt"
  text := "class A(val x: B) \x7b\n" ++ "  // b\n" ++
    "  class B \x7b fun f() \x7b g() \x7d \x7d\n" ++ "  companion object\n" ++
    "  val y = 1\n" ++ "  fun g() \x7b x() \x7d\n" ++ "\x7d\n"
  tree := some nestedTree

/-- A function behind two lines of comment, each with a character of two bytes. -/
def accented : Source where
  path := "Accented.kt"
  text := "// é\n" ++ "// ü\n" ++ "fun a() \x7b b() \x7d\n"
  tree := some (node "source_file" 0 28
    [node "line_comment" 0 5 [], node "line_comment" 6 11 [], function 12 27 [22]])

/-- A class with a property of a class that is declared elsewhere, and a call through it. -/
def caller : Source where
  path := "A.kt"
  text := "class A(val b: B) \x7b fun f() = b.g() \x7d\n"
  tree := some (node "source_file" 0 38
    [node "class_declaration" 0 37
      [token "class" 0, node "type_identifier" 6 7 [],
        node "primary_constructor" 7 17
          [token "(" 7,
            node "class_parameter" 8 16
              [node "binding_pattern_kind" 8 11 [token "val" 8], node "simple_identifier" 12 13 [],
                token ":" 13, node "user_type" 15 16 [node "type_identifier" 15 16 []]],
            token ")" 16],
        node "class_body" 18 37
          [token "\x7b" 18,
            node "function_declaration" 20 35
              [token "fun" 20, node "simple_identifier" 24 25 [],
                node "function_value_parameters" 25 27 [token "(" 25, token ")" 26],
                node "function_body" 28 35
                  [token "=" 28,
                    node "call_expression" 30 35
                      [node "navigation_expression" 30 33
                        [node "simple_identifier" 30 31 [],
                          node "navigation_suffix" 31 33
                            [token "." 31, node "simple_identifier" 32 33 []]],
                        node "call_suffix" 33 35
                          [node "value_arguments" 33 35 [token "(" 33, token ")" 34]]]]],
            token "\x7d" 36]]])

def callee : Source where
  path := "B.kt"
  text := "class B \x7b fun g() \x7b h() \x7d \x7d\n"
  tree := some (node "source_file" 0 28
    [node "class_declaration" 0 27
      [token "class" 0, node "type_identifier" 6 7 [],
        node "class_body" 8 27 [token "\x7b" 8, function 10 25 [20], token "\x7d" 26]]])

def unrelated : Source where
  path := "C.kt"
  text := "class C\n"
  tree := some (node "source_file" 0 8
    [node "class_declaration" 0 7 [token "class" 0, node "type_identifier" 6 7 []]])

/-- Two files, the first of which calls into the second. -/
def pair : Project := ((Project.empty ".").offer caller).offer callee

theorem pair_built : pair.Built := .offer (.offer (.empty ".") caller) callee

end Sample

end CallFlow
