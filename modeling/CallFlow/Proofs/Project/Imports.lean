import CallFlow.Proofs.Project.Candidates
import CallFlow.Proofs.Project.Index
import CallFlow.Proofs.Project.Ownership

/-! Imports against the full names of classes. A class is looked up by its package and its simple
name, and a class inside another one has the package of its file. Main statements: an import leads
to the class that it names if that class lies in no other one and comes first among those of its
package and name, or if no class with its simple name and another full name is come upon before; and
it need not lead there otherwise. -/

namespace CallFlow

open CallFlow.Text (lastSegment qualifierOf firstSegment segments)

/-! ## What an import promises -/

namespace Import

/-- By the import, the qualifier in the first place stands for the full name in the second. -/
inductive Names (i : Import) : String → String → Prop where
  | simple (kept : i.renamed = none) : Names i (lastSegment i.path) i.path
  | renamed {name : String} (renamed : i.renamed = some name) : Names i name i.path
  | inner {name : String} (rest : String) (renamed : i.renamed = some name) :
    Names i (name ++ "." ++ rest) (i.path ++ "." ++ rest)

/-- As `Names`, for what the import says by itself. The name that it gives to a class is one
segment, and behind that stands at most one more. -/
inductive Reaches (i : Import) : String → String → Prop where
  | simple (kept : i.renamed = none) : Reaches i (lastSegment i.path) i.path
  | renamed {name : String} (renamed : i.renamed = some name) (one : '.' ∉ name.toList)
    (legible : name ≠ "") : Reaches i name i.path
  | member {name rest : String} (renamed : i.renamed = some name) (one : '.' ∉ name.toList)
    (last : '.' ∉ rest.toList) (other : ¬ segments (name ++ "." ++ rest) <:+ segments i.path) :
    Reaches i (name ++ "." ++ rest) (i.path ++ "." ++ rest)

end Import

namespace SourceFile

open Text

/-- The import sends the qualifier to the package and the simple name of the class it stands for. -/
theorem viaImport_of_reaches {i : Import} {q full : String} (h : i.Reaches q full) :
    viaImport q i = some (qualifierOf full, lastSegment full) := by
  unfold viaImport
  dsimp only
  cases h with
  | simple kept =>
    have last := lastSegment_of_not_mem (not_mem_lastSegment i.path)
    rw [last]
    split
    · rfl
    · rename_i longer
      have dotted : '.' ∈ i.path.toList := by
        by_contra plain
        exact longer (by simp [lastSegment_of_not_mem plain])
      rw [beforeName?_eq_some_iff.mpr (eq_of_dotted dotted)]
  | renamed renamed one legible =>
    rw [lastSegment_of_not_mem one, firstSegment_of_not_mem one]
    split
    · rename_i same
      rw [beq_iff_eq] at same
      rw [same, lastSegment_of_not_mem one]
    · split
      · rename_i package ends
        rw [beforeName?_eq_some_iff] at ends
        rw [ends, qualifierOf_append one, lastSegment_append, lastSegment_of_not_mem one]
      · have plain : ¬ isDotted q = true := by rwa [isDotted_iff]
        rw [if_pos (by simp [renamed]), if_neg plain]
  | @member name rest renamed one last other =>
    have dotted : isDotted (name ++ "." ++ rest) = true := by
      rw [isDotted_iff]
      simp
    have path : ¬ (i.path == name ++ "." ++ rest) = true := by
      intro same
      rw [beq_iff_eq] at same
      exact other (same ▸ List.suffix_refl _)
    rw [if_neg path, beforeName?_eq, if_neg (fun h => other h.1), firstSegment_append one,
      qualifierOf_append last, lastSegment_append, lastSegment_append, lastSegment_of_not_mem last]
    simp [renamed, dotted]

theorem head?_candidates_of_reaches {f : SourceFile} {i : Import} {q full : String}
    (only : (f.imports.filter fun i => !i.wildcard) = [i]) (h : i.Reaches q full) :
    (f.candidates q).head? = some (qualifierOf full, lastSegment full) := by
  unfold candidates distinct
  simp only [only, List.filterMap_cons, viaImport_of_reaches h, List.filterMap_nil,
    List.cons_append, distinctBeyond]
  rfl

/-- The turn at which a package is looked in for a qualifier: first that to which an import of a
single class leads, then the one that is written, that of the file and those of its imports of whole
packages. All other packages are looked through together, at the last turn. -/
def turn (f : SourceFile) (qualifier package : String) : Nat :=
  ((f.candidates qualifier).map Prod.fst).idxOf package

end SourceFile

/-! ## Full names -/

namespace Project

variable {p : Project}

/-- The package of a class, if it has one, and the names from the outermost class down to it. -/
def fullName (p : Project) (c : ClassId) : Except Fault String := do
  let d ← p.classDef c
  let name ← p.qualifiedClass c
  return if d.package = "" then name else d.package ++ "." ++ name

theorem fullName_of_top {c : ClassId} {d : ClassDef} (hc : p.classes[c]? = some d)
    (top : d.parent = none) :
    p.fullName c = .ok (if d.package = "" then d.name else d.package ++ "." ++ d.name) := by
  have found := classDef_eq_ok.mpr hc
  have name : p.qualifiedClass c = .ok d.name := by
    unfold qualifiedClass namesDownTo
    rw [found]
    simp only [bind, Except.bind, top]
    rfl
  unfold fullName
  rw [found, name]
  rfl

/-- The names down to a class end in its own. -/
theorem namesDownTo_eq_ok {depth : Nat} {c : ClassId} {d : ClassDef} {names : List String}
    (hc : p.classes[c]? = some d) (h : p.namesDownTo depth c = .ok names) :
    ∃ outer, names = outer ++ [d.name] := by
  cases depth with
  | zero => cases h
  | succ depth =>
    rw [namesDownTo, classDef_eq_ok.mpr hc] at h
    simp only [bind, Except.bind] at h
    split at h
    · cases h
      exact ⟨[], rfl⟩
    · split at h
      · cases h
      · cases h
        exact ⟨_, rfl⟩

theorem lastSegment_of_fullName {c : ClassId} {d : ClassDef} {full : String}
    (hc : p.classes[c]? = some d) (plain : '.' ∉ d.name.toList) (h : p.fullName c = .ok full) :
    lastSegment full = d.name := by
  have own := Text.lastSegment_of_not_mem plain
  obtain ⟨d', hd, h⟩ := bind_eq_ok.mp h
  obtain ⟨name, hn, h⟩ := bind_eq_ok.mp h
  obtain ⟨names, hs, hn⟩ := bind_eq_ok.mp hn
  cases hn
  cases h
  obtain ⟨outer, rfl⟩ := namesDownTo_eq_ok hc hs
  have qualified : lastSegment (".".intercalate (outer ++ [d.name])) = d.name := by
    cases outer with
    | nil => exact own
    | cons o outer =>
      rw [String.intercalate_append_of_ne_nil (by simp) (by simp), Text.lastSegment_append]
      exact own
  split
  · exact qualified
  · rw [Text.lastSegment_append, qualified]

/-! ## Looking up by an import -/

/-- The class lies in no other one, and neither does any in front of it that has the same package
and the same name. -/
def Foremost (p : Project) (c : ClassId) : Prop :=
  ∀ d ∈ p.classes[c]?, ∀ j ≤ c, ∀ e ∈ p.classes[j]?,
    e.package = d.package → e.name = d.name → e.parent = none

instance (p : Project) (c : ClassId) : Decidable (p.Foremost c) :=
  inferInstanceAs (Decidable (∀ d ∈ p.classes[c]?, ∀ j ≤ c, ∀ e ∈ p.classes[j]?, _))

/-- All classes with the simple name of `c` and another full name come behind it: their package has
a later turn, or the same one and they have a greater id. -/
def Unhindered (p : Project) (f : SourceFile) (qualifier full : String) (c : ClassId) : Prop :=
  ∀ d ∈ p.classes[c]?, ∀ j < p.classes.size, ∀ e ∈ p.classes[j]?, e.name = d.name →
    p.fullName j ≠ .ok full → f.turn qualifier d.package < f.turn qualifier e.package ∨
      f.turn qualifier d.package = f.turn qualifier e.package ∧ c < j

instance (p : Project) (f : SourceFile) (qualifier full : String) (c : ClassId) :
    Decidable (p.Unhindered f qualifier full c) :=
  inferInstanceAs (Decidable (∀ d ∈ p.classes[c]?, ∀ j < p.classes.size, ∀ e ∈ p.classes[j]?, _))

/-- A class that passes a test is not in front of the first one that does. -/
theorem exists_findIdx? (test : ClassDef → Bool) {c : ClassId} {d : ClassDef}
    (hc : p.classes[c]? = some d) (h : test d = true) :
    ∃ j e, p.classes.findIdx? test = some j ∧ j ≤ c ∧ p.classes[j]? = some e ∧ test e = true := by
  obtain ⟨hlt, self⟩ := Array.getElem?_eq_some_iff.mp hc
  have some : (p.classes.findIdx? test).isSome = true := by
    rw [Array.findIdx?_isSome, Array.any_eq_true']
    exact ⟨d, Array.mem_of_getElem? hc, h⟩
  obtain ⟨j, hj⟩ := Option.isSome_iff_exists.mp some
  obtain ⟨inside, passes, first⟩ := Array.findIdx?_eq_some_iff_getElem.mp hj
  refine ⟨j, p.classes[j], hj, ?_, Array.getElem?_eq_getElem inside, passes⟩
  by_contra later
  exact first c (Nat.lt_of_not_le later) (by rwa [self])

theorem scanIn_of_reaches {f : SourceFile} {i : Import} {q full : String} {c : ClassId}
    {d : ClassDef} (only : (f.imports.filter fun i => !i.wildcard) = [i])
    (reaches : i.Reaches q full) (hc : p.classes[c]? = some d) (plain : '.' ∉ d.name.toList)
    (hfull : p.fullName c = .ok full) (foremost : p.Foremost c) :
    ∃ found, p.scanIn f q = some found ∧ p.fullName found.cls = .ok full := by
  have fore := foremost d hc
  have named := (fullName_of_top hc (fore c (Nat.le_refl c) d hc rfl rfl)).symm.trans hfull
  have package : qualifierOf full = d.package := by
    cases named
    split
    · rename_i none
      rw [Text.qualifierOf_of_not_mem plain, none]
    · exact Text.qualifierOf_append plain
  have name := lastSegment_of_fullName hc plain hfull
  -- the class itself fits, so that the first place that is looked in has one
  obtain ⟨j, e, hj, le, he, fits⟩ := exists_findIdx?
    (fun e => e.name == lastSegment full && e.package == qualifierOf full) hc
    (by simp [package, name])
  simp only [Bool.and_eq_true, beq_iff_eq, name, package] at fits
  refine ⟨.byPackage (qualifierOf full) j, ?_, ?_⟩
  · obtain ⟨rest, hrest⟩ := List.head?_eq_some_iff.mp
      (SourceFile.head?_candidates_of_reaches only reaches)
    rw [scanIn, hrest, List.findSome?_cons]
    simp only [hj, Option.map_some, Option.some_or]
  · have top := fore j le e he fits.2 fits.1
    rw [Lookup.cls, fullName_of_top he top, ← named, fits.1, fits.2]

/-- What is found comes first, by the turn of its package and then by its id. The induction is on
the places that are left to look in. -/
theorem exists_first {name : String} {c : ClassId} {d : ClassDef} (hc : p.classes[c]? = some d)
    (hd : d.name = name) : ∀ {places : List Candidate}, (∀ place ∈ places, place.2 = name) →
      ∃ found e, (places.findSome? fun place => (p.classes.findIdx? fun e =>
          e.name == place.2 && e.package == place.1).map (Lookup.byPackage place.1)).or
            ((p.classes.findIdx? fun e => e.name == name).map .byName) = some found ∧
        p.classes[found.cls]? = some e ∧ e.name = name ∧
        ((places.map Prod.fst).idxOf e.package < (places.map Prod.fst).idxOf d.package ∨
          (places.map Prod.fst).idxOf e.package = (places.map Prod.fst).idxOf d.package ∧
            found.cls ≤ c)
  | [], _ => by
    obtain ⟨j, e, hj, le, he, fits⟩ :=
      exists_findIdx? (fun e => e.name == name) hc (beq_iff_eq.mpr hd)
    exact ⟨.byName j, e, by simp [hj], he, beq_iff_eq.mp fits, .inr ⟨rfl, le⟩⟩
  | place :: places, names => by
    obtain ⟨here, names⟩ := List.forall_mem_cons.mp names
    have hit {k : ClassId} {e : ClassDef} (he : p.classes[k]? = some e) (named : e.name = name)
        (package : place.1 = e.package) := exists_findIdx?
      (fun e => e.name == place.2 && e.package == place.1) he (by simp [named, here, package])
    rw [List.findSome?_cons, List.map_cons]
    cases first : p.classes.findIdx? fun e => e.name == place.2 && e.package == place.1 with
    | some j =>
      obtain ⟨inside, fits, _⟩ := Array.findIdx?_eq_some_iff_getElem.mp first
      simp only [Bool.and_eq_true, beq_iff_eq] at fits
      refine ⟨.byPackage place.1 j, p.classes[j], rfl, Array.getElem?_eq_getElem inside,
        fits.1.trans here, ?_⟩
      rw [fits.2, List.idxOf_cons_self]
      by_cases same : place.1 = d.package
      · obtain ⟨_, _, again, le, _⟩ := hit hc hd same
        rw [← same, List.idxOf_cons_self]
        exact .inr ⟨rfl, Option.some.inj (first.symm.trans again) ▸ le⟩
      · rw [List.idxOf_cons_ne _ same]
        exact .inl (Nat.succ_pos _)
    | none =>
      -- none of the two is in this place, where it would have been found
      have missed {k : ClassId} {e : ClassDef} (he : p.classes[k]? = some e)
          (named : e.name = name) : place.1 ≠ e.package := by
        intro package
        obtain ⟨_, _, again, _⟩ := hit he named package
        exact absurd (first.symm.trans again) (by simp)
      obtain ⟨found, e, hfound, he, named, order⟩ := exists_first hc hd names
      refine ⟨found, e, hfound, he, named, ?_⟩
      rw [List.idxOf_cons_ne _ (missed he named), List.idxOf_cons_ne _ (missed hc hd)]
      exact order.imp Nat.succ_lt_succ fun h => ⟨congrArg Nat.succ h.1, h.2⟩

theorem scanIn_of_unhindered {f : SourceFile} {i : Import} {q full : String} {c : ClassId}
    {d : ClassDef} (only : (f.imports.filter fun i => !i.wildcard) = [i])
    (other : i.renamed ≠ some q) (hc : p.classes[c]? = some d) (name : lastSegment q = d.name)
    (unhindered : p.Unhindered f q full c) :
    ∃ found, p.scanIn f q = some found ∧ p.fullName found.cls = .ok full := by
  have names : ∀ place ∈ f.candidates q, place.2 = lastSegment q := by
    intro place h
    rcases SourceFile.snd_of_mem_candidates h with simple | ⟨i', hi, renamed, _⟩
    · exact simple
    · rw [only, List.mem_singleton] at hi
      exact absurd (hi ▸ renamed) other
  obtain ⟨found, e, hfound, he, named, first⟩ := exists_first hc name.symm names
  refine ⟨found, hfound, ?_⟩
  by_contra rival
  have inside := (Array.getElem?_eq_some_iff.mp he).1
  -- the rival would be behind `c`, but it comes first
  rcases unhindered d hc found.cls inside e he (named.trans name) rival with sooner | ⟨same, less⟩
  · exact absurd sooner (Nat.not_lt.mpr (first.elim Nat.le_of_lt fun h => Nat.le_of_eq h.1))
  · rcases first with earlier | ⟨_, le⟩
    · exact absurd same.symm (Nat.ne_of_lt earlier)
    · exact absurd less (Nat.not_lt.mpr le)

theorem lastSegment_of_names {i : Import} {q full : String} (h : i.Names q full)
    (other : i.renamed ≠ some q) : lastSegment q = lastSegment full := by
  cases h with
  | simple kept => exact Text.lastSegment_of_not_mem (Text.not_mem_lastSegment i.path)
  | renamed renamed => exact absurd renamed other
  | inner rest renamed => rw [Text.lastSegment_append, Text.lastSegment_append]

theorem ne_empty_of_reaches {i : Import} {q full : String} (h : i.Reaches q full)
    (last : lastSegment full ≠ "") : q ≠ "" := by
  cases h with
  | simple kept => exact last
  | renamed renamed one legible => exact legible
  | member renamed one rest other =>
    intro empty
    have length := congrArg (fun s => s.toList.length) empty
    simp at length

end Project

/-! ## Small projects with imports -/

namespace Sample

open CallFlow.Tree

/-- A class without a body that is named by one letter. -/
def plainClass (start : Nat) : Node :=
  node "class_declaration" start (start + 7)
    [token "class" start, node "type_identifier" (start + 6) (start + 7) []]

/-- An import at the start of a file. The path has the given number of letters between dots, and
behind it may stand one letter as a name. -/
def importLine (letters : Nat) (renamed : Bool) : Node :=
  let path := 6 + 2 * letters
  let stop := if renamed then path + 5 else path
  let name := node "import_alias" (path + 1) stop
    [token "as" (path + 1), node "type_identifier" (path + 4) stop []]
  node "import_list" 0 stop
    [node "import_header" 0 stop
      ([token "import" 0,
        node "identifier" 7 path ((List.range letters).map fun k =>
          node "simple_identifier" (7 + 2 * k) (8 + 2 * k) [])] ++
        if renamed then [name] else [])]

/-- Such an import and a class behind it. -/
def importer (text : String) (letters : Nat) (renamed : Bool) : Source where
  path := "A.kt"
  text := text
  tree :=
    let line := importLine letters renamed
    some (node "source_file" 0 (line.span.stop + 9) [line, plainClass (line.span.stop + 1)])

/-- A package that is named by one letter. -/
def packageLine : Node :=
  node "package_header" 0 9
    [token "package" 0, node "identifier" 8 9 [node "simple_identifier" 8 9 []]]

/-- A package with a class in a class, and perhaps another one behind. -/
def packaged (text : String) (more : List Nat) : Source where
  path := "B.kt"
  text := text
  tree := some (node "source_file" 0 text.length
    ([packageLine,
      node "class_declaration" 10 33
        [token "class" 10, node "type_identifier" 16 17 [],
          node "class_body" 18 33 [token "\x7b" 18, plainClass 24, token "\x7d" 32]]] ++
      more.map plainClass))

def inOuter : Source := packaged "package a\nclass B \x7b\n    class C\n\x7d\n" []

def inOuterAndBehind : Source :=
  packaged "package a\nclass B \x7b\n    class C\n\x7d\nclass C\n" [34]

/-- The file has a class of the same name as the one it imports. -/
def importTop : Project :=
  ((Project.empty ".").offer (importer "import a.B\nclass B\n" 2 false)).offer inOuter

/-- A class of another package. -/
def elsewhere : Source where
  path := "C.kt"
  text := "package z\nclass C\n"
  tree := some (node "source_file" 0 18 [packageLine, plainClass 10])

/-- The imported class lies in another one, and behind it a class of another package has its
name. -/
def importFirst : Project :=
  (((Project.empty ".").offer inOuter).offer (importer "import a.B.C\nclass A\n" 3 false)).offer
    elsewhere

/-- The imported class lies in another one, and the file has a class of the same name. -/
def importInner : Project :=
  ((Project.empty ".").offer (importer "import a.B.C\nclass C\n" 3 false)).offer inOuter

/-- In front of the imported class its package has one of the same name in another class. -/
def importBehind : Project :=
  ((Project.empty ".").offer (importer "import a.C\nclass A\n" 2 false)).offer inOuterAndBehind

/-- The imported class lies in another one and is given a name. -/
def importRenamed : Project :=
  ((Project.empty ".").offer (importer "import a.B.C as D\nclass A\n" 3 true)).offer inOuter

end Sample

namespace Project

/-- The imports of single classes in a file. -/
def singleImports (p : Project) (file : FileId) : Option (List Import) :=
  p.files[file]?.map fun f => f.imports.filter fun i => !i.wildcard

/-- In each file with one import of a single class, each qualifier for which the import gives the
full name of a class means a class of that full name. -/
def ImportsFollowed (p : Project) : Prop :=
  ∀ file i q full c, p.singleImports file = some [i] → i.Names q full → p.fullName c = .ok full →
    ∃ found, p.lookup file q = .ok (some found) ∧ p.fullName found.cls = .ok full

/-- An import is not followed if another class is found, or none. -/
theorem not_importsFollowed {p : Project} (file : FileId) (c : ClassId) (found : Option Lookup)
    {i : Import} {q full : String} (names : i.Names q full)
    (facts : p.singleImports file = some [i] ∧ p.fullName c = .ok full ∧
      p.lookup file q = .ok found ∧ ∀ l ∈ found, p.fullName l.cls ≠ .ok full) :
    ¬ p.ImportsFollowed := by
  obtain ⟨single, hfull, lookup, wrong⟩ := facts
  intro followed
  obtain ⟨l, hl, right⟩ := followed file i q full c single names hfull
  exact wrong l (Except.ok.inj (lookup.symm.trans hl)) right

end Project

end CallFlow
