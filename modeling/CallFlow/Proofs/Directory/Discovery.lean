import CallFlow.Directory.Build
import CallFlow.Proofs.Text.Casing
import CallFlow.Proofs.Text.Encoding
import CallFlow.Proofs.Text.Segments
import Mathlib.Data.List.Nodup

/-! The source files of a directory. Main statement: which files are found, and in which order,
depends on the set of files below the directory alone. Paths are in a total order, so a set of files
stands in order in one way only, and sorting keeps the set. -/

namespace CallFlow

/-! ## Extensions -/

/-- The file name ends in `ext` behind its last dot. A dot at the very front is none. The bytes in
front of it need not be a text. -/
def Path.EndsIn (path : Path) (ext : List Char) : Prop :=
  ∃ name stem, path.getLast? = some name ∧ stem ≠ [] ∧ name = stem ++ dot :: Text.encode ext ∧
    '.' ∉ ext

/-- The file name ends in one of the extensions, up to the case of ASCII letters. -/
def Path.HasExtension (path : Path) (extensions : List String) : Prop :=
  ∃ ext, path.EndsIn ext ∧ ∃ x ∈ extensions, List.Forall₂ Text.SameLetter x.toList ext

theorem extension?_eq_some_iff {name ext : FileName} : extension? name = some ext ↔
    ∃ stem, stem ≠ [] ∧ name = stem ++ dot :: ext ∧ dot ∉ ext := by
  have backwards (stem ext : FileName) : name = stem ++ dot :: ext ↔
      name.reverse = ext.reverse ++ dot :: stem.reverse := by
    rw [← List.reverse_inj]
    simp
  unfold extension?
  constructor
  · intro h
    by_cases dotted : dot ∈ name.reverse
    · obtain ⟨rest, drop, cut⟩ := Text.exists_eq_takeWhile_ne dotted
      simp only [drop] at h
      cases rest with
      | nil => cases h
      | cons c rest =>
        obtain rfl := Option.some.inj h
        refine ⟨(c :: rest).reverse, by simp, ?_, ?_⟩
        · rw [backwards, List.reverse_reverse, List.reverse_reverse]
          exact cut
        · rw [List.mem_reverse]
          exact Text.not_mem_takeWhile_ne dot _
    · have none : name.reverse.dropWhile (· ≠ dot) = [] :=
        List.dropWhile_eq_nil_iff.mpr
          (List.takeWhile_eq_self_iff.mp (Text.takeWhile_ne_of_not_mem dotted))
      simp only [none] at h
      cases h
  · intro h
    obtain ⟨stem, some, eq, dotless⟩ := h
    have dotless : dot ∉ ext.reverse := mt List.mem_reverse.mp dotless
    obtain ⟨c, cs, more⟩ := List.exists_cons_of_ne_nil (mt List.reverse_eq_nil_iff.mp some)
    simp only [(backwards _ _).mp eq, Text.takeWhile_ne_append dotless,
      Text.dropWhile_ne_append dotless, more, List.reverse_reverse]

/-- An extension that is no text is not one that a path ends in. -/
theorem bind_extension?_eq_some_iff {path : Path} {ext : List Char} :
    (path.getLast?.bind extension?).bind Text.decode? = some ext ↔ path.EndsIn ext := by
  have dotless : dot ∉ Text.encode ext ↔ '.' ∉ ext := not_congr (Text.mem_encode rfl (by decide))
  simp only [Option.bind_eq_some_iff, extension?_eq_some_iff, Text.decode?_eq_some_iff]
  constructor
  · intro h
    obtain ⟨_, ⟨name, last, stem, some, eq, clear⟩, rfl⟩ := h
    exact ⟨name, stem, last, some, eq, dotless.mp clear⟩
  · intro h
    obtain ⟨name, stem, last, some, eq, clear⟩ := h
    exact ⟨_, ⟨name, last, stem, some, eq, dotless.mpr clear⟩, rfl⟩

theorem isSource_iff {extensions : List String} {path : Path} :
    isSource extensions path = true ↔ path.HasExtension extensions := by
  unfold isSource
  constructor
  · intro h
    split at h
    · rename_i ext found
      obtain ⟨x, hx, same⟩ := List.any_eq_true.mp h
      exact ⟨ext, bind_extension?_eq_some_iff.mp found, x, hx, Text.sameAscii_iff.mp same⟩
    · cases h
  · intro h
    obtain ⟨ext, ends, x, hx, same⟩ := h
    rw [bind_extension?_eq_some_iff.mpr ends]
    exact List.any_eq_true.mpr ⟨x, hx, Text.sameAscii_iff.mpr same⟩

/-! ## The order of paths -/

namespace Path

/-- Paths are compared name by name, and names byte by byte. -/
def Before (a b : Path) : Prop := a < b

theorem le_iff {a b : Path} : Path.le a b = true ↔ ¬ b.Before a := by
  simp [Path.le, Before]

theorem Before.asymm {a b : Path} (h : a.Before b) : ¬ b.Before a := List.lt_asymm h

theorem eq_of_not_before {a b : Path} (h : ¬ a.Before b) (h' : ¬ b.Before a) : a = b :=
  List.le_antisymm h' h

theorem le_trans {a b c : Path} (h : Path.le a b = true) (h' : Path.le b c = true) :
    Path.le a c = true := by
  rw [Path.le_iff] at *
  exact List.le_trans h h'

theorem le_total (a b : Path) : (Path.le a b || Path.le b a) = true := by
  rw [Bool.or_eq_true, Path.le_iff, Path.le_iff, ← not_and_or]
  exact fun both => both.1.asymm both.2

end Path

/-! ## Files that are found -/

namespace Directory

/-- The files of the directory that have one of the extensions, each once and in order. -/
structure Finds (d : Directory) (extensions : List String) (found : List (Path × Document)) :
    Prop where
  files : ∀ f, f ∈ found ↔ f ∈ d.files ∧ f.1.HasExtension extensions
  once : (found.map Prod.fst).Nodup
  ascending : (found.map Prod.fst).Pairwise Path.Before

variable {d d' : Directory} {extensions : List String} {found found' : List (Path × Document)}

theorem mem_discover {f : Path × Document} : f ∈ d.discover extensions ↔
    f ∈ d.files ∧ f.1.HasExtension extensions := by
  rw [discover, (List.mergeSort_perm _ _).mem_iff, List.mem_filter, isSource_iff]

theorem discover_finds (once : (d.files.map Prod.fst).Nodup) (extensions : List String) :
    d.Finds extensions (d.discover extensions) := by
  have perm : (d.discover extensions).Perm (d.files.filter fun f => isSource extensions f.1) :=
    List.mergeSort_perm _ _
  have sorted : ((d.discover extensions).map Prod.fst).Pairwise fun a b => Path.le a b = true := by
    refine List.pairwise_map.mpr (List.pairwise_mergeSort (fun f g h => ?_) (fun f g => ?_) _)
    · exact Path.le_trans
    · exact Path.le_total f.1 g.1
  have apart : ((d.discover extensions).map Prod.fst).Nodup := by
    rw [(perm.map Prod.fst).nodup_iff]
    exact once.sublist (List.filter_sublist.map _)
  constructor
  case files => exact fun _ => mem_discover
  case once => exact apart
  case ascending =>
    -- What is not behind and not the same is before.
    refine (sorted.and apart).imp fun h => ?_
    by_contra no
    exact h.2 (Path.eq_of_not_before no (Path.le_iff.mp h.1))

/-- A set of files is in order in one way only. -/
theorem Finds.unique (h : d.Finds extensions found) (h' : d'.Finds extensions found')
    (same : ∀ f, f ∈ d'.files ↔ f ∈ d.files) : found' = found := by
  have perm : found'.Perm found := by
    have apart := List.Nodup.of_map Prod.fst h.once
    have apart' := List.Nodup.of_map Prod.fst h'.once
    refine (List.perm_ext_iff_of_nodup apart' apart).mpr fun f => ?_
    rw [h'.files, h.files, same]
  refine List.Perm.eq_of_pairwise ?_ (List.pairwise_map.mp h'.ascending)
    (List.pairwise_map.mp h.ascending) perm
  intro f g _ _ before behind
  exact absurd behind before.asymm

/-- What is found in a directory, and what is built of it, depends on the files that it has and not
on the order in which they were read. -/
theorem discover_ignores_order (d d' : Directory) (extensions : List String)
    (once : (d.files.map Prod.fst).Nodup) (once' : (d'.files.map Prod.fst).Nodup)
    (same : ∀ f, f ∈ d'.files ↔ f ∈ d.files) :
    d'.discover extensions = d.discover extensions ∧
    (∀ found, d.Finds extensions found ↔ found = d.discover extensions) ∧
    (d'.name = d.name → d'.build extensions = d.build extensions) := by
  have finds := discover_finds once extensions
  have eq := finds.unique (discover_finds once' extensions) same
  refine ⟨eq, fun found => ⟨fun h => finds.unique h fun _ => Iff.rfl, ?_⟩, fun name => ?_⟩
  · intro h
    rw [h]
    exact finds
  · unfold build display
    rw [eq, name]

end Directory

namespace Sample

/-- A name that is no text, with an extension that is one. -/
def garbledName : FileName := 0xFF :: FileName.ofText ".kt"

/-- Files in the order of their paths, which is not that of the written paths: there a dash and a
dot are before the slash. The first file has no extension, and that of the last is no text. -/
def sorted : Directory where
  name := "/src"
  files := (([".kt", "B.KT", "a/b.kt", "a-b.kt", "a.kt", "notes.txt", "é.Kt"].map Path.ofWritten) ++
    [[garbledName], [garbledName ++ [0xFF]]]).map fun path => (path, ⟨.ok [], none⟩)

theorem discover_sorted :
    sorted.discover ["kt"] = sorted.files.filter fun f => isSource ["kt"] f.1 :=
  List.mergeSort_of_pairwise (by decide +kernel)

end Sample

/-- The same files are found if they are read the other way round. -/
theorem Directory.discover_ignores_order_reversed :
    let d : Directory := ⟨"/src", Sample.sorted.files.reverse⟩
    (Sample.sorted.files.map Prod.fst).Nodup ∧ (d.files.map Prod.fst).Nodup ∧
    (∀ f, f ∈ d.files ↔ f ∈ Sample.sorted.files) ∧
    (d.discover ["kt"]).map Prod.fst =
      (["B.KT", "a/b.kt", "a-b.kt", "a.kt", "é.Kt"].map Path.ofWritten) ++
        [[Sample.garbledName]] ∧
    d.build ["kt"] = Sample.sorted.build ["kt"] := by
  intro d
  have once : (Sample.sorted.files.map Prod.fst).Nodup := by decide +kernel
  have once' : (d.files.map Prod.fst).Nodup := by decide +kernel
  have same : ∀ f, f ∈ d.files ↔ f ∈ Sample.sorted.files := fun _ => List.mem_reverse
  obtain ⟨eq, -, built⟩ := discover_ignores_order Sample.sorted d ["kt"] once once' same
  refine ⟨once, once', same, ?_, built rfl⟩
  rw [eq, Sample.discover_sorted]
  decide +kernel

end CallFlow
