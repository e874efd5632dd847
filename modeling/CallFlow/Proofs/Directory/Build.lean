import CallFlow.Directory.Build
import CallFlow.Proofs.Flow.Safety
import CallFlow.Proofs.Project.Contribution
import CallFlow.Proofs.Text.Encoding
import Mathlib.Algebra.Ring.Nat

/-! The project of a directory and what is counted on the way. Main statement: the files that
are readable and not refused make the same project in memory, without the others and in the
order of discovery, and the numbers of the build are those of its files. One step of the build
adds a file in one of three ways; a run adds these steps up. -/

namespace CallFlow

/-! ## Files as sources -/

/-- The file under this path as a source, if it can be read at all. -/
def Document.source? (doc : Document) (path : String) : Option Source :=
  match doc.content with
  | .ok bytes => some ⟨path, String.ofList (Text.decode bytes).1, doc.tree⟩
  | .error _ => none

/-- The file can be read, but its bytes are no text. -/
def Document.garbled (doc : Document) : Bool :=
  match doc.content with
  | .ok bytes => !decide (Text.IsUtf8 bytes)
  | .error _ => false

def sourcesOf (files : List (String × Document)) : List Source :=
  files.filterMap fun f => f.2.source? f.1

namespace Directory

/-- The files that are found, under the paths that reports have for them. -/
def found (d : Directory) (extensions : List String) : List (String × Document) :=
  (d.discover extensions).map fun f => (plainPath (d.display f.1), f.2)

/-- The sources among the files that are found. -/
def sources (d : Directory) (extensions : List String) : List Source :=
  sourcesOf (d.found extensions)

end Directory

theorem sourcesOf_append (fs gs : List (String × Document)) :
    sourcesOf (fs ++ gs) = sourcesOf fs ++ sourcesOf gs := List.filterMap_append

theorem length_sourcesOf (files : List (String × Document)) :
    (sourcesOf files).length = files.countP fun f => f.2.content.isOk := by
  rw [sourcesOf, List.length_filterMap_eq_countP]
  refine List.countP_congr fun f _ => ?_
  obtain ⟨path, content, tree⟩ := f
  cases content <;> rfl

/-- No file without bytes is garbled. -/
theorem countP_garbled_add_le {α : Type} (files : List (α × Document)) :
    files.countP (fun f => f.2.garbled) + files.countP (fun f => !f.2.content.isOk) ≤
      files.length := by
  have readable : files.countP (fun f => f.2.garbled) ≤ files.countP fun f => f.2.content.isOk := by
    refine List.countP_mono_left fun f _ garbled => ?_
    obtain ⟨name, content, tree⟩ := f
    cases content with
    | error cause => cases garbled
    | ok bytes => rfl
  have all := List.length_eq_countP_add_countP (l := files) fun f => f.2.content.isOk
  simp only [Bool.not_eq_true, Bool.decide_eq_false] at all
  omega

/-- A text comes with the remark that a part is lost exactly where the file is garbled. -/
theorem Document.read_eq {doc : Document} {bytes : List UInt8} (h : doc.content = .ok bytes) :
    doc.read = .ok ((Text.decode bytes).1, doc.garbled) := by
  have lossy : (Text.decode bytes).2 = !decide (Text.IsUtf8 bytes) := by
    simp [← Text.decode_lossless_iff]
  rw [Document.read, Document.garbled, h]
  simp only [Except.map, ← lossy]

/-! ## Steps and runs -/

namespace Build

/-- `b'` is the build `b` after these files: it counts each of them, and all sources among them
were offered to the project. -/
structure Takes (b : Build) (files : List (String × Document)) (b' : Build) : Prop where
  project : b'.project = (sourcesOf files).foldl Project.offer b.project
  built : b'.built = b.built + (sourcesOf files).countP Source.accepted
  unreadable : b'.unreadable = b.unreadable + files.countP fun f => !f.2.content.isOk
  lossy : b'.lossy = b.lossy + files.countP fun f => f.2.garbled
  rejected : b'.rejected = b.rejected + (sourcesOf files).countP fun s => !s.accepted

theorem Takes.refl (b : Build) : b.Takes [] b := ⟨rfl, rfl, rfl, rfl, rfl⟩

theorem Takes.trans {b c e : Build} {fs gs : List (String × Document)} (first : b.Takes fs c)
    (second : c.Takes gs e) : b.Takes (fs ++ gs) e where
  project := by rw [second.project, first.project, sourcesOf_append, List.foldl_append]
  built := by rw [second.built, first.built, sourcesOf_append, List.countP_append, Nat.add_assoc]
  unreadable := by rw [second.unreadable, first.unreadable, List.countP_append, Nat.add_assoc]
  lossy := by rw [second.lossy, first.lossy, List.countP_append, Nat.add_assoc]
  rejected := by
    rw [second.rejected, first.rejected, sourcesOf_append, List.countP_append, Nat.add_assoc]

/-- A source is offered to the project, and counted as built or as refused. -/
theorem exists_addText (b : Build) {s : Source} (fitting : s.Fitting) :
    ∃ records, b.addText s = .ok { b with
      project := b.project.offer s
      built := b.built + [s].countP Source.accepted
      rejected := b.rejected + [s].countP fun s => !s.accepted
      records } := by
  have faultless := Project.faultless_addSource b.project fitting
  have accepted := Project.isOk_addSource b.project s
  rw [List.countP_singleton, List.countP_singleton, ← accepted]
  unfold addText Project.offer
  cases h : b.project.addSource s with
  | ok p => exact ⟨b.records, rfl⟩
  | error e =>
    cases e with
    | fault cause => exact absurd h (faultless cause)
    | _ => exact ⟨_, rfl⟩

/-- One file: it cannot be read, or it is offered, and a garbled one is counted before that. -/
theorem exists_addFile (b : Build) (path : String) (doc : Document)
    (fitting : ∀ s ∈ sourcesOf [(path, doc)], s.Fitting) :
    ∃ b', b.addFile path doc = .ok b' ∧ b.Takes [(path, doc)] b' := by
  cases h : doc.content with
  | error cause =>
    obtain ⟨content, tree⟩ := doc
    cases h
    exact ⟨_, rfl, rfl, rfl, rfl, rfl, rfl⟩
  | ok bytes =>
    have source : sourcesOf [(path, doc)] =
        [⟨path, String.ofList (Text.decode bytes).1, doc.tree⟩] := by
      simp [sourcesOf, Document.source?, h]
    have readable : [(path, doc)].countP (fun f => !f.2.content.isOk) = 0 := by
      simp [h, Except.isOk, Except.toBool]
    have fits := fitting _ (source ▸ List.mem_cons_self)
    unfold addFile
    rw [doc.read_eq h]
    cases garbled : doc.garbled with
    | false =>
      obtain ⟨records, eq⟩ := b.exists_addText fits
      exact ⟨_, eq, by rw [source]; rfl, by rw [source], by rw [readable]; rfl,
        by simp [garbled], by rw [source]⟩
    | true =>
      obtain ⟨records, eq⟩ := exists_addText _ fits
      exact ⟨_, eq, by rw [source]; rfl, by rw [source]; rfl, by rw [readable]; rfl,
        by simp [garbled, note], by rw [source]; rfl⟩

theorem exists_foldlM_addFile : ∀ (files : List (String × Document)) (b : Build),
    (∀ s ∈ sourcesOf files, s.Fitting) →
      ∃ b', files.foldlM (fun b f => b.addFile f.1 f.2) b = .ok b' ∧ b.Takes files b'
  | [], b, _ => ⟨b, rfl, .refl b⟩
  | (path, doc) :: files, b, fitting => by
    rw [← List.singleton_append, sourcesOf_append, List.forall_mem_append] at fitting
    obtain ⟨c, hc, first⟩ := b.exists_addFile path doc fitting.1
    obtain ⟨e, he, rest⟩ := exists_foldlM_addFile files c fitting.2
    refine ⟨e, ?_, first.trans rest⟩
    rw [List.foldlM_cons, hc]
    exact he

/-- A text is offered to the project, be it refused or not. -/
theorem project_of_addText {b b' : Build} {s : Source} (h : b.addText s = .ok b') :
    b'.project = b.project.offer s := by
  unfold addText at h
  unfold Project.offer
  cases taken : b.project.addSource s with
  | ok p =>
    rw [taken] at h
    cases h
    rfl
  | error e =>
    rw [taken] at h
    cases e with
    | fault cause => cases h
    | _ =>
      cases h
      rfl

theorem built_of_addFile {b b' : Build} {path : String} {doc : Document}
    (h : b.addFile path doc = .ok b') (built : b.project.Built) : b'.project.Built := by
  unfold addFile at h
  split at h
  · cases h
    exact built
  · rw [project_of_addText h]
    exact .offer built _
  · rw [project_of_addText h]
    exact .offer built _

theorem built_of_foldlM {α : Type} {path : α → String} {doc : α → Document} :
    ∀ {files : List α} {b b' : Build},
      files.foldlM (fun b f => b.addFile (path f) (doc f)) b = .ok b' → b.project.Built →
        b'.project.Built
  | [], _, _, h, built => by
    cases h
    exact built
  | f :: files, _, _, h, built => by
    rw [List.foldlM_cons] at h
    obtain ⟨c, hc, h⟩ := bind_eq_ok.mp h
    exact built_of_foldlM h (built_of_addFile hc built)

end Build

/-! ## Numbers that add up file by file -/

namespace Project

/-- A number to which every file adds what it has in the project of that file alone. -/
def Additive (count : Project → Nat) : Prop :=
  ∀ p o, count (p.add o) = count p + count ((empty ".").add o)

theorem additive_files : Additive fun p => p.files.size := fun p o => by
  simp [files_add, empty]

theorem additive_classes : Additive fun p => p.classes.size := fun p o => by
  simp [classes_add, p.placed_shift ".", Placement.shift, empty]

theorem additive_functions : Additive fun p => p.functions.size := fun p o => by
  simp [functions_add, p.placed_shift ".", Placement.shift, empty]

/-- Ids are all that changes with the place of a function, its calls stay the same. -/
theorem additive_callCount : Additive callCount := fun p o => by
  have calls (n : Sizes) : (fun f : FunctionDef => (f.shift n).calls) = FunctionDef.calls := rfl
  simp [callCount, functions_add, p.placed_shift ".", Placement.shift, List.flatMap_map, calls,
    empty]

/-- Each source that is not refused makes a project of one file by itself, and in the common one
these projects add up. -/
theorem exists_alone (sources : List Source) : ∃ alone,
    (sources.filter Source.accepted).mapM (fun s => ofSources [s]) = .ok alone ∧
      (alone.map fun p => p.files.size).sum = sources.countP Source.accepted ∧
      ∀ count, Additive count → ∀ p,
        count (sources.foldl offer p) = count p + (alone.map count).sum := by
  induction sources with
  | nil => exact ⟨[], rfl, rfl, fun _ _ _ => rfl⟩
  | cons s sources ih =>
    obtain ⟨alone, projects, files, sums⟩ := ih
    cases h : s.outline with
    | error cause =>
      have refused : ¬ s.accepted = true := by simp [accepted_iff, h]
      rw [List.filter_cons_of_neg refused, List.countP_cons_of_neg refused]
      refine ⟨alone, projects, files, fun count additive p => ?_⟩
      rw [List.foldl_cons, offer_of_refused h]
      exact sums count additive p
    | ok o =>
      have accepted : s.accepted = true := accepted_iff.mpr ⟨o, h⟩
      have one : ((empty ".").add o).files.size = 1 := by simp [files_add, empty]
      rw [List.filter_cons_of_pos accepted, List.countP_cons_of_pos accepted]
      refine ⟨(empty ".").add o :: alone, ?_, ?_, fun count additive p => ?_⟩
      · rw [List.mapM_cons, projects, ofSources_singleton, h]
        rfl
      · rw [List.map_cons, List.sum_cons, one, files, Nat.add_comm]
      · rw [List.foldl_cons, offer_of_outline h, sums count additive, additive, List.map_cons,
          List.sum_cons, Nat.add_assoc]

end Project

/-! ## The build of a directory -/

namespace Directory

/-- What a build of the directory comes to. -/
structure Yields (d : Directory) (extensions : List String) (b : Build) (stats : BuildStats) :
    Prop where
  /-- The project is that of the good sources in memory. -/
  project : ∃ p, Project.ofSources ((d.sources extensions).filter Source.accepted) = .ok p ∧
    b.project = { p with root := plainPath d.name }
  found : stats.filesFound = (d.discover extensions).length
  split : stats.filesFound = stats.filesBuilt + stats.readErrors + stats.rejectedFiles
  built : stats.filesBuilt = b.project.files.size
  unreadable : stats.readErrors = (d.discover extensions).countP fun f => !f.2.content.isOk
  rejected : stats.rejectedFiles = (d.sources extensions).countP fun s => !s.accepted
  /-- Garbled files are counted whether or not they are refused. -/
  lossy : stats.lossyFiles = (d.discover extensions).countP fun f => f.2.garbled
  lossy_le : stats.lossyFiles ≤ stats.filesFound - stats.readErrors
  /-- The other numbers are sums over the projects that the good sources make one by one. -/
  sums : ∃ alone,
    ((d.sources extensions).filter Source.accepted).mapM (fun s => Project.ofSources [s]) =
        .ok alone ∧
      stats.classes = (alone.map fun p => p.classes.size).sum ∧
      stats.functions = (alone.map fun p => p.functions.size).sum ∧
      stats.callSites = (alone.map Project.callCount).sum

/-- Reports name the files, which changes nothing about them. -/
theorem countP_found (d : Directory) (extensions : List String) (P : Document → Bool) :
    (d.found extensions).countP (fun f => P f.2) =
      (d.discover extensions).countP fun f => P f.2 := by
  rw [found, List.countP_map]
  rfl

/-- Each file that is found is built, unreadable or refused. -/
theorem length_discover (d : Directory) (extensions : List String) :
    (d.discover extensions).length = (d.sources extensions).countP Source.accepted +
      (d.discover extensions).countP (fun f => !f.2.content.isOk) +
      (d.sources extensions).countP fun s => !s.accepted := by
  have readable : (d.sources extensions).length =
      (d.discover extensions).countP fun f => f.2.content.isOk := by
    rw [sources, length_sourcesOf]
    exact d.countP_found extensions fun doc => doc.content.isOk
  have files := List.length_eq_countP_add_countP (l := d.discover extensions)
    fun f => f.2.content.isOk
  have sources := List.length_eq_countP_add_countP (l := d.sources extensions) Source.accepted
  simp only [Bool.not_eq_true, Bool.decide_eq_false] at files sources
  omega

/-- The build comes to an end, and it takes all files that are found. -/
theorem exists_build (d : Directory) (extensions : List String)
    (fitting : ∀ s ∈ d.sources extensions, s.Fitting) :
    ∃ b b', (Build.start (plainPath d.name)).Takes (d.found extensions) b ∧
      b'.project = b.project ∧
      d.build extensions = .ok (b', b.stats (d.discover extensions).length) := by
  obtain ⟨b, run, takes⟩ := Build.exists_foldlM_addFile (d.found extensions)
    ((Build.start (plainPath d.name)).note .info "Discovered source files"
      [("dir", .text (plainPath d.name)), ("files", .count (d.discover extensions).length)]) fitting
  rw [found, List.foldlM_map] at run
  refine ⟨b, _, ⟨takes.project, takes.built, takes.unreadable, takes.lossy, takes.rejected⟩, ?_,
    by rw [build, run]; rfl⟩
  rfl

/-- Fitting or not, the trees of a directory make a project that is built. -/
theorem built_of_build {d : Directory} {extensions : List String} {b : Build}
    {stats : BuildStats} (h : d.build extensions = .ok (b, stats)) : b.project.Built := by
  obtain ⟨c, hc, h⟩ := bind_eq_ok.mp h
  cases h
  have built : c.project.Built := Build.built_of_foldlM hc (.empty (plainPath d.name))
  exact built

theorem yields_of_takes {d : Directory} {extensions : List String} {b b' : Build}
    (takes : (Build.start (plainPath d.name)).Takes (d.found extensions) b)
    (same : b'.project = b.project) :
    d.Yields extensions b' (b.stats (d.discover extensions).length) := by
  obtain ⟨alone, projects, files, sums⟩ := Project.exists_alone (d.sources extensions)
  have project : b.project =
      (d.sources extensions).foldl Project.offer (.empty (plainPath d.name)) := takes.project
  have count {count : Project → Nat} (additive : Project.Additive count)
      (none : count (.empty (plainPath d.name)) = 0) : count b.project = (alone.map count).sum := by
    rw [project, sums count additive, none, Nat.zero_add]
  have built : b.built = (d.sources extensions).countP Source.accepted :=
    takes.built.trans (Nat.zero_add _)
  have size : b.project.files.size = (d.sources extensions).countP Source.accepted :=
    (count Project.additive_files rfl).trans files
  have unreadable : b.unreadable = (d.discover extensions).countP fun f => !f.2.content.isOk := by
    rw [takes.unreadable, d.countP_found extensions fun doc => !doc.content.isOk]
    exact Nat.zero_add _
  have lossy : b.lossy = (d.discover extensions).countP fun f => f.2.garbled := by
    rw [takes.lossy, d.countP_found extensions Document.garbled]
    exact Nat.zero_add _
  have rejected : b.rejected = (d.sources extensions).countP fun s => !s.accepted :=
    takes.rejected.trans (Nat.zero_add _)
  constructor
  case project =>
    refine ⟨_, Project.foldlM_filter_accepted (d.sources extensions) (.empty "."), ?_⟩
    rw [← Project.foldl_offer_root, same]
    exact project
  case found => rfl
  case split =>
    have split := d.length_discover extensions
    simpa only [Build.stats, built, unreadable, rejected] using split
  case built =>
    rw [same, size]
    exact built
  case unreadable => exact unreadable
  case rejected => exact rejected
  case lossy => exact lossy
  case lossy_le =>
    have le := countP_garbled_add_le (d.discover extensions)
    rw [← lossy, ← unreadable] at le
    exact Nat.le_sub_of_add_le le
  case sums =>
    exact ⟨alone, projects, count Project.additive_classes rfl,
      count Project.additive_functions rfl, count Project.additive_callCount rfl⟩

/-- A directory builds, to the project that its good sources make in memory. -/
theorem build_yields (d : Directory) (extensions : List String)
    (fitting : ∀ s ∈ d.sources extensions, s.Fitting) :
    ∃ b stats, d.build extensions = .ok (b, stats) ∧ d.Yields extensions b stats := by
  obtain ⟨b, b', takes, same, built⟩ := d.exists_build extensions fitting
  exact ⟨b', _, built, yields_of_takes takes same⟩

/-- Trees that fit the texts of their files fit the sources. -/
theorem fitting_sources {d : Directory} {extensions : List String}
    (h : ∀ f ∈ d.files, ∀ bytes, f.2.content = .ok bytes →
      ∀ tree ∈ f.2.tree, tree.root.Fitting (Text.decode bytes).1) :
    ∀ s ∈ d.sources extensions, s.Fitting := by
  intro s hs
  obtain ⟨g, hg, hs⟩ := List.mem_filterMap.mp hs
  obtain ⟨f, hf, rfl⟩ := List.mem_map.mp hg
  have fitting := h f (List.mem_of_mem_filter (List.mem_mergeSort.mp hf))
  unfold Document.source? at hs
  split at hs
  · rename_i bytes content
    cases hs
    simpa only [Source.Fitting, String.toList_ofList] using fitting bytes content
  · cases hs

end Directory

namespace Sample

/-- A function behind a comment in which a byte is unreadable. -/
def garbledComment : Document where
  content := .ok (Text.encode "// ".toList ++ [0xFF] ++
    Text.encode "\nfun a() \x7b b() \x7d\n".toList)
  tree := some (node "source_file" 0 23 [node "line_comment" 0 6 [], function 7 22 [17]])

/-- Files that are built, garbled, refused, both or unreadable, and one that is no source. -/
def mixed : Directory where
  name := "/src"
  files :=
    [(.ofWritten "Binary.kt", ⟨.ok [0xC0, 0xAF], none⟩),
      (.ofWritten "Comment.KT", garbledComment),
      (.ofWritten "Secret.kt", ⟨.error .denied, none⟩),
      (.ofWritten "notes.txt", ⟨.ok [], none⟩),
      (.ofWritten "z/Nested.kt", ⟨.ok (Text.encode nested.text.toList), some nestedTree⟩)]

theorem discover_mixed :
    mixed.discover ["kt"] = mixed.files.filter fun f => isSource ["kt"] f.1 :=
  List.mergeSort_of_pairwise (by decide +kernel)

theorem stats_mixed :
    (mixed.build ["kt"]).map (fun r => r.2) = .ok ⟨4, 2, 1, 2, 1, 3, 3, 3⟩ := by
  unfold Directory.build
  rw [discover_mixed]
  decide +kernel

end Sample

/-- The refused file is garbled, as is one that is built. -/
theorem Directory.build_yields_mixed :
    (∀ s ∈ Sample.mixed.sources ["kt"], s.Fitting) ∧
    ∃ b stats, Sample.mixed.build ["kt"] = .ok (b, stats) ∧
      stats = ⟨4, 2, 1, 2, 1, 3, 3, 3⟩ ∧ Sample.mixed.Yields ["kt"] b stats := by
  have fitting : ∀ s ∈ Sample.mixed.sources ["kt"], s.Fitting := by
    refine fitting_sources fun f hf bytes hbytes root hroot => ?_
    simp only [Sample.mixed, List.mem_cons, List.not_mem_nil, or_false] at hf
    obtain rfl | rfl | rfl | rfl | rfl := hf <;> cases hroot
    · rw [← Except.ok.inj hbytes]
      exact ⟨⟨by decide +kernel, by decide +kernel, by decide +kernel⟩, by decide +kernel⟩
    · rw [← Except.ok.inj hbytes]
      exact ⟨Sample.wellNested_nestedTree, by decide +kernel⟩
  obtain ⟨b, stats, built, yields⟩ := Sample.mixed.build_yields ["kt"] fitting
  have computed := Sample.stats_mixed
  rw [built] at computed
  exact ⟨fitting, b, stats, built, Except.ok.inj computed, yields⟩

end CallFlow
