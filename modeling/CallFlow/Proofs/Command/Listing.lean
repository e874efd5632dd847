import CallFlow.Pattern
import CallFlow.Proofs.Command.Running
import CallFlow.Proofs.Flow.Targets

/-! The list of functions as lines of text. Main statement: the lines are grouped by file. What is
shown last is all that the loop over the functions knows of, so a file would have several headings
if its functions did not stand together; they do, as ids are given file by file. -/

namespace CallFlow

def Project.DeclaredIn (p : Project) (file : FileId) (id : FunctionId) : Prop :=
  ∃ f, p.functions[id]? = some f ∧ f.file = file

theorem Project.DeclaredIn.unique {p : Project} {i j : FileId} {id : FunctionId}
    (hi : p.DeclaredIn i id) (hj : p.DeclaredIn j id) : i = j := by
  obtain ⟨f, hf, rfl⟩ := hi
  obtain ⟨g, hg, rfl⟩ := hj
  rw [Option.some.inj (hf.symm.trans hg)]

namespace Command

variable {p : Project}

/-! ## Functions that are shown -/

/-- The function has the annotation, and its full name passes the filter, as far as they are
given. -/
def Wanted (p : Project) (filter : Option (String → Bool)) (annotated : Option String)
    (id : FunctionId) : Prop :=
  ∃ f name, p.function id = .ok f ∧ p.qualifiedFunction id = .ok name ∧
    (∀ a ∈ annotated, f.hasAnnotation a = true) ∧ ∀ holds ∈ filter, holds name = true

theorem exists_listed (built : p.Built) (filter : Option (String → Bool))
    (annotated : Option String) :
    ∃ ids, listed p filter annotated = .ok ids ∧ ids.Pairwise (· < ·) ∧
      ∀ id, id ∈ ids ↔ Wanted p filter annotated id := by
  let test (id : FunctionId) : Except Fault Bool := do
    let f ← p.function id
    let name ← p.qualifiedFunction id
    return annotated.all f.hasAnnotation && filter.all fun holds => holds name
  have answered (id) (h : id ∈ p.functionIds) : test id = .ok ((test id).toOption.getD false) := by
    have inside := List.mem_range.mp h
    obtain ⟨f, hf, _⟩ := Project.function_answers inside
    obtain ⟨name, hname⟩ := Project.succeeds_qualifiedFunction built inside
    have eq : test id = .ok _ := bind_eq_ok.mpr ⟨f, hf, bind_eq_ok.mpr ⟨name, hname, rfl⟩⟩
    rw [eq]
    rfl
  refine ⟨_, filterM_eq_filter answered, List.pairwise_lt_range.filter _, fun id => ?_⟩
  rw [List.mem_filter]
  constructor
  · rintro ⟨mem, keep⟩
    have passed := answered id mem
    rw [keep] at passed
    obtain ⟨f, hf, passed⟩ := bind_eq_ok.mp passed
    obtain ⟨name, hname, passed⟩ := bind_eq_ok.mp passed
    have both := Bool.and_eq_true_iff.mp (Except.ok.inj passed)
    exact ⟨f, name, hf, hname, (Option.all_eq_true _ _).mp both.1,
      (Option.all_eq_true _ _).mp both.2⟩
  · rintro ⟨f, name, hf, hname, marked, matching⟩
    have passed : test id = .ok true := by
      refine bind_eq_ok.mpr ⟨f, hf, bind_eq_ok.mpr ⟨name, hname, ?_⟩⟩
      rw [(Option.all_eq_true _ _).mpr marked, (Option.all_eq_true _ _).mpr matching]
      rfl
    have inside := (Array.getElem?_eq_some_iff.mp (Project.function_eq_ok.mp hf)).1
    exact ⟨List.mem_range.mpr inside, by rw [passed]; rfl⟩

/-! ## Groups -/

/-- The file of a heading, and the functions below it. -/
abbrev Group := FileId × List FunctionId

/-- The functions `ids` behind a heading for `current`: first those that need no other heading, then
groups, each of functions of a later file. -/
structure Splits (p : Project) (current : Option FileId) (ids own : List FunctionId)
    (groups : List Group) : Prop where
  whole : own ++ groups.flatMap Prod.snd = ids
  own : ∀ id ∈ own, ∃ i ∈ current, p.DeclaredIn i id
  ascending : (groups.map Prod.fst).Pairwise (· < ·)
  behind : ∀ g ∈ groups, ∀ i ∈ current, i < g.1
  filled : ∀ g ∈ groups, g.2 ≠ []
  members : ∀ g ∈ groups, ∀ id ∈ g.2, p.DeclaredIn g.1 id

namespace Splits

variable {current : Option FileId} {ids own : List FunctionId} {groups : List Group} {i : FileId}
  {id : FunctionId}

theorem nil (current : Option FileId) : Splits p current [] [] [] := by
  constructor <;> simp

/-- One more function of the current file. -/
theorem stay (h : Splits p (some i) ids own groups) (declared : p.DeclaredIn i id) :
    Splits p (some i) (id :: ids) (id :: own) groups where
  whole := by rw [List.cons_append, h.whole]
  own := List.forall_mem_cons.mpr ⟨⟨i, rfl, declared⟩, h.own⟩
  ascending := h.ascending
  behind := h.behind
  filled := h.filled
  members := h.members

/-- A function of a later file, which becomes the current one. -/
theorem turn (h : Splits p (some i) ids own groups) (declared : p.DeclaredIn i id)
    (later : ∀ c ∈ current, c < i) :
    Splits p current (id :: ids) [] ((i, id :: own) :: groups) where
  whole := by simpa using h.whole
  own := by simp
  ascending := by
    refine List.pairwise_cons.mpr ⟨fun j hj => ?_, h.ascending⟩
    obtain ⟨g, hg, rfl⟩ := List.mem_map.mp hj
    exact h.behind g hg i rfl
  behind := by
    refine List.forall_mem_cons.mpr ⟨later, fun g hg c hc => ?_⟩
    exact (later c hc).trans (h.behind g hg i rfl)
  filled := List.forall_mem_cons.mpr ⟨List.cons_ne_nil _ _, h.filled⟩
  members := by
    refine List.forall_mem_cons.mpr ⟨List.forall_mem_cons.mpr ⟨declared, fun j hj => ?_⟩, h.members⟩
    obtain ⟨c, hc, declared⟩ := h.own j hj
    cases hc
    exact declared

end Splits

/-- The line that is shown for a function: where it is declared, its full name and its
annotations. -/
def Shows (p : Project) (id : FunctionId) (row : String) : Prop :=
  ∃ f name, p.functions[id]? = some f ∧ p.qualifiedFunction id = .ok name ∧
    row = "  " ++ column f.line ++ "  " ++ name ++ String.join (f.annotations.map ("  @" ++ ·))

/-- The lines of a group: the path of the file, then a line for each function. -/
def Heads (p : Project) (g : Group) (lines : List String) : Prop :=
  ∃ s rows, p.files[g.1]? = some s ∧ List.Forall₂ (Shows p) g.2 rows ∧ lines = s.path :: rows

theorem listedLines_cons {current : Option FileId} {id : FunctionId} {ids : List FunctionId}
    {f : FunctionDef} {s : SourceFile} {row : String} {lines : List String}
    (hf : p.functions[id]? = some f) (hs : p.files[f.file]? = some s)
    (hrow : listedLine p id f = .ok row) (rest : listedLines p (some f.file) ids = .ok lines) :
    listedLines p current (id :: ids) =
      .ok ((if current = some f.file then [] else [s.path]) ++ row :: lines) := by
  have shown (heading : List String) : (listedLine p id f >>= fun line =>
      listedLines p (some f.file) ids >>= fun lines => pure (heading ++ line :: lines)) =
        .ok (heading ++ row :: lines) := by
    rw [hrow, rest]
    rfl
  rw [listedLines]
  refine bind_eq_ok.mpr ⟨f, Project.function_eq_ok.mpr hf, ?_⟩
  by_cases same : current = some f.file
  · rw [if_pos (beq_iff_eq.mpr same), if_pos same]
    exact shown []
  · rw [if_neg (by rwa [beq_iff_eq]), if_neg same]
    exact bind_eq_ok.mpr ⟨s, Project.file_eq_ok.mpr hs, shown [s.path]⟩

theorem exists_row (built : p.Built) {id : FunctionId} (h : id < p.functions.size) :
    ∃ f s row, p.functions[id]? = some f ∧ p.files[f.file]? = some s ∧
      listedLine p id f = .ok row ∧ Shows p id row := by
  obtain ⟨f, hf, mem⟩ := Project.function_answers h
  obtain ⟨s, hs, _⟩ := Project.file_answers (built.closed.functions f mem).file
  obtain ⟨name, hname⟩ := Project.succeeds_qualifiedFunction built h
  have hf := Project.function_eq_ok.mp hf
  exact ⟨f, s, _, hf, Project.file_eq_ok.mp hs, bind_eq_ok.mpr ⟨name, hname, rfl⟩,
    f, name, hf, hname, rfl⟩

/-- The induction is on the functions that are left. Behind a function of some file there are only
functions of that file and of later ones, so that no heading comes up again. -/
theorem exists_listedLines (built : p.Built) : ∀ (ids : List FunctionId) (current : Option FileId),
    ids.Pairwise (· < ·) → (∀ id ∈ ids, id < p.functions.size) →
      (∀ c ∈ current, ∀ id ∈ ids, ∀ i, p.DeclaredIn i id → c ≤ i) →
      ∃ own rows groups texts, Splits p current ids own groups ∧ List.Forall₂ (Shows p) own rows ∧
        List.Forall₂ (Heads p) groups texts ∧
        listedLines p current ids = .ok (rows ++ texts.flatten)
  | [], current, _, _, _ => ⟨[], [], [], [], .nil current, .nil, .nil, rfl⟩
  | id :: ids, current, sorted, inside, later => by
    obtain ⟨first, sorted⟩ := List.pairwise_cons.mp sorted
    obtain ⟨here, inside⟩ := List.forall_mem_cons.mp inside
    obtain ⟨f, s, row, hf, hs, hrow, shown⟩ := exists_row built here
    have declared : p.DeclaredIn f.file id := ⟨f, hf, rfl⟩
    have behind : ∀ c ∈ some f.file, ∀ j ∈ ids, ∀ i, p.DeclaredIn i j → c ≤ i := by
      rintro c ⟨⟩ j hj i ⟨g, hg, rfl⟩
      exact Project.pairwise_getElem? built.orderly.functions.order hf hg (first j hj)
    obtain ⟨own, rows, groups, texts, splits, shows, heads, lines⟩ :=
      exists_listedLines built ids (some f.file) sorted inside behind
    have shows : List.Forall₂ (Shows p) (id :: own) (row :: rows) := .cons shown shows
    rw [listedLines_cons hf hs hrow lines]
    by_cases same : current = some f.file
    · subst same
      exact ⟨id :: own, row :: rows, groups, texts, splits.stay declared, shows, heads,
        by rw [if_pos rfl]; rfl⟩
    · have new : ∀ c ∈ current, c < f.file := by
        intro c hc
        refine Nat.lt_of_le_of_ne (later c hc id List.mem_cons_self f.file declared) fun eq => ?_
        exact same (eq ▸ hc)
      refine ⟨[], [], (f.file, id :: own) :: groups, (s.path :: row :: rows) :: texts,
        splits.turn declared new, .nil, .cons ⟨s, row :: rows, hs, shows, rfl⟩ heads, ?_⟩
      rw [if_neg same]
      rfl

/-- Groups of functions by file: those files that have a wanted function, in order, each with all
wanted functions of it, in order. -/
structure ByFile (p : Project) (wanted : FunctionId → Prop) (groups : List Group) : Prop where
  ascending : (groups.map Prod.fst).Pairwise (· < ·)
  files : ∀ i, i ∈ groups.map Prod.fst ↔ ∃ id, wanted id ∧ p.DeclaredIn i id
  functions : ∀ g ∈ groups, g.2.Pairwise (· < ·) ∧
    ∀ id, id ∈ g.2 ↔ wanted id ∧ p.DeclaredIn g.1 id
  once : ∀ id, wanted id → (groups.flatMap Prod.snd).count id = 1

theorem Splits.byFile {wanted : FunctionId → Prop} {ids : List FunctionId} {groups : List Group}
    (h : Splits p none ids [] groups) (sorted : ids.Pairwise (· < ·))
    (mem : ∀ id, id ∈ ids ↔ wanted id) : ByFile p wanted groups := by
  have whole : groups.flatMap Prod.snd = ids := h.whole
  have found {id} (hid : wanted id) : ∃ g ∈ groups, id ∈ g.2 := by
    rw [← mem, ← whole] at hid
    exact List.mem_flatMap.mp hid
  have wanted_of {g id} (hg : g ∈ groups) (hid : id ∈ g.2) : wanted id := by
    rw [← mem, ← whole]
    exact List.mem_flatMap.mpr ⟨g, hg, hid⟩
  constructor
  case ascending => exact h.ascending
  case files =>
    intro i
    constructor
    · intro hi
      obtain ⟨g, hg, rfl⟩ := List.mem_map.mp hi
      obtain ⟨id, hid⟩ := List.exists_mem_of_ne_nil _ (h.filled g hg)
      exact ⟨id, wanted_of hg hid, h.members g hg id hid⟩
    · rintro ⟨id, hid, declared⟩
      obtain ⟨g, hg, hid⟩ := found hid
      exact List.mem_map.mpr ⟨g, hg, (h.members g hg id hid).unique declared⟩
  case functions =>
    intro g hg
    have part : g.2.Sublist ids := by
      rw [← whole, List.flatMap_def]
      exact List.sublist_flatten_of_mem (List.mem_map_of_mem hg)
    refine ⟨sorted.sublist part, fun id => ⟨fun hid => ?_, ?_⟩⟩
    · exact ⟨wanted_of hg hid, h.members g hg id hid⟩
    · rintro ⟨hid, declared⟩
      obtain ⟨g', hg', hid⟩ := found hid
      have same := (h.members g' hg' id hid).unique declared
      have nodup := h.ascending.imp Nat.ne_of_lt
      rwa [← List.inj_on_of_nodup_map nodup hg' hg same]
  case once =>
    intro id hid
    rw [whole]
    exact List.count_eq_one_of_mem (sorted.imp Nat.ne_of_lt) ((mem id).mpr hid)

/-- The lines are those of the wanted functions, file by file. -/
def Listing (p : Project) (filter : Option (String → Bool)) (annotated : Option String)
    (lines : List String) : Prop :=
  ∃ groups texts, ByFile p (Wanted p filter annotated) groups ∧
    List.Forall₂ (Heads p) groups texts ∧ lines = texts.flatten

theorem exists_listing (built : p.Built) (filter : Option (String → Bool))
    (annotated : Option String) :
    ∃ ids lines, listed p filter annotated = .ok ids ∧ listedLines p none ids = .ok lines ∧
      Listing p filter annotated lines := by
  obtain ⟨ids, hids, sorted, mem⟩ := exists_listed built filter annotated
  have inside : ∀ id ∈ ids, id < p.functions.size := by
    intro id hid
    obtain ⟨f, _, hf, _⟩ := (mem id).mp hid
    exact (Array.getElem?_eq_some_iff.mp (Project.function_eq_ok.mp hf)).1
  obtain ⟨own, rows, groups, texts, splits, shows, heads, lines⟩ :=
    exists_listedLines built ids none sorted inside (by simp)
  obtain rfl : own = [] := List.eq_nil_iff_forall_not_mem.mpr fun id hid => by
    obtain ⟨_, hc, _⟩ := splits.own id hid
    cases hc
  cases shows
  exact ⟨ids, _, hids, lines, groups, texts, splits.byFile sorted mem, heads, rfl⟩

/-! ## The command -/

/-- Once the project is loaded, the lines of it are what is printed. -/
theorem runList_prints {out out' : Output} {openFolder? : String → Option Directory}
    {language : PatternLanguage} {o : ListOptions} {filter : Option (String → Bool)}
    {ids : List FunctionId} {lines : List String}
    (text : o.json = false) (read : o.pattern.mapM language = .ok filter)
    (loaded : Gives (loadProject openFolder? o.source) out p out')
    (hids : listed p filter o.annotated = .ok ids) (hlines : listedLines p none ids = .ok lines) :
    Gives (runList language openFolder? o) out () { out' with
      stdout := out'.stdout ++ String.join (lines.map (· ++ "\n"))
      stderr := out'.stderr ++ s!"{ids.length} functions" ++ "\n" } := by
  rw [runList, readPattern_eq read]
  refine gives_bind.mpr ⟨filter, out, rfl, gives_bind.mpr ⟨p, out', loaded, ?_⟩⟩
  refine gives_bind.mpr ⟨ids, out', gives_ask.mpr ⟨hids, rfl⟩, ?_⟩
  rw [text]
  refine gives_bind.mpr ⟨lines, out', gives_ask.mpr ⟨hlines, rfl⟩, ?_⟩
  exact gives_bind.mpr ⟨(), _, gives_say lines out', rfl⟩

/-- The functions of a project are listed file by file, whatever filter there is for their names;
and these lines are what the command prints, in whatever language the filter is written. -/
theorem list_groups_by_file :
    (∀ (p : Project) (filter : Option (String → Bool)) (annotated : Option String), p.Built →
      ∃ ids lines, listed p filter annotated = .ok ids ∧ listedLines p none ids = .ok lines ∧
        Listing p filter annotated lines) ∧
    ∀ (language : PatternLanguage) (openFolder? : String → Option Directory) (o : ListOptions)
      (filter : Option (String → Bool)) (p : Project) (out mid : Output), o.json = false →
      o.pattern.mapM language = .ok filter →
      Gives (loadProject openFolder? o.source) out p mid →
      p.Built ∧ ∃ lines out', Listing p filter o.annotated lines ∧
        Gives (runList language openFolder? o) out () out' ∧
        out'.stdout = out.stdout ++ String.join (lines.map (· ++ "\n")) := by
  refine ⟨fun p filter annotated built => exists_listing built filter annotated, ?_⟩
  intro language openFolder? o filter p out mid text read loaded
  obtain ⟨built, silent⟩ := of_loadProject loaded
  obtain ⟨ids, lines, hids, hlines, listing⟩ := exists_listing built filter o.annotated
  refine ⟨built, lines, _, listing, runList_prints text read loaded hids hlines, ?_⟩
  rw [← silent]

/-- Five files, of which two have functions. Of the three functions one does not match. -/
theorem list_groups_by_file_mixed :
    let openFolder? : String → Option Directory := fun _ => some Sample.mixed
    let o : ListOptions := ⟨⟨"/src", "kt"⟩, some "a|g", none, false⟩
    ∃ filter p mid lines out', o.json = false ∧ o.pattern.mapM Pattern.compile = .ok filter ∧
      Gives (loadProject openFolder? o.source) .empty p mid ∧ p.Built ∧
      Listing p filter none lines ∧ Gives (runList Pattern.compile openFolder? o) .empty () out' ∧
      out'.stdout = String.join (lines.map (· ++ "\n")) ∧
      out'.stdout = "/src/Comment.KT\n      2  a\n/src/z/Nested.kt\n      6  A.g\n" := by
  intro openFolder? o
  have extensions : readExtensions "kt" = ["kt"] := by decide +kernel
  have computed : (fun r => (r.1.isOk, r.2.stdout))
      ((runList Pattern.compile openFolder? o).run .empty) =
        (true, "/src/Comment.KT\n      2  a\n/src/z/Nested.kt\n      6  A.g\n") := by
    simp only [openFolder?, o, runList, loadProject, extensions, Directory.build,
      Sample.discover_mixed]
    decide +kernel
  obtain ⟨filter, read⟩ : ∃ filter, o.pattern.mapM Pattern.compile = .ok filter := by
    obtain ⟨re, hre⟩ := Option.isSome_iff_exists.mp
      (by decide +kernel : (Pattern.ofText? "a|g").isSome = true)
    exact ⟨_, map_eq_ok.mpr ⟨_, by rw [Pattern.compile, hre], rfl⟩⟩
  -- A run that ends has loaded the project on the way.
  obtain ⟨_, _, ran⟩ := exists_gives (congrArg Prod.fst computed)
  obtain ⟨_, _, taken, rest⟩ := gives_bind.mp ran
  obtain ⟨p, mid, loaded, _⟩ := gives_bind.mp rest
  rw [readPattern_eq read] at taken
  cases taken
  obtain ⟨built, lines, out', listing, gives, printed⟩ :=
    list_groups_by_file.2 Pattern.compile openFolder? o filter p .empty mid rfl read loaded
  have whole := congrArg Prod.snd computed
  rw [gives] at whole
  have alone : out'.stdout = String.join (lines.map (· ++ "\n")) := by
    simpa [Output.empty] using printed
  exact ⟨filter, p, mid, lines, out', rfl, read, loaded, built, listing, gives, alone, whole⟩

end Command

end CallFlow
