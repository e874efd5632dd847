import CallFlow.Flow.Report
import CallFlow.Prompt
import CallFlow.Proofs.Flow.CallGraph
import CallFlow.Proofs.Outline.Fitting
import CallFlow.Proofs.Project.Layout

/-! Projects that answer every question. Main statement: a project whose trees fit their texts takes
in further such trees, and traces, names, renders and prompts, without running into a fault; and
the texts of its functions, of its classes and of their documentation are what the sources have in
their ranges. Two facts carry this: ids belong to entries, along every step of a walk, and ranges
can be cut out. -/

namespace CallFlow

/-! ## Steps of a walk -/

namespace Flow

variable {α σ : Type} [DecidableEq α] {out : α → List (σ × List α)} {N : α → Prop}
  {P : Event α σ → Prop}

/-- Where a walk is at nodes with `N`, it meets events with `P` and goes on to nodes with `N`. -/
structure Upholds (out : α → List (σ × List α)) (N : α → Prop) (P : Event α σ → Prop) : Prop where
  enter : ∀ v path, N v → P (.enter v path)
  limit : ∀ v path, N v → P (.limit v path)
  site : ∀ v, N v → ∀ s ∈ out v, P (.site v s.1) ∧ ∀ t ∈ s.2, N t
  back : ∀ v t, N v → N t → P (.back v t)

theorem Upholds.walk (h : Upholds out N P) : ∀ (levels : Nat) (path : List α) (node : α), N node →
    ∀ x ∈ Flow.walk out levels path node, P x
  | 0, path, node, hn, x, hx => by
    rw [Flow.walk] at hx
    rcases List.mem_pair.mp hx with rfl | rfl
    · exact h.enter node path hn
    · exact h.limit node path hn
  | levels + 1, path, node, hn, x, hx => by
    rw [Flow.walk] at hx
    rcases List.mem_cons.mp hx with rfl | hx
    · exact h.enter node path hn
    obtain ⟨⟨s, targets⟩, hs, hx⟩ := List.mem_flatMap.mp hx
    obtain ⟨site, next⟩ := h.site node hn _ hs
    rcases List.mem_cons.mp hx with rfl | hx
    · exact site
    obtain ⟨t, ht, hx⟩ := List.mem_flatMap.mp hx
    split at hx
    · rw [List.mem_singleton.mp hx]
      exact h.back node t hn (next t ht)
    · exact h.walk levels (node :: path) t (next t ht) x hx

end Flow

/-- The ids that a step speaks of lie within given sizes, and its call, if it is at one, has an
answer. -/
def Step.Within (n : Sizes) : Step → Prop
  | .enter v _ => v < n.functions
  | .limit v _ => v < n.functions
  | .site v x => v < n.functions ∧ Answers x (Call.Within n)
  | .back v t => v < n.functions ∧ t < n.functions

namespace Project

variable {p : Project}

section Closed

variable (closed : p.Closed)
include closed

theorem upholds_within :
    Flow.Upholds p.calls (· < p.functions.size) (Step.Within p.sizes) := by
  refine ⟨fun v _ hv => hv, fun v _ hv => hv, fun v hv s hs => ?_, fun v t hv ht => ⟨hv, ht⟩⟩
  obtain ⟨f, hf, mem⟩ := function_answers hv
  unfold calls at hs
  rw [hf] at hs
  obtain ⟨site, _, rfl⟩ := List.mem_map.mp hs
  obtain ⟨c, hc, _, within⟩ := call_answers closed mem site
  rw [hc]
  exact ⟨⟨hv, c, rfl, within⟩, within.targets⟩

/-- A trace comes to an end, and all its steps are about entries of the project. -/
theorem trace_within {e : FunctionId} (he : e < p.functions.size) (limit : Option Nat) :
    ∃ t, p.trace e limit = .ok t ∧ t.entry = e ∧ ∀ x ∈ t.steps, Step.Within p.sizes x := by
  refine ⟨_, trace_eq closed he limit, rfl, ?_⟩
  rw [run, Flow.map_snd_located]
  exact (upholds_within closed).walk (p.levels limit) [] e he

end Closed

/-! ## Names -/

section Names

variable (built : p.Built)
include built

/-- A class has a smaller id than those inside it, so the way outwards comes to an end. -/
theorem succeeds_namesDownTo (c : ClassId) (hc : c < p.classes.size) {depth : Nat}
    (h : c < depth) : Succeeds (p.namesDownTo depth c) := by
  induction c using Nat.strongRecOn generalizing depth with
  | ind c ih =>
    obtain ⟨depth, rfl⟩ : ∃ n, depth = n + 1 := ⟨depth - 1, by lia⟩
    obtain ⟨d, hd, _⟩ := classDef_answers hc
    have numbered := mem_zipIdx_toList.mpr (classDef_eq_ok.mp hd)
    rw [namesDownTo]
    refine .bind_ok hd ?_
    cases hp : d.parent with
    | none => exact .ok _
    | some q =>
      have older := built.orderly.forest.older d c numbered q hp
      exact (ih q older (older.trans hc) (by lia)).bind fun _ => .pure _

theorem succeeds_qualifiedClass {c : ClassId} (hc : c < p.classes.size) :
    Succeeds (p.qualifiedClass c) :=
  (succeeds_namesDownTo built c hc (Nat.lt_succ_of_lt hc)).bind fun _ => .pure _

theorem succeeds_qualifiedFunction {i : FunctionId} (hi : i < p.functions.size) :
    Succeeds (p.qualifiedFunction i) := by
  obtain ⟨f, hf, mem⟩ := function_answers hi
  have owner := (built.closed.functions f mem).owner
  refine .bind_ok hf ?_
  cases ho : f.owner with
  | none => exact .ok _
  | some q => exact (succeeds_qualifiedClass built (owner q ho)).bind fun _ => .pure _

/-! ## The log -/

theorem succeeds_note {note : Note} (h : note.lookup.cls < p.classes.size) :
    Succeeds (note.record p) := by
  refine (succeeds_qualifiedClass built h).bind fun name => ?_
  split
  all_goals exact .pure _

theorem succeeds_step {x : Step} (h : x.Within p.sizes) : Succeeds (x.records p) := by
  have name {i : FunctionId} (hi : i < p.functions.size) := succeeds_qualifiedFunction built hi
  match x with
  | .enter _ _ => exact .ok _
  | .limit v path => exact (name h).bind fun _ => .pure _
  | .back v t => exact (name h.1).bind fun _ => (name h.2).bind fun _ => .pure _
  | .site v x =>
    obtain ⟨hv, c, rfl, within⟩ := h
    have notes : Succeeds (c.note.toList.mapM (Note.record p)) := by
      refine Succeeds.mapM_iff.mpr fun note hn => succeeds_note built (within.note note ?_)
      exact Option.mem_toList.mp hn
    have misses : Succeeds ((Step.unresolved? (.site v (.ok c))).toList.mapM
        (Unresolved.record p)) := by
      refine Succeeds.mapM_iff.mpr fun u hu => ?_
      have caller : u.caller = v := by
        rw [Option.mem_toList] at hu
        unfold Step.unresolved? at hu
        split at hu
        · rename_i heq
          cases heq
          cases hu
          rfl
        · cases hu
      exact (name (caller ▸ hv)).bind fun _ => .pure _
    exact notes.bind fun _ => misses.bind fun _ => .pure _

theorem succeeds_records {t : Trace} (entry : t.entry < p.functions.size)
    (steps : ∀ x ∈ t.steps, Step.Within p.sizes x) : Succeeds (t.records p) :=
  (Succeeds.mapM_iff.mpr fun x hx => succeeds_step built (steps x hx)).bind fun _ =>
    (succeeds_qualifiedFunction built entry).bind fun _ => .pure _

end Names

end Project

/-! ## Texts -/

/-- The tree of the source, if there is one, fits the text. -/
def Source.Fitting (s : Source) : Prop := ∀ tree ∈ s.tree, tree.root.Fitting s.text.toList

namespace Project

open Outline (Kept)

variable {p : Project}

/-- The range of each function and class, and that of its documentation, can be cut out. -/
abbrev Cuttable (p : Project) : Prop :=
  p.Attested (fun source h => Kept source h.span h.doc) fun source h => Kept source h.span h.doc

theorem BuiltFrom.cuttable (built : p.BuiltFrom Source.Fitting) : p.Cuttable :=
  built.attested Outline.founded_kept fun _ hs => hs

/-- The text of the range, and that of the documentation, is what the source has there. -/
def Reads (p : Project) (file : FileId) (span : Span) (doc : Option Span) : Prop :=
  ∃ s : SourceFile, p.files[file]? = some s ∧ ∀ a, a = span ∨ doc = some a →
    Answers (p.text file a) fun t => a.Covers s.source.toList t.toList

theorem reads_of_kept {file : FileId} {s : SourceFile} (hs : p.files[file]? = some s) {span : Span}
    {doc : Option Span} (kept : Kept s.source.toList span doc) : p.Reads file span doc := by
  refine ⟨s, hs, fun a ha => ?_⟩
  have cuts : a.Cuts s.source.toList := by
    rcases ha with rfl | ha
    · exact kept.1
    · exact kept.2 a ha
  obtain ⟨cs, covers⟩ := cuts.covers
  refine ⟨_, bind_eq_ok.mpr ⟨s, file_eq_ok.mpr hs, rfl⟩, ?_⟩
  rw [covers.slice?]
  simpa using covers

theorem succeeds_render (cuttable : p.Cuttable) {i : FunctionId} (hi : i < p.functions.size) :
    Succeeds (p.render i) := by
  obtain ⟨f, hf, mem⟩ := function_answers hi
  obtain ⟨s, hs, span, doc⟩ := cuttable.functions f mem
  have rendered {a : Span} (cuts : a.Cuts s.source.toList) :
      Succeeds (renderSpan s.source.toList a) := by
    obtain ⟨cs, covers⟩ := cuts.covers
    exact covers.succeeds_render
  refine .bind_ok hf (.bind_ok (file_eq_ok.mpr hs) ?_)
  refine (rendered span).bind fun body => ?_
  split
  · exact .pure _
  · rename_i a ha
    exact (rendered (doc a ha)).bind fun _ => .pure _

theorem succeeds_flowEntry (built : p.Built) (cuttable : p.Cuttable) {i : FunctionId}
    (hi : i < p.functions.size) : Succeeds (p.flowEntry i) := by
  obtain ⟨f, hf, mem⟩ := function_answers hi
  have within := built.closed.functions f mem
  have owner : Succeeds (f.owner.mapM p.qualifiedClass) := by
    cases ho : f.owner with
    | none => exact .ok _
    | some c => exact (succeeds_qualifiedClass built (within.owner c ho)).bind fun _ => .pure _
  obtain ⟨s, hs, _⟩ := file_answers within.file
  refine .bind_ok hf (owner.bind fun _ => .bind_ok hs ?_)
  exact (succeeds_render cuttable hi).bind fun _ => .pure _

theorem succeeds_entries (built : p.Built) (cuttable : p.Cuttable) {t : Trace}
    (steps : ∀ x ∈ t.steps, Step.Within p.sizes x) (once : Bool) :
    Succeeds (t.entries p once) := by
  refine (Succeeds.mapM_iff.mpr fun i hi => ?_).bind fun _ => .pure _
  obtain ⟨x, hx, entered⟩ := List.mem_filterMap.mp hi
  have within := steps x hx
  match x, entered with
  | .enter _ _, rfl => exact succeeds_flowEntry built cuttable within

/-- The prompt for a flow, on demand with each text only once. -/
def prompt (p : Project) (entry : FunctionId) (limit : Option Nat) (once : Bool)
    (template : Template) (description : Option String) : Except Fault String := do
  let t ← p.trace entry limit
  let entries ← t.entries p once
  let f ← p.function entry
  return template.prompt f.name description (entries.map (·.text))

/-! ## All questions -/

/-- No question about the project, and no source that fits, runs into a fault, and ranges stand for
their texts. -/
structure Safe (p : Project) : Prop where
  /-- A source is taken in or refused, and the text of each of its nodes is there to be read. -/
  source : ∀ s : Source, s.Fitting → Faultless (p.addSource s) ∧
    ∀ tree ∈ s.tree, ∀ n ∈ tree.root.preorder, n.span.Covers s.text.toList (n.text s.text.toList)
  className : ∀ i < p.classes.size, Succeeds (p.qualifiedClass i)
  functionName : ∀ i < p.functions.size, Succeeds (p.qualifiedFunction i)
  render : ∀ i < p.functions.size, Succeeds (p.render i)
  /-- The trace, what it leaves in the log, and its entries. -/
  trace : ∀ i < p.functions.size, ∀ limit, Answers (p.trace i limit) fun t =>
    Succeeds (t.records p) ∧ ∀ once, Succeeds (t.entries p once)
  prompt : ∀ i < p.functions.size, ∀ limit once template description,
    Succeeds (p.prompt i limit once template description)
  functionText : ∀ f ∈ p.functions, p.Reads f.file f.span f.doc
  classText : ∀ c ∈ p.classes, p.Reads c.file c.span c.doc

theorem faultless_addSource (p : Project) {s : Source} (h : s.Fitting) :
    Faultless (p.addSource s) := by
  unfold addSource Source.outline
  split
  · intro cause h
    cases h
  · rename_i root hroot
    exact (Outline.faultless_ofTree s.path (h root hroot).fits).map

theorem safe_of_fitting (fitting : p.BuiltFrom Source.Fitting) : p.Safe := by
  have built := fitting.built
  have cuttable := fitting.cuttable
  constructor
  case source =>
    intro s hs
    refine ⟨faultless_addSource p hs, fun root hroot n hn => ?_⟩
    exact ((hs root hroot).of_mem hn).covers_text
  case className => exact fun i hi => succeeds_qualifiedClass built hi
  case functionName => exact fun i hi => succeeds_qualifiedFunction built hi
  case render => exact fun i hi => succeeds_render cuttable hi
  case trace =>
    intro i hi limit
    obtain ⟨t, ht, entry, steps⟩ := trace_within built.closed hi limit
    exact ⟨t, ht, succeeds_records built (entry ▸ hi) steps, succeeds_entries built cuttable steps⟩
  case prompt =>
    intro i hi limit once template description
    obtain ⟨t, ht, _, steps⟩ := trace_within built.closed hi limit
    obtain ⟨f, hf, _⟩ := function_answers hi
    refine .bind_ok ht ((succeeds_entries built cuttable steps once).bind fun _ => ?_)
    exact .bind_ok hf (.pure _)
  case functionText =>
    intro f hf
    obtain ⟨s, hs, kept⟩ := cuttable.functions f hf
    exact reads_of_kept hs kept
  case classText =>
    intro c hc
    obtain ⟨s, hs, kept⟩ := cuttable.classes c hc
    exact reads_of_kept hs kept

/-- Documentation of two comments whose characters are not all of one byte. -/
theorem safe_of_fitting_accented :
    (((Project.empty ".").offer Sample.accented).offer Sample.nested).functions[0]?.map
      FunctionDef.doc = some (some ⟨0, 11⟩) ∧
    (((Project.empty ".").offer Sample.accented).offer Sample.nested).Safe := by
  have accented : Sample.accented.Fitting := by
    rintro root ⟨⟩
    exact ⟨⟨by decide +kernel, by decide +kernel, by decide +kernel⟩, by decide +kernel⟩
  have nested : Sample.nested.Fitting := by
    rintro root ⟨⟩
    exact ⟨Sample.wellNested_nestedTree, by decide +kernel⟩
  exact ⟨by decide +kernel,
    safe_of_fitting (.offer (.offer (.empty ".") Sample.accented accented) Sample.nested nested)⟩

end Project

end CallFlow
