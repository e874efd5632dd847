import CallFlow.Proofs.Flow.CallGraph
import CallFlow.Proofs.Project.Renaming

/-! Traces under other ids. Main statement: where the entries of one project stand in another
one under other ids, and every qualifier that the first one writes means the same class in
both, then the traces of the first one are those of the second one, with the same entries. -/

namespace CallFlow

/-! ## Walks -/

namespace Flow

variable {α β σ τ : Type}

def Event.map (f : α → β) (g : σ → τ) : Event α σ → Event β τ
  | enter v path => enter (f v) (path.map f)
  | limit v path => limit (f v) (path.map f)
  | site v s => site (f v) (g s)
  | back v t => back (f v) (f t)

variable [DecidableEq α] [DecidableEq β] {out : α → List (σ × List α)}

/-- A graph under other names is walked in the same way, as far as only nodes of `S` are met. -/
theorem walk_map {out' : β → List (τ × List β)} {f : α → β} {g : σ → τ} {S : α → Prop}
    (inj : Function.Injective f) (closed : ∀ v, S v → ∀ x ∈ out v, ∀ t ∈ x.2, S t)
    (same : ∀ v, S v → out' (f v) = (out v).map (Prod.map g (List.map f))) (levels : Nat) :
    ∀ (path : List α) (v : α), S v →
      walk out' levels (path.map f) (f v) = (walk out levels path v).map (Event.map f g) := by
  induction levels with
  | zero => intro path v _; rfl
  | succ levels ih =>
    intro path v hv
    rw [walk, walk, same v hv, List.flatMap_map, List.map_cons, List.map_flatMap]
    refine congrArg₂ List.cons rfl (List.flatMap_congr fun x hx => ?_)
    rw [List.map_cons, List.map_flatMap]
    simp only [Prod.map, List.flatMap_map]
    refine congrArg₂ List.cons rfl (List.flatMap_congr fun t ht => ?_)
    rw [← List.map_cons, ih _ _ (closed v hv x hx t ht)]
    simp only [List.mem_map_of_injective inj]
    split <;> rfl

/-- A walk runs along paths without repetition, so more levels than there are nodes make no
difference. -/
theorem walk_levels {nodes : List α} (closed : ∀ v ∈ nodes, ∀ x ∈ out v, x.2 ⊆ nodes)
    {levels levels' : Nat} {path : List α} {v : α} (simple : (v :: path).Nodup)
    (inside : v :: path ⊆ nodes) (h : nodes.length ≤ levels + path.length)
    (h' : nodes.length ≤ levels' + path.length) :
    walk out levels path v = walk out levels' path v := by
  have room := (simple.subperm inside).length_le
  rw [List.length_cons] at room
  induction levels generalizing levels' path v with
  | zero => omega
  | succ levels ih =>
    obtain ⟨levels', rfl⟩ : ∃ n, levels' = n + 1 := ⟨levels' - 1, by omega⟩
    rw [walk, walk]
    refine congrArg₂ List.cons rfl (List.flatMap_congr fun x hx => ?_)
    refine congrArg₂ List.cons rfl (List.flatMap_congr fun t ht => ?_)
    split
    · rfl
    · rename_i fresh
      have simple : (t :: v :: path).Nodup := List.nodup_cons.mpr ⟨fresh, simple⟩
      have inside : t :: v :: path ⊆ nodes :=
        List.cons_subset.mpr ⟨closed v (inside List.mem_cons_self) x hx ht, inside⟩
      have room := (simple.subperm inside).length_le
      rw [List.length_cons] at room
      have deeper : (v :: path).length = path.length + 1 := List.length_cons
      exact ih simple inside (by omega) (by omega) room

end Flow

/-! ## Calls -/

def CallSite.receiver? : CallSite → Option String
  | simple _ _ => none
  | navigation receiver _ _ => some receiver

def Outcome.rename (r : Renaming) : Outcome → Outcome
  | targets ids => targets (ids.map r.function)
  | selfCall => selfCall
  | miss reason => miss reason

def Note.rename (r : Renaming) (n : Note) : Note := { n with lookup := n.lookup.rename r }

def Receiver.rename (r : Renaming) (x : Receiver) : Receiver :=
  ⟨x.note.map (Note.rename r), r.cls <$> x.cls⟩

def Call.rename (r : Renaming) (c : Call) : Call :=
  { c with
    note := c.note.map (Note.rename r)
    outcome := c.outcome.rename r }

@[simp] theorem Outcome.rename_refl (o : Outcome) : o.rename .refl = o := by
  cases o <;> simp [Outcome.rename, Renaming.refl]

@[simp] theorem Note.rename_refl (n : Note) : n.rename .refl = n := by
  simp [Note.rename]

@[simp] theorem Call.rename_refl (c : Call) : c.rename .refl = c := by
  obtain ⟨site, note, outcome⟩ := c
  cases note <;> simp [Call.rename]

@[simp] theorem Outcome.ids_rename (r : Renaming) (o : Outcome) :
    (o.rename r).ids = o.ids.map r.function := by
  cases o <;> rfl

theorem Receiver.bind_ofLookup {r : Renaming} {x y : Except Fault (Option Lookup)}
    (h : y = Option.map (Lookup.rename r) <$> x) (qualifier : String) (otherwise : MissReason) :
    (y >>= fun found => pure (ofLookup qualifier otherwise found)) =
      Receiver.rename r <$> (x >>= fun found => pure (ofLookup qualifier otherwise found)) := by
  refine bind_eq_map_bind h fun found _ => congrArg Except.ok ?_
  cases found with
  | none => rfl
  | some l => simp [ofLookup, Receiver.rename, Note.rename]

namespace Project

variable {r : Renaming} {p q : Project}

theorem outcomeOf_map (r : Renaming) (ids : List FunctionId) :
    outcomeOf (ids.map r.function) = (outcomeOf ids).rename r := by
  cases ids <;> rfl

/-- The qualifiers that are written in a project: types of properties and receivers of calls. -/
def qualifiers (p : Project) : List String :=
  (p.classes.toList.flatMap fun c => c.properties.filterMap Property.typeName) ++
    p.functions.toList.flatMap fun f => f.calls.filterMap CallSite.receiver?

theorem mem_qualifiers_of_property {c : ClassDef} {x : Property} {type : String}
    (hc : c ∈ p.classes) (hx : x ∈ c.properties) (h : x.typeName = some type) :
    type ∈ p.qualifiers := by
  refine List.mem_append_left _ (List.mem_flatMap.mpr ⟨c, Array.mem_toList_iff.mpr hc, ?_⟩)
  exact List.mem_filterMap.mpr ⟨x, hx, h⟩

theorem mem_qualifiers_of_call {f : FunctionDef} {site : CallSite} {receiver : String}
    (hf : f ∈ p.functions) (hs : site ∈ f.calls) (h : site.receiver? = some receiver) :
    receiver ∈ p.qualifiers := by
  refine List.mem_append_right _ (List.mem_flatMap.mpr ⟨f, Array.mem_toList_iff.mpr hf, ?_⟩)
  exact List.mem_filterMap.mpr ⟨site, hs, h⟩

/-- `q` has the entries of `p`, and what `p` writes means the same there. -/
structure Mirrors (r : Renaming) (p q : Project) : Prop extends Embeds r p q where
  lookup : ∀ file < p.files.size, ∀ qualifier ∈ p.qualifiers,
    q.lookup (r.file file) qualifier = Option.map (Lookup.rename r) <$> p.lookup file qualifier

namespace Mirrors

variable (mirrors : Mirrors r p q) (closed : p.Closed)
include mirrors closed

theorem lookupFrom {c : ClassId} (hc : c < p.classes.size) {qualifier : String}
    (written : qualifier ∈ p.qualifiers) :
    q.lookupFrom (r.cls c) qualifier =
      Option.map (Lookup.rename r) <$> p.lookupFrom c qualifier := by
  refine bind_eq_map_bind (mirrors.classDef hc) fun d hd => ?_
  have within := closed.classes d (Array.mem_of_getElem? (classDef_eq_ok.mp hd))
  exact mirrors.lookup d.file within.file qualifier written

variable {f : FunctionDef} (hf : f ∈ p.functions)
include hf

theorem inScope (name : String) :
    q.inScope (f.rename r) name = List.map r.function <$> p.inScope f name := by
  have within := closed.functions f hf
  unfold Project.inScope
  cases ho : f.owner with
  | none => simpa [FunctionDef.rename, ho] using mirrors.topLevelNamed closed within.file name
  | some c =>
    simpa [FunctionDef.rename, ho] using mirrors.membersNamed closed (within.owner c ho) name

theorem receiver {qualifier : String} (written : qualifier ∈ p.qualifiers) :
    q.receiver (f.rename r) qualifier = Receiver.rename r <$> p.receiver f qualifier := by
  have within := closed.functions f hf
  have byName := Receiver.bind_ofLookup (mirrors.lookup f.file within.file qualifier written)
    qualifier .unresolvedReceiver
  unfold Project.receiver
  dsimp only [FunctionDef.rename]
  by_cases this : qualifier = "this"
  · simp only [this, beq_self_eq_true, if_true]
    cases f.owner <;> rfl
  · simp only [beq_iff_eq, this, if_false]
    cases ho : f.owner with
    | none =>
      dsimp only [Option.map_none]
      rw [pure_bind, pure_bind]
      exact byName
    | some c =>
      have hc := within.owner c ho
      dsimp only [Option.map_some]
      refine bind_eq_map_bind ((mirrors.property? hc qualifier).trans (id_map _).symm)
        fun x hx => ?_
      cases x with
      | none => exact byName
      | some x =>
        dsimp only [id]
        cases ht : x.typeName with
        | none => rfl
        | some type =>
          have typed : type ∈ p.qualifiers := by
            obtain ⟨d, hd, hx⟩ := bind_eq_ok.mp hx
            exact mem_qualifiers_of_property (Array.mem_of_getElem? (classDef_eq_ok.mp hd))
              (List.mem_of_find?_eq_some (Except.ok.inj hx)) ht
          exact Receiver.bind_ofLookup (mirrors.lookupFrom closed hc typed) type _

theorem call {site : CallSite} (hs : site ∈ f.calls) :
    q.call (f.rename r) site = Call.rename r <$> p.call f site := by
  match site with
  | .simple none line => rfl
  | .simple (some name) line =>
    have sameName : (f.rename r).name = f.name := rfl
    by_cases own : name = f.name
    · simp only [Project.call, sameName, own, beq_self_eq_true, if_true]
      rfl
    · simp only [Project.call, sameName, beq_iff_eq, own, if_false]
      refine bind_eq_map_bind (mirrors.inScope closed hf name) fun ids _ => ?_
      rw [outcomeOf_map]
      rfl
  | .navigation qualifier member line =>
    have written : qualifier ∈ p.qualifiers := mem_qualifiers_of_call hf hs rfl
    refine bind_eq_map_bind (mirrors.receiver closed hf written) fun x hx => ?_
    have inside : ∀ c, x.cls = .ok c → c < p.classes.size := by
      obtain ⟨x', hx', within⟩ := receiver_answers closed hf qualifier
      rw [hx] at hx'
      cases hx'
      exact within.cls
    obtain ⟨note, cls⟩ := x
    cases cls with
    | error reason => rfl
    | ok c =>
      refine bind_eq_map_bind (mirrors.membersNamed closed (inside c rfl) member) fun ids _ => ?_
      rw [outcomeOf_map]
      rfl

omit hf in
theorem calls {i : FunctionId} (hi : i < p.functions.size) :
    q.calls (r.function i) =
      (p.calls i).map (Prod.map (Call.rename r <$> ·) (List.map r.function)) := by
  obtain ⟨f, hf, hmem⟩ := function_answers hi
  have hf' := mirrors.function hi
  rw [hf] at hf'
  unfold Project.calls
  rw [hf, hf']
  dsimp only [Functor.map, Except.map]
  rw [List.map_map]
  refine List.map_congr_left fun site hs => ?_
  dsimp only [Function.comp]
  rw [mirrors.call closed hmem hs]
  cases p.call f site with
  | error cause => rfl
  | ok c => simp [Functor.map, Except.map, Call.rename]

end Mirrors

end Project

/-! ## Traces -/

def Step.rename (r : Renaming) : Step → Step := Flow.Event.map r.function (Call.rename r <$> ·)

def Unresolved.rename (r : Renaming) (u : Unresolved) : Unresolved :=
  { u with caller := r.function u.caller }

def Trace.rename (r : Renaming) (t : Trace) : Trace :=
  ⟨r.function t.entry, t.steps.map (Step.rename r)⟩

theorem Step.rename_refl (x : Step) : Step.rename .refl x = x := by
  match x with
  | .enter _ _ | .limit _ _ => simp [Step.rename, Flow.Event.map, Renaming.refl]
  | .back _ _ | .site _ (.error _) => rfl
  | .site caller (.ok c) =>
    exact congrArg (fun c => (Flow.Event.site caller (Except.ok c) : Step)) c.rename_refl

@[simp] theorem Trace.rename_refl (t : Trace) : t.rename .refl = t := by
  have steps : t.steps.map (Step.rename .refl) = t.steps :=
    (List.map_congr_left fun x _ => Step.rename_refl x).trans (List.map_id _)
  rw [Trace.rename, steps]
  rfl

theorem Trace.functions_rename (r : Renaming) (t : Trace) :
    (t.rename r).functions = t.functions.map r.function := by
  unfold Trace.functions Trace.rename
  rw [List.filterMap_map, List.map_filterMap]
  refine List.filterMap_congr fun x _ => ?_
  cases x <;> rfl

theorem Trace.unresolved_rename (r : Renaming) (t : Trace) :
    (t.rename r).unresolved = t.unresolved.map (Unresolved.rename r) := by
  unfold Trace.unresolved Trace.rename
  rw [List.filterMap_map, List.map_filterMap]
  refine List.filterMap_congr fun x _ => ?_
  match x with
  | .enter _ _ | .limit _ _ | .back _ _ | .site _ (.error _) => rfl
  | .site _ (.ok ⟨_, _, outcome⟩) => cases outcome <;> rfl

namespace Project

variable {r : Renaming} {p q : Project}

namespace Embeds

variable (embeds : Embeds r p q) (closed : p.Closed)
include embeds closed

theorem render {i : FunctionId} (hi : i < p.functions.size) :
    q.render (r.function i) = p.render i := by
  refine bind_eq_bind (embeds.function hi) fun f hf => ?_
  have within := closed.functions f (function_mem hf)
  exact bind_eq_bind (embeds.file within.file) fun _ _ => rfl

theorem flowEntry (forest : p.whole.Forest none ⟨0, 0⟩) {i : FunctionId}
    (hi : i < p.functions.size) : q.flowEntry (r.function i) = p.flowEntry i := by
  refine bind_eq_bind (embeds.function hi) fun f hf => ?_
  have within := closed.functions f (function_mem hf)
  have owner : (f.owner.map r.cls).mapM q.qualifiedClass = f.owner.mapM p.qualifiedClass := by
    cases ho : f.owner with
    | none => rfl
    | some c => simp [embeds.qualifiedClass forest (within.owner c ho)]
  dsimp only [FunctionDef.rename]
  rw [owner, embeds.render closed hi]
  refine congrArg (_ >>= ·) (funext fun _ => ?_)
  exact bind_eq_bind (embeds.file within.file) fun _ _ => rfl

theorem entries (forest : p.whole.Forest none ⟨0, 0⟩) {t : Trace}
    (inside : ∀ i ∈ t.functions, i < p.functions.size) (once : Bool) :
    (t.rename r).entries q once = t.entries p once := by
  unfold Trace.entries
  rw [t.functions_rename, mapM_map_congr fun i hi => embeds.flowEntry closed forest (inside i hi)]

end Embeds

theorem findSome?_fault?_rename (r : Renaming) (steps : List Step) :
    (steps.map (Step.rename r)).findSome? Step.fault? = steps.findSome? Step.fault? := by
  rw [List.findSome?_map]
  refine congrArg (List.findSome? · steps) (funext fun x => ?_)
  match x with
  | .enter _ _ | .limit _ _ | .back _ _ | .site _ (.error _) | .site _ (.ok _) => rfl

theorem Mirrors.walk_calls (mirrors : Mirrors r p q) (closed : p.Closed) {e : FunctionId}
    (he : e < p.functions.size) (limit : Option Nat) :
    Flow.walk q.calls (q.levels limit) [] (r.function e) =
      (Flow.walk p.calls (p.levels limit) [] e).map (Step.rename r) := by
  have inside : ∀ v, ∀ x ∈ p.calls v, ∀ t ∈ x.2, t < p.functions.size := by
    intro v x hx t ht
    have callee : t ∈ p.callees v := by
      rw [← flatMap_snd_calls]
      exact List.mem_flatMap.mpr ⟨x, hx, ht⟩
    exact lt_of_calls closed (mem_callees_iff.mp callee)
  have enough : Flow.walk p.calls (q.levels limit) [] e =
      Flow.walk p.calls (p.levels limit) [] e := by
    cases limit with
    | some limit => rfl
    | none =>
      -- `q` may have more functions and so walk on more levels, but not on functions of `p`
      have grown := mirrors.functionCount
      have calledInside : ∀ v ∈ List.range p.functions.size, ∀ x ∈ p.calls v,
          x.2 ⊆ List.range p.functions.size :=
        fun v _ x hx t ht => List.mem_range.mpr (inside v x hx t ht)
      refine Flow.walk_levels calledInside (List.nodup_singleton e) ?_ ?_ ?_
      · simpa using he
      · simp only [levels, List.length_range]
        omega
      · simp only [levels, List.length_range]
        omega
  rw [← enough]
  exact Flow.walk_map r.function.injective (fun v _ => inside v)
    (fun v hv => mirrors.calls closed hv) _ [] e he

theorem Mirrors.trace (mirrors : Mirrors r p q) (closed : p.Closed) {e : FunctionId}
    (he : e < p.functions.size) (limit : Option Nat) :
    q.trace (r.function e) limit = Trace.rename r <$> p.trace e limit := by
  unfold Project.trace
  dsimp only
  rw [mirrors.walk_calls closed he, findSome?_fault?_rename]
  cases (Flow.walk p.calls (p.levels limit) [] e).findSome? Step.fault? <;> rfl

/-- From the same function the tracer takes the same steps, and hands on the same. -/
theorem Mirrors.flow (mirrors : Mirrors r p q) (built : p.Built) {e : FunctionId}
    (he : e < p.functions.size) (limit : Option Nat) :
    ∃ t, p.trace e limit = .ok t ∧ q.trace (r.function e) limit = .ok (t.rename r) ∧
      ∀ once, (t.rename r).entries q once = t.entries p once := by
  have closed := built.closed
  have traced := trace_eq closed he limit
  refine ⟨_, traced, by rw [mirrors.trace closed he, traced]; rfl, ?_⟩
  refine mirrors.entries closed built.orderly.forest fun i hi => ?_
  obtain ⟨choices, nodes, route, last⟩ := (mem_functions_iff closed he).mp hi
  exact lt_of_route closed he route i (List.mem_of_getLast? last)

end Project

end CallFlow
