import CallFlow.Proofs.Flow.Calls
import CallFlow.Proofs.Project.Ownership
import CallFlow.Proofs.Project.Renaming

/-! Which functions a call leads to. Main statement: a call asks one holder, the members of a class
or the free functions of a file, and leads to all functions of the called name that the holder
has. The tracer reads them off the lists of classes and files; since these lists hold every
function once, they hold exactly the functions that name the class or the file as theirs. -/

namespace CallFlow

theorem filterM_eq_filter {ε α : Type} {f : α → Except ε Bool} {g : α → Bool} {l : List α}
    (h : ∀ a ∈ l, f a = .ok (g a)) : l.filterM f = .ok (l.filter g) := by
  have aux : ∀ l acc, (∀ a ∈ l, f a = .ok (g a)) →
      List.filterAuxM f l acc = .ok ((l.filter g).reverse ++ acc) := by
    intro l
    induction l with
    | nil => intro acc _; rfl
    | cons a l ih =>
      intro acc h
      have rest := fun acc => ih acc fun b hb => h b (List.mem_cons_of_mem a hb)
      rw [List.filterAuxM, h a List.mem_cons_self]
      cases ha : g a with
      | true => simpa [ha, Bind.bind, Except.bind] using rest (a :: acc)
      | false => simpa [ha, Bind.bind, Except.bind] using rest acc
  rw [List.filterM, aux l [] h]
  simp [Bind.bind, Except.bind, Pure.pure, Except.pure]

/-- An element that is listed once is listed at one place. -/
theorem eq_of_nodup_flatMap {α β : Type} {l : List α} {f : α → List β} (h : (l.flatMap f).Nodup)
    {i j : Nat} {a b : α} (ha : l[i]? = some a) (hb : l[j]? = some b) {x : β} (hx : x ∈ f a)
    (hx' : x ∈ f b) : i = j := by
  have apart := List.pairwise_iff_getElem.mp (List.nodup_flatMap.mp h).2
  obtain ⟨hi, rfl⟩ := List.getElem?_eq_some_iff.mp ha
  obtain ⟨hj, rfl⟩ := List.getElem?_eq_some_iff.mp hb
  rcases Nat.lt_trichotomy i j with hij | rfl | hij
  · exact absurd hx' (apart i j hi hj hij hx)
  · rfl
  · exact absurd hx (apart j i hj hi hij hx')

/-- Who has functions: a class its members, a file those of its functions that are members of no
class. -/
inductive Holder where
  | cls (id : ClassId)
  | file (id : FileId)
deriving Repr, DecidableEq

def Holder.Has : Holder → FunctionDef → Prop
  | cls c, g => g.owner = some c
  | file i, g => g.owner = none ∧ g.file = i

namespace Project

variable {p : Project}

/-! ## Lists and owners -/

section Orderly

variable (orderly : p.Orderly) (closed : p.Closed)
include orderly

theorem nodup_ownedFunctions : p.ownedFunctions.Nodup :=
  orderly.forest.functionIds.once.nodup_iff.mpr List.nodup_range'

include closed

/-- The functions that a class lists are those that name it as their class. -/
theorem mem_functions_iff_owner {q : ClassId} {d : ClassDef} (hd : p.classes[q]? = some d)
    {i : FunctionId} :
    i ∈ d.functions ↔ ∃ g, p.functions[i]? = some g ∧ g.owner = some q := by
  obtain ⟨_, inClasses, apart⟩ := List.nodup_append.mp (nodup_ownedFunctions orderly)
  constructor
  · intro hi
    have hlt := (closed.classes d (Array.mem_of_getElem? hd)).functions i hi
    have hg : p.functions[i]? = some p.functions[i] := Array.getElem?_eq_getElem hlt
    refine ⟨_, hg, ?_⟩
    cases ho : p.functions[i].owner with
    | none =>
      obtain ⟨f, hf, hi'⟩ := orderly.functions.exists_file (mem_zipIdx_toList.mpr hg) ho
      have top := List.mem_flatMap.mpr ⟨f, Array.mem_toList_iff.mpr (Array.mem_of_getElem? hf), hi'⟩
      have inner :=
        List.mem_flatMap.mpr ⟨d, Array.mem_toList_iff.mpr (Array.mem_of_getElem? hd), hi⟩
      exact absurd rfl (apart i top i inner)
    | some q' =>
      obtain ⟨d', hd', _, hi'⟩ :=
        (ho ▸ orderly.forest.owners _ i (mem_zipIdx_toList.mpr hg)).exists_of_some
      have hd' := (List.mk_mem_zipIdx_iff_getElem?.mp hd')
      rw [eq_of_nodup_flatMap inClasses hd' (Array.getElem?_toList ▸ hd) hi' hi]
  · rintro ⟨g, hg, ho⟩
    obtain ⟨d', hd', _, hi⟩ :=
      (ho ▸ orderly.forest.owners g i (mem_zipIdx_toList.mpr hg)).exists_of_some
    obtain rfl := Option.some.inj (hd.symm.trans (mem_zipIdx_toList.mp hd'))
    exact hi

/-- The functions that a file lists are those of the file that are members of no class. -/
theorem mem_functions_iff_free {k : FileId} {s : SourceFile} (hs : p.files[k]? = some s)
    {i : FunctionId} :
    i ∈ s.functions ↔ ∃ g, p.functions[i]? = some g ∧ g.owner = none ∧ g.file = k := by
  obtain ⟨inFiles, _, apart⟩ := List.nodup_append.mp (nodup_ownedFunctions orderly)
  constructor
  · intro hi
    have hlt := (closed.files s (Array.mem_of_getElem? hs)).functions i hi
    have hg : p.functions[i]? = some p.functions[i] := Array.getElem?_eq_getElem hlt
    cases ho : p.functions[i].owner with
    | none =>
      obtain ⟨f, hf, hi'⟩ := orderly.functions.exists_file (mem_zipIdx_toList.mpr hg) ho
      exact ⟨_, hg, ho, eq_of_nodup_flatMap inFiles (Array.getElem?_toList ▸ hf)
        (Array.getElem?_toList ▸ hs) hi' hi⟩
    | some q =>
      obtain ⟨d, hd, _, hi'⟩ :=
        (ho ▸ orderly.forest.owners _ i (mem_zipIdx_toList.mpr hg)).exists_of_some
      have top := List.mem_flatMap.mpr ⟨s, Array.mem_toList_iff.mpr (Array.mem_of_getElem? hs), hi⟩
      have inner := List.mem_flatMap.mpr ⟨d, List.fst_mem_of_mem_zipIdx hd, hi'⟩
      exact absurd rfl (apart i top i inner)
  · rintro ⟨g, hg, ho, rfl⟩
    obtain ⟨f, hf, hi⟩ := orderly.functions.exists_file (mem_zipIdx_toList.mpr hg) ho
    obtain rfl := Option.some.inj (hs.symm.trans hf)
    exact hi

end Orderly

/-! ## Functions of a holder -/

/-- The holder is there. -/
def Present (p : Project) : Holder → Prop
  | .cls c => c < p.classes.size
  | .file i => i < p.files.size

/-- The functions of a name that a holder has, from the lists. -/
def heldBy (p : Project) (name : String) : Holder → Except Fault (List FunctionId)
  | .cls c => p.membersNamed c name
  | .file i => p.topLevelNamed i name

/-- All functions of the name that the holder has, in the order of their ids. -/
structure Collects (p : Project) (holder : Holder) (name : String) (ids : List FunctionId) :
    Prop where
  ascending : ids.Pairwise (· < ·)
  mem_iff : ∀ t, t ∈ ids ↔ ∃ g, p.functions[t]? = some g ∧ holder.Has g ∧ g.name = name

theorem named_eq_filter {name : String} {ids : List FunctionId}
    (h : ∀ i ∈ ids, i < p.functions.size) :
    p.named name ids = .ok (ids.filter fun i => p.functions[i]?.any fun g => g.name == name) := by
  refine filterM_eq_filter fun i hi => ?_
  simp [function, Array.getElem?_eq_getElem (h i hi)]

theorem collects_filter {holder : Holder} {name : String} {ids : List FunctionId}
    (ascending : ids.Pairwise (· < ·))
    (mem : ∀ i, i ∈ ids ↔ ∃ g, p.functions[i]? = some g ∧ holder.Has g) :
    p.Collects holder name (ids.filter fun i => p.functions[i]?.any fun g => g.name == name) := by
  refine ⟨ascending.filter _, fun t => ?_⟩
  rw [List.mem_filter, mem]
  constructor
  · rintro ⟨⟨g, hg, has⟩, hn⟩
    rw [hg] at hn
    exact ⟨g, hg, has, by simpa using hn⟩
  · rintro ⟨g, hg, has, hn⟩
    exact ⟨⟨g, hg, has⟩, by simp [hg, hn]⟩

theorem heldBy_collects (built : p.Built) {holder : Holder} (present : p.Present holder)
    (name : String) : Answers (p.heldBy name holder) (p.Collects holder name) := by
  have closed := built.closed
  have orderly := built.orderly
  cases holder with
  | cls c =>
    obtain ⟨d, hd, mem⟩ := classDef_answers present
    refine ⟨_, ?_, collects_filter (orderly.forest.ascending d (Array.mem_toList_iff.mpr mem)).2
      fun i => mem_functions_iff_owner orderly closed (classDef_eq_ok.mp hd)⟩
    rw [heldBy, membersNamed, hd]
    exact named_eq_filter (closed.classes d mem).functions
  | file k =>
    obtain ⟨s, hs, mem⟩ := file_answers present
    refine ⟨_, ?_, collects_filter (orderly.ascending s mem).2
      fun i => mem_functions_iff_free orderly closed (file_eq_ok.mp hs)⟩
    rw [heldBy, topLevelNamed, hs]
    exact named_eq_filter (closed.files s mem).functions

/-! ## The holder that a call asks -/

/-- The holder that a call in `f` asks. Without a receiver it is the class of `f` or, outside of a
class, the file. Otherwise it is a class: that of `f` for `this`, the one that the type of the
first property of the receiver's name means, or the one that the receiver itself means if the
class of `f` has no such property. -/
inductive Asks (p : Project) (f : FunctionDef) : CallSite → Holder → Prop where
  | member {c : ClassId} {name : String} {line : Nat} (owner : f.owner = some c) :
    Asks p f (.simple (some name) line) (.cls c)
  | free {name : String} {line : Nat} (owner : f.owner = none) :
    Asks p f (.simple (some name) line) (.file f.file)
  | this {c : ClassId} {member : String} {line : Nat} (owner : f.owner = some c) :
    Asks p f (.navigation "this" member line) (.cls c)
  | property {c : ClassId} {d : ClassDef} {q : Property} {type : String} {l : Lookup}
    {receiver member : String} {line : Nat} (other : receiver ≠ "this")
    (owner : f.owner = some c) (cls : p.classes[c]? = some d)
    (first : (d.properties.find? fun q => q.name == receiver) = some q)
    (declared : q.typeName = some type) (found : p.lookup d.file type = .ok (some l)) :
    Asks p f (.navigation receiver member line) (.cls l.cls)
  | qualifier {l : Lookup} {receiver member : String} {line : Nat} (other : receiver ≠ "this")
    (none : ∀ c d, f.owner = some c → p.classes[c]? = some d →
      (d.properties.find? fun q => q.name == receiver) = .none)
    (found : p.lookup f.file receiver = .ok (some l)) :
    Asks p f (.navigation receiver member line) (.cls l.cls)

/-- What was found out about the class behind a receiver is what a call through it asks. -/
def Settles (p : Project) (f : FunctionDef) (receiver member : String) (line : Nat)
    (r : Receiver) : Prop :=
  match r.cls with
  | .ok c => p.Present (.cls c) ∧ ∀ h, p.Asks f (.navigation receiver member line) h ↔ h = .cls c
  | .error reason => reason ≠ .noMatchingFunction ∧
    ∀ h, ¬ p.Asks f (.navigation receiver member line) h

theorem settles_ofLookup {f : FunctionDef} {receiver member qualifier : String} {line : Nat}
    {reason : MissReason} (hr : reason ≠ .noMatchingFunction) {found : Option Lookup}
    (within : ∀ l ∈ found, l.cls < p.classes.size)
    (asks : ∀ h, p.Asks f (.navigation receiver member line) h ↔ ∃ l ∈ found, h = .cls l.cls) :
    p.Settles f receiver member line (Receiver.ofLookup qualifier reason found) := by
  cases found with
  | none => exact ⟨hr, fun h => by simp [asks]⟩
  | some l => exact ⟨within l rfl, fun h => by simp [asks]⟩

section Closed

variable (closed : p.Closed) {f : FunctionDef} (hf : f ∈ p.functions)
include closed hf

/-- Where the class of `f` has no property of that name, the receiver itself is looked up. -/
theorem settles_qualifier {receiver : String} (member : String) (line : Nat)
    (other : receiver ≠ "this")
    (none : ∀ c d, f.owner = some c → p.classes[c]? = some d →
      (d.properties.find? fun q => q.name == receiver) = .none) :
    Answers (p.lookup f.file receiver >>= fun found =>
      pure (Receiver.ofLookup receiver .unresolvedReceiver found))
      (p.Settles f receiver member line) := by
  obtain ⟨found, hfound, within⟩ := lookup_answers closed (closed.functions f hf).file receiver
  rw [hfound]
  refine .pure (settles_ofLookup (by simp) within fun h => ⟨fun asks => ?_, ?_⟩)
  · cases asks with
    | this _ => exact absurd rfl other
    | property _ owner cls first _ _ => rw [none _ _ owner cls] at first; cases first
    | @qualifier l _ _ _ _ _ hl => exact ⟨l, Except.ok.inj (hfound.symm.trans hl), rfl⟩
  · rintro ⟨l, hl, rfl⟩
    exact .qualifier other none (hl ▸ hfound)

omit hf in
/-- A property of the receiver's name hides a class of that name. -/
theorem settles_property {receiver : String} (member : String) (line : Nat)
    (other : receiver ≠ "this") {c : ClassId} {d : ClassDef} {q : Property}
    (owner : f.owner = some c) (cls : p.classes[c]? = some d)
    (first : (d.properties.find? fun q => q.name == receiver) = some q) :
    Answers (match q.typeName with
      | none => pure ⟨none, .error .unknownPropertyType⟩
      | some type => p.lookupFrom c type >>= fun found =>
        pure (Receiver.ofLookup type .unresolvedPropertyType found))
      (p.Settles f receiver member line) := by
  have only {h : Holder} (asks : p.Asks f (.navigation receiver member line) h) :
      ∃ type l, q.typeName = some type ∧ p.lookup d.file type = .ok (some l) ∧ h = .cls l.cls := by
    cases asks with
    | this _ => exact absurd rfl other
    | @property c' d' q' type l _ _ _ _ owner' cls' first' declared found =>
      obtain rfl := Option.some.inj (owner.symm.trans owner')
      obtain rfl := Option.some.inj (cls.symm.trans cls')
      obtain rfl := Option.some.inj (first.symm.trans first')
      exact ⟨type, l, declared, found, rfl⟩
    | qualifier _ none _ => rw [none c d owner cls] at first; cases first
  cases declared : q.typeName with
  | none =>
    refine .pure ⟨by simp, fun h asks => ?_⟩
    obtain ⟨_, _, ht, _⟩ := only asks
    rw [declared] at ht
    cases ht
  | some type =>
    have file := (closed.classes d (Array.mem_of_getElem? cls)).file
    obtain ⟨found, hfound, within⟩ := lookup_answers closed file type
    have looked : Answers (p.lookupFrom c type) (· = found) :=
      ⟨found, bind_eq_ok.mpr ⟨d, classDef_eq_ok.mpr cls, hfound⟩, rfl⟩
    refine looked.bind ?_
    rintro _ rfl
    refine .pure (settles_ofLookup (by simp) within fun h => ⟨fun asks => ?_, ?_⟩)
    · obtain ⟨_, l, ht, hl, rfl⟩ := only asks
      obtain rfl := Option.some.inj (declared.symm.trans ht)
      exact ⟨l, Except.ok.inj (hfound.symm.trans hl), rfl⟩
    · rintro ⟨l, hl, rfl⟩
      exact .property other owner cls first declared (hl ▸ hfound)

theorem receiver_settles (receiver member : String) (line : Nat) :
    Answers (p.receiver f receiver) (p.Settles f receiver member line) := by
  have within := closed.functions f hf
  unfold Project.receiver
  by_cases this : receiver = "this"
  · subst this
    simp only [beq_self_eq_true, if_true]
    cases ho : f.owner with
    | none =>
      refine .pure ⟨by simp, fun h asks => ?_⟩
      cases asks with
      | this owner => rw [ho] at owner; cases owner
      | property other => exact other rfl
      | qualifier other => exact other rfl
    | some c =>
      refine .pure ⟨within.owner c ho, fun h => ⟨fun asks => ?_, ?_⟩⟩
      · cases asks with
        | this owner => rw [Option.some.inj (ho.symm.trans owner)]
        | property other => exact absurd rfl other
        | qualifier other => exact absurd rfl other
      · rintro rfl
        exact .this ho
  · simp only [beq_iff_eq, this, if_false]
    cases ho : f.owner with
    | none =>
      dsimp only
      rw [pure_bind]
      exact settles_qualifier closed hf member line this fun c d hc => by simp [ho] at hc
    | some c =>
      dsimp only
      obtain ⟨d, hd, _⟩ := classDef_answers (within.owner c ho)
      have cls := classDef_eq_ok.mp hd
      have property : Answers (p.property? c receiver) fun q =>
          q = d.properties.find? fun q => q.name == receiver := ⟨_, by rw [property?, hd]; rfl, rfl⟩
      refine property.bind ?_
      rintro _ rfl
      cases first : d.properties.find? fun q => q.name == receiver with
      | none =>
        refine settles_qualifier closed hf member line this fun c' d' hc hd' => ?_
        obtain rfl := Option.some.inj (ho.symm.trans hc)
        obtain rfl := Option.some.inj (cls.symm.trans hd')
        exact first
      | some q => exact settles_property closed member line this ho cls first

end Closed

/-! ## Calls -/

theorem outcomeOf_eq_targets {ids ids' : List FunctionId} :
    outcomeOf ids = .targets ids' ↔ ids ≠ [] ∧ ids = ids' := by
  cases ids <;> simp [outcomeOf]

theorem outcomeOf_eq_miss {ids : List FunctionId} {reason : MissReason} :
    outcomeOf ids = .miss reason ↔ ids = [] ∧ reason = .noMatchingFunction := by
  cases ids <;> simp [outcomeOf, eq_comm]

/-- A function is among those that are asked when it calls without a receiver. -/
theorem has_of_asks_simple {f : FunctionDef} {name : Option String} {line : Nat} {h : Holder}
    (asks : p.Asks f (.simple name line) h) : h.Has f := by
  cases asks with
  | member owner => exact owner
  | free owner => exact ⟨owner, rfl⟩

/-- The holder that a name without receiver is looked for in. -/
def scopeOf (f : FunctionDef) : Holder :=
  match f.owner with
  | some c => .cls c
  | none => .file f.file

theorem asks_simple_iff {f : FunctionDef} {name : String} {line : Nat} {h : Holder} :
    p.Asks f (.simple (some name) line) h ↔ h = scopeOf f := by
  unfold scopeOf
  constructor
  · intro asks
    cases asks with
    | member owner => rw [owner]
    | free owner => rw [owner]
  · rintro rfl
    cases ho : f.owner with
    | some c => exact .member ho
    | none => exact .free ho

theorem inScope_eq_heldBy (f : FunctionDef) (name : String) :
    p.inScope f name = p.heldBy name (scopeOf f) := by
  unfold inScope scopeOf
  cases f.owner <;> rfl

/-- The ways in which a call comes out: it asks a holder and leads to what this one collects, or it
is to the own name, or it asks nobody. -/
inductive Comes (p : Project) (f : FunctionDef) (site : CallSite) (outcome : Outcome) : Prop where
  | asked {name : String} {holder : Holder} {ids : List FunctionId}
    (target : site.target? = some name) (asks : ∀ h, p.Asks f site h ↔ h = holder)
    (collects : p.Collects holder name ids) (outcome : outcome = outcomeOf ids)
    (other : ∀ n line, site = .simple n line → name ≠ f.name)
  | own {line : Nat} (site : site = .simple (some f.name) line) (outcome : outcome = .selfCall)
  | unasked {reason : MissReason} (nobody : ∀ h, ¬ p.Asks f site h)
    (other : reason ≠ .noMatchingFunction) (outcome : outcome = .miss reason)

theorem call_comes (built : p.Built) {f : FunctionDef} (hf : f ∈ p.functions) (site : CallSite) :
    Answers (p.call f site) fun c => p.Comes f site c.outcome := by
  have closed := built.closed
  have within := closed.functions f hf
  match site with
  | .simple none line => exact .pure (.unasked (fun h asks => nomatch asks) (by simp) rfl)
  | .simple (some name) line =>
    by_cases own : name = f.name
    · subst own
      simp only [call, beq_self_eq_true, if_true]
      exact .pure (.own rfl rfl)
    · have present : p.Present (scopeOf f) := by
        unfold scopeOf
        cases ho : f.owner with
        | some c => exact within.owner c ho
        | none => exact within.file
      simp only [call, beq_iff_eq, own, if_false, inScope_eq_heldBy]
      refine (heldBy_collects built present name).bind fun ids collects => .pure ?_
      refine .asked rfl (fun h => asks_simple_iff) collects rfl fun n l hn => ?_
      exact own
  | .navigation receiver member line =>
    refine (receiver_settles closed hf receiver member line).bind fun r settles => ?_
    obtain ⟨note, cls⟩ := r
    cases cls with
    | error reason => exact .pure (.unasked settles.2 settles.1 rfl)
    | ok c =>
      refine (heldBy_collects built settles.1 member).bind fun ids collects => .pure ?_
      exact .asked rfl settles.2 collects rfl (by simp)

/-- A call that has targets asks one holder, and its targets are all functions of the called name
that the holder has, in order; a call without receiver never leads back to its caller. A call that
asks a holder comes to nothing exactly if that one has no function of the name. -/
theorem call_targets_iff (built : p.Built) {i : FunctionId} {f : FunctionDef}
    (hf : p.functions[i]? = some f) (site : CallSite) :
    ∃ c, p.call f site = .ok c ∧
      (∀ ids, c.outcome = .targets ids →
        ids ≠ [] ∧ ids.Pairwise (· < ·) ∧
        (∀ t ∈ ids, ∃ g, p.functions[t]? = some g ∧ site.target? = some g.name) ∧
        (∃ holder, (∀ h, p.Asks f site h ↔ h = holder) ∧
          ∀ t, t ∈ ids ↔
            ∃ g, p.functions[t]? = some g ∧ holder.Has g ∧ site.target? = some g.name) ∧
        ∀ name line, site = .simple name line → i ∉ ids) ∧
      (c.outcome = .miss .noMatchingFunction ↔
        ∃ name holder, site.target? = some name ∧ p.Asks f site holder ∧
          ∀ g ∈ p.functions, holder.Has g → g.name ≠ name) := by
  have mem := Array.mem_of_getElem? hf
  obtain ⟨c, hc, comes⟩ := call_comes built mem site
  refine ⟨c, hc, ?_⟩
  cases comes with
  | @asked name holder ids target asks collects outcome other =>
    have members (t) : t ∈ ids ↔
        ∃ g, p.functions[t]? = some g ∧ holder.Has g ∧ site.target? = some g.name := by
      simp only [collects.mem_iff, target, Option.some.injEq, eq_comm]
    rw [outcome]
    refine ⟨fun ids' h => ?_, ?_⟩
    · obtain ⟨some, rfl⟩ := outcomeOf_eq_targets.mp h
      refine ⟨some, collects.ascending, fun t ht => ?_, ⟨holder, asks, members⟩, ?_⟩
      · obtain ⟨g, hg, _, name⟩ := (members t).mp ht
        exact ⟨g, hg, name⟩
      · rintro n line hsite hi
        obtain ⟨g, hg, _, name⟩ := (collects.mem_iff i).mp hi
        obtain rfl := Option.some.inj (hf.symm.trans hg)
        exact other n line hsite name.symm
    · rw [outcomeOf_eq_miss, and_iff_left rfl, List.eq_nil_iff_forall_not_mem]
      constructor
      · intro none
        refine ⟨name, holder, target, (asks holder).mpr rfl, fun g hg has hn => ?_⟩
        obtain ⟨t, ht⟩ := Array.mem_iff_getElem?.mp hg
        exact none t ((collects.mem_iff t).mpr ⟨g, ht, has, hn⟩)
      · rintro ⟨name', h, target', hasks, none⟩ t ht
        obtain rfl := Option.some.inj (target.symm.trans target')
        obtain rfl := (asks h).mp hasks
        obtain ⟨g, hg, has, hn⟩ := (collects.mem_iff t).mp ht
        exact none g (Array.mem_of_getElem? hg) has hn
  | own hsite outcome =>
    rw [outcome]
    refine ⟨by simp, iff_of_false (by simp) ?_⟩
    -- the caller itself has the name
    rintro ⟨name, h, target, asks, none⟩
    subst hsite
    exact none f mem (has_of_asks_simple asks) (Option.some.inj target)
  | unasked nobody other outcome =>
    rw [outcome]
    refine ⟨by simp, iff_of_false (by simpa using other) ?_⟩
    rintro ⟨_, h, _, asks, _⟩
    exact nobody h asks

/-- A call through a property, into the other file. -/
theorem call_targets_iff_pair :
    ∃ f, Sample.pair.functions[0]? = some f ∧ f.calls = [.navigation "b" "g" 1] ∧
      ∃ c, Sample.pair.call f (.navigation "b" "g" 1) = .ok c ∧ c.outcome = .targets [1] ∧
        ∃ holder, (∀ h, Sample.pair.Asks f (.navigation "b" "g" 1) h ↔ h = holder) ∧
          ∀ t, t ∈ [1] ↔ ∃ g, Sample.pair.functions[t]? = some g ∧ holder.Has g ∧
            some "g" = some g.name := by
  have found : ∀ f ∈ Sample.pair.functions[0]?, f.calls = [.navigation "b" "g" 1] ∧
      ∀ c ∈ (Sample.pair.call f (.navigation "b" "g" 1)).toOption, c.outcome = .targets [1] := by
    decide +kernel
  obtain ⟨f, hf⟩ : ∃ f, Sample.pair.functions[0]? = some f :=
    ⟨_, Array.getElem?_eq_getElem (by decide +kernel)⟩
  obtain ⟨calls, outcome⟩ := found f hf
  obtain ⟨c, hc, targets, _⟩ := call_targets_iff Sample.pair_built hf (.navigation "b" "g" 1)
  rw [hc] at outcome
  have hits := outcome c rfl
  exact ⟨f, hf, calls, c, hc, hits, (targets [1] hits).2.2.2.1⟩

end Project

end CallFlow
