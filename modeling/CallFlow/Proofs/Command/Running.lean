import CallFlow.Command.Run
import CallFlow.Proofs.Directory.Build

/-! Runs of commands, step by step: what a run gives and what it has put out by then. -/

namespace CallFlow.Command

variable {α β : Type} {out out' : Output}

/-- The run gives `a` and puts out what `out'` has over `out`. -/
def Gives (x : Run α) (out : Output) (a : α) (out' : Output) : Prop := x.run out = (.ok a, out')

theorem exists_gives {x : Run α} (h : (x.run out).1.isOk = true) :
    ∃ a out', Gives x out a out' := by
  unfold Gives
  cases eq : x.run out with
  | mk r out' =>
    rw [eq] at h
    cases r with
    | ok a => exact ⟨a, out', rfl⟩
    | error e => cases h

theorem gives_bind {x : Run α} {f : α → Run β} {b : β} :
    Gives (x >>= f) out b out' ↔ ∃ a mid, Gives x out a mid ∧ Gives (f a) mid b out' := by
  have step : (x >>= f).run out = match x.run out with
      | (.ok a, mid) => (f a).run mid
      | (.error e, mid) => (.error e, mid) := by
    show (ExceptT.bindCont f (x.run out).1) (x.run out).2 = _
    cases x.run out with
    | mk r mid => cases r <;> rfl
  unfold Gives
  rw [step]
  cases x.run out with
  | mk r mid =>
    cases r with
    | ok a =>
      constructor
      · exact fun h => ⟨a, mid, rfl, h⟩
      · rintro ⟨_, _, ⟨⟩, h⟩
        exact h
    | error e =>
      constructor
      · rintro ⟨⟩
      · rintro ⟨_, _, ⟨⟩, _⟩

theorem gives_ask {x : Except Fault α} {a : α} :
    Gives (ask x) out a out' ↔ x = .ok a ∧ out' = out := by
  cases x with
  | ok b =>
    constructor
    · rintro ⟨⟩
      exact ⟨rfl, rfl⟩
    · rintro ⟨⟨⟩, rfl⟩
      rfl
  | error cause =>
    constructor
    · rintro ⟨⟩
    · rintro ⟨⟨⟩, _⟩

theorem gives_say : ∀ (lines : List String) (out : Output), Gives (lines.forM say) out ()
    { out with stdout := out.stdout ++ String.join (lines.map (· ++ "\n")) }
  | [], out => by
    have none : out.stdout ++ String.join ([].map (· ++ "\n")) = out.stdout := by simp
    rw [none]
    rfl
  | l :: lines, out => by
    have first : Gives (say l) out () { out with stdout := out.stdout ++ l ++ "\n" } := rfl
    refine gives_bind.mpr ⟨(), _, first, ?_⟩
    have rest := gives_say lines { out with stdout := out.stdout ++ l ++ "\n" }
    simpa [String.append_assoc] using rest

theorem readPattern_eq {language : PatternLanguage} {written : Option String}
    {filter : Option (String → Bool)} (h : written.mapM language = .ok filter) :
    readPattern language written = pure filter := by
  cases written with
  | none =>
    cases h
    rfl
  | some w =>
    obtain ⟨holds, read, rfl⟩ := map_eq_ok.mp h
    simp only [readPattern, read]

theorem of_loadProject {openFolder? : String → Option Directory} {o : SourceOptions} {p : Project}
    (h : Gives (loadProject openFolder? o) out p out') : p.Built ∧ out'.stdout = out.stdout := by
  unfold loadProject at h
  split at h
  · cases h
  · obtain ⟨⟨build, stats⟩, mid, asked, told⟩ := gives_bind.mp h
    obtain ⟨loaded, rfl⟩ := gives_ask.mp asked
    have built := Directory.built_of_build loaded
    obtain ⟨⟨⟩, _, logged, rest⟩ := gives_bind.mp told
    cases logged
    split at rest
    · obtain ⟨⟨⟩, _, warned, last⟩ := gives_bind.mp rest
      cases warned
      cases last
      exact ⟨built, rfl⟩
    · cases rest
      exact ⟨built, rfl⟩

end CallFlow.Command
