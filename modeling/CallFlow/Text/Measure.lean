/-! Positions in a text are counted in the bytes of its UTF-8 form. A cut is
possible only between two characters: `splitAt?` has no answer for an offset
inside a character or behind the end. -/

namespace CallFlow

/-- From byte `start` up to, and without, byte `stop`. -/
structure Span where
  start : Nat
  stop : Nat
deriving Repr, DecidableEq, Inhabited

/-- The least range that holds both. -/
def Span.cover (a b : Span) : Span := ⟨min a.start b.start, max a.stop b.stop⟩

end CallFlow

namespace CallFlow.Text

/-- Length in bytes. -/
def width : List Char → Nat
  | [] => 0
  | c :: cs => c.utf8Size + width cs

def splitAt? : Nat → List Char → Option (List Char × List Char)
  | 0, cs => some ([], cs)
  | _ + 1, [] => none
  | n + 1, c :: cs =>
    if c.utf8Size ≤ n + 1 then
      (splitAt? (n + 1 - c.utf8Size) cs).map fun (front, rest) => (c :: front, rest)
    else none

/-- The characters from byte `start` up to byte `stop`. -/
def slice? (start stop : Nat) (cs : List Char) : Option (List Char) :=
  if stop < start then none
  else do
    let (_, rest) ← splitAt? start cs
    let (front, _) ← splitAt? (stop - start) rest
    return front

/-- Number of line feeds in front of byte `n`. -/
def row : Nat → List Char → Nat
  | 0, _ => 0
  | _ + 1, [] => 0
  | n + 1, c :: cs => (if c = '\n' then 1 else 0) + row (n + 1 - c.utf8Size) cs

theorem width_append (a b : List Char) : width (a ++ b) = width a + width b := by
  induction a with
  | nil => simp [width]
  | cons c cs ih => simp [width, ih, Nat.add_assoc]

/-- A cut loses nothing and falls where it was asked for. -/
theorem splitAt?_eq_some {n : Nat} {cs front rest : List Char}
    (h : splitAt? n cs = some (front, rest)) : cs = front ++ rest ∧ width front = n := by
  induction cs generalizing n front rest with
  | nil => cases n <;> simp_all [splitAt?, width]
  | cons c cs ih =>
    cases n with
    | zero => simp_all [splitAt?, width]
    | succ n =>
      simp only [splitAt?] at h
      split at h
      · rename_i hc
        obtain ⟨⟨front', rest'⟩, hs, he⟩ := Option.map_eq_some_iff.mp h
        obtain ⟨h₁, h₂⟩ := ih hs
        simp only [Prod.mk.injEq] at he
        obtain ⟨rfl, rfl⟩ := he
        exact ⟨by simp [h₁], by simp only [width, h₂]; omega⟩
      · simp at h

theorem splitAt?_width (front rest : List Char) :
    splitAt? (width front) (front ++ rest) = some (front, rest) := by
  induction front with
  | nil => simp [width, splitAt?]
  | cons c cs ih =>
    have hc := c.utf8Size_pos
    obtain ⟨n, hn⟩ : ∃ n, width (c :: cs) = n + 1 :=
      ⟨width (c :: cs) - 1, by simp only [width]; omega⟩
    have hw : n + 1 - c.utf8Size = width cs := by simp only [width] at hn; omega
    have hle : c.utf8Size ≤ n + 1 := by simp only [width] at hn; omega
    rw [hn, List.cons_append]
    simp [splitAt?, hle, hw, ih]

end CallFlow.Text
