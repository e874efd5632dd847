import CallFlow.Text.CasingTable

/-! Lower case of any text. Two letters do not map to one fixed letter: a capital I
with a dot becomes two characters, and a capital sigma has a form of its own at
the end of a word. -/

namespace CallFlow.Text

def inRanges (ranges : List (Nat × Nat)) (c : Char) : Bool :=
  ranges.any fun (first, last) => first ≤ c.toNat && c.toNat ≤ last

def CaseRun.holds (r : CaseRun) (n : Nat) : Bool :=
  r.first ≤ n && n ≤ r.last && (n - r.first) % r.step == 0

def lowerChar (c : Char) : List Char :=
  if c = '\u0130' then ['i', '\u0307']
  else
    match caseRuns.find? fun r => r.holds c.toNat with
    | some r => [Char.ofNat (r.lower + (c.toNat - r.first))]
    | none => [c]

/-- Is the first character that is not passed over a letter with a case? -/
def meetsLetter (cs : List Char) : Bool :=
  match cs.dropWhile (inRanges ignorableRanges) with
  | c :: _ => inRanges casedRanges c
  | [] => false

/-- The lower case of a text behind `before`, which is given backwards. -/
def lowerAfter (before : List Char) : List Char → List Char
  | [] => []
  | c :: cs =>
    (if c = 'Σ' then [if meetsLetter before && !meetsLetter cs then 'ς' else 'σ']
      else lowerChar c) ++ lowerAfter (c :: before) cs

def lower (cs : List Char) : List Char := lowerAfter [] cs

/-- Equal up to the case of ASCII letters. -/
def sameAscii (a b : List Char) : Bool := a.map Char.toLower == b.map Char.toLower

end CallFlow.Text
