/-! White space, what is left of a text without it, and names written with dots, such as
`com.example.Repo`. A text is a list of characters here, so that every step below is a list
operation. -/

namespace CallFlow.Text

/-! ## White space -/

/-- The characters with the Unicode property White_Space. The zero width space
U+200B and the byte order mark U+FEFF are not among them. -/
def isBlank (c : Char) : Bool :=
  let n := c.toNat
  (0x09 ≤ n && n ≤ 0x0D) || n == 0x20 || n == 0x85 || n == 0xA0 || n == 0x1680 ||
    (0x2000 ≤ n && n ≤ 0x200A) || n == 0x2028 || n == 0x2029 || n == 0x202F ||
    n == 0x205F || n == 0x3000

def allBlank (cs : List Char) : Bool := cs.all isBlank

def trimStart (cs : List Char) : List Char := cs.dropWhile isBlank

def trimEnd (cs : List Char) : List Char := (cs.reverse.dropWhile isBlank).reverse

def trim (cs : List Char) : List Char := trimEnd (trimStart cs)

/-- All white space taken out, as for a call chain that is split over lines. -/
def dense (cs : List Char) : List Char := cs.filter fun c => !isBlank c

theorem trimStart_of_allBlank {cs : List Char} (h : allBlank cs = true) : trimStart cs = [] := by
  induction cs with
  | nil => rfl
  | cons c cs ih =>
    simp only [allBlank, List.all_cons, Bool.and_eq_true] at h
    simp only [trimStart, List.dropWhile_cons, h.1, if_true]
    exact ih h.2

theorem trimStart_eq_nil {cs : List Char} (h : trimStart cs = []) : allBlank cs = true := by
  induction cs with
  | nil => rfl
  | cons c cs ih =>
    by_cases hc : isBlank c = true
    · simp only [trimStart, List.dropWhile_cons, hc, if_true] at h
      simp only [allBlank, List.all_cons, hc, Bool.true_and]
      exact ih h
    · simp [trimStart, hc] at h

/-! ## Dotted names -/

/-- The part behind the last dot; the whole name if it has none. -/
def lastSegment (s : String) : String :=
  String.ofList (s.toList.reverse.takeWhile (· ≠ '.')).reverse

/-- The part in front of the last dot; empty if there is none. -/
def qualifierOf (s : String) : String :=
  String.ofList ((s.toList.reverse.dropWhile (· ≠ '.')).drop 1).reverse

/-- The part in front of the first dot; the whole name if it has none. -/
def firstSegment (s : String) : String := String.ofList (s.toList.takeWhile (· ≠ '.'))

def isDotted (s : String) : Bool := s.toList.contains '.'

/-- The part of `path` in front of `.name`, where `path` ends in that. Only whole
segments count: `com.MyRepo` does not end in `.Repo`. -/
def beforeName? (path name : String) : Option String :=
  (List.isSuffixOf? ('.' :: name.toList) path.toList).map String.ofList

end CallFlow.Text
