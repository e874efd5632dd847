/-! Patterns for names: literals, `.`, `^`, `$`, sets in brackets, groups, `|`, `?`, `*` and `+`,
and a search for them that reads the text once. -/

namespace CallFlow

/-- A pattern. The mark on a set says that some match under way has just taken a character there,
so that all matches under way are kept in one tree as large as the pattern. -/
inductive Pattern where
  | empty
  /-- The start of the text. -/
  | atStart
  /-- The end of the text. -/
  | atEnd
  | char (holds : Char → Bool) (marked : Bool)
  | seq (a b : Pattern)
  | alt (a b : Pattern)
  /-- Once or more often. -/
  | loop (a : Pattern)

namespace Pattern

/-! ## Searching -/

/-- Does the empty text match here? -/
def nullable (first last : Bool) : Pattern → Bool
  | empty => true
  | atStart => first
  | atEnd => last
  | char .. => false
  | seq a b => a.nullable first last && b.nullable first last
  | alt a b => a.nullable first last || b.nullable first last
  | loop a => a.nullable first last

/-- Is a match under way complete here? -/
def complete (first last : Bool) : Pattern → Bool
  | char _ marked => marked
  | seq a b => a.complete first last && b.nullable first last || b.complete first last
  | alt a b => a.complete first last || b.complete first last
  | loop a => a.complete first last
  | _ => false

/-- Takes the next character. A match may begin in front of it if `enter` is set. -/
def step (first : Bool) (c : Char) (enter : Bool) : Pattern → Pattern
  | char holds _ => char holds (enter && holds c)
  | seq a b =>
    let passed := enter && a.nullable first false || a.complete first false
    seq (a.step first c enter) (b.step first c passed)
  | alt a b => alt (a.step first c enter) (b.step first c enter)
  | loop a => loop (a.step first c (enter || a.complete first false))
  | p => p

/-- Is there a match that ends in `cs` or right before it? `first` says whether nothing was read
so far. -/
def search (first : Bool) (p : Pattern) : List Char → Bool
  | [] => p.nullable first true || p.complete first true
  | c :: cs => p.nullable first false || p.complete first false ||
    search false (p.step first c true) cs

/-! ## Reading -/

/-- A character of a written pattern. A literal one stands for itself. -/
structure Sign where
  char : Char
  literal : Bool
deriving DecidableEq

/-- The signs of a text. Behind a backslash, punctuation stands for itself. -/
def signs? : List Char → Option (List Sign)
  | [] => return []
  | ['\\'] => none
  | '\\' :: c :: cs => do
    if c.toNat < 128 && !c.isAlphanum && c != '<' && c != '>' then
      return ⟨c, true⟩ :: (← signs? cs)
    else none
  | c :: cs => return ⟨c, false⟩ :: (← signs? cs)

/-- Something that was read, and how deep it is nested. -/
structure Nested (α : Type) where
  value : α
  depth : Nat

/-- Some things in a row, which counts as one more level if there are several. -/
def inRow {α : Type} (none : α) (join : α → α → α) : List (Nested α) → Nested α
  | [] => ⟨none, 0⟩
  | [a] => a
  | a :: rest => rest.foldl (fun r b => ⟨join r.value b.value, max r.depth (b.depth + 1)⟩)
      ⟨a.value, a.depth + 1⟩

abbrev CharSet := Nested (Char → Bool)

namespace CharSet

def ofRange (low high : Char) : CharSet := ⟨fun c => low ≤ c && c ≤ high, 0⟩

def single (c : Char) : CharSet := ofRange c c

/-- The operators between sets: intersection, difference and symmetric difference. -/
def operator? : Char → Option (Bool → Bool → Bool)
  | '&' => some fun a b => a && b
  | '-' => some fun a b => a && !b
  | '~' => some fun a b => a != b
  | _ => none

def combine (op : Bool → Bool → Bool) (a b : CharSet) : CharSet :=
  ⟨fun c => op (a.value c) (b.value c), max a.depth b.depth + 1⟩

end CharSet

/-- A set in brackets while it is read. -/
structure Bracket where
  negated : Bool
  /-- What stands before the last operator, waiting for its right side. -/
  left : CharSet → CharSet
  /-- The items behind the last operator, latest first. -/
  items : List CharSet
  /-- The last character, which may be the lower end of a range. -/
  low : Option Sign
  /-- Behind that there is a dash. -/
  dash : Bool
  /-- Nothing but dashes was read. -/
  fresh : Bool

namespace Bracket

def start : Bracket := ⟨false, id, [], none, false, true⟩

def add (b : Bracket) (s : CharSet) : Bracket :=
  { b with items := s :: b.items, low := none, dash := false, fresh := false }

/-- Makes an item of the last character. -/
def settle (b : Bracket) : Bracket :=
  match b.low with
  | some s => b.add (.single s.char)
  | none => b

def inner (b : Bracket) : CharSet :=
  b.left (inRow (fun _ => false) (fun s t c => s c || t c) b.settle.items.reverse)

def combine (b : Bracket) (op : Bool → Bool → Bool) : Bracket :=
  { start with negated := b.negated, left := .combine op b.inner, fresh := false }

def close (b : Bracket) : CharSet :=
  let inner := (if b.dash then b.settle.add (.single '-') else b).inner
  ⟨fun c => inner.value c != b.negated, inner.depth + 1⟩

/-- Takes a sign that neither opens nor closes a set. -/
def read (b : Bracket) (s : Sign) : Option Bracket :=
  match b.low, b.dash with
  | some low, true =>
    if s = ⟨'-', false⟩ then some (b.combine fun a b => a && !b)
    else if s.char < low.char then none
    else some (b.add (.ofRange low.char s.char))
  | low, _ =>
    if low = some s && !s.literal && (CharSet.operator? s.char).isSome then
      (CharSet.operator? s.char).map { b with low := none }.combine
    else if low.isSome && s = ⟨'-', false⟩ then some { b with dash := true }
    else if b.fresh && s = ⟨'-', false⟩ then some { b.add (.single '-') with fresh := true }
    else if b.fresh && b.items.isEmpty && s = ⟨']', false⟩ then some (b.add (.single ']'))
    else if b.fresh && b.items.isEmpty && !b.negated && s = ⟨'^', false⟩ then
      some { b with negated := true }
    else some { b.settle with low := some s, fresh := false }

end Bracket

/-- A group while it is read: the alternatives before the last bar, and the items behind it, both
with the latest first. -/
structure Group where
  alternatives : List (Nested Pattern)
  items : List (Nested Pattern)

namespace Group

def start : Group := ⟨[], []⟩

def add (g : Group) (p : Pattern) (depth : Nat) : Group := ⟨g.alternatives, ⟨p, depth⟩ :: g.items⟩

def bar (g : Group) : Group := ⟨inRow .empty .seq g.items.reverse :: g.alternatives, []⟩

def close (g : Group) : Nested Pattern := inRow .empty .alt g.bar.alternatives.reverse

end Group

/-- What the next sign is part of. -/
inductive Mode where
  | item
  /-- Behind a repetition, where `?` asks for short matches and makes no difference. -/
  | repeated
  /-- Behind the start of a group, where `?:` says that it need not be remembered. -/
  | opened
  | flagged
  /-- A set in brackets, with the sets around it, innermost first. -/
  | bracket (b : Bracket) (outer : List Bracket)

structure Reader where
  current : Group
  /-- The groups around the current one, innermost first. -/
  outer : List Group
  mode : Mode

namespace Reader

def start : Reader := ⟨.start, [], .item⟩

def add (r : Reader) (p : Pattern) (depth : Nat) : Reader :=
  ⟨r.current.add p depth, r.outer, .item⟩

def addChars (r : Reader) (s : CharSet) : Reader := r.add (.char s.value false) s.depth

/-- Repeats the last item; there has to be one. -/
def again (r : Reader) (f : Pattern → Pattern) : Option Reader :=
  match r.current.items with
  | [] => none
  | p :: items => some ⟨⟨r.current.alternatives, ⟨f p.value, p.depth + 1⟩ :: items⟩, r.outer,
      .repeated⟩

def item (r : Reader) (s : Sign) : Option Reader :=
  if s.literal then some (r.addChars (.single s.char))
  else match s.char with
    | '(' => some ⟨.start, r.current :: r.outer, .opened⟩
    | ')' =>
      match r.outer with
      | [] => none
      | g :: outer => some ⟨g.add r.current.close.value (r.current.close.depth + 1), outer, .item⟩
    | '|' => some ⟨r.current.bar, r.outer, .item⟩
    | '?' => r.again (alt empty)
    | '*' => r.again fun p => alt empty (loop p)
    | '+' => r.again loop
    | '.' => some (r.addChars ⟨fun c => c != '\n', 0⟩)
    | '^' => some (r.add .atStart 0)
    | '$' => some (r.add .atEnd 0)
    | '[' => some { r with mode := .bracket .start [] }
    | '\x7b' => none
    | c => some (r.addChars (.single c))

/-- Takes a sign between brackets. Sets that are written by their names are refused. -/
def inBracket (r : Reader) (b : Bracket) (outer : List Bracket) (s : Sign) : Option Reader :=
  if s = ⟨']', false⟩ && !(b.fresh && b.items.isEmpty) then
    match outer with
    | [] => some (r.addChars b.close)
    | b' :: outer => some { r with mode := .bracket (b'.add b.close) outer }
  else if s = ⟨'[', false⟩ && !b.dash then
    some { r with mode := .bracket .start ({ b.settle with low := none, fresh := false } :: outer) }
  else if s = ⟨':', false⟩ && b.fresh && !outer.isEmpty then none
  else (b.read s).map fun b => { r with mode := .bracket b outer }

def read (r : Reader) (s : Sign) : Option Reader :=
  match r.mode with
  | .item => r.item s
  | .repeated => if s = ⟨'?', false⟩ then some { r with mode := .item } else r.item s
  | .opened => if s = ⟨'?', false⟩ then some { r with mode := .flagged } else r.item s
  | .flagged => if s = ⟨':', false⟩ then some { r with mode := .item } else none
  | .bracket b outer => r.inBracket b outer s

/-- What was read, unless a group or a set is open. -/
def close? (r : Reader) : Option (Nested Pattern) :=
  match r.outer, r.mode with
  | _, .bracket .. => none
  | _, .flagged => none
  | [], _ => some r.current.close
  | _, _ => none

end Reader

/-- The depth beyond which patterns are refused. -/
def depthLimit : Nat := 250

/-- Reads a pattern; none if the text is not one, or one that is nested too deeply. -/
def ofText? (text : String) : Option Pattern := do
  let r ← (← signs? text.toList).foldlM Reader.read Reader.start
  let p ← r.close?
  if p.depth ≤ depthLimit then return p.value else none

/-- The test whether a text holds a match of the written pattern. -/
def compile (written : String) : Except String (String → Bool) :=
  match ofText? written with
  | some p => .ok fun text => p.search true text.toList
  | none => .error "regex parse error:"

end Pattern

end CallFlow
