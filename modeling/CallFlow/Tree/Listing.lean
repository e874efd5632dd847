import CallFlow.Text.Lines
import CallFlow.Tree.Node

/-! A tree written as the list of its nodes, each in front of its children and
with the number of them. Reading goes from the back: the subtrees read so far
are kept nearest first, and a node takes its children off the front of them. -/

namespace CallFlow.Tree

structure Listed where
  label : Label
  arity : Nat
deriving Repr, DecidableEq

/-- A kind is written with a mark `!` in front if the node is missing, then a mark
`#` if it is a literal token. The text of a literal token may itself start with
either character. -/
def Label.ofMarked (marked : String) (span : Span) : Label :=
  let (missing, rest) := match marked.toList with
    | '!' :: rest => (true, rest)
    | rest => (false, rest)
  match rest with
  | '#' :: kind => ⟨String.ofList kind, false, missing, span⟩
  | kind => ⟨String.ofList kind, true, missing, span⟩

def Label.marked (l : Label) : String :=
  (if l.missing then "!" else "") ++ (if l.named then "" else "#") ++ l.kind

/-- The trees that a listing holds one after the other; none if a node lacks
children. -/
def forest? : List Listed → Option (List Node)
  | [] => some []
  | e :: es => do
    let trees ← forest? es
    if e.arity ≤ trees.length then
      some (.mk e.label (trees.take e.arity) :: trees.drop e.arity)
    else none

def ofListing? (es : List Listed) : Option Node :=
  match forest? es with
  | some [root] => some root
  | _ => none

/-- Reads a line `start stop arity kind` of a written listing. -/
def Listed.ofLine? (line : List Char) : Option Listed := do
  match line.splitOn ' ' with
  | start :: stop :: arity :: kind :: more =>
    let start ← (String.ofList start).toNat?
    let stop ← (String.ofList stop).toNat?
    let arity ← (String.ofList arity).toNat?
    return ⟨.ofMarked (String.ofList ([' '].intercalate (kind :: more))) ⟨start, stop⟩, arity⟩
  | _ => none

/-- Reads a tree from a written listing, one node a line. -/
def ofText? (text : List Char) : Option Node := do
  ofListing? (← (Text.lines text).mapM Listed.ofLine?)

end CallFlow.Tree
