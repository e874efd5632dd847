import CallFlow.Error
import CallFlow.Text.Lines
import CallFlow.Tree.Node

/-! Looking for nodes, and reading the text that they cover. A tree comes with a flag for each node,
by which a search for errors leaves parts of it out. -/

namespace CallFlow.Tree

/-- A node among its siblings: `before` holds those in front of it, nearest first. -/
structure Spot where
  node : Node
  before : List Node
deriving Repr, Inhabited

/-- The way down from a node: which child to take at each step. -/
abbrev Trail := List Nat

namespace Node

/-! ## Children -/

def child? (kind : String) (n : Node) : Option Node := n.children.find? fun c => c.kind == kind

def childOf? (kinds : List String) (n : Node) : Option Node :=
  n.children.find? fun c => kinds.contains c.kind

def childrenOf (kind : String) (n : Node) : List Node :=
  n.children.filter fun c => c.kind == kind

/-- A child that is neither a literal token nor a comment. -/
def isContent (n : Node) : Bool := n.named && !n.isComment

def firstContent? (n : Node) : Option Node := n.children.find? isContent

def lastContent? (n : Node) : Option Node := n.children.reverse.find? isContent

/-! ## Descendants -/

mutual

/-- The first node below `n` of the given kind, each node looked at before its
children. -/
def below? (kind : String) : Node → Option Node
  | mk _ cs => amongBelow? kind cs

def amongBelow? (kind : String) : List Node → Option Node
  | [] => none
  | c :: cs =>
    if c.kind == kind then some c
    else
      match c.below? kind with
      | some found => some found
      | none => amongBelow? kind cs

end

mutual

/-- All nodes below `n` that satisfy `p`, each in front of those below it. -/
def collect (p : Node → Bool) : Node → List Node
  | mk _ cs => collectAmong p cs

def collectAmong (p : Node → Bool) : List Node → List Node
  | [] => []
  | c :: cs =>
    if p c then c :: (c.collect p ++ collectAmong p cs) else c.collect p ++ collectAmong p cs

end

mutual

/-- The first wrong or missing node, `n` included. Every node has a flag, which hangs on
where the node is and not on what it looks like. A node whose flag is false is taken to
hold none and is not entered. -/
def firstError? (flag : Trail → Bool) : Node → Option Node
  | mk l cs =>
    if (mk l cs).isError || l.missing then some (mk l cs)
    else if flag [] then amongError? flag 0 cs
    else none

/-- As `firstError?` for neighbours, the first of which is child `i`. -/
def amongError? (flag : Trail → Bool) (i : Nat) : List Node → Option Node
  | [] => none
  | c :: cs =>
    match c.firstError? fun trail => flag (i :: trail) with
    | some found => some found
    | none => amongError? flag (i + 1) cs

end

mutual

/-- Goes down from last child to last child, to the first one that satisfies `p`. -/
def trailing? (p : Node → Bool) : Node → Option Spot
  | mk _ cs => trailingAmong? p [] cs

def trailingAmong? (p : Node → Bool) (before : List Node) : List Node → Option Spot
  | [] => none
  | [c] => if p c then some ⟨c, before⟩ else c.trailing? p
  | c :: d :: cs => trailingAmong? p (c :: before) (d :: cs)

end

mutual

/-- The node and everything below it, each node in front of its children. -/
def preorder : Node → List Node
  | mk l cs => mk l cs :: preorderAmong cs

def preorderAmong : List Node → List Node
  | [] => []
  | c :: cs => c.preorder ++ preorderAmong cs

end

/-- All nodes below a node. -/
def descendants (n : Node) : List Node := n.children.flatMap preorder

/-! ## Flags -/

/-- A node that the text lacks or that could not be read. -/
def wrong (n : Node) : Bool := n.isError || n.missing

/-- The node that a trail leads to. -/
def at? : Node → Trail → Option Node
  | n, [] => some n
  | n, i :: trail => n.children[i]?.bind fun c => c.at? trail

/-- The flag is true at least where something wrong lies below. -/
def FlagsErrors (n : Node) (flag : Trail → Bool) : Prop :=
  ∀ trail m, n.at? trail = some m → (∃ w ∈ m.descendants, w.wrong = true) → flag trail = true

/-! ## Text -/

/-- What the node covers; nothing if its range does not fit the text. -/
def text (source : List Char) (n : Node) : List Char :=
  (Text.slice? n.span.start n.span.stop source).getD []

/-- The covered text without white space. -/
def denseText (source : List Char) (n : Node) : List Char := Text.dense (n.text source)

def firstRow (source : List Char) (n : Node) : Nat := Text.row n.span.start source

def lastRow (source : List Char) (n : Node) : Nat := Text.row n.span.stop source

/-- Lines are counted from one. -/
def line (source : List Char) (n : Node) : Nat := n.firstRow source + 1

/-- Is there only white space in front of the node on its line? -/
def startsLine (source : List Char) (n : Node) : Except Fault Bool :=
  match Text.splitAt? (min n.span.start (Text.width source)) source with
  | some (front, _) => .ok (Text.allBlank (Text.lastLine front))
  | none => .error .insideCharacter

end Node

/-- A tree with a flag for each node, which may be set without need but is never left out. -/
structure Flagged where
  root : Node
  flag : Trail → Bool
  sound : root.FlagsErrors flag

namespace Flagged

/-- Every node has the flag. -/
def ofNode (root : Node) : Flagged := ⟨root, fun _ => true, fun _ _ _ _ => rfl⟩

instance : Coe Node Flagged := ⟨ofNode⟩

/-- The first wrong or missing node of the tree. -/
def firstError? (t : Flagged) : Option Node := t.root.firstError? t.flag

end Flagged

end CallFlow.Tree
