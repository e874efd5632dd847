import CallFlow.Text.Measure

/-! Syntax trees. A node covers a byte range of its source, and its children lie
in source order. Comments may stand between any two nodes. -/

namespace CallFlow.Tree

structure Label where
  kind : String
  /-- False for a literal token such as `=`. -/
  named : Bool
  /-- True for a token that the text lacks and that was put in to go on reading. -/
  missing : Bool
  span : Span
deriving Repr, DecidableEq, Inhabited

inductive Node where
  | mk (label : Label) (children : List Node)
deriving Repr, Inhabited

namespace Node

def label : Node → Label
  | mk l _ => l

def children : Node → List Node
  | mk _ cs => cs

def kind (n : Node) : String := n.label.kind

def named (n : Node) : Bool := n.label.named

def missing (n : Node) : Bool := n.label.missing

def span (n : Node) : Span := n.label.span

def isError (n : Node) : Bool := n.kind == "ERROR"

def isComment (n : Node) : Bool := n.kind == "line_comment" || n.kind == "multiline_comment"

@[simp] theorem label_mk (l : Label) (cs : List Node) : (mk l cs).label = l := rfl

@[simp] theorem children_mk (l : Label) (cs : List Node) : (mk l cs).children = cs := rfl

end Node

end CallFlow.Tree
