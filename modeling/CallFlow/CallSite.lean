import CallFlow.Error
import CallFlow.Tree.Search

/-! Call sites: what a call expression says about the function it calls. -/

namespace CallFlow

open CallFlow.Tree

/-- A call as it is written. `simple` has no receiver, and no name either when the
called expression is not an identifier. -/
inductive CallSite where
  | simple (name : Option String) (line : Nat)
  | navigation (receiver member : String) (line : Nat)
deriving Repr, DecidableEq, Inhabited

namespace CallSite

def line : CallSite → Nat
  | simple _ l => l
  | navigation _ _ l => l

/-- The name of the called function. -/
def target? : CallSite → Option String
  | simple name _ => name
  | navigation _ member _ => some member

def text : CallSite → String
  | simple (some name) _ => s!"{name}()"
  | simple none _ => "<anonymous>()"
  | navigation receiver member _ => s!"{receiver}.{member}()"

def callKind : String := "call_expression"

/-- The call that a call expression makes. Of a chain `a.b.c()` the receiver is all
that stands in front of the last name. -/
def ofCall (source : List Char) (n : Node) : CallSite :=
  let line := n.line source
  match n.firstContent? with
  | none => simple none line
  | some callee =>
    if callee.kind == "simple_identifier" then
      simple (some (String.ofList (callee.text source))) line
    else if callee.kind == "navigation_expression" then
      let member := (callee.child? "navigation_suffix").bind (·.child? "simple_identifier")
      let receiver := callee.firstContent?.filter fun r => r.kind != "navigation_suffix"
      match receiver, member with
      | some r, some m =>
        navigation (String.ofList (r.denseText source)) (String.ofList (m.text source)) line
      | _, _ => simple none line
    else simple none line

/-- As `ofCall`, for a node of any kind. -/
def ofNode (source : List Char) (n : Node) : Except Error CallSite :=
  if n.kind == callKind then .ok (ofCall source n)
  else .error (.unexpectedNode callKind n.kind)

/-- All calls below a node. -/
def below (source : List Char) (n : Node) : List CallSite :=
  (n.collect fun c => c.kind == callKind).map (ofCall source)

/-- The calls of a function. A body that is one expression and itself a call makes
exactly that call; any other body makes every call inside it, those of lambdas
and local functions included. -/
def ofFunction (source : List Char) (function : Node) : List CallSite :=
  match function.child? "function_body" with
  | none => []
  | some body =>
    if (body.child? "=").isSome then
      match body.lastContent? with
      | none => []
      | some expr => if expr.kind == callKind then [ofCall source expr] else below source expr
    else below source body

end CallSite

end CallFlow
