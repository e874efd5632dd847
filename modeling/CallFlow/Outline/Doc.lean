import CallFlow.Tree.Search

/-! The comment that documents a declaration. It ends on a line above the
declaration and shares no line with what stands in front of it, so a comment at
the end of the previous member's line does not count. -/

namespace CallFlow.Outline

open CallFlow.Tree

/-- Nodes that may have taken up the comment of the declaration behind them. -/
def headerKinds : List String := ["import_list", "import_header", "package_header"]

/-- Extends `span` over the line comments in front of `current` as long as they lie
on neighbouring lines of their own. -/
def commentRun (source : List Char) (span : Span) (current : Node) :
    List Node → Except Fault Span
  | [] => .ok span
  | prev :: before => do
    if prev.kind == "line_comment" && current.firstRow source ≤ prev.lastRow source + 1 then
      if ← prev.startsLine source then
        commentRun source (span.cover prev.span) prev before
      else return span
    else return span

/-- The comment right in front of a declaration. -/
def commentBefore? (spot : Spot) : Option Spot :=
  match spot.before with
  | [] => none
  | prev :: before =>
    if prev.isComment then some ⟨prev, before⟩
    else if headerKinds.contains prev.kind then prev.trailing? Node.isComment
    else none

def docOf (source : List Char) (spot : Spot) : Except Fault (Option Span) :=
  match commentBefore? spot with
  | none => .ok none
  | some comment => do
    if comment.node.lastRow source < spot.node.firstRow source then
      if ← comment.node.startsLine source then
        if comment.node.kind == "line_comment" then
          return some (← commentRun source comment.node.span comment.node comment.before)
        else return some comment.node.span
      else return none
    else return none

end CallFlow.Outline
