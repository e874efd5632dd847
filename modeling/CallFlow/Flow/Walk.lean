/-! Depth-first walks over a graph whose edges come in groups: each node has sites in
order, and each site leads to nodes in order. A node is not entered again while it
is being expanded, so a walk runs along paths without repetition. -/

namespace CallFlow.Flow

variable {α σ : Type}

/-- What a walk meets. The depth of a node is the length of the path to it. -/
inductive Event (α σ : Type) where
  /-- `path` holds the nodes being expanded, the latest first. -/
  | enter (node : α) (path : List α)
  /-- The node was entered, and is not expanded for its depth. -/
  | limit (node : α) (path : List α)
  | site (node : α) (site : σ)
  /-- A site of `node` leads to a node that is being expanded. -/
  | back (node target : α)
deriving Repr

/-- The walk from `node`, which lies below the nodes of `path`. It expands nodes on at
most `levels` levels. -/
def walk [DecidableEq α] (out : α → List (σ × List α)) :
    (levels : Nat) → (path : List α) → (node : α) → List (Event α σ)
  | 0, path, node => [.enter node path, .limit node path]
  | levels + 1, path, node =>
    .enter node path ::
      (out node).flatMap fun (s, targets) =>
        .site node s ::
          targets.flatMap fun t =>
            if t ∈ node :: path then [.back node t] else walk out levels (node :: path) t

end CallFlow.Flow
