/-! What can go wrong, as causes, and the one place where each gets its words. -/

namespace CallFlow

/-- A question that the model cannot answer because it is put or built wrongly. A
model that was read from sources gives rise to none of them. -/
inductive Fault where
  /-- An id that belongs to no file, class or function. -/
  | dangling
  /-- A byte offset inside a character. -/
  | insideCharacter
  /-- A class that lies inside itself. -/
  | endlessNesting
deriving Repr, DecidableEq, Inhabited

/-- Refusals of the file system. -/
inductive FileError where
  | notFound
  | isDirectory
  | notDirectory
  | nameTooLong
  | denied
deriving Repr, DecidableEq, Inhabited

def FileError.message : FileError → String
  | .notFound => "No such file or directory (os error 2)"
  | .isDirectory => "Is a directory (os error 21)"
  | .notDirectory => "Not a directory (os error 20)"
  | .nameTooLong => "File name too long (os error 36)"
  | .denied => "Permission denied (os error 13)"

inductive Error where
  | file (cause : FileError)
  | noDirectory (dir : String)
  | noTree (path : String)
  /-- The tree of `path` breaks a rule at a node of kind `kind`. -/
  | malformed (path : String) (line : Nat) (kind reason : String)
  | unexpectedNode (expected found : String)
  | noFunction (name : String) (owner : Option String)
  | badPattern (pattern reason : String)
  | badArgument (text : String)
  | fault (cause : Fault)
deriving Repr, DecidableEq, Inhabited

def Error.message : Error → String
  | .file cause => s!"I/O error: {cause.message}"
  | .noDirectory dir => s!"Directory does not exist: {dir}"
  | .noTree path => s!"Parser produced no syntax tree for {path}"
  | .malformed path line kind reason =>
    s!"Malformed syntax tree in {path}:{line}: {kind} {reason}"
  | .unexpectedNode expected found => s!"Expected a '{expected}' node, found '{found}'"
  | .noFunction name (some owner) =>
    s!"Function '{name}' not found in class '{owner}'. Run 'kflow list' to see candidates."
  | .noFunction name none =>
    s!"Function '{name}' not found. Run 'kflow list' to see candidates."
  | .badPattern pattern reason => s!"Invalid regex pattern '{pattern}': {reason}"
  | .badArgument text => text
  | .fault .dangling => "no such entry in the model"
  | .fault .insideCharacter => "byte offset inside a character"
  | .fault .endlessNesting => "class nested in itself"

/-- The answer of the model, or its fault as an error. -/
def Fault.lift {α : Type} : Except Fault α → Except Error α
  | .ok a => .ok a
  | .error cause => .error (.fault cause)

end CallFlow
