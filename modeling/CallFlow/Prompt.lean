import CallFlow.Error
import CallFlow.Flow.Trace
import CallFlow.Text.Casing

/-! Prompts for a language model: instructions that name the entry function, then the
texts of the flow. -/

namespace CallFlow.Text

/-- As `replaceAll`, after leaving out the next `skip` characters. -/
def replaceAfter (old new : List Char) : Nat → List Char → List Char
  | _, [] => []
  | skip + 1, _ :: cs => replaceAfter old new skip cs
  | 0, c :: cs =>
    if old.isPrefixOf (c :: cs) then new ++ replaceAfter old new (old.length - 1) cs
    else c :: replaceAfter old new 0 cs

/-- Every occurrence of `old`, from the left and without overlap, becomes `new`.
What `new` brings in is not searched again. -/
def replaceAll (old new cs : List Char) : List Char := replaceAfter old new 0 cs

/-- The first occurrence of `old` becomes `new`. -/
def replaceFirst (old new : List Char) : List Char → List Char
  | [] => []
  | c :: cs =>
    match old.isPrefixOf? (c :: cs) with
    | some rest => new ++ rest
    | none => c :: replaceFirst old new cs

end CallFlow.Text

namespace CallFlow

inductive Template where
  | describeFlow
  | writeTests
deriving Repr, DecidableEq, Inhabited

namespace Template

def all : List Template := [describeFlow, writeTests]

def name : Template → String
  | describeFlow => "describe-flow"
  | writeTests => "write-tests"

/-- The wording, with a placeholder for the description of the project and one for
the entry function. -/
def body : Template → String
  | describeFlow =>
    "Below is a list functions of a large Kotlin project.\n" ++
    "<project>\n" ++
    "I want you to take a look at the functions provided and provide me a summary of the " ++
    "execution flow.\n" ++
    "Start looking from the '<fun>' function.\n" ++
    "Please provide also the following information:\n" ++
    "  - a list with all validations checks that are performed.\n" ++
    "  - were there any exceptions thrown?\n\n" ++
    "Here are the functions:"
  | writeTests =>
    "Below is a list functions of a large Kotlin project.\n" ++
    "<project>\n" ++
    "Start looking from the '<fun>' function.\n" ++
    "I want you to take a look at the functions provided and provide me a small and abstract " ++
    "summary of the execution flow.\n" ++
    "I also want you to write me extensive tests for this flow, especially for the entry point " ++
    "of the flow.\n\n" ++
    "Here are the functions:"

/-- Reads the name of a template, white space around it and case apart. -/
def ofName (written : String) : Except Error Template :=
  match all.find? fun t => Text.sameAscii (Text.trim written.toList) t.name.toList with
  | some t => .ok t
  | none =>
    let known := ", ".intercalate (all.map name)
    .error (.badArgument s!"Unknown template '{written}'. Expected one of: {known}")

/-- Stands in where the project is not described. -/
def defaultDescription : String := "The project consists a claims management project."

def description : Option String → List Char
  | none => defaultDescription.toList
  | some written =>
    let trimmed := Text.trim written.toList
    if trimmed.isEmpty then defaultDescription.toList else trimmed

/-- The wording with its placeholders filled: the description first, then the first
place for the entry function in the result. -/
def instructions (t : Template) (entry : String) (project : Option String) : String :=
  let described := Text.replaceAll "<project>".toList (description project) t.body.toList
  String.ofList (Text.replaceFirst "<fun>".toList entry.toList described)

/-- Instructions and texts, one blank line between any two of them. -/
def prompt (t : Template) (entry : String) (project : Option String) (texts : List String) :
    String :=
  t.instructions entry project ++ String.join (texts.map ("\n\n" ++ ·)) ++ "\n"

end Template

end CallFlow
