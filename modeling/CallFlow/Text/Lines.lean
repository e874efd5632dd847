import CallFlow.Error
import CallFlow.Text.Basic
import CallFlow.Text.Measure

/-! Lines of a text, moving a block of lines to column zero, and cutting such a block out of a
source text. -/

namespace CallFlow.Text

/-- A line ends at a line feed and does not keep a carriage return in front of
it. A final line feed opens no further line. -/
def lines : List Char → List (List Char)
  | [] => []
  | '\n' :: cs => [] :: lines cs
  | '\r' :: '\n' :: cs => [] :: lines cs
  | c :: cs =>
    match lines cs with
    | [] => [[c]]
    | l :: ls => (c :: l) :: ls

def unlines (ls : List (List Char)) : List Char := ['\n'].intercalate ls

/-- What stands on the last line of a text. -/
def lastLine (cs : List Char) : List Char := (cs.reverse.takeWhile (· ≠ '\n')).reverse

/-- Bytes of white space in front. -/
def indent (line : List Char) : Nat := width (line.takeWhile isBlank)

/-- The least indent of the lines that are not blank. -/
def commonIndent (ls : List (List Char)) : Nat :=
  (((ls.filter fun l => !allBlank l).map indent).min?).getD 0

/-- Without the first `n` bytes and without blanks at the end. White space of
several bytes may leave no cut at `n`; then all white space in front goes. -/
def outdent (n : Nat) (line : List Char) : List Char :=
  if allBlank line then []
  else
    match splitAt? n line with
    | some (_, rest) => trimEnd rest
    | none => trimEnd (trimStart line)

/-- Moves a text to column zero: the common indent and blanks at line ends go. -/
def dedent (cs : List Char) : List Char :=
  let ls := lines cs
  unlines (ls.map (outdent (commonIndent ls)))

end CallFlow.Text

namespace CallFlow

/-- A tab pads as a tab and everything else as one space. -/
def padding (cs : List Char) : List Char := cs.map fun c => if c = '\t' then '\t' else ' '

/-- The text of a range. What stands in front of it on its first line becomes
padding, so that the following lines keep their shape relative to the first. The
range is clamped to the text. -/
def renderSpan (source : List Char) (span : Span) : Except Fault (List Char) :=
  let size := Text.width source
  let start := min span.start size
  let stop := max start (min span.stop size)
  match Text.splitAt? start source with
  | none => .error .insideCharacter
  | some (front, rest) =>
    match Text.splitAt? (stop - start) rest with
    | none => .error .insideCharacter
    | some (body, _) => .ok (Text.dedent (padding (Text.lastLine front) ++ body))

end CallFlow
