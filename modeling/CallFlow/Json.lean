/-! Writing data as JSON text, laid out with two spaces per level. -/

namespace CallFlow

inductive Json where
  | null
  | num (n : Nat)
  | str (s : String)
  | arr (items : List Json)
  | obj (fields : List (String × Json))

namespace Json

def ofOption : Option String → Json
  | some s => str s
  | none => null

def hexDigit (n : Nat) : Char := if n < 10 then Char.ofNat (48 + n) else Char.ofNat (87 + n)

/-- Quotes, backslashes and control characters are written as escapes, all else as
it is. -/
def escape (c : Char) : List Char :=
  if c = '"' then ['\\', '"']
  else if c = '\\' then ['\\', '\\']
  else if c = '\n' then ['\\', 'n']
  else if c = '\r' then ['\\', 'r']
  else if c = '\t' then ['\\', 't']
  else if c.toNat = 8 then ['\\', 'b']
  else if c.toNat = 12 then ['\\', 'f']
  else if c.toNat < 32 then ['\\', 'u', '0', '0', hexDigit (c.toNat / 16), hexDigit (c.toNat % 16)]
  else [c]

def quote (s : String) : String := String.ofList ('"' :: s.toList.flatMap escape ++ ['"'])

def margin (level : Nat) : String := String.ofList (List.replicate (2 * level) ' ')

/-- Parts between two brackets, each on a line of its own; nothing between them if
there are none. -/
def bracketed (opening closing : String) (level : Nat) : List String → String
  | [] => opening ++ closing
  | parts =>
    opening ++ "\n" ++
      ",\n".intercalate (parts.map (margin (level + 1) ++ ·)) ++ "\n" ++ margin level ++ closing

mutual

/-- The text of a value that starts at the given level of nesting. The fields of an
object are in the order of their names. -/
def write (level : Nat) : Json → String
  | null => "null"
  | num n => toString n
  | str s => quote s
  | arr items => bracketed "[" "]" level (writeItems (level + 1) items)
  | obj fields =>
    let parts := (writeFields (level + 1) fields).mergeSort fun a b => !(b.1 < a.1)
    bracketed "\x7b" "\x7d" level (parts.map fun (name, text) => quote name ++ ": " ++ text)

def writeItems (level : Nat) : List Json → List String
  | [] => []
  | item :: items => write level item :: writeItems level items

def writeFields (level : Nat) : List (String × Json) → List (String × String)
  | [] => []
  | (name, value) :: fields => (name, write level value) :: writeFields level fields

end

def pretty (j : Json) : String := write 0 j

mutual

/-- The text of a value on one line. -/
def compact : Json → String
  | null => "null"
  | num n => toString n
  | str s => quote s
  | arr items => "[" ++ ",".intercalate (compactItems items) ++ "]"
  | obj fields => "\x7b" ++ ",".intercalate (compactFields fields) ++ "\x7d"

def compactItems : List Json → List String
  | [] => []
  | item :: items => compact item :: compactItems items

def compactFields : List (String × Json) → List String
  | [] => []
  | (name, value) :: fields => (quote name ++ ":" ++ compact value) :: compactFields fields

end

end Json

end CallFlow
