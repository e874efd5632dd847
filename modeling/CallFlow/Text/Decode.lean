/-! Reading bytes as UTF-8. Every longest start of a character that does not go on
as one counts as one unreadable piece, and so does a byte that starts none. -/

namespace CallFlow.Text

/-- A character that has been started. -/
structure Pending where
  /-- The bits read so far. -/
  value : Nat
  /-- The bytes that may come next. They exclude overlong forms, surrogates and values
  above U+10FFFF. -/
  low : Nat
  high : Nat
  /-- Bytes that come after the next one. -/
  more : Nat
deriving Repr, DecidableEq

/-- What a byte between characters gives: pieces read, `none` for an unreadable one,
and the character it starts. -/
def openWith (b : Nat) : List (Option Char) × Option Pending :=
  if b < 0x80 then ([some (Char.ofNat b)], none)
  else if b < 0xC2 then ([none], none)
  else if b < 0xE0 then ([], some ⟨b - 0xC0, 0x80, 0xBF, 0⟩)
  else if b = 0xE0 then ([], some ⟨b - 0xE0, 0xA0, 0xBF, 1⟩)
  else if b = 0xED then ([], some ⟨b - 0xE0, 0x80, 0x9F, 1⟩)
  else if b < 0xF0 then ([], some ⟨b - 0xE0, 0x80, 0xBF, 1⟩)
  else if b = 0xF0 then ([], some ⟨b - 0xF0, 0x90, 0xBF, 2⟩)
  else if b = 0xF4 then ([], some ⟨b - 0xF0, 0x80, 0x8F, 2⟩)
  else if b < 0xF4 then ([], some ⟨b - 0xF0, 0x80, 0xBF, 2⟩)
  else ([none], none)

def readByte (state : Option Pending) (b : Nat) : List (Option Char) × Option Pending :=
  match state with
  | none => openWith b
  | some p =>
    if p.low ≤ b ∧ b ≤ p.high then
      let value := p.value * 64 + (b - 0x80)
      match p.more with
      | 0 => ([some (Char.ofNat value)], none)
      | more + 1 => ([], some ⟨value, 0x80, 0xBF, more⟩)
    else
      let (pieces, next) := openWith b
      (none :: pieces, next)

def readBytes (state : Option Pending) : List UInt8 → List (Option Char)
  | [] => if state.isSome then [none] else []
  | b :: bs =>
    let (pieces, next) := readByte state b.toNat
    pieces ++ readBytes next bs

/-- Stands for an unreadable piece. -/
def replacement : Char := '\ufffd'

/-- The text of some bytes, and whether a part of them was unreadable. -/
def decode (bytes : List UInt8) : List Char × Bool :=
  let pieces := readBytes none bytes
  (pieces.map fun c => c.getD replacement, pieces.any Option.isNone)

/-- The text of some bytes, if all of them are readable. -/
def decode? (bytes : List UInt8) : Option (List Char) :=
  match decode bytes with
  | (text, false) => some text
  | (_, true) => none

def encode (cs : List Char) : List UInt8 := cs.flatMap String.utf8EncodeChar

end CallFlow.Text
