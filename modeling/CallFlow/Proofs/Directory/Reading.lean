import CallFlow.Proofs.Directory.Build

/-! Reading bytes that are no text. Main statement: what is read in place of unreadable bytes takes
no byte of the ASCII range with it and adds none, so lines stay where they are in the file. The
bytes fall into pieces, each of which is the form of a character or a part of one with no ASCII byte
in it, and every cut of the text between two characters is one of the bytes between two pieces. -/

namespace CallFlow.Text

/-! ## Pieces -/

/-- The bytes of one piece: the form of a character, a start of one that does not go on as one, or a
byte that starts none. -/
inductive Piece : List UInt8 → Option Char → Prop
  | char (c : Char) : Piece (String.utf8EncodeChar c) (some c)
  | start {front : List UInt8} {p : Pending} (begun : Begun front p) : Piece front none
  | stray {b : UInt8} (high : 0x80 ≤ b.toNat) : Piece [b] none

theorem Begun.low {front : List UInt8} {p : Pending} (h : Begun front p) : 0x80 ≤ p.low := by
  cases h with
  | lead lead =>
    obtain ⟨_, _, _, low, _⟩ | ⟨_, _, _, low, _⟩ | ⟨_, _, _, low, _⟩ := lead
    all_goals omega
  | more _ _ _ _ next => omega

/-- A character of several bytes has no ASCII byte in its form. -/
theorem Begun.high {front : List UInt8} {p : Pending} (h : Begun front p) :
    ∀ b ∈ front, 0x80 ≤ b.toNat := by
  induction h with
  | lead lead =>
    intro b hb
    obtain rfl := List.mem_singleton.mp hb
    obtain ⟨range, _⟩ | ⟨range, _⟩ | ⟨range, _⟩ := lead
    all_goals omega
  | more begun takes _ _ _ ih =>
    intro b hb
    rcases List.mem_append.mp hb with hb | hb
    · exact ih b hb
    · obtain rfl := List.mem_singleton.mp hb
      exact begun.low.trans takes.low

theorem Piece.high {front : List UInt8} (h : Piece front none) : ∀ b ∈ front, 0x80 ≤ b.toNat := by
  cases h with
  | start begun => exact begun.high
  | stray high =>
    intro b hb
    obtain rfl := List.mem_singleton.mp hb
    exact high

theorem readBytes_of_not_takes {p : Pending} {b : UInt8} (h : ¬ p.Takes b) (bytes : List UInt8) :
    readBytes (some p) (b :: bytes) = none :: readBytes none (b :: bytes) := by
  have range : ¬ (p.low ≤ b.toNat ∧ b.toNat ≤ p.high) := fun range => h ⟨range.1, range.2⟩
  rw [readBytes_cons, readByte, if_neg range]
  rfl

/-- Behind the start of a character the piece goes on up to some place. What is read there does not
depend on how far the bytes go. -/
theorem exists_piece_of_begun : ∀ (bytes : List UInt8) {front : List UInt8} {p : Pending},
    Begun front p → ∃ piece tail rest, bytes = tail ++ rest ∧ Piece (front ++ tail) piece ∧
      ∀ more, more <+: rest → readBytes (some p) (tail ++ more) = piece :: readBytes none more
  | [], front, p, begun => by
    refine ⟨none, [], [], rfl, by simpa using Piece.start begun, fun more h => ?_⟩
    rw [List.prefix_nil.mp h]
    rfl
  | b :: bytes, front, p, begun => by
    by_cases takes : p.Takes b
    · cases last : p.more with
      | zero =>
        have form := (begun.form last takes).encode
        refine ⟨some (Char.ofNat (p.grown b)), [b], bytes, rfl, ?_, fun more _ => ?_⟩
        · exact form ▸ Piece.char _
        · exact readBytes_last last takes more
      | succ k =>
        have grown : Begun (front ++ [b]) ⟨p.grown b, 0x80, 0xBF, k⟩ :=
          .more begun takes last rfl ⟨rfl, rfl⟩
        obtain ⟨piece, tail, rest, rfl, found, read⟩ := exists_piece_of_begun bytes grown
        refine ⟨piece, b :: tail, rest, rfl, by simpa using found, fun more h => ?_⟩
        rw [List.cons_append, readBytes_more last takes, read more h]
    · refine ⟨none, [], b :: bytes, rfl, by simpa using Piece.start begun, fun more h => ?_⟩
      cases more with
      | nil => rfl
      | cons c more =>
        obtain ⟨rfl, _⟩ := List.cons_prefix_cons.mp h
        exact readBytes_of_not_takes takes more

/-- Bytes are read one piece at a time. -/
theorem exists_piece {bytes : List UInt8} (h : bytes ≠ []) :
    ∃ piece front rest, bytes = front ++ rest ∧ Piece front piece ∧
      ∀ more, more <+: rest → readBytes none (front ++ more) = piece :: readBytes none more := by
  obtain ⟨b, bytes, rfl⟩ := List.exists_cons_of_ne_nil h
  rcases openWith_cases b.toNat with ⟨ascii, _⟩ | ⟨range, eq⟩ | ⟨p, eq, leads⟩
  · have form : Form [b] b.toNat := .one ascii rfl
    exact ⟨some (Char.ofNat b.toNat), [b], bytes, rfl, form.encode ▸ .char _,
      fun more _ => form.read more⟩
  · refine ⟨none, [b], bytes, rfl, .stray (by omega), fun more _ => ?_⟩
    rw [List.singleton_append, readBytes_cons, readByte, eq]
    rfl
  · obtain ⟨piece, tail, rest, rfl, found, read⟩ := exists_piece_of_begun bytes (.lead leads)
    refine ⟨piece, b :: tail, rest, rfl, found, fun more h => ?_⟩
    rw [List.cons_append, readBytes_cons, readByte, eq]
    exact read more h

/-- A property of bytes and what is read from them that every further piece keeps holds of all. -/
theorem readBytes_induction {P : List UInt8 → List (Option Char) → Prop} (nil : P [] [])
    (step : ∀ piece front rest pieces, Piece front piece → P rest pieces →
      P (front ++ rest) (piece :: pieces)) (bytes : List UInt8) :
    P bytes (readBytes none bytes) := by
  generalize h : readBytes none bytes = pieces
  induction pieces generalizing bytes with
  | nil =>
    by_cases empty : bytes = []
    · exact empty ▸ nil
    · obtain ⟨piece, front, rest, rfl, _, read⟩ := exists_piece empty
      rw [read rest List.prefix_rfl] at h
      cases h
  | cons x pieces ih =>
    have filled : bytes ≠ [] := by
      rintro rfl
      cases h
    obtain ⟨piece, front, rest, rfl, found, read⟩ := exists_piece filled
    rw [read rest List.prefix_rfl] at h
    obtain ⟨rfl, later⟩ := List.cons.inj h
    exact step piece front rest pieces found (ih rest later)

/-- A cut between two pieces is a cut of the bytes, each side of which is read by itself. -/
theorem exists_cut : ∀ (xs : List (Option Char)) {ys : List (Option Char)} {bytes : List UInt8},
    readBytes none bytes = xs ++ ys → ∃ before after, before ++ after = bytes ∧
      readBytes none before = xs ∧ readBytes none after = ys
  | [], _, bytes, h => ⟨[], bytes, rfl, rfl, h⟩
  | x :: xs, ys, bytes, h => by
    have filled : bytes ≠ [] := by
      rintro rfl
      cases h
    obtain ⟨piece, front, rest, rfl, _, read⟩ := exists_piece filled
    rw [read rest List.prefix_rfl, List.cons_append] at h
    obtain ⟨rfl, later⟩ := List.cons.inj h
    obtain ⟨before, after, rfl, left, right⟩ := exists_cut xs later
    refine ⟨front ++ before, after, List.append_assoc _ _ _, ?_, right⟩
    rw [read before (List.prefix_append before after), left]

/-! ## ASCII bytes -/

def isAscii (b : UInt8) : Bool := b.toNat < 0x80

theorem filter_isAscii_eq_nil {bytes : List UInt8} (h : ∀ b ∈ bytes, 0x80 ≤ b.toNat) :
    bytes.filter isAscii = [] := by
  refine List.filter_eq_nil_iff.mpr fun b hb => ?_
  have high := h b hb
  simp only [isAscii, decide_eq_true_eq]
  omega

/-- The text of some pieces. -/
def textOf (pieces : List (Option Char)) : List Char := pieces.map fun c => c.getD replacement

theorem Piece.filter_isAscii {front : List UInt8} {piece : Option Char} (h : Piece front piece) :
    (String.utf8EncodeChar (piece.getD replacement)).filter isAscii = front.filter isAscii := by
  cases piece with
  | none =>
    have mark : (String.utf8EncodeChar replacement).filter isAscii = [] := by decide
    rw [filter_isAscii_eq_nil h.high]
    exact mark
  | some c =>
    cases h
    rfl

theorem ascii_readBytes (bytes : List UInt8) :
    (encode (textOf (readBytes none bytes))).filter isAscii = bytes.filter isAscii := by
  induction bytes using readBytes_induction with
  | nil => rfl
  | step piece front rest pieces found ih =>
    rw [textOf, List.map_cons, ← textOf, encode, List.flatMap_cons, ← encode, List.filter_append,
      List.filter_append, ih, found.filter_isAscii]

/-! ## Line feeds -/

/-- The row of a cut is the number of line feeds in front of it. -/
theorem row_width (front rest : List Char) :
    row (width front) (front ++ rest) = front.count '\n' := by
  induction front with
  | nil => simp [width, row]
  | cons c front ih =>
    obtain ⟨n, hn⟩ : ∃ n, width (c :: front) = n + 1 :=
      ⟨width (c :: front) - 1, by have := c.utf8Size_pos; simp only [width]; omega⟩
    have later : n + 1 - c.utf8Size = width front := by
      simp only [width] at hn
      omega
    rw [hn, List.cons_append, row, later, ih, List.count_cons, Nat.add_comm]
    simp

theorem count_feed_decode (bytes : List UInt8) :
    (decode bytes).1.count '\n' = bytes.count 0x0A := by
  have ascii := ascii_readBytes bytes
  have count (bs : List UInt8) : (bs.filter isAscii).count 0x0A = bs.count 0x0A :=
    List.count_filter (by decide)
  rw [← count bytes, ← ascii, count, count_encode (d := '\n') rfl (by decide)]
  rfl

/-! ## What is read -/

/-- What reading bytes comes to. -/
structure ReadFrom (bytes : List UInt8) (text : List Char) (lossy : Bool) : Prop where
  lossless : lossy = false ↔ IsUtf8 bytes
  exact : lossy = false → encode text = bytes
  marked : lossy = true → replacement ∈ text
  ascii : (encode text).filter isAscii = bytes.filter isAscii
  feeds : text.count '\n' = bytes.count 0x0A
  stable : decode (encode text) = (text, false)

theorem readFrom_decode (bytes : List UInt8) :
    ReadFrom bytes (decode bytes).1 (decode bytes).2 where
  lossless := decode_lossless_iff
  exact h := by
    obtain ⟨cs, rfl⟩ := decode_lossless_iff.mp h
    rw [decode_encode]
  marked h := by
    obtain ⟨piece, mem, lost⟩ := List.any_eq_true.mp h
    refine List.mem_map.mpr ⟨piece, mem, ?_⟩
    rw [Option.isNone_iff_eq_none.mp lost]
    rfl
  ascii := ascii_readBytes bytes
  feeds := count_feed_decode bytes
  stable := decode_encode _

/-- A cut of the text between two characters is one of the bytes. -/
theorem exists_cut_decode {bytes : List UInt8} {front rest : List Char}
    (h : (decode bytes).1 = front ++ rest) : ∃ before after, before ++ after = bytes ∧
      (decode before).1 = front ∧ (decode after).1 = rest := by
  obtain ⟨xs, ys, pieces, rfl, rfl⟩ := List.map_eq_append_iff.mp h
  obtain ⟨before, after, rfl, left, right⟩ := exists_cut xs pieces
  exact ⟨before, after, rfl, by rw [decode, left], by rw [decode, right]⟩

end CallFlow.Text

namespace CallFlow.Document

open CallFlow.Tree

/-- The start of a node in a text, seen from the bytes that the text is read from: those in front of
it are read as the text in front, those behind it as the text from there on, and the line is counted
in bytes. -/
def StartsBehind (bytes : List UInt8) (text : List Char) (n : Node) : Prop :=
  ∃ before after, before ++ after = bytes ∧
    Text.splitAt? n.span.start text = some ((Text.decode before).1, (Text.decode after).1) ∧
    n.line text = before.count 0x0A + 1

theorem startsBehind_of_fitting {bytes : List UInt8} {n : Node}
    (h : n.Fitting (Text.decode bytes).1) : StartsBehind bytes (Text.decode bytes).1 n := by
  obtain ⟨⟨front, rest⟩, cut⟩ := Option.isSome_iff_exists.mp h.cuts.start
  obtain ⟨text, place⟩ := Text.splitAt?_eq_some cut
  obtain ⟨before, after, whole, rfl, rfl⟩ := Text.exists_cut_decode text
  refine ⟨before, after, whole, cut, ?_⟩
  rw [Node.line, Node.firstRow, ← place, text, Text.row_width, Text.count_feed_decode]

/-- Whatever its bytes are, a file is read, to a text that has the ASCII bytes of the file and is
read as itself again; and each node of a tree that fits the text is on the line of the file that it
starts on. -/
theorem read_keeps_lines (bytes : List UInt8) (tree : Option Flagged) :
    ∃ text lossy, (Document.mk (.ok bytes) tree).read = .ok (text, lossy) ∧
      Text.ReadFrom bytes text lossy ∧
      ∀ root : Node, root.Fitting text → ∀ n ∈ root.preorder, StartsBehind bytes text n := by
  refine ⟨_, _, rfl, Text.readFrom_decode bytes, fun root fitting n hn => ?_⟩
  exact startsBehind_of_fitting (fitting.of_mem hn)

/-- The unreadable byte is one of the file and three of the text, and the function behind it is on
the second line of both. -/
theorem read_keeps_lines_garbled : ∃ bytes text,
    Sample.garbledComment.content = .ok bytes ∧ Sample.garbledComment.read = .ok (text, true) ∧
      bytes.length + 2 = Text.width text ∧ (Sample.function 7 22 [17]).line text = 2 ∧
      StartsBehind bytes text (Sample.function 7 22 [17]) := by
  obtain ⟨text, lossy, read, _, nodes⟩ := read_keeps_lines
    (Text.encode "// ".toList ++ [0xFF] ++ Text.encode "\nfun a() \x7b b() \x7d\n".toList)
    Sample.garbledComment.tree
  obtain ⟨rfl, rfl⟩ := Prod.mk.inj (Except.ok.inj read)
  refine ⟨_, _, rfl, rfl, by decide +kernel, by decide +kernel, ?_⟩
  refine nodes (Sample.node "source_file" 0 23
    [Sample.node "line_comment" 0 6 [], Sample.function 7 22 [17]]) ?_ _ ?_
  · exact ⟨⟨by decide +kernel, by decide +kernel, by decide +kernel⟩, by decide +kernel⟩
  · simp [Sample.node, Node.preorder, Node.preorderAmong, Sample.function]

end CallFlow.Document
