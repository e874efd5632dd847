import CallFlow.Text.Decode

/-! Bytes and the text they stand for. While bytes are read, the state tells those of the character
that has been started, so that the bytes so far are the form of what was read and of this start.
Main statement: bytes are read without a loss exactly if they are the form of a text. -/

namespace CallFlow.Text

/-! ## The form of a character -/

/-- A byte that goes on with a character. -/
def IsTail (b : UInt8) : Prop := 0x80 ≤ b.toNat ∧ b.toNat ≤ 0xBF

/-- The bytes are the form of the character with number `v`. Of several that would do it is the
shortest, and surrogates have none. -/
inductive Form : List UInt8 → Nat → Prop
  | one {a : UInt8} {v : Nat} (ha : a.toNat < 0x80) (hv : v = a.toNat) : Form [a] v
  | two {a b : UInt8} {v : Nat} (ha : 0xC2 ≤ a.toNat ∧ a.toNat < 0xE0) (hb : IsTail b)
      (hv : v = (a.toNat - 0xC0) * 64 + (b.toNat - 0x80)) : Form [a, b] v
  | three {a b c : UInt8} {v : Nat} (ha : 0xE0 ≤ a.toNat ∧ a.toNat < 0xF0) (hb : IsTail b)
      (hc : IsTail c) (shortest : a.toNat = 0xE0 → 0xA0 ≤ b.toNat)
      (scalar : a.toNat = 0xED → b.toNat ≤ 0x9F)
      (hv : v = ((a.toNat - 0xE0) * 64 + (b.toNat - 0x80)) * 64 + (c.toNat - 0x80)) :
      Form [a, b, c] v
  | four {a b c d : UInt8} {v : Nat} (ha : 0xF0 ≤ a.toNat ∧ a.toNat < 0xF5) (hb : IsTail b)
      (hc : IsTail c) (hd : IsTail d) (shortest : a.toNat = 0xF0 → 0x90 ≤ b.toNat)
      (scalar : a.toNat = 0xF4 → b.toNat ≤ 0x8F)
      (hv : v = (((a.toNat - 0xF0) * 64 + (b.toNat - 0x80)) * 64 + (c.toNat - 0x80)) * 64 +
        (d.toNat - 0x80)) : Form [a, b, c, d] v

theorem utf8EncodeChar_ofNat {v : Nat} (valid : v.isValidChar) :
    String.utf8EncodeChar (Char.ofNat v) =
      if v ≤ 127 then [UInt8.ofNat v]
      else if v ≤ 2047 then [UInt8.ofNat (v / 64 % 32 + 192), UInt8.ofNat (v % 64 + 128)]
      else if v ≤ 65535 then
        [UInt8.ofNat (v / 4096 % 16 + 224), UInt8.ofNat (v / 64 % 64 + 128),
          UInt8.ofNat (v % 64 + 128)]
      else
        [UInt8.ofNat (v / 262144 % 8 + 240), UInt8.ofNat (v / 4096 % 64 + 128),
          UInt8.ofNat (v / 64 % 64 + 128), UInt8.ofNat (v % 64 + 128)] := by
  have value : (Char.ofNat v).val.toNat = v := by
    rw [Char.ofNat, dif_pos valid]
    rfl
  rw [String.utf8EncodeChar, value]

theorem ofNat_eq {n : Nat} {b : UInt8} (h : n = b.toNat) : UInt8.ofNat n = b := by
  rw [h, UInt8.ofNat_toNat]

theorem Form.encode {bytes : List UInt8} {v : Nat} (h : Form bytes v) :
    String.utf8EncodeChar (Char.ofNat v) = bytes := by
  cases h with
  | @one a v ha hv =>
    rw [utf8EncodeChar_ofNat (.inl (by omega)), if_pos (by omega), ofNat_eq hv]
  | @two a b v ha hb hv =>
    unfold IsTail at hb
    rw [utf8EncodeChar_ofNat (.inl (by omega)), if_neg (by omega), if_pos (by omega),
      ofNat_eq (b := a) (by omega), ofNat_eq (b := b) (by omega)]
  | @three a b c v ha hb hc shortest scalar hv =>
    unfold IsTail at hb hc
    have valid : v.isValidChar := by
      unfold Nat.isValidChar
      omega
    have least : 2047 < v := by omega
    rw [utf8EncodeChar_ofNat valid, if_neg (by omega), if_neg (by omega), if_pos (by omega)]
    clear valid least shortest scalar
    rw [ofNat_eq (b := a) (by omega), ofNat_eq (b := b) (by omega), ofNat_eq (b := c) (by omega)]
  | @four a b c d v ha hb hc hd shortest scalar hv =>
    unfold IsTail at hb hc hd
    have least : 65535 < v := by omega
    have valid : v.isValidChar := .inr (by omega)
    rw [utf8EncodeChar_ofNat valid, if_neg (by omega), if_neg (by omega), if_neg (by omega)]
    clear valid least shortest scalar
    rw [ofNat_eq (b := a) (by omega), ofNat_eq (b := b) (by omega), ofNat_eq (b := c) (by omega),
      ofNat_eq (b := d) (by omega)]

theorem form_utf8EncodeChar (c : Char) : Form (String.utf8EncodeChar c) c.toNat := by
  have valid : c.toNat.isValidChar := c.valid
  have byte {n : Nat} (h : n < 256) : (UInt8.ofNat n).toNat = n := by
    rw [UInt8.toNat_ofNat']
    exact Nat.mod_eq_of_lt h
  rw [← Char.ofNat_toNat c, utf8EncodeChar_ofNat valid, Char.ofNat_toNat]
  generalize c.toNat = v at valid
  unfold Nat.isValidChar at valid
  split
  · have ha := byte (n := v) (by omega)
    exact .one (by omega) ha.symm
  split
  · have ha := byte (n := v / 64 % 32 + 192) (by omega)
    have hb := byte (n := v % 64 + 128) (by omega)
    exact .two (by omega) ⟨by omega, by omega⟩ (by omega)
  split
  · have ha := byte (n := v / 4096 % 16 + 224) (by omega)
    have hb := byte (n := v / 64 % 64 + 128) (by omega)
    have hc := byte (n := v % 64 + 128) (by omega)
    exact .three (by omega) ⟨by omega, by omega⟩ ⟨by omega, by omega⟩ (by omega) (by omega)
      (by omega)
  · have ha := byte (n := v / 262144 % 8 + 240) (by omega)
    have hb := byte (n := v / 4096 % 64 + 128) (by omega)
    have hc := byte (n := v / 64 % 64 + 128) (by omega)
    have hd := byte (n := v % 64 + 128) (by omega)
    exact .four (by omega) ⟨by omega, by omega⟩ ⟨by omega, by omega⟩ ⟨by omega, by omega⟩
      (by omega) (by omega) (by omega)

/-! ## Starts of a character -/

/-- The byte starts a character of two, three or four bytes, and `p` says which ones may follow. -/
inductive Leads (b : Nat) (p : Pending) : Prop
  | two (range : 0xC2 ≤ b ∧ b < 0xE0) (value : p.value = b - 0xC0) (more : p.more = 0)
      (low : p.low = 0x80) (high : p.high = 0xBF)
  | three (range : 0xE0 ≤ b ∧ b < 0xF0) (value : p.value = b - 0xE0) (more : p.more = 1)
      (low : (b = 0xE0 → p.low = 0xA0) ∧ (b ≠ 0xE0 → p.low = 0x80))
      (high : (b = 0xED → p.high = 0x9F) ∧ (b ≠ 0xED → p.high = 0xBF))
  | four (range : 0xF0 ≤ b ∧ b < 0xF5) (value : p.value = b - 0xF0) (more : p.more = 2)
      (low : (b = 0xF0 → p.low = 0x90) ∧ (b ≠ 0xF0 → p.low = 0x80))
      (high : (b = 0xF4 → p.high = 0x8F) ∧ (b ≠ 0xF4 → p.high = 0xBF))

/-- The byte goes on with a character that has been started. -/
structure Pending.Takes (p : Pending) (b : UInt8) : Prop where
  low : p.low ≤ b.toNat
  high : b.toNat ≤ p.high

/-- The value of a character after one more byte. -/
def Pending.grown (p : Pending) (b : UInt8) : Nat := p.value * 64 + (b.toNat - 0x80)

theorem Pending.grown_eq (p : Pending) (b : UInt8) :
    p.grown b = p.value * 64 + (b.toNat - 0x80) := rfl

/-- The bytes `front` are the start of a character, and `p` is what has been read of it. -/
inductive Begun : List UInt8 → Pending → Prop
  | lead {b : UInt8} {p : Pending} (h : Leads b.toNat p) : Begun [b] p
  | more {front : List UInt8} {p q : Pending} {b : UInt8} (h : Begun front p) (takes : p.Takes b)
      (more : p.more = q.more + 1) (value : q.value = p.grown b)
      (next : q.low = 0x80 ∧ q.high = 0xBF) : Begun (front ++ [b]) q

/-- No character has more than four bytes. -/
theorem Begun.length {front : List UInt8} {p : Pending} (h : Begun front p) :
    1 ≤ front.length ∧ front.length + p.more ≤ 3 := by
  induction h with
  | lead lead =>
    obtain ⟨-, -, more⟩ | ⟨-, -, more⟩ | ⟨-, -, more⟩ := lead
    all_goals simp [more]
  | more _ _ more _ _ ih =>
    rw [List.length_append, List.length_singleton]
    omega

theorem openWith_cases (b : Nat) :
    b < 0x80 ∧ openWith b = ([some (Char.ofNat b)], none) ∨
    (0x80 ≤ b ∧ b < 0xC2 ∨ 0xF5 ≤ b) ∧ openWith b = ([none], none) ∨
    ∃ p, openWith b = ([], some p) ∧ Leads b p := by
  unfold openWith
  by_cases one : b < 0x80
  · exact .inl ⟨one, if_pos one⟩
  rw [if_neg one]
  refine .inr ?_
  by_cases tail : b < 0xC2
  · exact .inl ⟨.inl ⟨by omega, tail⟩, if_pos tail⟩
  rw [if_neg tail]
  by_cases two : b < 0xE0
  · exact .inr ⟨_, if_pos two, .two (by omega) rfl rfl rfl rfl⟩
  rw [if_neg two]
  by_cases e0 : b = 0xE0
  · exact .inr ⟨_, if_pos e0, .three (by omega) rfl rfl (by simp [e0]) (by simp [e0])⟩
  rw [if_neg e0]
  by_cases ed : b = 0xED
  · exact .inr ⟨_, if_pos ed, .three (by omega) rfl rfl (by simp [ed]) (by simp [ed])⟩
  rw [if_neg ed]
  by_cases three : b < 0xF0
  · exact .inr ⟨_, if_pos three, .three (by omega) rfl rfl (by simp [e0]) (by simp [ed])⟩
  rw [if_neg three]
  by_cases f0 : b = 0xF0
  · exact .inr ⟨_, if_pos f0, .four (by omega) rfl rfl (by simp [f0]) (by simp [f0])⟩
  rw [if_neg f0]
  by_cases f4 : b = 0xF4
  · exact .inr ⟨_, if_pos f4, .four (by omega) rfl rfl (by simp [f4]) (by simp [f4])⟩
  rw [if_neg f4]
  by_cases four : b < 0xF4
  · exact .inr ⟨_, if_pos four, .four (by omega) rfl rfl (by simp [f0]) (by simp [f4])⟩
  · exact .inl ⟨.inr (by omega), if_neg four⟩

/-- With its last byte the character that was started has a form. -/
theorem Begun.form {front : List UInt8} {p : Pending} {d : UInt8} (h : Begun front p)
    (last : p.more = 0) (takes : p.Takes d) : Form (front ++ [d]) (p.grown d) := by
  obtain ⟨hd, hd'⟩ := takes
  unfold Pending.grown
  cases h with
  | lead lead =>
    obtain ⟨range, value, -, low, high⟩ | ⟨-, -, more⟩ | ⟨-, -, more⟩ := lead
    · exact .two range ⟨by omega, by omega⟩ (by omega)
    all_goals omega
  | more h takes more value next =>
    obtain ⟨hc, hc'⟩ := takes
    unfold Pending.grown at value
    cases h with
    | lead lead =>
      obtain ⟨-, -, more⟩ | ⟨range, lead, -, low, high⟩ | ⟨-, -, more⟩ := lead
      · omega
      · exact .three range ⟨by omega, by omega⟩ ⟨by omega, by omega⟩ (by omega) (by omega)
          (by omega)
      · omega
    | more h takes more value' next' =>
      obtain ⟨hb, hb'⟩ := takes
      unfold Pending.grown at value'
      cases h with
      | lead lead =>
        obtain ⟨-, -, more⟩ | ⟨-, -, more⟩ | ⟨range, lead, -, low, high⟩ := lead
        · omega
        · omega
        · exact .four range ⟨by omega, by omega⟩ ⟨by omega, by omega⟩ ⟨by omega, by omega⟩
            (by omega) (by omega) (by omega)
      | more h =>
        have length := h.length
        omega

/-! ## Reading -/

/-- What a state says of the bytes since the last character that was read. -/
def Tracks (front : List UInt8) : Option Pending → Prop
  | none => front = []
  | some p => Begun front p

theorem readByte_of_takes {p : Pending} {b : UInt8} (takes : p.Takes b) :
    readByte (some p) b.toNat = match p.more with
      | 0 => ([some (Char.ofNat (p.grown b))], none)
      | more + 1 => ([], some ⟨p.grown b, 0x80, 0xBF, more⟩) :=
  if_pos ⟨takes.low, takes.high⟩

theorem readBytes_cons (state : Option Pending) (b : UInt8) (bytes : List UInt8) :
    readBytes state (b :: bytes) =
      (readByte state b.toNat).1 ++ readBytes (readByte state b.toNat).2 bytes := rfl

/-- A byte that is read without a loss goes on with a character or is the last one of it. -/
theorem readByte_cases {front : List UInt8} {state : Option Pending} (h : Tracks front state)
    (b : UInt8) : none ∈ (readByte state b.toNat).1 ∨
      (∃ p, readByte state b.toNat = ([], some p) ∧ Begun (front ++ [b]) p) ∨
      ∃ c, readByte state b.toNat = ([some c], none) ∧
        String.utf8EncodeChar c = front ++ [b] := by
  cases state with
  | none =>
    cases h
    rw [readByte]
    rcases openWith_cases b.toNat with ⟨ascii, eq⟩ | ⟨_, eq⟩ | ⟨p, eq, leads⟩
    · refine .inr (.inr ⟨_, eq, ?_⟩)
      exact (Form.one ascii rfl).encode
    · exact .inl (by simp [eq])
    · exact .inr (.inl ⟨p, eq, .lead leads⟩)
  | some p =>
    by_cases range : p.low ≤ b.toNat ∧ b.toNat ≤ p.high
    · have takes : p.Takes b := ⟨range.1, range.2⟩
      rw [readByte_of_takes takes]
      cases more : p.more with
      | zero => exact .inr (.inr ⟨_, rfl, (Begun.form h more takes).encode⟩)
      | succ k => exact .inr (.inl ⟨_, rfl, .more h takes more rfl ⟨rfl, rfl⟩⟩)
    · rw [readByte, if_neg range]
      exact .inl List.mem_cons_self

/-- Bytes that are read without a loss are the form of what is read. -/
theorem encode_of_readBytes : ∀ (bytes : List UInt8) {front : List UInt8}
    {state : Option Pending}, Tracks front state → none ∉ readBytes state bytes →
      ∃ cs, readBytes state bytes = cs.map some ∧ encode cs = front ++ bytes
  | [], front, none, tracks, _ => ⟨[], rfl, by simp [encode, show front = [] from tracks]⟩
  | [], _, some p, _, whole => absurd List.mem_cons_self whole
  | b :: bytes, front, state, tracks, whole => by
    rw [readBytes_cons] at whole ⊢
    obtain ⟨now, later⟩ := not_or.mp fun lost => whole (List.mem_append.mpr lost)
    rcases readByte_cases tracks b with lost | ⟨p, eq, begun⟩ | ⟨c, eq, form⟩
    · exact absurd lost now
    · rw [eq] at later ⊢
      obtain ⟨cs, read, form⟩ := encode_of_readBytes bytes (show Tracks _ (some p) from begun) later
      exact ⟨cs, read, by rw [form, List.append_assoc, List.singleton_append]⟩
    · rw [eq] at later ⊢
      obtain ⟨cs, read, rest⟩ := encode_of_readBytes bytes (show Tracks [] none from rfl) later
      refine ⟨c :: cs, by rw [read]; rfl, ?_⟩
      rw [encode, List.flatMap_cons, form, ← encode, rest, List.append_assoc,
        List.singleton_append, List.nil_append]

/-! ## Reading what was written -/

theorem readBytes_lead {b : UInt8} (h : 0xC2 ≤ b.toNat ∧ b.toNat < 0xF5) :
    ∃ p, Leads b.toNat p ∧ ∀ bytes, readBytes none (b :: bytes) = readBytes (some p) bytes := by
  rcases openWith_cases b.toNat with ⟨_, _⟩ | ⟨_, _⟩ | ⟨p, eq, leads⟩
  · omega
  · omega
  · exact ⟨p, leads, fun bytes => by rw [readBytes_cons, readByte, eq]; rfl⟩

theorem readBytes_last {p : Pending} {b : UInt8} (last : p.more = 0) (takes : p.Takes b)
    (bytes : List UInt8) :
    readBytes (some p) (b :: bytes) = some (Char.ofNat (p.grown b)) :: readBytes none bytes := by
  rw [readBytes_cons, readByte_of_takes takes, last]
  rfl

theorem readBytes_more {p : Pending} {b : UInt8} {k : Nat} (more : p.more = k + 1)
    (takes : p.Takes b) (bytes : List UInt8) :
    readBytes (some p) (b :: bytes) = readBytes (some ⟨p.grown b, 0x80, 0xBF, k⟩) bytes := by
  rw [readBytes_cons, readByte_of_takes takes, more]
  rfl

/-- The form of a character is read as this character, whatever follows. -/
theorem Form.read {bytes : List UInt8} {v : Nat} (h : Form bytes v) (rest : List UInt8) :
    readBytes none (bytes ++ rest) = some (Char.ofNat v) :: readBytes none rest := by
  cases h with
  | @one a v ha hv =>
    rcases openWith_cases a.toNat with ⟨_, eq⟩ | ⟨_, _⟩ | ⟨_, _, leads⟩
    · rw [List.singleton_append, readBytes_cons, readByte, eq, hv]
      rfl
    · omega
    · obtain ⟨range, _⟩ | ⟨range, _⟩ | ⟨range, _⟩ := leads
      all_goals omega
  | @two a b v ha hb hv =>
    obtain ⟨p, leads, start⟩ := readBytes_lead (b := a) (by omega)
    obtain ⟨_, value, more, low, high⟩ | ⟨range, _⟩ | ⟨range, _⟩ := leads
    · have takes : p.Takes b := ⟨low ▸ hb.1, high ▸ hb.2⟩
      have grown : p.grown b = v := by rw [Pending.grown_eq, value, hv]
      rw [List.cons_append, List.singleton_append, start, readBytes_last more takes, grown]
    all_goals omega
  | @three a b c v ha hb hc shortest scalar hv =>
    obtain ⟨p, leads, start⟩ := readBytes_lead (b := a) (by omega)
    obtain ⟨range, _⟩ | ⟨_, value, more, low, high⟩ | ⟨range, _⟩ := leads
    · omega
    · unfold IsTail at hb hc
      have takes : p.Takes b := ⟨by omega, by omega⟩
      have grown : Pending.grown ⟨p.grown b, 0x80, 0xBF, 0⟩ c = v := by
        rw [Pending.grown_eq, Pending.grown_eq, value, hv]
      rw [List.cons_append, List.cons_append, List.singleton_append, start,
        readBytes_more more takes, readBytes_last rfl ⟨hc.1, hc.2⟩, grown]
    · omega
  | @four a b c d v ha hb hc hd shortest scalar hv =>
    obtain ⟨p, leads, start⟩ := readBytes_lead (b := a) (by omega)
    obtain ⟨range, _⟩ | ⟨range, _⟩ | ⟨_, value, more, low, high⟩ := leads
    · omega
    · omega
    · unfold IsTail at hb hc hd
      have takes : p.Takes b := ⟨by omega, by omega⟩
      have grown :
          Pending.grown ⟨Pending.grown ⟨p.grown b, 0x80, 0xBF, 1⟩ c, 0x80, 0xBF, 0⟩ d = v := by
        rw [Pending.grown_eq, Pending.grown_eq, Pending.grown_eq, value, hv]
      rw [List.cons_append, List.cons_append, List.cons_append, List.singleton_append, start,
        readBytes_more more takes, readBytes_more rfl ⟨hc.1, hc.2⟩,
        readBytes_last rfl ⟨hd.1, hd.2⟩, grown]

theorem readBytes_encode (cs : List Char) : readBytes none (encode cs) = cs.map some := by
  induction cs with
  | nil => rfl
  | cons c cs ih =>
    rw [encode, List.flatMap_cons, (form_utf8EncodeChar c).read, Char.ofNat_toNat, ← encode, ih]
    rfl

/-! ## ASCII -/

/-- A character is one ASCII byte, or it has none. -/
theorem Form.one_or_high {bytes : List UInt8} {v : Nat} (h : Form bytes v) :
    (∃ a : UInt8, bytes = [a] ∧ a.toNat = v) ∨ 0x80 ≤ v ∧ ∀ b ∈ bytes, 0x80 ≤ b.toNat := by
  cases h with
  | @one a _ ha hv => exact .inl ⟨a, rfl, hv.symm⟩
  | two ha hb hv =>
    unfold IsTail at hb
    refine .inr ⟨by omega, ?_⟩
    simp only [List.forall_mem_cons]
    exact ⟨by omega, hb.1, by simp⟩
  | three ha hb hc shortest _ hv =>
    unfold IsTail at hb hc
    refine .inr ⟨by omega, ?_⟩
    simp only [List.forall_mem_cons]
    exact ⟨by omega, hb.1, hc.1, by simp⟩
  | four ha hb hc hd shortest _ hv =>
    unfold IsTail at hb hc hd
    refine .inr ⟨by omega, ?_⟩
    simp only [List.forall_mem_cons]
    exact ⟨by omega, hb.1, hc.1, hd.1, by simp⟩

theorem count_utf8EncodeChar {d : Char} {b : UInt8} (same : d.toNat = b.toNat)
    (ascii : b.toNat < 0x80) (c : Char) :
    (String.utf8EncodeChar c).count b = if c = d then 1 else 0 := by
  have value : c = d ↔ c.toNat = b.toNat := by
    rw [← same]
    exact Char.toNat_inj.symm
  rcases (form_utf8EncodeChar c).one_or_high with ⟨a, bytes, eq⟩ | ⟨eq, high⟩
  · have byte : a = b ↔ c = d := by rw [value, ← eq, UInt8.toNat_inj]
    simp [bytes, List.count_singleton, byte]
  · rw [if_neg (by rw [value]; omega), List.count_eq_zero]
    intro mem
    exact absurd (high _ mem) (by omega)

/-- An ASCII byte stands for its character and is no part of another. -/
theorem count_encode {d : Char} {b : UInt8} (same : d.toNat = b.toNat) (ascii : b.toNat < 0x80)
    (cs : List Char) : (encode cs).count b = cs.count d := by
  induction cs with
  | nil => rfl
  | cons c cs ih =>
    rw [encode, List.flatMap_cons, List.count_append, ← encode, ih,
      count_utf8EncodeChar same ascii, List.count_cons, Nat.add_comm]
    simp

theorem mem_encode {d : Char} {b : UInt8} (same : d.toNat = b.toNat) (ascii : b.toNat < 0x80)
    {cs : List Char} : b ∈ encode cs ↔ d ∈ cs := by
  rw [← List.count_pos_iff, count_encode same ascii, List.count_pos_iff]

/-! ## Bytes without a loss -/

/-- The bytes are the form of a text. -/
def IsUtf8 (bytes : List UInt8) : Prop := ∃ cs, encode cs = bytes

/-- Nothing is lost exactly where the bytes are the form of a text. -/
theorem decode_lossless_iff {bytes : List UInt8} : (decode bytes).2 = false ↔ IsUtf8 bytes := by
  have lossless : (decode bytes).2 = false ↔ none ∉ readBytes none bytes := by
    rw [decode, ← Bool.not_eq_true, List.any_eq_true]
    exact not_congr ⟨fun ⟨_, mem, lost⟩ => Option.isNone_iff_eq_none.mp lost ▸ mem,
      fun mem => ⟨none, mem, rfl⟩⟩
  rw [lossless]
  constructor
  · intro whole
    obtain ⟨cs, _, form⟩ := encode_of_readBytes bytes (show Tracks [] none from rfl) whole
    exact ⟨cs, form⟩
  · rintro ⟨cs, rfl⟩
    rw [readBytes_encode]
    simp

theorem decode_encode (cs : List Char) : decode (encode cs) = (cs, false) := by
  have text : (fun c : Option Char => c.getD replacement) ∘ some = id := rfl
  simp [decode, readBytes_encode, text]

theorem decode?_eq_some_iff {bytes : List UInt8} {text : List Char} :
    decode? bytes = some text ↔ bytes = encode text := by
  unfold decode?
  constructor
  · intro h
    split at h
    · rename_i read eq
      obtain ⟨cs, rfl⟩ := decode_lossless_iff.mp (congrArg Prod.snd eq)
      rw [decode_encode] at eq
      rw [← Option.some.inj h, (Prod.mk.inj eq).1]
    · cases h
  · intro h
    rw [h, decode_encode]

instance (bytes : List UInt8) : Decidable (IsUtf8 bytes) := decidable_of_iff _ decode_lossless_iff

end CallFlow.Text
