import CallFlow.Text.Lines
import Mathlib.Data.List.DropRight
import Mathlib.Data.List.Forall2
import Mathlib.Order.Bounds.Basic

/-! Moving a text to column zero. The common indent is measured on one line, in bytes, and taken off
all of them, so a cut may fall inside white space of several bytes. Main statement: every line loses
white space only, in front and at its end, all lines equally much in front where white space takes
one byte each; and a text that does not end in a blank line is not moved a second time. -/

namespace CallFlow.Text

/-! ## Lines -/

/-- A line without the carriage return in front of its line feed. -/
def chomp (l : List Char) : List Char := if l.getLast? = some '\r' then l.dropLast else l

theorem chomp_cons {c : Char} {l : List Char} (h : l ≠ []) : chomp (c :: l) = c :: chomp l := by
  obtain ⟨d, l, rfl⟩ := List.exists_cons_of_ne_nil h
  unfold chomp
  rw [List.getLast?_cons_cons]
  split <;> rfl

theorem chomp_append (w : List Char) {l : List Char} (h : l ≠ []) :
    chomp (w ++ l) = w ++ chomp l := by
  induction w with
  | nil => rfl
  | cons c w ih => rw [List.cons_append, chomp_cons (by simp [h]), ih, List.cons_append]

theorem lines_of_not_mem {l : List Char} (h : '\n' ∉ l) : lines l = if l = [] then [] else [l] := by
  induction l with
  | nil => rfl
  | cons c l ih =>
    obtain ⟨feed, later⟩ := not_or.mp (List.mem_cons.not.mp h)
    rw [lines, ih later]
    · cases l <;> simp
    · exact fun he => feed he.symm
    · rintro rest - rfl
      exact later List.mem_cons_self

/-- A line feed ends the line in front of it and says nothing about what follows. -/
theorem lines_append_feed {l : List Char} (rest : List Char) (h : '\n' ∉ l) :
    lines (l ++ '\n' :: rest) = chomp l :: lines rest := by
  induction l with
  | nil => rfl
  | cons c l ih =>
    obtain ⟨feed, later⟩ := not_or.mp (List.mem_cons.not.mp h)
    by_cases last : l = []
    · subst last
      by_cases carriage : c = '\r'
      · subst carriage
        rfl
      · rw [List.singleton_append, lines]
        · simp [lines, chomp, carriage]
        · exact fun he => feed he.symm
        · exact fun _ he => absurd he carriage
    · rw [List.cons_append, lines, ih later, chomp_cons last]
      · exact fun he => feed he.symm
      · intro more _ he
        obtain ⟨d, l, rfl⟩ := List.exists_cons_of_ne_nil last
        rw [List.cons_append, List.cons.injEq] at he
        exact later (he.1 ▸ List.mem_cons_self)

theorem not_mem_of_mem_lines {cs l : List Char} (h : l ∈ lines cs) : '\n' ∉ l := by
  fun_induction lines cs generalizing l with
  | case1 => cases h
  | case2 cs ih | case3 cs ih =>
    rcases List.mem_cons.mp h with rfl | h
    · simp
    · exact ih h
  | case4 c cs feed _ _ _ =>
    rw [List.mem_singleton.mp h, List.mem_singleton]
    exact fun he => feed he.symm
  | case5 c cs feed _ first rest eq ih =>
    rcases List.mem_cons.mp h with rfl | h
    · have later := ih (eq ▸ List.mem_cons_self)
      exact List.mem_cons.not.mpr (not_or.mpr ⟨fun he => feed he.symm, later⟩)
    · exact ih (eq ▸ List.mem_cons_of_mem first h)

theorem unlines_cons_cons (l m : List Char) (ls : List (List Char)) :
    unlines (l :: m :: ls) = l ++ '\n' :: unlines (m :: ls) := by
  simp [unlines, List.intercalate_cons_cons]

theorem unlines_singleton (l : List Char) : unlines [l] = l := by
  simp [unlines]

/-- Lines that are joined are the lines of the result, if each is one line, none ends in what would
be taken for a part of its line feed, and the last one is there. -/
theorem lines_unlines : ∀ {ls : List (List Char)}, (∀ l ∈ ls, '\n' ∉ l ∧ chomp l = l) →
    ls.getLast? ≠ some [] → lines (unlines ls) = ls
  | [], _, _ => rfl
  | [l], single, last => by
    have present : l ≠ [] := fun he => last (by simp [he])
    rw [unlines_singleton, lines_of_not_mem (single l List.mem_cons_self).1, if_neg present]
  | l :: m :: ls, single, last => by
    obtain ⟨⟨one, whole⟩, others⟩ := List.forall_mem_cons.mp single
    rw [unlines_cons_cons, lines_append_feed _ one, whole, lines_unlines others]
    simpa using last

/-! ## White space in front and behind -/

/-- The text starts with a character that can be seen. -/
def isFlush (cs : List Char) : Bool := cs.head?.any fun c => !isBlank c

/-- `o` is what is left of the line `l` without the white space `front`, which it starts with, and
without any white space at its end. -/
structure Trimmed (l front o : List Char) : Prop where
  blank : allBlank front = true
  cut : ∃ back, allBlank back = true ∧ l = front ++ o ++ back
  visible : ∃ c, o.getLast? = some c ∧ isBlank c = false

theorem allBlank_append {a b : List Char} :
    allBlank (a ++ b) = true ↔ allBlank a = true ∧ allBlank b = true := by
  simp [allBlank]

theorem trimEnd_trimEnd (cs : List Char) : trimEnd (trimEnd cs) = trimEnd cs :=
  List.rdropWhile_idempotent isBlank cs

theorem exists_eq_trimEnd (cs : List Char) :
    ∃ back, allBlank back = true ∧ cs = trimEnd cs ++ back :=
  ⟨cs.rtakeWhile isBlank, List.all_eq_true.mpr fun _ => List.mem_rtakeWhile_imp,
    List.rdropWhile_append_rtakeWhile.symm⟩

theorem trimEnd_eq_nil_iff {cs : List Char} : trimEnd cs = [] ↔ allBlank cs = true := by
  rw [allBlank, List.all_eq_true]
  exact List.rdropWhile_eq_nil_iff

/-- A carriage return is white space. -/
theorem chomp_trimEnd (cs : List Char) : chomp (trimEnd cs) = trimEnd cs := by
  rw [chomp, if_neg]
  intro last
  have present : trimEnd cs ≠ [] := fun he => by simp [he] at last
  have visible := List.rdropWhile_last_not isBlank cs present
  rw [List.getLast?_eq_some_getLast present, Option.some.injEq] at last
  exact visible (last ▸ rfl)

theorem trimmed_trimEnd {front rest : List Char} (blank : allBlank front = true)
    (visible : allBlank (front ++ rest) = false) :
    Trimmed (front ++ rest) front (trimEnd rest) := by
  obtain ⟨back, after, eq⟩ := exists_eq_trimEnd rest
  have present : trimEnd rest ≠ [] := by
    intro none
    have all := allBlank_append.mpr ⟨blank, trimEnd_eq_nil_iff.mp none⟩
    simp [visible] at all
  refine ⟨blank, ⟨back, after, by rw [List.append_assoc, ← eq]⟩, _,
    List.getLast?_eq_some_getLast present, ?_⟩
  exact Bool.eq_false_iff.mpr (List.rdropWhile_last_not isBlank rest present)

theorem trimmed_trim {cs : List Char} (visible : allBlank cs = false) :
    Trimmed cs (cs.takeWhile isBlank) (trim cs) := by
  have blank : allBlank (cs.takeWhile isBlank) = true :=
    List.all_eq_true.mpr fun _ => List.mem_takeWhile_imp
  have whole : cs.takeWhile isBlank ++ cs.dropWhile isBlank = cs := List.takeWhile_append_dropWhile
  have trimmed := trimmed_trimEnd blank (whole.symm ▸ visible)
  rwa [whole] at trimmed

theorem eq_nil_of_width {cs : List Char} (h : width cs = 0) : cs = [] := by
  cases cs with
  | nil => rfl
  | cons c cs =>
    have pos := c.utf8Size_pos
    rw [width] at h
    omega

theorem indent_append {front rest : List Char} (blank : allBlank front = true) :
    indent (front ++ rest) = width front + indent rest := by
  rw [indent, List.takeWhile_append_of_pos (List.all_eq_true.mp blank), width_append, indent]

/-- Relative to each other, lines that lose equally much in front keep their indents. -/
theorem Trimmed.indent_eq {l front o : List Char} (h : Trimmed l front o) :
    indent l = width front + indent o := by
  obtain ⟨back, _, rfl⟩ := h.cut
  obtain ⟨c, last, visible⟩ := h.visible
  have stop : ¬ (o.takeWhile isBlank).length = o.length := by
    intro whole
    have all := List.takeWhile_eq_self_iff.mp
      ((List.takeWhile_prefix isBlank).eq_of_length whole)
    simpa [visible] using all c (List.mem_of_getLast? last)
  rw [List.append_assoc, indent_append h.blank, indent, List.takeWhile_append, if_neg stop, indent]

theorem Trimmed.flush {l front o : List Char} (h : Trimmed l front o) (none : indent o = 0) :
    isFlush o = true := by
  obtain ⟨c, last, _⟩ := h.visible
  cases o with
  | nil => cases last
  | cons d o =>
    have start := eq_nil_of_width none
    by_cases hd : isBlank d = true
    · simp [hd] at start
    · simpa [isFlush] using hd

theorem allBlank_of_isFlush {cs : List Char} (h : isFlush cs = true) : allBlank cs = false := by
  cases cs with
  | nil => cases h
  | cons c cs =>
    have visible : isBlank c = false := by simpa [isFlush] using h
    simp [allBlank, visible]

theorem indent_of_isFlush {cs : List Char} (h : isFlush cs = true) : indent cs = 0 := by
  cases cs with
  | nil => rfl
  | cons c cs =>
    have visible : isBlank c = false := by simpa [isFlush] using h
    simp [indent, visible, width]

/-! ## The common indent -/

theorem isLeast_commonIndent {ls : List (List Char)} (h : ∃ l ∈ ls, allBlank l = false) :
    IsLeast {n | ∃ l ∈ ls, allBlank l = false ∧ indent l = n} (commonIndent ls) := by
  have mem {n : Nat} : n ∈ (ls.filter fun l => !allBlank l).map indent ↔
      ∃ l ∈ ls, allBlank l = false ∧ indent l = n := by
    simp [and_assoc]
  unfold commonIndent
  cases least : ((ls.filter fun l => !allBlank l).map indent).min? with
  | none =>
    obtain ⟨l, hl, visible⟩ := h
    have present := mem.mpr ⟨l, hl, visible, rfl⟩
    rw [List.min?_eq_none_iff.mp least] at present
    cases present
  | some n =>
    obtain ⟨found, le⟩ := List.min?_eq_some_iff.mp least
    exact ⟨mem.mp found, fun m hm => le m (mem.mpr hm)⟩

theorem commonIndent_le {ls : List (List Char)} {l : List Char} (hl : l ∈ ls)
    (visible : allBlank l = false) : commonIndent ls ≤ indent l :=
  (isLeast_commonIndent ⟨l, hl, visible⟩).2 ⟨l, hl, visible, rfl⟩

/-- A cut inside the indent leaves white space only in front of it. -/
theorem allBlank_of_splitAt? {n : Nat} {l front rest : List Char}
    (h : splitAt? n l = some (front, rest)) (le : n ≤ indent l) : allBlank front = true := by
  obtain ⟨eq, width⟩ := splitAt?_eq_some h
  have parts := (List.takeWhile_append_dropWhile (p := isBlank) (l := l)).trans eq
  have blank : allBlank (l.takeWhile isBlank) = true :=
    List.all_eq_true.mpr fun _ => List.mem_takeWhile_imp
  rcases List.append_eq_append_iff.mp parts with ⟨more, longer, _⟩ | ⟨more, shorter, _⟩
  · have none : more = [] := by
      apply eq_nil_of_width
      rw [longer, width_append] at width
      unfold indent at le
      omega
    rw [longer, none, List.append_nil]
    exact blank
  · rw [shorter] at blank
    exact (allBlank_append.mp blank).1

/-- What a line that is not blank loses in front is white space, and no more of it than asked for
unless there is no cut at that place. -/
theorem trimmed_outdent {n : Nat} {l : List Char} (visible : allBlank l = false)
    (le : n ≤ indent l) : ∃ front, Trimmed l front (outdent n l) ∧
      (width front = n ∨ splitAt? n l = none) := by
  rw [outdent, if_neg (by simp [visible])]
  split
  · rename_i front rest cut
    have blank := allBlank_of_splitAt? cut le
    obtain ⟨rfl, width⟩ := splitAt?_eq_some cut
    exact ⟨front, trimmed_trimEnd blank visible, .inl width⟩
  · rename_i none
    exact ⟨_, trimmed_trim visible, .inr none⟩

theorem outdent_of_allBlank {n : Nat} {l : List Char} (h : allBlank l = true) : outdent n l = [] :=
  if_pos h

theorem outdent_zero (l : List Char) : outdent 0 l = trimEnd l := by
  unfold outdent
  split
  · rename_i blank
    exact (trimEnd_eq_nil_iff.mpr blank).symm
  · cases l <;> rfl

theorem width_eq_length {cs : List Char} (h : ∀ c ∈ cs, c.utf8Size = 1) : width cs = cs.length := by
  induction cs with
  | nil => rfl
  | cons c cs ih =>
    obtain ⟨one, more⟩ := List.forall_mem_cons.mp h
    rw [width, one, ih more, List.length_cons, Nat.add_comm]

/-- Between characters of one byte there is a cut everywhere. -/
theorem splitAt?_ne_none {n : Nat} {l : List Char}
    (single : ∀ c ∈ l.takeWhile isBlank, c.utf8Size = 1) (le : n ≤ indent l) :
    splitAt? n l ≠ none := by
  have length : width ((l.takeWhile isBlank).take n) = n := by
    rw [width_eq_length fun c hc => single c (List.mem_of_mem_take hc), List.length_take,
      ← width_eq_length single]
    exact Nat.min_eq_left le
  have whole := List.takeWhile_append_dropWhile (p := isBlank) (l := l)
  rw [← List.take_append_drop n (l.takeWhile isBlank), List.append_assoc] at whole
  have cut := splitAt?_width ((l.takeWhile isBlank).take n)
    ((l.takeWhile isBlank).drop n ++ l.dropWhile isBlank)
  rw [length, whole] at cut
  simp [cut]

/-! ## Moving to column zero -/

/-- A blank line becomes empty, and any other one loses white space in front and at its end. -/
def MovesTo (l o : List Char) : Prop :=
  if allBlank l = true then o = [] else ∃ front, Trimmed l front o

theorem movesTo_outdent {n : Nat} {l : List Char} (le : allBlank l = false → n ≤ indent l) :
    MovesTo l (outdent n l) := by
  unfold MovesTo
  split
  · rename_i blank
    exact outdent_of_allBlank blank
  · rename_i visible
    have visible := Bool.eq_false_iff.mpr visible
    obtain ⟨front, trimmed, _⟩ := trimmed_outdent visible (le visible)
    exact ⟨front, trimmed⟩

/-- What is left of a line comes from its end, without the white space there. -/
theorem exists_outdent_eq (n : Nat) (l : List Char) :
    ∃ rest, rest <:+ l ∧ outdent n l = trimEnd rest := by
  unfold outdent
  split
  · exact ⟨[], List.nil_suffix, rfl⟩
  · split
    · rename_i front rest cut
      exact ⟨rest, ⟨front, (splitAt?_eq_some cut).1.symm⟩, rfl⟩
    · exact ⟨l.dropWhile isBlank, List.dropWhile_suffix isBlank, rfl⟩

theorem trimEnd_outdent (n : Nat) (l : List Char) : trimEnd (outdent n l) = outdent n l := by
  obtain ⟨rest, _, eq⟩ := exists_outdent_eq n l
  rw [eq, trimEnd_trimEnd]

theorem exists_isFlush_outdent {ls : List (List Char)} (h : ∃ l ∈ ls, allBlank l = false) :
    ∃ l ∈ ls, isFlush (outdent (commonIndent ls) l) = true := by
  obtain ⟨l, hl, visible, least⟩ := (isLeast_commonIndent h).1
  obtain ⟨front, trimmed, cut⟩ := trimmed_outdent visible least.ge
  have whole : width front = commonIndent ls := by
    refine cut.resolve_right fun none => ?_
    -- the indent of the line itself ends between two characters
    have cut := splitAt?_width (l.takeWhile isBlank) (l.dropWhile isBlank)
    rw [List.takeWhile_append_dropWhile, ← indent, least, none] at cut
    cases cut
  have indents := trimmed.indent_eq
  exact ⟨l, hl, trimmed.flush (by omega)⟩

theorem lines_dedent {cs l : List Char} (last : (lines cs).getLast? = some l)
    (visible : allBlank l = false) :
    lines (dedent cs) = (lines cs).map (outdent (commonIndent (lines cs))) := by
  apply lines_unlines
  · intro o ho
    obtain ⟨m, hm, rfl⟩ := List.mem_map.mp ho
    obtain ⟨rest, suffix, eq⟩ := exists_outdent_eq (commonIndent (lines cs)) m
    rw [eq]
    refine ⟨fun feed => not_mem_of_mem_lines hm ?_, chomp_trimEnd rest⟩
    exact suffix.subset ((List.rdropWhile_prefix isBlank rest).subset feed)
  · rw [List.getLast?_map, last, Option.map_some]
    have le := commonIndent_le (List.mem_of_getLast? last) visible
    obtain ⟨front, trimmed, _⟩ := trimmed_outdent visible le
    obtain ⟨c, final, _⟩ := trimmed.visible
    intro none
    rw [Option.some.inj none] at final
    cases final

theorem commonIndent_of_isFlush {ls : List (List Char)} {l : List Char} (hl : l ∈ ls)
    (flush : isFlush l = true) : commonIndent ls = 0 := by
  have le := commonIndent_le hl (allBlank_of_isFlush flush)
  rw [indent_of_isFlush flush] at le
  exact Nat.le_zero.mp le

theorem dedent_dedent {cs l : List Char} (last : (lines cs).getLast? = some l)
    (visible : allBlank l = false) : dedent (dedent cs) = dedent cs := by
  obtain ⟨m, hm, flush⟩ := exists_isFlush_outdent ⟨l, List.mem_of_getLast? last, visible⟩
  rw [dedent, lines_dedent last visible, commonIndent_of_isFlush (List.mem_map_of_mem hm) flush,
    List.map_map, dedent]
  congr 2
  funext l
  rw [Function.comp_apply, outdent_zero, trimEnd_outdent]

/-- Moving a text to column zero takes off white space only. -/
theorem dedent_moves_lines (cs : List Char) : ∃ out, dedent cs = unlines out ∧
    List.Forall₂ MovesTo (lines cs) out ∧
    ((∃ l ∈ lines cs, allBlank l = false) → ∃ o ∈ out, isFlush o = true) ∧
    ((∀ l ∈ lines cs, allBlank l = false → ∀ c ∈ l.takeWhile isBlank, c.utf8Size = 1) →
      ∀ n, IsLeast {n | ∃ l ∈ lines cs, allBlank l = false ∧ indent l = n} n →
        List.Forall₂ (fun l o => allBlank l = false →
          ∃ front, Trimmed l front o ∧ width front = n ∧ indent l = n + indent o) (lines cs) out) ∧
    ∀ l, (lines cs).getLast? = some l → allBlank l = false → dedent (dedent cs) = dedent cs := by
  refine ⟨_, rfl, ?_, fun visible => ?_, fun single n least => ?_,
    fun l last visible => dedent_dedent last visible⟩
  · rw [List.forall₂_map_right_iff, List.forall₂_same]
    exact fun l hl => movesTo_outdent (commonIndent_le hl)
  · obtain ⟨l, hl, flush⟩ := exists_isFlush_outdent visible
    exact ⟨_, List.mem_map_of_mem hl, flush⟩
  · rw [List.forall₂_map_right_iff, List.forall₂_same]
    intro l hl visible
    rw [least.unique (isLeast_commonIndent ⟨l, hl, visible⟩)]
    have le := commonIndent_le hl visible
    obtain ⟨front, trimmed, cut⟩ := trimmed_outdent visible le
    have whole := cut.resolve_right (splitAt?_ne_none (single l hl visible) le)
    exact ⟨front, trimmed, whole, whole ▸ trimmed.indent_eq⟩

/-- Tabs and spaces, a carriage return, an empty line and white space at the end of a line. -/
def ragged : List Char := "\t a\r\n\n   b \n \tc".toList

theorem dedent_moves_lines_ragged : dedent (dedent ragged) = dedent ragged ∧
    ∃ out, dedent ragged = unlines out ∧ (∃ o ∈ out, isFlush o = true) ∧
      List.Forall₂ (fun l o => allBlank l = false →
        ∃ front, Trimmed l front o ∧ width front = 2 ∧ indent l = 2 + indent o)
        (lines ragged) out := by
  obtain ⟨out, eq, _, flush, single, again⟩ := dedent_moves_lines ragged
  have visible : ∃ l ∈ lines ragged, allBlank l = false := by decide
  -- A list of characters is searched here: over all characters this could not be decided.
  have narrow : ∀ l ∈ lines ragged, (l.takeWhile isBlank).all (·.utf8Size == 1) = true := by decide
  refine ⟨again " \tc".toList (by decide) (by decide), out, eq, flush visible,
    single (fun l hl _ c hc => ?_) 2 (isLeast_commonIndent visible)⟩
  exact beq_iff_eq.mp (List.all_eq_true.mp (narrow l hl) c hc)

/-- A cut at one byte falls inside the white space in front of `a`. -/
example : dedent "\u3000a\n b".toList = "a\nb".toList := by decide

end CallFlow.Text
