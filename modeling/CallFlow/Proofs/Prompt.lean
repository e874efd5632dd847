import CallFlow.Prompt
import CallFlow.Proofs.Text.Dedent
import CallFlow.Proofs.Text.Segments

/-! What prompts say. The description of the project goes into the wording first, and the place of
the entry function is searched in the result. Main statement: both places are filled as given
unless the description itself has a place for an entry function. Then that one is filled, and the
wording keeps its own. -/

namespace CallFlow

namespace Text

variable {c : Char} {old front rest cs : List Char}

/-! ## Occurrences -/

/-- An occurrence begins with its first character. -/
theorem infix_of_infix_append (absent : c ∉ front) (h : c :: old <:+: front ++ rest) :
    c :: old <:+: rest := by
  induction front with
  | nil => exact h
  | cons d front ih =>
    obtain ⟨other, later⟩ := not_or.mp (List.mem_cons.not.mp absent)
    rcases List.infix_cons_iff.mp h with here | h
    · exact absurd (List.cons_prefix_cons.mp here).1 other
    · exact ih later h

theorem prefix_of_prefix_append_cons (absent : c ∉ old) (front : List Char)
    (h : old <+: front ++ c :: rest) : old <+: front := by
  have cut : front ++ [c] <+: front ++ c :: rest := ⟨rest, by simp⟩
  rcases List.prefix_or_prefix_of_prefix h cut with h | h
  · refine (List.prefix_concat_iff.mp h).resolve_left fun he => absent ?_
    rw [he]
    exact List.mem_append_right front List.mem_cons_self
  · exact absurd (h.subset (List.mem_append_right front List.mem_cons_self)) absent

/-- No occurrence reaches across a character that it does not have. -/
theorem infix_or_infix_of_append_cons (absent : c ∉ old) (h : old <:+: front ++ c :: rest) :
    old <:+: front ∨ old <:+: rest := by
  induction front with
  | nil =>
    rcases List.infix_cons_iff.mp h with here | h
    · exact .inl (prefix_of_prefix_append_cons absent [] here).isInfix
    · exact .inr h
  | cons d front ih =>
    rcases List.infix_cons_iff.mp h with here | h
    · exact .inl (prefix_of_prefix_append_cons absent (d :: front) here).isInfix
    · exact (ih h).imp_left fun h => h.trans (List.suffix_cons d front).isInfix

/-- A text with an occurrence is cut at the first one. -/
theorem exists_first_infix (present : old ≠ []) (h : old <:+: cs) :
    ∃ a b, cs = a ++ old ++ b ∧ ¬ old <:+: a := by
  induction cs with
  | nil => exact absurd (List.infix_nil.mp h) present
  | cons d cs ih =>
    by_cases here : old <+: d :: cs
    · obtain ⟨b, eq⟩ := here
      exact ⟨[], b, eq.symm, fun h => present (List.infix_nil.mp h)⟩
    · obtain ⟨a, b, rfl, first⟩ := ih ((List.infix_cons_iff.mp h).resolve_left here)
      refine ⟨d :: a, b, rfl, fun h => ?_⟩
      rcases List.infix_cons_iff.mp h with h | h
      · exact here (h.trans ⟨old ++ b, by simp⟩)
      · exact first h

/-- In front of its first occurrence, a word that starts in its own way starts nowhere. -/
theorem not_prefix_of_first {d : Char} (own : c ∉ old) (first : ¬ c :: old <:+: d :: front) :
    ¬ c :: old <+: d :: (front ++ c :: old ++ rest) := by
  intro h
  rw [List.append_assoc, List.cons_append] at h
  obtain ⟨same, rest⟩ := List.cons_prefix_cons.mp h
  exact first (List.cons_prefix_cons.mpr ⟨same, prefix_of_prefix_append_cons own _ rest⟩).isInfix

/-! ## Replacing -/

theorem replaceFirst_of_first (own : c ∉ old) (first : ¬ c :: old <:+: front)
    (new rest : List Char) :
    replaceFirst (c :: old) new (front ++ c :: old ++ rest) = front ++ new ++ rest := by
  induction front with
  | nil =>
    have found : (c :: old).isPrefixOf? (c :: (old ++ rest)) = some rest :=
      List.isPrefixOf?_eq_some_iff_append_eq.mpr rfl
    rw [List.nil_append, List.cons_append, replaceFirst, found]
    rfl
  | cons d front ih =>
    have missed : (c :: old).isPrefixOf? (d :: (front ++ c :: old ++ rest)) = none := by
      rw [Option.eq_none_iff_forall_ne_some]
      intro left found
      exact not_prefix_of_first own first ⟨left, List.isPrefixOf?_eq_some_iff_append_eq.mp found⟩
    rw [List.cons_append, List.cons_append, replaceFirst, missed,
      ih fun h => first (h.trans (List.suffix_cons d front).isInfix)]
    rfl

theorem replaceAfter_drop (old new : List Char) : ∀ (n : Nat) (cs : List Char),
    replaceAfter old new n cs = replaceAfter old new 0 (cs.drop n)
  | 0, _ => rfl
  | _ + 1, [] => rfl
  | n + 1, _ :: cs => replaceAfter_drop old new n cs

theorem replaceAll_cons {d : Char} (new : List Char) (h : ¬ old <+: d :: cs) :
    replaceAll old new (d :: cs) = d :: replaceAll old new cs :=
  if_neg fun found => h (List.isPrefixOf_iff_prefix.mp found)

theorem replaceAll_of_not_infix (new : List Char) (h : ¬ old <:+: cs) :
    replaceAll old new cs = cs := by
  induction cs with
  | nil => rfl
  | cons d cs ih =>
    obtain ⟨here, later⟩ := not_or.mp (List.infix_cons_iff.not.mp h)
    rw [replaceAll_cons new here, ih later]

theorem replaceAll_of_first (own : c ∉ old) (first : ¬ c :: old <:+: front)
    (new rest : List Char) :
    replaceAll (c :: old) new (front ++ c :: old ++ rest) =
      front ++ new ++ replaceAll (c :: old) new rest := by
  induction front with
  | nil =>
    have found : (c :: old).isPrefixOf (c :: (old ++ rest)) = true :=
      List.isPrefixOf_iff_prefix.mpr ⟨rest, rfl⟩
    rw [List.nil_append, List.cons_append, replaceAll, replaceAfter, if_pos found,
      replaceAfter_drop, List.length_cons, Nat.add_sub_cancel, List.drop_left]
    rfl
  | cons d front ih =>
    rw [List.cons_append, List.cons_append, replaceAll_cons new (not_prefix_of_first own first),
      ih fun h => first (h.trans (List.suffix_cons d front).isInfix)]
    rfl

/-- Words that may change their places around a text are the same, if it is cut somewhere by a
character that they do not have. -/
theorem eq_of_swap {x y between : List Char} (hx : c ∉ x) (hy : c ∉ y) (hc : c ∈ between)
    (swap : x ++ between ++ y = y ++ between ++ x) : x = y := by
  obtain ⟨front, rest, rfl, absent⟩ := List.eq_append_cons_of_mem hc
  have left : x ++ (front ++ c :: rest) ++ y = x ++ front ++ c :: (rest ++ y) := by simp
  have right : y ++ (front ++ c :: rest) ++ x = y ++ front ++ c :: (rest ++ x) := by simp
  rw [left, right] at swap
  have fronts := congrArg (List.takeWhile (· ≠ c)) swap
  rw [takeWhile_ne_append (by simp [hx, absent]),
    takeWhile_ne_append (by simp [hy, absent])] at fronts
  exact List.append_cancel_right fronts

/-! ## White space around words -/

/-- White space that is taken away behind leaves the front as it is. -/
theorem isFlush_trimEnd (flush : isFlush cs = true) :
    isFlush (trimEnd cs) = true := by
  obtain ⟨back, -, eq⟩ := exists_eq_trimEnd cs
  cases front : trimEnd cs with
  | nil =>
    have blank := trimEnd_eq_nil_iff.mp front
    rw [allBlank_of_isFlush flush] at blank
    cases blank
  | cons c rest =>
    rw [eq, front] at flush
    exact flush

theorem isFlush_trim (visible : allBlank cs = false) : isFlush (trim cs) = true := by
  refine isFlush_trimEnd ?_
  have first := List.head?_dropWhile_not isBlank cs
  cases rest : cs.dropWhile isBlank with
  | nil =>
    rw [trimStart_eq_nil rest] at visible
    cases visible
  | cons c rest' =>
    rw [rest] at first
    simpa [isFlush, trimStart, rest] using first

end Text

namespace Template

open Text

/-! ## Wordings and their places -/

def projectPlace : List Char := "<project>".toList

def entryPlace : List Char := "<fun>".toList

theorem projectPlace_eq : projectPlace = ['<', 'p', 'r', 'o', 'j', 'e', 'c', 't', '>'] := by decide

theorem entryPlace_eq : entryPlace = ['<', 'f', 'u', 'n', '>'] := by decide

/-- A text around two places, one for a project and one for an entry function. -/
structure Wording where
  head : List Char
  middle : List Char
  tail : List Char

/-- The text with these words in its places. -/
def Wording.fill (w : Wording) (project entry : List Char) : List Char :=
  w.head ++ project ++ w.middle ++ entry ++ w.tail

/-- The text of the template around its places, which are where it has a `<`. -/
def wording (t : Template) : Wording :=
  let described := (t.body.toList.dropWhile (· ≠ '<')).drop projectPlace.length
  { head := t.body.toList.takeWhile (· ≠ '<')
    middle := described.takeWhile (· ≠ '<')
    tail := (described.dropWhile (· ≠ '<')).drop entryPlace.length }

def beforeEntry : List Char := "\nStart looking from the '".toList

def behindEntry : List Char := "' function.\n".toList

/-- The places of the text are where the wording leaves room, a line apart, and the second one is in
the line that names the entry function. -/
structure Wording.Words (w : Wording) (cs : List Char) : Prop where
  text : cs = w.fill projectPlace entryPlace
  head : '<' ∉ w.head
  middle : '<' ∉ w.middle
  tail : '<' ∉ w.tail
  feed : w.middle.head? = some '\n'
  before : beforeEntry <:+ w.middle
  behind : behindEntry <+: w.tail

instance (w : Wording) (cs : List Char) : Decidable (w.Words cs) :=
  decidable_of_iff
    (cs = w.fill projectPlace entryPlace ∧ '<' ∉ w.head ∧ '<' ∉ w.middle ∧ '<' ∉ w.tail ∧
      w.middle.head? = some '\n' ∧ beforeEntry <:+ w.middle ∧ behindEntry <+: w.tail)
    ⟨fun ⟨text, head, middle, tail, feed, before, behind⟩ =>
      ⟨text, head, middle, tail, feed, before, behind⟩,
     fun h => ⟨h.text, h.head, h.middle, h.tail, h.feed, h.before, h.behind⟩⟩

theorem wording_words (t : Template) : t.wording.Words t.body.toList := by
  unfold wording body
  cases t
  all_goals
    dsimp only
    -- Each piece as the list of its letters: to decode all the bytes again takes far too long.
    simp only [String.toList_append]
    repeat rw [String.toList_ofList]
    decide +kernel

/-! ## Filling the places -/

/-- The name and its placeholder may change their places around all that lies between the first
place in the description and the one in the text, if there are two of them. -/
def Wording.Swaps (w : Wording) (entry d : List Char) : Prop :=
  ∀ a b, d = a ++ entryPlace ++ b → ¬ entryPlace <:+: a →
    entry ++ (b ++ w.middle) ++ entryPlace = entryPlace ++ (b ++ w.middle) ++ entry

theorem Wording.fill_eq_fill_iff (w : Wording) (a b entry : List Char) :
    w.fill (a ++ entry ++ b) entryPlace = w.fill (a ++ entryPlace ++ b) entry ↔
      entry ++ (b ++ w.middle) ++ entryPlace = entryPlace ++ (b ++ w.middle) ++ entry := by
  have cut (x y : List Char) :
      w.fill (a ++ x ++ b) y = w.head ++ a ++ (x ++ (b ++ w.middle) ++ y) ++ w.tail := by
    simp only [Wording.fill, List.append_assoc]
  rw [cut, cut, List.append_left_inj, List.append_right_inj]

namespace Wording.Words

variable {w : Wording} {cs : List Char} (h : w.Words cs)
include h

theorem replaceAll_project (d : List Char) :
    replaceAll projectPlace d cs = w.fill d entryPlace := by
  have first : ¬ projectPlace <:+: w.head := fun found =>
    h.head (found.subset (by decide))
  have only : ¬ projectPlace <:+: w.middle ++ entryPlace ++ w.tail := by
    intro found
    rw [List.append_assoc, projectPlace_eq, entryPlace_eq] at found
    rcases List.infix_cons_iff.mp (infix_of_infix_append h.middle found) with here | later
    · exact absurd (List.cons_prefix_cons.mp (List.cons_prefix_cons.mp here).2).1 (by decide)
    · have absent : '<' ∉ ['f', 'u', 'n', '>'] := by decide
      exact h.tail ((infix_of_infix_append absent later).subset List.mem_cons_self)
  have cut : cs = w.head ++ projectPlace ++ (w.middle ++ entryPlace ++ w.tail) := by
    simp only [h.text, fill, List.append_assoc]
  rw [cut]
  rw [projectPlace_eq] at first only ⊢
  rw [replaceAll_of_first (by decide) first, replaceAll_of_not_infix _ only]
  simp only [fill, List.append_assoc]

/-- The head brings no place for the entry function along. -/
theorem not_infix_head_append {d : List Char} (first : ¬ entryPlace <:+: d) :
    ¬ entryPlace <:+: w.head ++ d := fun found => first (infix_of_infix_append h.head found)

/-- A description without a place of its own leaves the one of the text to the entry function. -/
theorem replaceFirst_entry {d : List Char} (none : ¬ entryPlace <:+: d) (entry : List Char) :
    replaceFirst entryPlace entry (w.fill d entryPlace) = w.fill d entry := by
  have first : ¬ entryPlace <:+: w.head ++ (d ++ w.middle) := by
    refine h.not_infix_head_append fun found => ?_
    obtain ⟨rest, middle⟩ := List.head?_eq_some_iff.mp h.feed
    rw [middle] at found
    rcases infix_or_infix_of_append_cons (by decide) found with found | found
    · exact none found
    · exact h.middle (middle ▸ List.mem_cons_of_mem _ (found.subset (by decide)))
  rw [entryPlace_eq] at first ⊢
  have filled := replaceFirst_of_first (by decide) first entry w.tail
  simpa only [fill, List.append_assoc] using filled

/-- A place in the description is filled in its stead, and the one of the text stays. -/
theorem replaceFirst_description {a : List Char} (first : ¬ entryPlace <:+: a)
    (entry b : List Char) :
    replaceFirst entryPlace entry (w.fill (a ++ entryPlace ++ b) entryPlace) =
      w.fill (a ++ entry ++ b) entryPlace := by
  have first := h.not_infix_head_append first
  rw [entryPlace_eq] at first ⊢
  have filled := replaceFirst_of_first (by decide) first entry
    (b ++ w.middle ++ entryPlace ++ w.tail)
  simpa only [fill, List.append_assoc, entryPlace_eq] using filled

/-- A name of one line and its placeholder are told apart by the line feed between them. -/
theorem swaps_iff_of_line {entry d : List Char} (line : '\n' ∉ entry) :
    w.Swaps entry d ↔ ¬ entryPlace <:+: d ∨ entry = entryPlace := by
  constructor
  · intro swap
    by_cases found : entryPlace <:+: d
    · obtain ⟨a, b, hd, first⟩ := exists_first_infix (by decide) found
      have feed : '\n' ∈ b ++ w.middle := List.mem_append_right b (List.mem_of_mem_head? h.feed)
      exact .inr (eq_of_swap line (by decide) feed (swap a b hd first))
    · exact .inl found
  · rintro (none | same) a b hd first
    · exact absurd (hd ▸ List.infix_append a entryPlace b) none
    · rw [same]

theorem entryLine_infix_fill (project entry : List Char) :
    beforeEntry ++ entry ++ behindEntry <:+: w.fill project entry := by
  obtain ⟨front, before⟩ := h.before
  obtain ⟨rest, behind⟩ := h.behind
  refine ⟨w.head ++ project ++ front, rest, ?_⟩
  simp only [fill, ← before, ← behind, List.append_assoc]

end Wording.Words

/-! ## Descriptions -/

/-- What is said about the project: the words that were given for it, without the white space around
them, or the default if there are none. -/
inductive Describes : Option String → List Char → Prop where
  | absent : Describes none defaultDescription.toList
  | blank {written : String} (blank : allBlank written.toList = true) :
      Describes (some written) defaultDescription.toList
  | given {written : String} {front d : List Char} (trimmed : Trimmed written.toList front d)
      (flush : isFlush d = true) : Describes (some written) d

theorem describes_description (project : Option String) :
    Describes project (description project) := by
  cases project with
  | none => exact .absent
  | some written =>
    cases visible : allBlank written.toList with
    | true =>
      have empty : trim written.toList = [] := by rw [trim, trimStart_of_allBlank visible]; rfl
      rw [description, empty]
      exact .blank visible
    | false =>
      have flush := isFlush_trim visible
      have present : (trim written.toList).isEmpty = false := by
        cases h : trim written.toList with
        | nil => simp [h, isFlush] at flush
        | cons c cs => rfl
      rw [description, present]
      exact .given (trimmed_trim visible) flush

/-! ## Prompts -/

/-- What the instructions of the template come to. -/
structure Instructs (t : Template) (entry d text : List Char) : Prop where
  /-- Both places are filled if the description has none for an entry function. -/
  filled : ¬ entryPlace <:+: d → text = t.wording.fill d entry
  /-- Otherwise the entry function goes into the description. -/
  misplaced : ∀ a b, d = a ++ entryPlace ++ b → ¬ entryPlace <:+: a →
    text = t.wording.fill (a ++ entry ++ b) entryPlace
  /-- The difference shows unless the swap leaves the text as it is, -/
  filled_iff : text = t.wording.fill d entry ↔ t.wording.Swaps entry d
  /-- which it does for no name of one line but the placeholder. -/
  filled_iff_of_line : '\n' ∉ entry →
    (text = t.wording.fill d entry ↔ ¬ entryPlace <:+: d ∨ entry = entryPlace)
  names : text = t.wording.fill d entry → beforeEntry ++ entry ++ behindEntry <:+: text

theorem instructs_replaceFirst (t : Template) (entry d : List Char) :
    t.Instructs entry d
      (replaceFirst "<fun>".toList entry (replaceAll "<project>".toList d t.body.toList)) := by
  have words := t.wording_words
  have described : replaceAll "<project>".toList d t.body.toList = t.wording.fill d entryPlace :=
    words.replaceAll_project d
  rw [described]
  have filled (none : ¬ entryPlace <:+: d) := words.replaceFirst_entry none entry
  have misplaced (a b) (hd : d = a ++ entryPlace ++ b) (first : ¬ entryPlace <:+: a) :
      replaceFirst entryPlace entry (t.wording.fill d entryPlace) =
        t.wording.fill (a ++ entry ++ b) entryPlace :=
    hd ▸ words.replaceFirst_description first entry b
  have filled_iff : replaceFirst entryPlace entry (t.wording.fill d entryPlace) =
      t.wording.fill d entry ↔ t.wording.Swaps entry d := by
    constructor
    · intro eq a b hd first
      rw [misplaced a b hd first, hd] at eq
      exact (t.wording.fill_eq_fill_iff a b entry).mp eq
    · intro swap
      by_cases found : entryPlace <:+: d
      · obtain ⟨a, b, hd, first⟩ := exists_first_infix (by decide) found
        rw [misplaced a b hd first, hd]
        exact (t.wording.fill_eq_fill_iff a b entry).mpr (swap a b hd first)
      · exact filled found
  exact ⟨filled, misplaced, filled_iff, fun line => filled_iff.trans (words.swaps_iff_of_line line),
    fun eq => eq ▸ words.entryLine_infix_fill d entry⟩

/-- The places of a template are filled as given, unless the description has a place for an entry
function. The texts of the flow follow, each behind a blank line. -/
theorem instructions_filled_iff (t : Template) (entry : String) (project : Option String) :
    t.body.toList = t.wording.fill projectPlace entryPlace ∧
    (∃ d, Describes project d ∧
      t.Instructs entry.toList d (t.instructions entry project).toList) ∧
    ∀ texts, (t.prompt entry project texts).toList = (t.instructions entry project).toList ++
      texts.flatMap (fun text => '\n' :: '\n' :: text.toList) ++ ['\n'] := by
  refine ⟨t.wording_words.text, ⟨description project, describes_description project, ?_⟩,
    fun texts => ?_⟩
  · rw [instructions, String.toList_ofList]
    exact t.instructs_replaceFirst entry.toList (description project)
  · simp [prompt, String.toList_join, List.flatMap_map]

/-- A description that is nothing but a place takes the name, and no line names the function. -/
theorem instructions_misplaced :
    (describeFlow.instructions "run" (some "<fun>")).toList ≠
      describeFlow.wording.fill "<fun>".toList "run".toList ∧
    ¬ beforeEntry ++ "run".toList ++ behindEntry <:+:
      (describeFlow.instructions "run" (some "<fun>")).toList := by
  rw [instructions, String.toList_ofList]
  unfold wording body
  dsimp only
  simp only [String.toList_append]
  repeat rw [String.toList_ofList]
  decide +kernel

end Template

end CallFlow
