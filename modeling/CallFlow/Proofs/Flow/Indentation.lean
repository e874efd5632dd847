import CallFlow.Flow.Trace
import CallFlow.Proofs.Distinct
import CallFlow.Proofs.Outline.DocComments
import CallFlow.Proofs.Outline.Fitting
import CallFlow.Proofs.Project.Built
import CallFlow.Proofs.Text.Dedent

/-! Declarations that are moved in. A block of lines stands in a source with spaces and tabs in
front of each of its lines that is not blank. Main statement: it is rendered as if it stood at
column zero, so functions that differ in their place only have one text and make one entry of a
flow. -/

namespace CallFlow

namespace Text

/-! ## Blocks that are moved in -/

/-- A line behind `w`; a blank one stays as it is. -/
def indentLine (w l : List Char) : List Char := if allBlank l = true then l else w ++ l

/-- A text with each line moved in by `w`. -/
def indentBy (w t : List Char) : List Char := unlines ((t.splitOn '\n').map (indentLine w))

variable {w t l : List Char}

theorem indentLine_of_visible (h : allBlank l = false) : indentLine w l = w ++ l :=
  if_neg (by simp [h])

theorem indentLine_of_blank (h : allBlank l = true) : indentLine w l = l := if_pos h

theorem allBlank_chomp (l : List Char) : allBlank (chomp l) = allBlank l := by
  unfold chomp
  split
  · rename_i last
    conv_rhs => rw [← List.dropLast_append_getLast? '\r' last]
    simp [allBlank, isBlank]
  · rfl

theorem chomp_indentLine (w l : List Char) : chomp (indentLine w l) = indentLine w (chomp l) := by
  cases blank : allBlank l with
  | true => rw [indentLine_of_blank blank, indentLine_of_blank (by rw [allBlank_chomp, blank])]
  | false =>
    have present : l ≠ [] := fun none => by simp [none, allBlank] at blank
    rw [indentLine_of_visible blank, indentLine_of_visible (by rw [allBlank_chomp, blank]),
      chomp_append w present]

theorem indentLine_eq_nil_iff : indentLine w l = [] ↔ l = [] := by
  cases blank : allBlank l with
  | true => rw [indentLine_of_blank blank]
  | false =>
    have present : l ≠ [] := fun none => by simp [none, allBlank] at blank
    simp [indentLine_of_visible blank, present]

theorem not_mem_indentLine (hw : '\n' ∉ w) (hl : '\n' ∉ l) : '\n' ∉ indentLine w l := by
  unfold indentLine
  split
  · exact hl
  · simp [hw, hl]

/-- Moving in keeps the cut into lines. -/
theorem lines_unlines_indentLine (hw : '\n' ∉ w) : ∀ {ls : List (List Char)},
    (∀ l ∈ ls, '\n' ∉ l) →
      lines (unlines (ls.map (indentLine w))) = (lines (unlines ls)).map (indentLine w)
  | [], _ => rfl
  | [l], single => by
    have one := single l List.mem_cons_self
    rw [List.map_singleton, unlines_singleton, unlines_singleton, lines_of_not_mem one,
      lines_of_not_mem (not_mem_indentLine hw one)]
    simp only [indentLine_eq_nil_iff]
    split <;> rfl
  | l :: m :: ls, single => by
    obtain ⟨one, others⟩ := List.forall_mem_cons.mp single
    have rest := lines_unlines_indentLine hw others
    rw [List.map_cons] at rest
    rw [List.map_cons, List.map_cons, unlines_cons_cons, unlines_cons_cons,
      lines_append_feed _ one, lines_append_feed _ (not_mem_indentLine hw one), rest,
      chomp_indentLine, List.map_cons]

theorem not_mem_of_mem_splitOn {c : Char} : ∀ {cs l : List Char}, l ∈ cs.splitOn c → c ∉ l
  | [], l, h => by
    rw [List.splitOn_nil, List.mem_singleton] at h
    simp [h]
  | d :: cs, l, h => by
    rw [List.splitOn_cons_eq_if_modifyHead] at h
    obtain ⟨first, rest, eq⟩ := List.exists_cons_of_ne_nil (List.splitOn_ne_nil c cs)
    have later {m : List Char} (hm : m ∈ first :: rest) : c ∉ m :=
      not_mem_of_mem_splitOn (by rwa [eq])
    rw [eq] at h
    split at h
    · rcases List.mem_cons.mp h with rfl | h
      · simp
      · exact later h
    · rename_i other
      rcases List.mem_cons.mp h with rfl | h
      · have other : c ≠ d := fun he => other (by simp [he])
        simpa [other] using later List.mem_cons_self
      · exact later (List.mem_cons_of_mem first h)

theorem lines_indentBy (hw : '\n' ∉ w) (t : List Char) :
    lines (indentBy w t) = (lines t).map (indentLine w) := by
  rw [indentBy, lines_unlines_indentLine hw fun l hl => not_mem_of_mem_splitOn hl, unlines,
    List.intercalate_splitOn]

theorem ne_feed_of_isFlush {c : Char} {cs : List Char} (flush : isFlush (c :: cs) = true) :
    c ≠ '\n' := by
  rintro rfl
  cases flush

theorem exists_indentBy_eq (w : List Char) (flush : isFlush t = true) :
    ∃ rest, indentBy w t = w ++ rest := by
  cases t with
  | nil => cases flush
  | cons c cs =>
    obtain ⟨first, others, eq⟩ := List.exists_cons_of_ne_nil (List.splitOn_ne_nil '\n' cs)
    have visible : allBlank (c :: first) = false := allBlank_of_isFlush flush
    rw [indentBy, List.splitOn_cons_eq_if_modifyHead,
      if_neg (by simpa using ne_feed_of_isFlush flush), eq, List.modifyHead_cons, List.map_cons,
      indentLine_of_visible visible]
    cases others with
    | nil => exact ⟨c :: first, by rw [List.map_nil, unlines_singleton]⟩
    | cons l ls => exact ⟨_, by rw [List.map_cons, unlines_cons_cons, List.append_assoc]⟩

/-- The first line of a text that starts at column zero does so too. -/
theorem exists_lines_eq (flush : isFlush t = true) :
    ∃ first rest, lines t = first :: rest ∧ isFlush first = true := by
  cases t with
  | nil => cases flush
  | cons c cs =>
    rw [lines]
    · split
      · exact ⟨[c], [], rfl, flush⟩
      · rename_i l ls _
        exact ⟨c :: l, ls, rfl, flush⟩
    · exact ne_feed_of_isFlush flush
    · rintro _ rfl
      cases flush

theorem dedent_of_isFlush (flush : isFlush t = true) :
    dedent t = unlines ((lines t).map trimEnd) := by
  obtain ⟨first, rest, eq, start⟩ := exists_lines_eq flush
  have zero := commonIndent_of_isFlush (eq ▸ List.mem_cons_self) start
  rw [dedent, zero]
  simp only [funext outdent_zero]

theorem commonIndent_indentLine {ls : List (List Char)} (hw : allBlank w = true)
    (hl : l ∈ ls) (flush : isFlush l = true) :
    commonIndent (ls.map (indentLine w)) = width w := by
  have visible {m : List Char} (hm : allBlank m = false) : allBlank (indentLine w m) = false := by
    rw [indentLine_of_visible hm]
    exact Bool.eq_false_iff.mpr fun all => by simp [(allBlank_append.mp all).2] at hm
  have moved {m : List Char} (hm : allBlank m = false) :
      indent (indentLine w m) = width w + indent m := by
    rw [indentLine_of_visible hm, indent_append hw]
  have hv := allBlank_of_isFlush flush
  refine (isLeast_commonIndent ⟨_, List.mem_map_of_mem hl, visible hv⟩).unique ⟨?_, ?_⟩
  · exact ⟨_, List.mem_map_of_mem hl, visible hv, by rw [moved hv, indent_of_isFlush flush]; rfl⟩
  · rintro n ⟨_, hm, hvm, rfl⟩
    obtain ⟨m, hm, rfl⟩ := List.mem_map.mp hm
    cases blank : allBlank m with
    | true => rw [indentLine_of_blank blank, blank] at hvm; cases hvm
    | false => rw [moved blank]; exact Nat.le_add_right _ _

theorem outdent_indentLine (w l : List Char) : outdent (width w) (indentLine w l) = trimEnd l := by
  cases blank : allBlank l with
  | true =>
    rw [indentLine_of_blank blank, outdent_of_allBlank blank, trimEnd_eq_nil_iff.mpr blank]
  | false =>
    have visible : ¬ allBlank (w ++ l) = true := fun all => by
      simp [(allBlank_append.mp all).2] at blank
    rw [indentLine_of_visible blank, outdent, if_neg visible, splitAt?_width]

theorem dedent_indentBy (hw : allBlank w = true) (one : '\n' ∉ w) (flush : isFlush t = true) :
    dedent (indentBy w t) = dedent t := by
  obtain ⟨first, rest, eq, start⟩ := exists_lines_eq flush
  have common := commonIndent_indentLine hw (eq ▸ List.mem_cons_self) start
  rw [dedent, lines_indentBy one, common, dedent_of_isFlush flush, List.map_map]
  congr 2
  exact funext (outdent_indentLine w)

end Text

/-! ## Ranges of such blocks -/

open Text (isFlush indentBy)

/-- The text `t` stands in the source, on lines of its own that are moved in by `w`, and the range
goes from behind the first `w` to the end of the last line. -/
structure Span.Sets (source : List Char) (span : Span) (w t : List Char) : Prop where
  indent : ∀ c ∈ w, c = ' ' ∨ c = '\t'
  flush : isFlush t = true
  place : ∃ before after, (before = [] ∨ ∃ lines, before = lines ++ ['\n']) ∧
    source = before ++ indentBy w t ++ after ∧
    span = ⟨Text.width (before ++ w), Text.width (before ++ indentBy w t)⟩

theorem padding_of_indent {w : List Char} (h : ∀ c ∈ w, c = ' ' ∨ c = '\t') : padding w = w := by
  unfold padding
  conv_rhs => rw [← List.map_id w]
  refine List.map_congr_left fun c hc => ?_
  rcases h c hc with rfl | rfl <;> rfl

theorem Span.Sets.render {source w t : List Char} {span : Span} (h : span.Sets source w t) :
    renderSpan source span = .ok (Text.dedent t) := by
  have blank : Text.allBlank w = true := by
    refine List.all_eq_true.mpr fun c hc => ?_
    rcases h.indent c hc with rfl | rfl <;> rfl
  have one : '\n' ∉ w := fun hc => by simpa using h.indent _ hc
  obtain ⟨before, after, whole, rfl, rfl⟩ := h.place
  obtain ⟨rest, eq⟩ := Text.exists_indentBy_eq w h.flush
  have source : before ++ indentBy w t ++ after = before ++ w ++ rest ++ after := by simp [eq]
  have stop : Text.width (before ++ w ++ rest) = Text.width (before ++ indentBy w t) := by simp [eq]
  rw [source, Span.renderSpan_eq rfl stop, Text.lastLine_append whole one,
    padding_of_indent h.indent, ← eq, Text.dedent_indentBy blank one h.flush]

namespace Project

variable {p : Project} {i : FunctionId} {doc : Option (List Char)} {t : List Char}

/-- The function is declared by the text `t`, behind documentation `doc` if there is any, both on
lines that are moved in. -/
def DeclaredBy (p : Project) (i : FunctionId) (doc : Option (List Char)) (t : List Char) : Prop :=
  ∃ f s w, p.functions[i]? = some f ∧ p.files[f.file]? = some s ∧
    f.span.Sets s.source.toList w t ∧
    Option.Rel (fun span d => Span.Sets s.source.toList span w d) f.doc doc

/-- The text of a function that stands at column zero. -/
def flushText (doc : Option (List Char)) (t : List Char) : String :=
  match doc with
  | none => String.ofList (Text.dedent t)
  | some d => String.ofList (Text.dedent d ++ '\n' :: Text.dedent t)

theorem DeclaredBy.render (h : p.DeclaredBy i doc t) : p.render i = .ok (flushText doc t) := by
  obtain ⟨f, s, w, hf, hs, body, docs⟩ := h
  refine bind_eq_ok.mpr ⟨f, function_eq_ok.mpr hf, bind_eq_ok.mpr ⟨s, file_eq_ok.mpr hs, ?_⟩⟩
  refine bind_eq_ok.mpr ⟨_, body.render, ?_⟩
  generalize f.doc = documented at docs
  cases docs with
  | none => rfl
  | some sets => exact bind_eq_ok.mpr ⟨_, sets.render, rfl⟩

theorem render_of_flowEntry {e : FlowEntry} (he : p.flowEntry i = .ok e) :
    p.render i = .ok e.text := by
  obtain ⟨f, _, he⟩ := bind_eq_ok.mp he
  obtain ⟨owner, _, he⟩ := bind_eq_ok.mp he
  obtain ⟨file, _, he⟩ := bind_eq_ok.mp he
  obtain ⟨rendered, same, he⟩ := bind_eq_ok.mp he
  cases he
  exact same

theorem text_of_flowEntry {text : String} {e : FlowEntry} (hr : p.render i = .ok text)
    (he : p.flowEntry i = .ok e) : e.text = text :=
  Except.ok.inj ((render_of_flowEntry he).symm.trans hr)

/-- Of the visits to functions with one text a flow without repeats keeps one. -/
theorem count_text_entries {tr : Trace} {all : List FlowEntry} {text : String}
    (hi : i ∈ tr.functions) (hr : p.render i = .ok text) (entries : tr.entries p false = .ok all) :
    ∃ kept, tr.entries p true = .ok kept ∧ (kept.map FlowEntry.text).count text = 1 := by
  obtain ⟨listed, visits, same⟩ := bind_eq_ok.mp entries
  cases same
  refine ⟨distinct FlowEntry.text listed, bind_eq_ok.mpr ⟨listed, visits, rfl⟩, ?_⟩
  obtain ⟨e, he, found⟩ := exists_of_mapM_eq_ok visits i hi
  exact count_keys_distinct _ (List.mem_map.mpr ⟨e, he, text_of_flowEntry hr found⟩)

/-- Where a declaration is moved in, it is rendered as at column zero, so that two functions that
are declared by one text are rendered alike and make one entry of a flow without repeats. -/
theorem render_ignores_indent :
    (∀ (source : List Char) (span : Span) (w t : List Char), span.Sets source w t →
      renderSpan source span = .ok (Text.dedent t) ∧
        Text.dedent t = Text.unlines ((Text.lines t).map Text.trimEnd)) ∧
    ∀ (p : Project) (i j : FunctionId) (doc : Option (List Char)) (t : List Char),
      p.DeclaredBy i doc t → p.DeclaredBy j doc t →
        ∃ text, p.render i = .ok text ∧ p.render j = .ok text ∧
          ∀ (tr : Trace) (all : List FlowEntry), i ∈ tr.functions → j ∈ tr.functions →
            tr.entries p false = .ok all →
              ∃ kept, tr.entries p true = .ok kept ∧
                (kept.map FlowEntry.text).count text = 1 := by
  refine ⟨fun source span w t sets => ⟨sets.render, Text.dedent_of_isFlush sets.flush⟩, ?_⟩
  intro p i j doc t hi hj
  refine ⟨flushText doc t, hi.render, hj.render, fun tr all visited _ entries => ?_⟩
  exact count_text_entries visited hi.render entries

end Project

/-! ## Two overloads -/

namespace Sample

/-- A function that calls two others of one name, which are the same up to their indent. -/
def overloads : Source where
  path := "Overloads.kt"
  text := "fun e() \x7b g() \x7d\n" ++ "// g\n" ++ "fun g() \x7b\n" ++ "  x()\n" ++ "\x7d\n" ++
    "  // g\n" ++ "  fun g() \x7b\n" ++ "    x()\n" ++ "  \x7d\n"
  tree := some (node "source_file" 0 70
    [function 0 15 [10], node "line_comment" 16 20 [], function 21 38 [33],
      node "line_comment" 41 45 [], function 48 69 [62]])

def overloaded : Project := (Project.empty ".").offer overloads

def overload : List Char := "fun g() \x7b\n  x()\n\x7d".toList

theorem declaredBy_overload (i : FunctionId) (w : List Char) (span doc : Span)
    (placed : (overloaded.functions[i]?.map fun f => (f.file, f.span, f.doc)) =
      some (0, span, some doc))
    (declaration : span.Sets overloads.text.toList w overload)
    (comment : doc.Sets overloads.text.toList w "// g".toList) :
    overloaded.DeclaredBy i (some "// g".toList) overload := by
  obtain ⟨f, hf, fields⟩ := Option.map_eq_some_iff.mp placed
  obtain ⟨file, rest⟩ := Prod.mk.inj fields
  obtain ⟨rfl, documented⟩ := Prod.mk.inj rest
  have read : overloaded.files[0]?.map SourceFile.source = some overloads.text := by decide +kernel
  obtain ⟨s, hs, text⟩ := Option.map_eq_some_iff.mp read
  refine ⟨f, s, w, hf, file ▸ hs, text ▸ declaration, ?_⟩
  rw [documented, text]
  exact .some comment

end Sample

namespace Project

open Sample (overloads overloaded overload)

theorem render_ignores_indent_overloads :
    ∃ text, overloaded.render 1 = .ok text ∧ overloaded.render 2 = .ok text ∧
      ∃ tr kept, overloaded.trace 0 none = .ok tr ∧ tr.functions = [0, 1, 2] ∧
        tr.entries overloaded true = .ok kept ∧ (kept.map FlowEntry.text).count text = 1 := by
  let front (n : Nat) : List Char := overloads.text.toList.take n
  let back (n : Nat) : List Char := overloads.text.toList.drop n
  have first : overloaded.DeclaredBy 1 (some "// g".toList) overload :=
    Sample.declaredBy_overload 1 [] ⟨21, 38⟩ ⟨16, 20⟩ (by decide +kernel)
      ⟨by simp, by decide, front 21, back 38, .inr ⟨front 20, by decide⟩, by decide, by decide⟩
      ⟨by simp, by decide, front 16, back 20, .inr ⟨front 15, by decide⟩, by decide, by decide⟩
  have second : overloaded.DeclaredBy 2 (some "// g".toList) overload :=
    Sample.declaredBy_overload 2 "  ".toList ⟨48, 69⟩ ⟨41, 45⟩ (by decide +kernel)
      ⟨by simp, by decide, front 46, back 69, .inr ⟨front 45, by decide⟩, by decide, by decide⟩
      ⟨by simp, by decide, front 39, back 45, .inr ⟨front 38, by decide⟩, by decide, by decide⟩
  obtain ⟨text, hfirst, hsecond, once⟩ := render_ignores_indent.2 _ _ _ _ _ first second
  refine ⟨text, hfirst, hsecond, ?_⟩
  have run : Trace.functions <$> overloaded.trace 0 none = .ok [0, 1, 2] := by decide +kernel
  obtain ⟨tr, trace, visited⟩ := map_eq_ok.mp run
  have listed : Succeeds (tr.entries overloaded false) := by
    have all : ∀ i ∈ [0, 1, 2], (overloaded.flowEntry i).isOk = true := by decide +kernel
    refine (Succeeds.mapM_iff.mpr fun i hi => .of_isOk (all i ?_)).bind fun _ => .pure _
    rwa [visited] at hi
  obtain ⟨all, entries⟩ := listed
  obtain ⟨kept, rest⟩ := once tr all (by simp [visited]) (by simp [visited]) entries
  exact ⟨tr, kept, trace, visited, rest⟩

end Project

end CallFlow
