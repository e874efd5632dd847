import CallFlow.Proofs.Directory.Discovery

/-! Extensions that are asked for, from the option they are written in to the files that are found.
The option is put into lower case, letters beyond ASCII included, but file names are compared up to
the case of ASCII letters only. Main statement: a file is found if its extension has no capitals
beyond ASCII and has the lower case of one that is asked for. If there are no such capitals in what
is asked for, these are the files that have one of the extensions. Otherwise a file with the very
extension that is asked for is missed. -/

namespace CallFlow

namespace Text

theorem dropWhile_append_eq {p : Char → Bool} {front rest : List Char}
    (passed : ∀ c ∈ front, p c = true) (stop : ∀ c ∈ rest.head?, p c = false) :
    (front ++ rest).dropWhile p = rest := by
  rw [List.dropWhile_append_of_pos passed]
  cases rest with
  | nil => rfl
  | cons c rest => exact List.dropWhile_cons_of_neg (by simp [stop c rfl])

/-- White space around a text without any is taken off. -/
theorem trim_append {front core back : List Char} (hf : allBlank front = true)
    (visible : ∀ c ∈ core, isBlank c = false) (hb : allBlank back = true) (present : core ≠ []) :
    trim (front ++ core ++ back) = core := by
  obtain ⟨c, rest, eq⟩ := List.exists_cons_of_ne_nil present
  have start : trimStart (front ++ core ++ back) = core ++ back := by
    rw [List.append_assoc]
    refine dropWhile_append_eq (List.all_eq_true.mp hf) fun d hd => visible d ?_
    rw [eq, List.cons_append, List.head?_cons, Option.mem_some_iff] at hd
    exact eq ▸ hd ▸ List.mem_cons_self
  have behind : ∀ d ∈ back.reverse, isBlank d = true := fun d hd =>
    List.all_eq_true.mp hb d (List.mem_reverse.mp hd)
  rw [trim, start, trimEnd, List.reverse_append, dropWhile_append_eq behind, List.reverse_reverse]
  intro d hd
  exact visible d (List.mem_reverse.mp (List.mem_of_mem_head? hd))

def lowered (x : String) : String := String.ofList (lower x.toList)

end Text

/-! ## The option -/

/-- An extension as it stands in the option: behind dots, and with white space around. -/
structure WrittenExtension where
  before : List Char
  dots : Nat
  ext : String
  after : List Char
  before_blank : Text.allBlank before = true
  after_blank : Text.allBlank after = true
  nonempty : ext ≠ ""
  clear : ∀ c ∈ ext.toList, c ≠ ',' ∧ c ≠ '.' ∧ Text.isBlank c = false

namespace WrittenExtension

open Text

def text (w : WrittenExtension) : List Char :=
  w.before ++ (List.replicate w.dots '.' ++ w.ext.toList) ++ w.after

/-- The option, with commas between the extensions. -/
def option (ws : List WrittenExtension) : String :=
  String.ofList ([','].intercalate (ws.map text))

/-- What is asked for: the extensions that are written, or the usual ones if none is. -/
def asked : List WrittenExtension → List String
  | [] => defaultExtensions
  | ws => ws.map ext

variable (w : WrittenExtension)

theorem toList_ne_nil : w.ext.toList ≠ [] := by
  intro h
  exact w.nonempty (String.toList_eq_nil_iff.mp h)

theorem not_mem_text : ',' ∉ w.text := by
  have blank (cs : List Char) (h : allBlank cs = true) : ',' ∉ cs := fun hc =>
    absurd (List.all_eq_true.mp h ',' hc) (by decide)
  have dotted : ',' ∉ List.replicate w.dots '.' := fun hc =>
    absurd (List.eq_of_mem_replicate hc) (by decide)
  simp only [text, List.mem_append, not_or]
  exact ⟨⟨blank _ w.before_blank, dotted, fun hc => (w.clear ',' hc).1 rfl⟩,
    blank _ w.after_blank⟩

theorem trim_text : trim w.text = List.replicate w.dots '.' ++ w.ext.toList := by
  refine trim_append w.before_blank (fun c hc => ?_) w.after_blank ?_
  · rcases List.mem_append.mp hc with hc | hc
    · rw [List.eq_of_mem_replicate hc]
      decide
    · exact (w.clear c hc).2.2
  · exact List.append_ne_nil_of_right_ne_nil _ w.toList_ne_nil

theorem dropWhile_trim_text : (trim w.text).dropWhile (· = '.') = w.ext.toList := by
  rw [trim_text]
  refine dropWhile_append_eq (fun c hc => ?_) fun c hc => ?_
  · simpa using List.eq_of_mem_replicate hc
  · simpa using (w.clear c (List.mem_of_mem_head? hc)).2.1

/-- An option gives the extensions asked for, in lower case. -/
theorem readExtensions_option : ∀ ws : List WrittenExtension,
    readExtensions (option ws) = (asked ws).map lowered
  | [] => by decide +kernel
  | w :: ws => by
    have pieces : (option (w :: ws)).toList.splitOn ',' = (w :: ws).map text := by
      rw [option, String.toList_ofList, List.splitOn_intercalate]
      · exact List.forall_mem_map.mpr fun v _ => v.not_mem_text
      · simp
    have kept : ((w :: ws).map fun v => lower v.ext.toList).filter (fun piece => !piece.isEmpty) =
        (w :: ws).map fun v => lower v.ext.toList := by
      refine List.filter_eq_self.mpr (List.forall_mem_map.mpr fun v _ => ?_)
      simpa using lower_ne_nil v.toList_ne_nil
    simp only [readExtensions, pieces, List.map_map, Function.comp_def, dropWhile_trim_text, kept]
    simp [asked, lowered]

end WrittenExtension

/-! ## The files -/

namespace Path

open Text

variable {path : Path} {extensions : List String}

theorem EndsIn.unique {a b : List Char} (ha : path.EndsIn a) (hb : path.EndsIn b) : a = b :=
  Option.some.inj
    ((bind_extension?_eq_some_iff.mpr ha).symm.trans (bind_extension?_eq_some_iff.mpr hb))

theorem hasExtension_lowered : path.HasExtension (extensions.map lowered) ↔
    ∃ ext, path.EndsIn ext ∧ ∃ x ∈ extensions, List.Forall₂ SameLetter (lower x.toList) ext := by
  simp [HasExtension, lowered]

theorem hasExtension_lowered_iff : path.HasExtension (extensions.map lowered) ↔
    ∃ ext, path.EndsIn ext ∧ PlainCase ext ∧ ∃ x ∈ extensions, lower x.toList = lower ext := by
  simp only [hasExtension_lowered, sameLetters_lower_iff]
  constructor
  · intro h
    obtain ⟨ext, ends, x, hx, plain, same⟩ := h
    exact ⟨ext, ends, plain, x, hx, same⟩
  · intro h
    obtain ⟨ext, ends, plain, x, hx, same⟩ := h
    exact ⟨ext, ends, x, hx, plain, same⟩

theorem hasExtension_lowered_of_plainCase (h : ∀ x ∈ extensions, PlainCase x.toList) :
    path.HasExtension (extensions.map lowered) ↔ path.HasExtension extensions := by
  rw [hasExtension_lowered]
  refine exists_congr fun ext => and_congr_right fun _ => exists_congr fun x => ?_
  exact and_congr_right fun hx => sameLetters_lower_of_plainCase (h x hx)

theorem hasExtension_lowered_of_endsIn {x : String} (hx : x ∈ extensions)
    (ends : path.EndsIn x.toList) :
    path.HasExtension (extensions.map lowered) ↔ PlainCase x.toList := by
  rw [hasExtension_lowered_iff]
  constructor
  · intro h
    obtain ⟨ext, ends', plain, _⟩ := h
    exact ends'.unique ends ▸ plain
  · exact fun plain => ⟨x.toList, ends, plain, x, hx, rfl⟩

end Path

/-- A file is found if its extension has no capitals beyond ASCII and the lower case of one that is
asked for. That is the same as having one of the extensions, up to the case of ASCII letters, unless
one of them has such capitals, and then the files that have exactly this one are missed. -/
theorem Directory.discover_written (d : Directory) (ws : List WrittenExtension)
    (f : Path × Document) (hf : f ∈ d.files) :
    let asked := WrittenExtension.asked ws
    let found := f ∈ d.discover (readExtensions (WrittenExtension.option ws))
    (found ↔ ∃ ext, f.1.EndsIn ext ∧ Text.PlainCase ext ∧
      ∃ x ∈ asked, Text.lower x.toList = Text.lower ext) ∧
    ((∀ x ∈ asked, Text.PlainCase x.toList) → (found ↔ f.1.HasExtension asked)) ∧
    ∀ x ∈ asked, f.1.EndsIn x.toList → (found ↔ Text.PlainCase x.toList) := by
  intro asked found
  have selected : found ↔ f.1.HasExtension (asked.map Text.lowered) := by
    rw [← WrittenExtension.readExtensions_option]
    exact mem_discover.trans (and_iff_right hf)
  refine ⟨selected.trans Path.hasExtension_lowered_iff, fun plain => ?_, fun x hx ends => ?_⟩
  · exact selected.trans (Path.hasExtension_lowered_of_plainCase plain)
  · exact selected.trans (Path.hasExtension_lowered_of_endsIn hx ends)

namespace Sample

def unread (path : String) : Path × Document := (Path.ofWritten path, ⟨.ok [], none⟩)

/-- Files whose extensions have capitals of both kinds. -/
def accents : Directory := ⟨"/src", ["a.É", "b.é", "c.Kt"].map unread⟩

theorem mem_accents {path : String} (h : path ∈ ["a.É", "b.é", "c.Kt"]) :
    unread path ∈ accents.files :=
  List.mem_map_of_mem h

theorem endsIn_capital : (unread "a.É").1.EndsIn "É".toList :=
  bind_extension?_eq_some_iff.mp (by decide +kernel)

/-- The option `É`. -/
def capital : WrittenExtension where
  before := []
  dots := 0
  ext := "É"
  after := []
  before_blank := rfl
  after_blank := rfl
  nonempty := by decide
  clear := List.forall_mem_singleton.mpr (by decide)

/-- The option ` ..KT` with a tab behind it. -/
def spaced : WrittenExtension where
  before := [' ']
  dots := 2
  ext := "KT"
  after := ['\t']
  before_blank := rfl
  after_blank := rfl
  nonempty := by decide
  clear := List.forall_mem_cons.mpr ⟨by decide, List.forall_mem_singleton.mpr (by decide)⟩

end Sample

open Sample WrittenExtension

/-- Only the extension without an accent finds the file that has it. -/
theorem Directory.discover_written_accents :
    (unread "c.Kt" ∈ accents.files ∧ (∀ x ∈ asked [spaced], Text.PlainCase x.toList) ∧
      unread "c.Kt" ∈ accents.discover (readExtensions (option [spaced]))) ∧
    unread "a.É" ∈ accents.files ∧ (unread "a.É").1.EndsIn "É".toList ∧
      unread "a.É" ∉ accents.discover (readExtensions (option [spaced, capital])) := by
  have plain : ∀ x ∈ asked [spaced], Text.PlainCase x.toList := by decide +kernel
  have hf : unread "c.Kt" ∈ accents.files := mem_accents (by decide)
  have hf' : unread "a.É" ∈ accents.files := mem_accents (by decide)
  refine ⟨⟨hf, plain, ?_⟩, hf', endsIn_capital, ?_⟩
  · rw [(discover_written accents [spaced] _ hf).2.1 plain, ← isSource_iff]
    decide +kernel
  · have hx : "É" ∈ asked [spaced, capital] := by decide
    rw [(discover_written accents [spaced, capital] _ hf').2.2 "É" hx endsIn_capital]
    decide +kernel

/-- A file that has exactly the extension asked for is not found. -/
theorem Directory.discover_misses_capital :
    option [capital] = "É" ∧ unread "a.É" ∈ accents.files ∧
    (unread "a.É").1.EndsIn capital.ext.toList ∧ (unread "a.É").1.HasExtension [capital.ext] ∧
    unread "a.É" ∉ accents.discover (readExtensions (option [capital])) := by
  refine ⟨by decide +kernel, mem_accents (by decide), endsIn_capital, ?_, fun found => ?_⟩
  · exact isSource_iff.mp (by decide +kernel)
  · exact absurd (isSource_iff.mpr (mem_discover.mp found).2) (by decide +kernel)

end CallFlow
