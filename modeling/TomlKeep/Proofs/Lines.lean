/-
# Lines and the text that they make up

`lines` cuts a text into physical lines, and `Line.chars` writes a line out again.  `flatten_lines`
is one half of "these are inverse"; this module gives the other half.  A list of lines is the list
of lines of the text that it makes up (`lines_flatten`), provided that

* no content holds a line feed, and none ends in a carriage return that the line end would take
  over (`Line.Proper`);
* only the last line is without an end, and then it is not empty (`ProperLines`).

Cutting a text yields such a list (`properLines_lines`), so the two conditions say exactly which
lists of lines are the lines of a text.
-/
import Mathlib
import TomlKeep.Text.Lines

namespace TomlKeep.Text

/-! ## 1. Proper lines

Two things can go wrong when lines are written out and cut again.  A content may hold a line feed,
or end in the carriage return that a line feed behind it would take over; and a line without an end
runs into the next one.  The first is a fault of one line (`Line.Proper`), the second of two that
stand side by side (`ProperLines`).
-/

/-- A line as it comes out of a text. -/
structure Line.Proper (line : Line) : Prop where
  noFeed : '\n' ∉ line.content
  noReturn : line.ending = .lf → line.content.getLast? ≠ some '\r'
  nonempty : line.ending = .none → line.content ≠ []

/-- **Lines of a text.**  Each of them is proper, and only the last may lack an end. -/
def ProperLines : List Line → Prop
  | [] => True
  | line :: rest => line.Proper ∧ (line.ending = .none → rest = []) ∧ ProperLines rest

/-- Every line has an end, so that more text may follow. -/
def Ended (ls : List Line) : Prop := ∀ line ∈ ls, line.ending ≠ .none

/-- Whether text may follow the lines: all of them have an end, or there is nothing to follow. -/
def Joins {α : Type} (ls : List Line) (rest : List α) : Prop := Ended ls ∨ rest = []

/-- No lines at all may be followed by anything. -/
theorem ended_nil : Ended [] := fun _ h => absurd h (by simp)

@[simp] theorem ended_cons {line : Line} {ls : List Line} :
    Ended (line :: ls) ↔ line.ending ≠ .none ∧ Ended ls := by
  simp [Ended]

@[simp] theorem ended_append {as bs : List Line} : Ended (as ++ bs) ↔ Ended as ∧ Ended bs := by
  simp only [Ended, List.mem_append]
  exact ⟨fun h => ⟨fun l hl => h l (.inl hl), fun l hl => h l (.inr hl)⟩,
    fun h l hl => hl.elim (h.1 l) (h.2 l)⟩

/-- The lines of a text but for the first are lines of a text, and so are those from any place on
and up to any place. -/
theorem ProperLines.tail {line : Line} {rest : List Line} (h : ProperLines (line :: rest)) :
    ProperLines rest := h.2.2

theorem ProperLines.right : ∀ {as bs : List Line}, ProperLines (as ++ bs) → ProperLines bs
  | [], _, h => h
  | _ :: _, _, h => ProperLines.right h.2.2

theorem ProperLines.left : ∀ {as bs : List Line}, ProperLines (as ++ bs) → ProperLines as
  | [], _, _ => trivial
  | _ :: _, _, h => ⟨h.1, fun he => (List.append_eq_nil_iff.mp (h.2.1 he)).1, h.2.2.left⟩

/-- What is followed by a line has an end. -/
theorem ProperLines.ended_left : ∀ {as : List Line} {line : Line} {bs : List Line},
    ProperLines (as ++ line :: bs) → Ended as
  | [], _, _, _ => ended_nil
  | a :: as, line, bs, h => by
    refine ended_cons.mpr ⟨fun he => ?_, h.2.2.ended_left⟩
    exact absurd (h.2.1 he) (by simp)

/-- Proper lists of lines may be joined if the first may be followed. -/
theorem ProperLines.append : ∀ {as bs : List Line}, ProperLines as → ProperLines bs →
    Joins as bs → ProperLines (as ++ bs)
  | [], _, _, hb, _ => hb
  | a :: as, bs, ha, hb, hj => by
    refine ⟨ha.1, fun he => ?_, ha.2.2.append hb (hj.imp (fun h => (ended_cons.mp h).2) id)⟩
    -- only the last of the first lines can lack an end, and then nothing follows it
    rcases hj with h | rfl
    · exact absurd he (ended_cons.mp h).1
    · simpa using ha.2.1 he

/-! ## 2. Writing lines out and cutting the text again

The text is cut at the first line feed, character by character, and the end of a line is read from
one or two characters.  So the induction is on the content of a line; a carriage return in it is the
one character whose reading depends on the next.
-/

/-- A character that is not part of a line end belongs to the first line of what follows it. -/
theorem lines_cons_of_ne {c : Char} {text : List Char} (hc : c ≠ '\n')
    (hr : c = '\r' → text.head? ≠ some '\n') : lines (c :: text) = pushFront c (lines text) := by
  rw [lines.eq_def]
  split
  · simp_all
  · simp_all
  · simp_all
  · simp_all

/-- A line with an end is cut off where it ends. -/
theorem lines_chars_append {line : Line} (h : line.Proper) (he : line.ending ≠ .none)
    (rest : List Char) : lines (line.chars ++ rest) = line :: lines rest := by
  obtain ⟨content, ending⟩ := line
  induction content with
  | nil => cases ending <;> simp_all [Line.chars, LineEnd.chars, lines]
  | cons c cs ih =>
    have hc : c ≠ '\n' := fun e => h.noFeed (by simp [e])
    have hcs : '\n' ∉ cs := fun m => h.noFeed (List.mem_cons_of_mem _ m)
    -- the content behind its first character keeps its last one, unless that was the only one
    have tail : (Line.mk cs ending).Proper := by
      refine ⟨hcs, fun hlf => ?_, fun hn => absurd hn he⟩
      have := h.noReturn hlf
      cases cs with
      | nil => simp
      | cons d ds => simpa [List.getLast?_cons_cons] using this
    -- a carriage return is part of a line end only in front of a line feed, and here is none
    have hr : c = '\r' → (cs ++ ending.chars ++ rest).head? ≠ some '\n' := by
      rintro rfl
      cases cs with
      | nil => cases ending with
        | lf => exact absurd rfl (h.noReturn rfl)
        | crlf => simp [LineEnd.chars]
        | none => exact absurd rfl he
      | cons d ds =>
        simp only [List.cons_append, List.head?_cons, ne_eq, Option.some.injEq]
        exact fun e => hcs (by simp [e])
    have := ih tail he
    simp only [Line.chars, List.cons_append] at this ⊢
    rw [lines_cons_of_ne hc hr, this, pushFront]

/-- The last line of a text may be without an end.  It is not empty, for behind the last line
feed an empty text has no lines. -/
theorem lines_content {content : List Char} (hn : '\n' ∉ content) (hne : content ≠ []) :
    lines content = [⟨content, .none⟩] := by
  induction content with
  | nil => exact absurd rfl hne
  | cons c cs ih =>
    have hc : c ≠ '\n' := fun e => hn (by simp [e])
    have hcs : '\n' ∉ cs := fun m => hn (List.mem_cons_of_mem _ m)
    have hr : c = '\r' → cs.head? ≠ some '\n' := fun _ e => hcs (List.mem_of_mem_head? e)
    rw [lines_cons_of_ne hc hr]
    cases cs with
    | nil => rfl
    | cons d ds => rw [ih hcs (by simp), pushFront]

/-- **Lines that are followed by a text** are the first lines of the whole. -/
theorem lines_flatten_append : ∀ {ls : List Line} {rest : List Char}, ProperLines ls →
    Joins ls rest → lines (ls.flatMap Line.chars ++ rest) = ls ++ lines rest
  | [], _, _, _ => by simp
  | line :: ls, rest, h, hj => by
    by_cases he : line.ending = .none
    -- a line without an end is the last one, and nothing follows the lines either
    · obtain rfl : ls = [] := h.2.1 he
      obtain rfl : rest = [] := hj.resolve_left fun hl => (ended_cons.mp hl).1 he
      have : line.chars = line.content := by simp [Line.chars, he, LineEnd.chars]
      simp only [List.flatMap_cons, List.flatMap_nil, List.append_nil, this,
        lines_content h.1.noFeed (h.1.nonempty he)]
      rw [← he]
      simp [lines]
    · have ih := lines_flatten_append h.2.2 (hj.imp (fun hl => (ended_cons.mp hl).2) id)
      rw [List.flatMap_cons, List.append_assoc, lines_chars_append h.1 he, ih, List.cons_append]

/-- **Writing lines out and cutting the text again gives the lines back.** -/
theorem lines_flatten {ls : List Line} (h : ProperLines ls) :
    lines (ls.flatMap Line.chars) = ls := by
  have := lines_flatten_append h (.inr (rfl : ([] : List Char) = []))
  simpa [lines] using this

/-- A character in front of the first line keeps the lines proper, if it is no line feed and does
not make a carriage return and a line feed of a lone line feed. -/
theorem properLines_pushFront {c : Char} (hc : c ≠ '\n') {ls : List Line} (h : ProperLines ls)
    (hr : c = '\r' → (ls.flatMap Line.chars).head? ≠ some '\n') :
    ProperLines (pushFront c ls) := by
  cases ls with
  | nil => exact ⟨⟨by simp [hc.symm], by simp, by simp⟩, by simp, trivial⟩
  | cons line rest =>
    refine ⟨⟨?_, fun hlf => ?_, by simp⟩, h.2.1, h.2.2⟩
    · simp only [List.mem_cons, not_or]
      exact ⟨hc.symm, h.1.noFeed⟩
    · have := h.1.noReturn hlf
      obtain ⟨content, ending⟩ := line
      cases content with
      | nil =>
        simp only [List.getLast?_singleton, ne_eq, Option.some.injEq]
        rintro rfl
        simp only at hlf
        subst hlf
        exact hr rfl (by simp [Line.chars, LineEnd.chars])
      | cons d ds => simpa [List.getLast?_cons_cons] using this

/-- **The lines of a text are proper.**  So `ProperLines` asks for nothing but what cutting a
text gives. -/
theorem properLines_lines (text : List Char) : ProperLines (lines text) := by
  -- a text begins with a line feed, with a carriage return and a line feed, or with neither
  fun_induction lines text with
  | case1 => trivial
  | case2 rest ih => exact ⟨⟨by simp, by simp, by simp⟩, by simp, ih⟩
  | case3 rest ih => exact ⟨⟨by simp, by simp, by simp⟩, by simp, ih⟩
  | case4 c rest hn hr ih =>
    refine properLines_pushFront hn ih fun e => ?_
    rw [flatten_lines]
    cases rest with
    | nil => simp
    | cons d ds =>
      simp only [List.head?_cons, ne_eq, Option.some.injEq]
      exact fun e' => hr ds e (by rw [e'])

/-! ## 3. Cutting a text in two

Behind a line feed a text may be cut without touching a line.  This is used for the pieces of a
document: each of them but the last ends in a line feed, so the lines of the whole are those of its
pieces.
-/

/-- A character in front of the first line does not touch a line end. -/
theorem ended_pushFront {c : Char} {ls : List Line} (hne : ls ≠ []) (h : Ended ls) :
    Ended (pushFront c ls) := by
  cases ls with
  | nil => exact absurd rfl hne
  | cons line rest => simpa [pushFront] using h

/-- The lines of a text that ends in a line feed may be followed. -/
theorem ended_lines {text : List Char} (h : text.getLast? = some '\n') : Ended (lines text) := by
  -- the last character stays the last one when the first is taken off, unless it was both
  have rest_of {c : Char} {rest : List Char} (h : (c :: rest).getLast? = some '\n') :
      rest = [] ∨ rest.getLast? = some '\n' := by
    cases rest with
    | nil => exact .inl rfl
    | cons d ds => exact .inr (by simpa [List.getLast?_cons_cons] using h)
  fun_induction lines text with
  | case1 => simp at h
  | case2 rest ih =>
    refine ended_cons.mpr ⟨by simp, ?_⟩
    rcases rest_of h with rfl | h
    · exact ended_nil
    · exact ih h
  | case3 rest ih =>
    refine ended_cons.mpr ⟨by simp, ?_⟩
    rw [List.getLast?_cons_cons] at h
    rcases rest_of h with rfl | h
    · exact ended_nil
    · exact ih h
  | case4 c rest hn hr ih =>
    rcases rest_of h with rfl | h
    · simp_all
    · refine ended_pushFront (fun he => ?_) (ih h)
      have := flatten_lines rest
      rw [he] at this
      simp [← this] at h

/-- **Cutting at a line feed.**  The lines of a text in two parts are those of its parts, if the
first part ends in a line feed or nothing follows it. -/
theorem lines_append {a b : List Char} (h : a.getLast? = some '\n' ∨ b = []) :
    lines (a ++ b) = lines a ++ lines b := by
  have := lines_flatten_append (properLines_lines a) (h.imp ended_lines id)
  rwa [flatten_lines] at this

end TomlKeep.Text
