/-
# Paths that are written in quotes

Every path can be written with all its parts in double quotes and a dot between them: a quote and
a backslash are hidden behind a backslash, and any other character stands as it is, dots, blanks
and line feeds too (`quotedPath`).  Such a text is read as the path again, whatever its parts are
(`parse_quotedPath`).

Plain parts need no quotes, but only they do not (`PlainPaths`).
-/
import TomlKeep.Proofs.PlainPaths

namespace TomlKeep

open Text

/-! ## 1. One part -/

/-- A character as it is written between double quotes. -/
def guardChar (c : Char) : List Char :=
  if c = '"' ∨ c = '\\' then ['\\', c] else [c]

/-- A part in double quotes. -/
def quotedPart (part : List Char) : List Char :=
  '"' :: (part.flatMap guardChar ++ ['"'])

theorem unescapeKeyChar_guarded {c : Char} (h : c = '"' ∨ c = '\\') : unescapeKeyChar c = c := by
  rcases h with rfl | rfl <;> rfl

/-- What stands between the quotes closes none of them, and the reader brings the part back. -/
theorem guarded (part : List Char) :
    QuotedBody (part.flatMap guardChar) ∧ unescapeKey (part.flatMap guardChar) = part := by
  induction part with
  | nil => exact ⟨.nil, rfl⟩
  | cons c part ih =>
    obtain ⟨hbody, hread⟩ := ih
    rw [List.flatMap_cons, guardChar]
    split
    · next h =>
      refine ⟨.hidden hbody, ?_⟩
      rw [List.cons_append, List.singleton_append, unescapeKey, unescapeKeyChar_guarded h, hread]
    · next h =>
      rw [not_or] at h
      refine ⟨.char h.1 h.2 hbody, ?_⟩
      rw [List.singleton_append, unescapeKey_char h.2, hread]

/-- **A part in quotes** is read as it was, whatever follows. -/
theorem segments_quotedPart {place : PathPlace} (hp : place.IsStart) (part rest : List Char) :
    segments place (quotedPart part ++ rest) = (segments .behind rest).map (part :: ·) := by
  obtain ⟨hbody, hread⟩ := guarded part
  have hrest := segments_double hbody rest
  rw [hread] at hrest
  rw [quotedPart, List.cons_append, List.append_assoc, List.singleton_append, ← hrest]
  cases place with
  | first | next => simp [segments]
  | bare | single | double | behind => exact absurd hp (by simp [PathPlace.IsStart])

/-! ## 2. Whole paths -/

/-- A path with every part in double quotes. -/
def quotedPath (path : List String) : List Char :=
  ['.'].intercalate (path.map fun part => quotedPart part.toList)

/-- **A path in quotes is read as it was.** -/
theorem parse_quotedPath {path : List String} (h : path ≠ []) :
    KeyPath.parse (quotedPath path) = .ok ⟨path⟩ := by
  have hmap : path.map String.toList ≠ [] := by simpa using h
  have hfirst : PathPlace.first.IsStart := trivial
  have hread : segments .first (['.'].intercalate ((path.map String.toList).map quotedPart))
      = .ok (path.map String.toList) :=
    segments_joined hfirst hmap fun part _ place rest hplace _ =>
      segments_quotedPart hplace part rest
  rw [List.map_map] at hread
  exact parse_eq_ok.mpr hread

/-- An empty part, one with a dot and quotes, and one with a backslash in front of an `n`. -/
example : KeyPath.parse (quotedPath ["", "a.\"b\"", "\\n"])
    = .ok ⟨["", "a.\"b\"", "\\n"]⟩ := by decide

end TomlKeep
