/-
# Verified edits

An edit replaces the text at a range of offsets, and says which text it expects there.  It applies
to a text only if the range exists and holds what is expected or already holds the replacement;
an edit planned for another text is refused and changes nothing.

The result is always the text with the range replaced (`apply_eq_ok`).
-/
import TomlKeep.Text.Bytes
import TomlKeep.Text.Quoted

namespace TomlKeep

open Text

/-- The replacement of the text at `[start, stop)`. -/
structure Edit where
  start : Nat
  stop : Nat
  replacement : List Char
  expected : List Char
  deriving DecidableEq, Repr

/-- Why an edit does not apply. -/
inductive EditError where
  | invalidRange (start stop length : Nat)
  | mismatch (start : Nat) (expected found : List Char)
  deriving DecidableEq, Repr

/-- The wording of an edit error. -/
def EditError.message : EditError → String
  | .invalidRange start stop length =>
    "invalid byte range: [" ++ toString start ++ ", " ++ toString stop
      ++ ") in text of length " ++ toString length
  | .mismatch start expected found =>
    "before-text verification failed at byte " ++ toString start ++ ": expected "
      ++ String.ofList (visiblyQuoted expected) ++ ", found "
      ++ String.ofList (visiblyQuoted found)

/-- Applies an edit to a text. -/
def Edit.apply (edit : Edit) (text : List Char) : Except EditError (List Char) :=
  match span? edit.start edit.stop text with
  | none => .error (.invalidRange edit.start edit.stop (byteLength text))
  | some cut =>
    if cut.inside ≠ edit.expected ∧ cut.inside ≠ edit.replacement then
      .error (.mismatch edit.start edit.expected cut.inside)
    else .ok (cut.before ++ edit.replacement ++ cut.behind)

/-- **What an edit gives.**  The text is cut at the range, what stood there was expected or is the
replacement, and the replacement stands there now. -/
theorem Edit.apply_eq_ok {edit : Edit} {text result : List Char}
    (h : edit.apply text = .ok result) :
    ∃ cut, span? edit.start edit.stop text = some cut
      ∧ (cut.inside = edit.expected ∨ cut.inside = edit.replacement)
      ∧ result = cut.before ++ edit.replacement ++ cut.behind := by
  unfold Edit.apply at h
  split at h
  · simp at h
  · next cut hcut =>
    split at h
    · simp at h
    · next hc =>
      refine ⟨cut, hcut, ?_, (Except.ok.inj h).symm⟩
      by_cases he : cut.inside = edit.expected
      · exact .inl he
      · exact .inr (Classical.not_not.1 fun hr => hc ⟨he, hr⟩)

end TomlKeep
