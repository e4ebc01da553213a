/-
# Offsets in a text

Offsets count the bytes of the UTF-8 form, so that not every number below the length is an
offset: one that falls inside a character has no place in the text.  `splitAt?` is the single
primitive; it answers exactly at the boundaries between characters (`splitAt?_byteLength` and
`splitAt?_eq_some`), and `span?` cuts a text in three by two of them.
-/
import TomlKeep.Text.Blank

namespace TomlKeep.Text

/-- The number of bytes of the text in UTF-8. -/
def byteLength : List Char → Nat
  | [] => 0
  | c :: rest => c.utf8Size + byteLength rest

@[simp] theorem byteLength_nil : byteLength [] = 0 := rfl

@[simp] theorem byteLength_cons (c : Char) (rest : List Char) :
    byteLength (c :: rest) = c.utf8Size + byteLength rest := rfl

@[simp] theorem byteLength_append (a b : List Char) :
    byteLength (a ++ b) = byteLength a + byteLength b := by
  induction a with
  | nil => simp
  | cons c rest ih => simp [ih, Nat.add_assoc]

/-- The parts of the text before and behind a byte offset, if the offset lies between two
characters or at an end of the text. -/
def splitAt? : Nat → List Char → Option (List Char × List Char)
  | 0, text => some ([], text)
  | _ + 1, [] => none
  | n + 1, c :: rest =>
    if c.utf8Size ≤ n + 1 then
      (splitAt? (n + 1 - c.utf8Size) rest).map fun (before, behind) => (c :: before, behind)
    else none

/-- The length of a beginning is an offset, and it cuts right behind that beginning. -/
theorem splitAt?_byteLength (a b : List Char) : splitAt? (byteLength a) (a ++ b) = some (a, b) := by
  induction a with
  | nil => simp [splitAt?]
  | cons c rest ih =>
    have hc : 0 < c.utf8Size := c.utf8Size_pos
    obtain ⟨n, hn⟩ : ∃ n, byteLength (c :: rest) = n + 1 := ⟨byteLength (c :: rest) - 1, by
      simp only [byteLength_cons]; omega⟩
    rw [hn, List.cons_append, splitAt?]
    rw [byteLength_cons] at hn
    have hle : c.utf8Size ≤ n + 1 := by omega
    have hsub : n + 1 - c.utf8Size = byteLength rest := by omega
    simp [hle, hsub, ih]

/-- Only the lengths of beginnings are offsets. -/
theorem splitAt?_eq_some {n : Nat} {text before behind : List Char}
    (h : splitAt? n text = some (before, behind)) :
    text = before ++ behind ∧ byteLength before = n := by
  induction text generalizing n before behind with
  | nil =>
    cases n with
    | zero => simp [splitAt?] at h; simp [h]
    | succ n => simp [splitAt?] at h
  | cons c rest ih =>
    cases n with
    | zero => simp [splitAt?] at h; obtain ⟨rfl, rfl⟩ := h; simp
    | succ n =>
      rw [splitAt?] at h
      split at h
      · obtain ⟨⟨b, t⟩, hbt, heq⟩ := Option.map_eq_some_iff.1 h
        obtain ⟨rfl, rfl⟩ : c :: b = before ∧ t = behind := by simpa using heq
        obtain ⟨h1, h2⟩ := ih hbt
        exact ⟨by simp [h1], by simp only [byteLength_cons]; omega⟩
      · simp at h

/-- A text cut by a range of offsets. -/
structure Span where
  before : List Char
  inside : List Char
  behind : List Char

/-- The cut at `[start, stop)`, if that is a range of offsets of the text. -/
def span? (start stop : Nat) (text : List Char) : Option Span :=
  if start ≤ stop then
    match splitAt? start text with
    | none => none
    | some (before, rest) =>
      match splitAt? (stop - start) rest with
      | none => none
      | some (inside, behind) => some ⟨before, inside, behind⟩
  else none

/-- The three parts of a cut make up the text and stand where the range says. -/
theorem span?_eq_some {start stop : Nat} {text : List Char} {cut : Span}
    (h : span? start stop text = some cut) :
    text = cut.before ++ cut.inside ++ cut.behind ∧ byteLength cut.before = start
      ∧ byteLength (cut.before ++ cut.inside) = stop := by
  unfold span? at h
  split at h
  · next hle =>
    split at h
    · simp at h
    · next before rest hb =>
      split at h
      · simp at h
      · next inside behind hi =>
        obtain rfl := Option.some.inj h
        obtain ⟨rfl, h1⟩ := splitAt?_eq_some hb
        obtain ⟨rfl, h2⟩ := splitAt?_eq_some hi
        simp only [byteLength_append]
        exact ⟨by simp, h1, by omega⟩
  · simp at h

end TomlKeep.Text
