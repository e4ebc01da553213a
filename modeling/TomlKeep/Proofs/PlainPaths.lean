/-
# Paths that are written plainly

The parts of a path can be written bare, with nothing but dots between them, if no part is empty
or holds a dot, a quote or a blank (`IsPlain`).  Such a text is read as the path again, and the
joined text of any other path is not (`parse_dotted_iff`).

What tells the two apart is length.  Reading drops quotes, blanks and hiding backslashes, so a
text is as long as its parts and the dots between them only if it has none of these
(`measured_of_segments`).
-/
import TomlKeep.Proofs.Keys

namespace TomlKeep

open Text

/-! ## 1. Plain parts are read as they are

A bare part ends at a dot, a quote or a blank, so a part without these is read whole, and as it is.
The other way to be read back is to be quoted; `segments_joined` is for any way to write the parts,
and the quoted one uses it, too.
-/

/-- A character that stands for itself in a bare part. -/
def isPlainChar (c : Char) : Bool :=
  c != '.' && c != '"' && c != '\'' && !isBlank c

/-- A part that can be written bare. -/
def IsPlain (part : List Char) : Prop :=
  part ≠ [] ∧ ∀ c ∈ part, isPlainChar c = true

/-- The test as the three questions that the reader asks of a character, in its order. -/
theorem isPlainChar_iff {c : Char} :
    isPlainChar c = true ↔ ¬ c = '.' ∧ ¬ (c = '"' ∨ c = '\'') ∧ ¬ isBlank c = true := by
  simp only [isPlainChar, Bool.and_eq_true, bne_iff_ne, ne_eq, Bool.not_eq_true',
    Bool.not_eq_true, not_or, and_assoc]

/-- The text of a bare part, up to what ends it. -/
theorem segments_plain {rest : List Char} (hr : EndsSegment rest) :
    ∀ {text : List Char}, (∀ c ∈ text, isPlainChar c = true) →
      segments .bare (text ++ rest) = (segments .behind rest).map (text :: ·)
  | [], _ => segments_bare hr (List.forall_mem_nil _)
  | c :: text, h => by
    obtain ⟨hc, ht⟩ := List.forall_mem_cons.mp h
    obtain ⟨h1, h2, h3⟩ := isPlainChar_iff.mp hc
    rw [List.cons_append, segments, if_neg h1, if_neg h2, if_neg h3, segments_plain hr ht,
      map_map_pushHead]

/-- A bare part and what follows it. -/
theorem segments_part {place : PathPlace} (hp : place.IsStart) {part rest : List Char}
    (h : IsPlain part) (hr : EndsSegment rest) :
    segments place (part ++ rest) = (segments .behind rest).map (part :: ·) := by
  obtain ⟨hne, hall⟩ := h
  obtain ⟨c, text, rfl⟩ := List.exists_cons_of_ne_nil hne
  obtain ⟨hc, ht⟩ := List.forall_mem_cons.mp hall
  obtain ⟨h1, h2, h3⟩ := isPlainChar_iff.mp hc
  rw [not_or] at h2
  have hrest := segments_plain hr ht
  -- a part may begin at the start of the path or behind a dot
  cases place with
  | first | next => simp [segments, h1, h2, h3, hrest, map_map_pushHead]
  | bare | single | double | behind => exact absurd hp (by simp [PathPlace.IsStart])

/-- **Parts that are read as they were before they were written** are read so with dots between
them.  What may follow a part is the end or a dot with more behind it, and this is what the part
is asked to cope with. -/
theorem segments_joined {write : List Char → List Char} : ∀ {parts : List (List Char)}
    {place : PathPlace}, place.IsStart → parts ≠ [] →
      (∀ part ∈ parts, ∀ (place : PathPlace) (rest : List Char), place.IsStart →
        (rest = [] ∨ ∃ tail, rest = '.' :: tail) →
          segments place (write part ++ rest) = (segments .behind rest).map (part :: ·)) →
      segments place (['.'].intercalate (parts.map write)) = .ok parts
  | [], _, _, hne, _ => absurd rfl hne
  | [part], place, hp, _, h => by
    have hpart := h part (by simp) place [] hp (.inl rfl)
    rw [List.append_nil] at hpart
    rw [List.map_singleton, List.intercalate_singleton, hpart]
    rfl
  -- the first part is read, then its dot, and the others are read as a path by the induction
  | part :: next :: more, place, hp, _, h => by
    obtain ⟨hpart, hmore⟩ := List.forall_mem_cons.mp h
    have hnext : PathPlace.next.IsStart := trivial
    have ih := segments_joined hnext (List.cons_ne_nil next more) hmore
    rw [List.map_cons] at ih
    rw [List.map_cons, List.map_cons, List.intercalate_cons_cons, List.append_assoc,
      List.singleton_append, hpart place _ hp (.inr ⟨_, rfl⟩), segments, if_pos rfl, ih]
    rfl

/-- **Plain parts with dots between them are read as these parts.** -/
theorem segments_intercalate {parts : List (List Char)} {place : PathPlace} (hp : place.IsStart)
    (hne : parts ≠ []) (h : ∀ part ∈ parts, IsPlain part) :
    segments place (['.'].intercalate parts) = .ok parts := by
  have hread : segments place (['.'].intercalate (parts.map id)) = .ok parts :=
    segments_joined hp hne fun part hm place rest hplace hr =>
      segments_part hplace (h part hm) (endsSegment_blanks (List.forall_mem_nil _) hr)
  rwa [List.map_id] at hread

/-! ## 2. What reading drops

For the other direction it is shown that a text is at least as long as its parts with their dots,
and just as long only if the parts are plain.  A quoted part costs two quotes, an escape its
backslash, and a blank itself.
-/

/-- The length of parts, each with a dot. -/
def dottedLength (parts : List (List Char)) : Nat :=
  (parts.map (·.length + 1)).sum

@[simp] theorem dottedLength_nil : dottedLength [] = 0 := rfl

@[simp] theorem dottedLength_cons (part : List Char) (parts : List (List Char)) :
    dottedLength (part :: parts) = part.length + 1 + dottedLength parts := by
  simp [dottedLength]

/-- A character more in the first part. -/
theorem dottedLength_pushHead (c : Char) {parts : List (List Char)} (h : parts ≠ []) :
    dottedLength (pushHead c parts) = dottedLength parts + 1 := by
  cases parts with
  | nil => exact absurd rfl h
  | cons part parts =>
    simp only [pushHead, dottedLength_cons, List.length_cons]
    omega

/-- Joined parts have one dot less than parts, so the length counts one too many. -/
theorem dottedLength_intercalate : ∀ {parts : List (List Char)}, parts ≠ [] →
    dottedLength parts = (['.'].intercalate parts).length + 1
  | [], h => absurd rfl h
  | [part], _ => by simp
  | part :: next :: more, _ => by
    have ih := dottedLength_intercalate (List.cons_ne_nil next more)
    rw [dottedLength_cons, ih, List.intercalate_cons_cons]
    simp only [List.length_append, List.length_singleton]
    omega

/-- The parts, if the text was as long as they are, are plain; of the part that is being read
this is asked for its characters only.  Between quotes nothing is asked, as a text with a quote
is always too long. -/
def PlainFrom : PathPlace → List (List Char) → Prop
  | .bare, part :: more => (∀ c ∈ part, isPlainChar c = true) ∧ ∀ part ∈ more, IsPlain part
  | .single, _ | .double, _ => True
  | _, parts => ∀ part ∈ parts, IsPlain part

/-- The dot that the first part lacks where a part is begun; between quotes the one that closes
stands for it. -/
def PathPlace.slack : PathPlace → Nat
  | .first | .next | .bare => 1
  | .single | .double | .behind => 0

/-- **What reading leaves of a text** is not longer than the text, and of its length only if it is
plain. -/
structure Measured (place : PathPlace) (text : List Char) (parts : List (List Char)) : Prop where
  ne_nil : place ≠ .behind → parts ≠ []
  le : dottedLength parts ≤ text.length + place.slack
  plain : dottedLength parts = text.length + place.slack → PlainFrom place parts

/-- What is mapped is well if it was well before. -/
theorem map_eq_ok {ε α β : Type} {x : Except ε α} {f : α → β} {b : β} :
    x.map f = .ok b ↔ ∃ a, x = .ok a ∧ f a = b := by
  cases x <;> simp [Except.map]

theorem pushHead_ne_nil (c : Char) (parts : List (List Char)) : pushHead c parts ≠ [] := by
  cases parts <;> simp [pushHead]

/-- A character between quotes.  It may be an escape of two characters, so all that is asked is
that the text got longer. -/
theorem Measured.quoted {place : PathPlace} (hp : place = .single ∨ place = .double)
    {text rest : List Char} {parts : List (List Char)} (h : Measured place rest parts)
    (ht : rest.length < text.length) (c : Char) : Measured place text (pushHead c parts) := by
  have hne : parts ≠ [] := h.ne_nil (by rcases hp with rfl | rfl <;> decide)
  have hle := h.le
  have hlength := dottedLength_pushHead c hne
  refine ⟨fun _ => pushHead_ne_nil c parts, by omega, fun _ => ?_⟩
  rcases hp with rfl | rfl <;> trivial

/-- The quote that closes counts for the dot of its part. -/
theorem Measured.close {place : PathPlace} (hp : place = .single ∨ place = .double) (c : Char)
    {rest : List Char} {parts : List (List Char)} (h : Measured .behind rest parts) :
    Measured place (c :: rest) ([] :: parts) := by
  have hle : dottedLength parts ≤ rest.length := h.le
  refine ⟨by simp, ?_, fun _ => ?_⟩
  · simp only [dottedLength_cons, List.length_nil, List.length_cons]
    omega
  · rcases hp with rfl | rfl <;> trivial

/-- A quote that opens: the one that closes is missing from the parts, too.  So the text is now
longer than its parts by one at least, and there is nothing to show of plain parts. -/
theorem Measured.opened {place : PathPlace} (hp : place = .single ∨ place = .double)
    (start : PathPlace) (c : Char) {rest : List Char} {parts : List (List Char)}
    (h : Measured place rest parts) : Measured start (c :: rest) parts := by
  have hne : parts ≠ [] := h.ne_nil (by rcases hp with rfl | rfl <;> decide)
  have hslack : place.slack = 0 := by rcases hp with rfl | rfl <;> rfl
  have hle : dottedLength parts ≤ rest.length := by simpa [hslack] using h.le
  refine ⟨fun _ => hne, ?_, fun heq => ?_⟩
  · simp only [List.length_cons]
    omega
  · simp only [List.length_cons] at heq
    omega

/-- A blank before or behind a part is not in the parts, so the text is too long. -/
theorem Measured.blank {place : PathPlace} (c : Char) {rest : List Char}
    {parts : List (List Char)} (h : Measured place rest parts) :
    Measured place (c :: rest) parts := by
  have hle := h.le
  refine ⟨h.ne_nil, ?_, fun heq => ?_⟩
  · simp only [List.length_cons]
    omega
  · simp only [List.length_cons] at heq
    omega

/-- A character of a bare part is plain, and it counts in the text and in the part. -/
theorem Measured.char {c : Char} (hc : isPlainChar c = true) {rest : List Char}
    {parts : List (List Char)} (h : Measured .bare rest parts) :
    Measured .bare (c :: rest) (pushHead c parts) := by
  have hne := h.ne_nil (by decide)
  have hle := h.le
  have hlength := dottedLength_pushHead c hne
  refine ⟨fun _ => pushHead_ne_nil c parts, ?_, fun heq => ?_⟩
  · simp only [List.length_cons]
    omega
  · have hplain := h.plain (by simp only [List.length_cons] at heq; omega)
    cases parts with
    | nil => exact absurd rfl hne
    | cons part more => exact ⟨List.forall_mem_cons.mpr ⟨hc, hplain.1⟩, hplain.2⟩

/-- The first character of a bare part.  The place before it has the same slack as the part,
which is the dot that a path has one less of. -/
theorem Measured.begin {start : PathPlace} (hs : start.IsStart) {c : Char}
    (hc : isPlainChar c = true) {rest : List Char} {parts : List (List Char)}
    (h : Measured .bare rest parts) : Measured start (c :: rest) (pushHead c parts) := by
  have hbare := h.char hc
  have hslack : start.slack = 1 := by
    cases start with
    | first | next => rfl
    | bare | single | double | behind => exact absurd hs (by simp [PathPlace.IsStart])
  have hne := h.ne_nil (by decide)
  refine ⟨fun _ => pushHead_ne_nil c parts, by rw [hslack]; exact hbare.le, fun heq => ?_⟩
  have hplain := hbare.plain (by rw [hslack] at heq; exact heq)
  have hall : ∀ part ∈ pushHead c parts, IsPlain part := by
    cases parts with
    | nil => exact absurd rfl hne
    | cons part more => exact List.forall_mem_cons.mpr ⟨⟨by simp, hplain.1⟩, hplain.2⟩
  cases start with
  | first | next => exact hall
  | bare | single | double | behind => exact absurd hs (by simp [PathPlace.IsStart])

/-- The end of a bare part, where an empty part is put in front of the rest; the characters read
before it are added to it one by one. -/
theorem Measured.ended {text : List Char} {parts : List (List Char)}
    (h : Measured .behind text parts) : Measured .bare text ([] :: parts) := by
  have hle : dottedLength parts ≤ text.length := h.le
  refine ⟨by simp, ?_, fun heq => ⟨by simp, h.plain ?_⟩⟩
  · simp only [dottedLength_cons, List.length_nil, PathPlace.slack]
    omega
  · simp only [dottedLength_cons, List.length_nil, PathPlace.slack] at heq ⊢
    omega

/-- The dot behind a part counts in the text and in the parts. -/
theorem Measured.dot (c : Char) {rest : List Char} {parts : List (List Char)}
    (h : Measured .next rest parts) : Measured .behind (c :: rest) parts :=
  ⟨by simp, h.le, h.plain⟩

/-- The end of the path. -/
theorem measured_nil : Measured .behind [] [] :=
  ⟨by simp, Nat.zero_le _, fun _ _ hm => by simp at hm⟩

/-- **Reading drops what is not plain.**  The induction follows the reader, and each of its steps
is one of the lemmas above. -/
theorem measured_of_segments (place : PathPlace) (text : List Char) :
    ∀ {parts : List (List Char)}, segments place text = .ok parts → Measured place text parts := by
  fun_induction segments place text with
  -- the steps that refuse the text
  | case1 | case2 | case5 | case6 | case13 | case17 | case19 | case20 =>
    intro parts h
    cases h
  | case3 =>
    intro parts h
    obtain rfl := Except.ok.inj h
    exact measured_nil.ended
  | case4 =>
    intro parts h
    obtain rfl := Except.ok.inj h
    exact measured_nil
  -- between single quotes
  | case7 rest ih =>
    intro parts h
    obtain ⟨more, hm, rfl⟩ := map_eq_ok.mp h
    exact (ih hm).close (.inl rfl) _
  | case8 c rest hc ih =>
    intro parts h
    obtain ⟨more, hm, rfl⟩ := map_eq_ok.mp h
    exact (ih hm).quoted (.inl rfl) (by simp) c
  -- between double quotes, where a backslash may hide a character
  | case9 c rest ih =>
    intro parts h
    obtain ⟨more, hm, rfl⟩ := map_eq_ok.mp h
    exact (ih hm).quoted (.inr rfl) (by simp) _
  | case10 rest _ ih =>
    intro parts h
    obtain ⟨more, hm, rfl⟩ := map_eq_ok.mp h
    exact (ih hm).close (.inr rfl) _
  | case11 c rest _ _ ih =>
    intro parts h
    obtain ⟨more, hm, rfl⟩ := map_eq_ok.mp h
    exact (ih hm).quoted (.inr rfl) (by simp) c
  -- in a bare part
  | case12 rest ih =>
    intro parts h
    obtain ⟨more, hm, rfl⟩ := map_eq_ok.mp h
    exact ((ih hm).dot _).ended
  | case14 c rest _ _ _ ih =>
    intro parts h
    obtain ⟨more, hm, rfl⟩ := map_eq_ok.mp h
    exact ((ih hm).blank c).ended
  | case15 c rest h1 h2 h3 ih =>
    intro parts h
    obtain ⟨more, hm, rfl⟩ := map_eq_ok.mp h
    exact (ih hm).char (isPlainChar_iff.mpr ⟨h1, h2, h3⟩)
  -- behind a part
  | case16 rest ih => exact fun h => (ih h).dot _
  | case18 c rest _ _ _ ih => exact fun h => (ih h).blank c
  -- at the start of a part
  | case21 place rest _ _ _ _ _ _ ih => exact fun h => (ih h).opened (.inr rfl) place _
  | case22 place rest _ _ _ _ _ _ _ ih => exact fun h => (ih h).opened (.inl rfl) place _
  | case23 place c rest _ _ _ _ _ _ _ _ _ ih => exact fun h => (ih h).blank c
  | case24 place c rest h1 _ h2 h3 h4 hd hq hq' hb ih =>
    intro parts h
    obtain ⟨more, hm, rfl⟩ := map_eq_ok.mp h
    exact (ih hm).begin (PathPlace.isStart_of_ne h1 h2 h3 h4)
      (isPlainChar_iff.mpr ⟨hd, not_or.mpr ⟨hq, hq'⟩, hb⟩)

/-! ## 3. The joined text of a path

The lemmas above speak of characters; here they are carried over to strings.
-/

/-- A part of a path that can be written bare. -/
def IsPlainPart (part : String) : Prop := IsPlain part.toList

/-- The joined text is the parts with dots between them. -/
theorem toList_dotted (key : KeyPath) :
    key.dotted.toList = ['.'].intercalate (key.parts.map String.toList) := by
  rw [KeyPath.dotted, String.toList_intercalate]
  rfl

/-- A text is read as a path if its characters are read as the parts of the path. -/
theorem parse_eq_ok {text : List Char} {key : KeyPath} :
    KeyPath.parse text = .ok key ↔ segments .first text = .ok (key.parts.map String.toList) := by
  obtain ⟨parts⟩ := key
  unfold KeyPath.parse
  split
  · next found h =>
    rw [h, Except.ok.injEq, Except.ok.injEq, KeyPath.mk.injEq]
    constructor
    · rintro rfl
      simp [List.map_map, Function.comp_def]
    · rintro rfl
      simp [List.map_map, Function.comp_def]
  · next h => simp [h]

/-- A path that was read has a part. -/
theorem parts_ne_nil {text : List Char} {key : KeyPath} (h : KeyPath.parse text = .ok key) :
    key.parts ≠ [] := by
  have hne := (measured_of_segments _ _ (parse_eq_ok.mp h)).ne_nil (by decide)
  simpa using hne

/-- **The joined text of a path is read as the path** if and only if all its parts are plain. -/
theorem parse_dotted_iff {key : KeyPath} (hne : key.parts ≠ []) :
    KeyPath.parse key.dotted.toList = .ok key ↔ ∀ part ∈ key.parts, IsPlainPart part := by
  have hmap : key.parts.map String.toList ≠ [] := by simpa using hne
  rw [parse_eq_ok, toList_dotted]
  -- what is read back is as long as it can be, so it is plain
  constructor
  · intro h
    have hplain := (measured_of_segments _ _ h).plain (dottedLength_intercalate hmap)
    exact fun part hm => hplain part.toList (List.mem_map_of_mem hm)
  · intro h
    refine segments_intercalate trivial hmap fun part hm => ?_
    obtain ⟨p, hp, rfl⟩ := List.mem_map.mp hm
    exact h p hp

end TomlKeep
