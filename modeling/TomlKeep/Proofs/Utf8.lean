/-
# The bytes of a text

An offset counts bytes of the UTF-8 form.  Here this form is written out (`utf8`), as a program
sees it that looks at single bytes of a text.

A character of ASCII is one byte, and that byte is found in the form of no other character
(`mem_utf8EncodeChar_iff`).  So a search for such a character may go byte by byte, and it does no
harm if it begins inside a character: the bytes there are none of those it looks for
(`splitAt?_eq_none`).
-/
import Mathlib
import TomlKeep.Text.Bytes

namespace TomlKeep.Text

/-- The bytes of a text in UTF-8. -/
def utf8 (text : List Char) : List UInt8 :=
  text.flatMap String.utf8EncodeChar

@[simp] theorem utf8_nil : utf8 [] = [] := rfl

@[simp] theorem utf8_cons (c : Char) (rest : List Char) :
    utf8 (c :: rest) = String.utf8EncodeChar c ++ utf8 rest := rfl

@[simp] theorem utf8_append (a b : List Char) : utf8 (a ++ b) = utf8 a ++ utf8 b :=
  List.flatMap_append

@[simp] theorem length_utf8 (text : List Char) : (utf8 text).length = byteLength text := by
  induction text with
  | nil => rfl
  | cons c rest ih => simp [ih]

/-! ## 1. Bytes of ASCII

The form of a character is one byte below 128, or several bytes that are all 128 or above.  All that
is used of UTF-8 is this, and that a byte below 128 tells its character.
-/

/-- The byte of a character of ASCII. -/
def asciiByte (c : Char) : UInt8 := UInt8.ofNat c.toNat

/-- A character of ASCII is a byte on its own. -/
theorem utf8EncodeChar_ascii {c : Char} (h : c.toNat < 128) :
    String.utf8EncodeChar c = [asciiByte c] := by
  have hle : c.val.toNat ≤ 127 := Nat.le_of_lt_succ h
  simp only [String.utf8EncodeChar, if_pos hle]
  rfl

theorem utf8Size_ascii {c : Char} (h : c.toNat < 128) : c.utf8Size = 1 := by
  rw [← String.length_utf8EncodeChar, utf8EncodeChar_ascii h, List.length_singleton]

/-- No byte of another character looks like one of ASCII: the form of two, three or four bytes
begins with a byte that is marked by its high bits, and so is every byte behind it. -/
theorem le_of_mem_utf8EncodeChar {c : Char} (h : ¬ c.toNat < 128) {b : UInt8}
    (hb : b ∈ String.utf8EncodeChar c) : 128 ≤ b.toNat := by
  have hgt : ¬ c.val.toNat ≤ 127 := fun hle => h (Nat.lt_succ_of_le hle)
  have hvalid : c.val.toNat < 1114112 := by
    rcases c.valid with hlow | ⟨-, hhigh⟩
    · exact Nat.lt_trans hlow (by decide)
    · exact hhigh
  simp only [String.utf8EncodeChar, if_neg hgt] at hb
  -- the forms of two, of three and of four bytes
  split at hb
  · simp only [List.mem_cons, List.not_mem_nil, or_false] at hb
    rcases hb with rfl | rfl
    all_goals
      rw [UInt8.toNat_ofNat']
      omega
  · split at hb
    · simp only [List.mem_cons, List.not_mem_nil, or_false] at hb
      rcases hb with rfl | rfl | rfl
      all_goals
        rw [UInt8.toNat_ofNat']
        omega
    · simp only [List.mem_cons, List.not_mem_nil, or_false] at hb
      rcases hb with rfl | rfl | rfl | rfl
      all_goals
        rw [UInt8.toNat_ofNat']
        omega

theorem toNat_asciiByte {c : Char} (h : c.toNat < 128) : (asciiByte c).toNat = c.toNat := by
  rw [asciiByte, UInt8.toNat_ofNat']
  omega

/-- **A byte of ASCII stands for its character** wherever it is found.  This is why a search for
a quote or a bracket may look at bytes and need not know where characters begin. -/
theorem mem_utf8EncodeChar_iff {c d : Char} (hd : d.toNat < 128) :
    asciiByte d ∈ String.utf8EncodeChar c ↔ c = d := by
  constructor
  · intro hm
    by_cases hc : c.toNat < 128
    · rw [utf8EncodeChar_ascii hc, List.mem_singleton] at hm
      have hnat := congrArg UInt8.toNat hm
      rw [toNat_asciiByte hd, toNat_asciiByte hc] at hnat
      exact Char.toNat_inj.mp hnat.symm
    · have hle := le_of_mem_utf8EncodeChar hc hm
      rw [toNat_asciiByte hd] at hle
      omega
  · rintro rfl
    rw [utf8EncodeChar_ascii hd]
    exact List.mem_singleton_self _

/-- The first byte of a character, and those behind it.  The first byte tells a character of
ASCII, and those behind it are never mistaken for one. -/
theorem exists_utf8EncodeChar (c : Char) :
    ∃ b inner, String.utf8EncodeChar c = b :: inner ∧ (∀ e ∈ inner, 128 ≤ e.toNat)
      ∧ ∀ d : Char, d.toNat < 128 → (b = asciiByte d ↔ c = d) := by
  have first {b : UInt8} {inner : List UInt8} (he : String.utf8EncodeChar c = b :: inner) (d : Char)
      (hd : d.toNat < 128) : b = asciiByte d ↔ c = d := by
    constructor
    · rintro rfl
      exact (mem_utf8EncodeChar_iff hd).mp (he ▸ List.mem_cons_self)
    · rintro rfl
      rw [utf8EncodeChar_ascii hd] at he
      exact (List.cons.inj he).1.symm
  by_cases hc : c.toNat < 128
  · have he := utf8EncodeChar_ascii hc
    exact ⟨asciiByte c, [], he, List.forall_mem_nil _, first he⟩
  -- every character has at least one byte
  · cases he : String.utf8EncodeChar c with
    | nil =>
      have hlength := String.length_utf8EncodeChar c
      rw [he] at hlength
      exact absurd hlength.symm (Nat.ne_of_gt c.utf8Size_pos)
    | cons b inner =>
      exact ⟨b, inner, rfl, fun e hm =>
        le_of_mem_utf8EncodeChar hc (he ▸ List.mem_cons_of_mem b hm),
        first he⟩

/-- The last byte of a character.  It tells a character of ASCII as well, so that a text may be
looked at from behind. -/
theorem exists_last_utf8EncodeChar (c : Char) :
    ∃ inner b, String.utf8EncodeChar c = inner ++ [b]
      ∧ ∀ d : Char, d.toNat < 128 → (b = asciiByte d ↔ c = d) := by
  rcases List.eq_nil_or_concat (String.utf8EncodeChar c) with he | ⟨inner, b, he⟩
  · have hlength := String.length_utf8EncodeChar c
    rw [he] at hlength
    exact absurd hlength.symm (Nat.ne_of_gt c.utf8Size_pos)
  · rw [List.concat_eq_append] at he
    refine ⟨inner, b, he, fun d hd => ⟨?_, ?_⟩⟩
    · rintro rfl
      exact (mem_utf8EncodeChar_iff hd).mp (by simp [he])
    · rintro rfl
      rw [utf8EncodeChar_ascii hd] at he
      simpa using (congrArg List.getLast? he).symm

/-- Whether a text begins with a character of ASCII is seen from its first byte. -/
theorem head?_utf8_iff {d : Char} (hd : d.toNat < 128) (text : List Char) :
    (utf8 text).head? = some (asciiByte d) ↔ text.head? = some d := by
  cases text with
  | nil => simp
  | cons c rest =>
    obtain ⟨b, inner, he, -, hb⟩ := exists_utf8EncodeChar c
    rw [utf8_cons, he, List.cons_append, List.head?_cons, List.head?_cons, Option.some.injEq,
      Option.some.injEq]
    exact hb d hd

/-- A beginning of ASCII is seen from the first bytes.  Each character of it is compared with one
byte, and the first that differs shows it, since the byte of another character is another one. -/
theorem isPrefixOf_utf8 : ∀ {start : List Char}, (∀ d ∈ start, d.toNat < 128) → ∀ text : List Char,
    (start.map asciiByte).isPrefixOf (utf8 text) = beginsWith start text
  | [], _, _ => by simp [beginsWith, after?]
  | d :: start, h, [] => by simp [beginsWith, after?]
  | d :: start, h, c :: rest => by
    obtain ⟨hd, hstart⟩ := List.forall_mem_cons.mp h
    by_cases hc : c = d
    · subst hc
      have ih := isPrefixOf_utf8 hstart rest
      rw [utf8_cons, utf8EncodeChar_ascii hd, List.singleton_append, List.map_cons,
        List.isPrefixOf_cons_cons_self, ih]
      simp [beginsWith, after?]
    · obtain ⟨b, inner, he, -, hb⟩ := exists_utf8EncodeChar c
      have hne : asciiByte d ≠ b := fun e => hc ((hb d hd).mp e.symm)
      rw [utf8_cons, he, List.cons_append, List.map_cons, List.isPrefixOf_cons_cons]
      simp [beginsWith, after?, Ne.symm hc, hne]

/-! ## 2. Bytes and offsets

An offset of a text is the length of what stands in front of it, so the bytes from there on are
those of the rest.  Any other number lies behind the text or inside a character.
-/

theorem drop_utf8_append (front rest : List Char) :
    (utf8 (front ++ rest)).drop (byteLength front) = utf8 rest := by
  rw [utf8_append, ← length_utf8, List.drop_left]

theorem getElem?_utf8_append (front rest : List Char) :
    (utf8 (front ++ rest))[byteLength front]? = (utf8 rest).head? := by
  rw [← drop_utf8_append front rest, List.head?_drop]

/-- **An offset that cuts a text** is where the bytes of the rest begin. -/
theorem drop_utf8 {n : Nat} {text before behind : List Char}
    (h : splitAt? n text = some (before, behind)) : (utf8 text).drop n = utf8 behind := by
  obtain ⟨rfl, rfl⟩ := splitAt?_eq_some h
  exact drop_utf8_append before behind

/-- **A number that is no offset** lies behind the text or at a byte inside a character.  Such a
byte is 128 or above, so a search that stops there by mistake finds nothing that it looks for. -/
theorem splitAt?_eq_none {text : List Char} : ∀ {n : Nat}, splitAt? n text = none →
    byteLength text < n ∨ ∃ b, (utf8 text)[n]? = some b ∧ 128 ≤ b.toNat := by
  induction text with
  | nil =>
    intro n h
    cases n with
    | zero => simp [splitAt?] at h
    | succ n => exact .inl (Nat.succ_pos n)
  | cons c rest ih =>
    intro n h
    cases n with
    | zero => simp [splitAt?] at h
    | succ n =>
      rw [splitAt?] at h
      have hlength := String.length_utf8EncodeChar c
      -- the number lies behind the first character, or inside it
      by_cases hle : c.utf8Size ≤ n + 1
      · rw [if_pos hle, Option.map_eq_none_iff] at h
        rw [byteLength_cons, utf8_cons, List.getElem?_append_right (by omega), hlength]
        refine (ih h).imp (fun hlt => by omega) id
      · obtain ⟨b, inner, he, hinner, -⟩ := exists_utf8EncodeChar c
        rw [he, List.length_cons] at hlength
        have hn : n < inner.length := by omega
        refine .inr ⟨inner[n], ?_, hinner _ (List.getElem_mem hn)⟩
        rw [utf8_cons, he, List.cons_append, List.getElem?_cons_succ, List.getElem?_append_left hn,
          List.getElem?_eq_getElem hn]

end TomlKeep.Text
