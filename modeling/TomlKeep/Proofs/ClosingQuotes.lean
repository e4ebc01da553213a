/-
# Which quotes close a multi-line string

A string between three quotes is a sequence of units: a character, or in double quotes a
backslash with the character that it hides (`StringUnit`).  Its body holds no three quotes in a
row and does not end in one (`IsTripleBody`); up to two quotes may stand behind the body and in
front of the three that close the string, and they belong to it.

The end that is found is the end of the string, whatever stands around it, and none is found
exactly if there is no string or nothing closes it (`multilineEnd?_exact`).

The same end is found byte by byte (`ByOffset.tripleEnd?`), as a loop over offsets does it which
skips two bytes at a backslash.  Such a skip may stop inside a character or behind the text.  It
does no harm, since the bytes inside a character are neither quotes nor backslashes
(`ByOffset.tripleEnd?_eq`).
-/
import TomlKeep.Proofs.Passages
import TomlKeep.Proofs.Utf8

namespace TomlKeep

open Text

variable {quote : Char}

/-! ## 1. Units

A backslash and the character behind it are one unit, so that a quote that is hidden is not taken
for one that closes.  Three quotes in a row are then three units in a row, and a body is a list of
units without them.
-/

/-- A unit of a string: a character, or a backslash with the character that it hides. -/
inductive StringUnit where
  | char (c : Char)
  | hidden (c : Char)
  deriving DecidableEq, Repr

/-- A unit as it is written. -/
def StringUnit.chars : StringUnit → List Char
  | .char c => [c]
  | .hidden c => ['\\', c]

/-- Whether a unit may stand in a string: in double quotes a backslash hides the next character, in
single quotes it is a character as any other. -/
def StringUnit.Fits (quote : Char) : StringUnit → Prop
  | .char c => ¬ (c = '\\' ∧ quote = '"')
  | .hidden _ => quote = '"'

/-- Units as they are written. -/
def unitsText (units : List StringUnit) : List Char :=
  units.flatMap StringUnit.chars

@[simp] theorem unitsText_nil : unitsText [] = [] := rfl

@[simp] theorem unitsText_cons (u : StringUnit) (units : List StringUnit) :
    unitsText (u :: units) = u.chars ++ unitsText units := rfl

/-- **The body of a multi-line string.** -/
structure IsTripleBody (quote : Char) (units : List StringUnit) : Prop where
  fits : ∀ u ∈ units, u.Fits quote
  noRun : ¬ [.char quote, .char quote, .char quote] <:+: units
  last : units.getLast? ≠ some (.char quote)

/-- Somewhere in a text, whole units in front, stand three quotes. -/
def HasTriple (quote : Char) (text : List Char) : Prop :=
  ∃ units behind, (∀ u ∈ units, StringUnit.Fits quote u)
    ∧ text = unitsText units ++ (quote :: quote :: quote :: behind)

/-! ## 2. The search goes through a body

The search asks at each unit whether three quotes begin there.  In a body they never do, and this is
not spoiled by what follows the body, since the body does not end in a quote.
-/

/-- The rest of a body is one. -/
theorem IsTripleBody.tail {u : StringUnit} {units : List StringUnit}
    (h : IsTripleBody quote (u :: units)) : IsTripleBody quote units := by
  refine ⟨fun v hv => h.fits v (List.mem_cons_of_mem u hv), fun hin => h.noRun ?_, fun hl => ?_⟩
  · exact hin.trans (List.suffix_cons u units).isInfix
  · cases units with
    | nil => simp at hl
    | cons v more => exact h.last (by rwa [List.getLast?_cons_cons])

/-- A unit that is no quote does not begin with one. -/
theorem head?_unitsText {u : StringUnit} (hu : u ≠ .char quote) (hq : quote ≠ '\\')
    (units : List StringUnit) (rest : List Char) :
    (unitsText (u :: units) ++ rest).head? ≠ some quote := by
  cases u with
  | char c =>
    intro hc
    obtain rfl : c = quote := Option.some.inj hc
    exact hu rfl
  | hidden c => exact fun hc => hq (Option.some.inj hc).symm

/-- A quote of a body has at most one more behind it.  Then comes a unit that is no quote, and
that belongs to the body still. -/
theorem IsTripleBody.after?_eq_none {units : List StringUnit}
    (h : IsTripleBody quote (.char quote :: units)) (hq : quote ≠ '\\') (rest : List Char) :
    after? [quote, quote, quote] (quote :: (unitsText units ++ rest)) = none := by
  rcases units with _ | ⟨u, units⟩
  · exact absurd rfl h.last
  -- a second quote or not; the unit behind two of them is another one
  · by_cases hu : u = .char quote
    · subst hu
      rcases units with _ | ⟨v, units⟩
      · exact absurd rfl h.last
      · have hv : v ≠ .char quote := by
          rintro rfl
          exact h.noRun (List.prefix_append _ units).isInfix
        have hnone : after? [quote] (unitsText (v :: units) ++ rest) = none :=
          TomlKeep.after?_eq_none (head?_unitsText hv hq units rest)
        simpa [after?, StringUnit.chars] using hnone
    · have hnone : after? [quote, quote] (unitsText (u :: units) ++ rest) = none :=
        TomlKeep.after?_eq_none (head?_unitsText hu hq units rest)
      simpa [after?] using hnone

/-- A hidden character is passed with its backslash. -/
theorem StringUnit.Fits.closeTriple? {c : Char} (h : StringUnit.Fits quote (.hidden c))
    (rest : List Char) : closeTriple? quote ('\\' :: c :: rest)
      = pushBefore '\\' (pushBefore c (closeTriple? quote rest)) := by
  obtain rfl : quote = '"' := h
  exact closeTriple?_hidden c rest

/-- **The search goes through a body.** -/
theorem IsTripleBody.closeTriple? (hq : quote ≠ '\\') (rest : List Char) :
    ∀ {units : List StringUnit}, IsTripleBody quote units →
      closeTriple? quote (unitsText units ++ rest)
        = pushText (unitsText units) (closeTriple? quote rest)
  | [], _ => by simp
  | .hidden c :: units, h => by
    have hidden := (h.fits _ List.mem_cons_self).closeTriple? (unitsText units ++ rest)
    rw [h.tail.closeTriple? hq rest, pushBefore_pushText, pushBefore_pushText] at hidden
    exact hidden
  | .char c :: units, h => by
    have hfits : ¬ (c = '\\' ∧ quote = '"') := h.fits _ List.mem_cons_self
    have hnone : after? [quote, quote, quote] (c :: (unitsText units ++ rest)) = none := by
      by_cases hc : c = quote
      · subst hc
        exact h.after?_eq_none hq rest
      · exact TomlKeep.after?_eq_none fun hhead => hc (Option.some.inj hhead)
    have hchar := closeTriple?_char hfits hnone
    rw [h.tail.closeTriple? hq rest, pushBefore_pushText] at hchar
    exact hchar

/-- The quotes that close a string, with those in front of them that belong to it.  With fewer
than two of them, a quote behind the string would be taken for one more. -/
theorem closeTriple?_replicate {n : Nat} (hn : n ≤ 2) (hq : quote ≠ '\\') {behind : List Char}
    (hb : n < 2 → behind.head? ≠ some quote) :
    closeTriple? quote (List.replicate n quote ++ (quote :: quote :: quote :: behind))
      = some (List.replicate n quote ++ [quote, quote, quote], behind) := by
  have hrun : splitRun quote 2 (List.replicate n quote ++ behind)
      = (List.replicate n quote, behind) := by
    rcases Nat.lt_or_eq_of_le hn with hlt | rfl
    · exact splitRun_quotes (hb hlt) hn
    · simp [List.replicate, splitRun]
  have hafter : after? [quote, quote, quote]
      (quote :: quote :: quote :: (List.replicate n quote ++ behind))
        = some (List.replicate n quote ++ behind) := after?_eq_some_iff.mpr rfl
  rw [replicate_append_triple, closeTriple?_close (fun h => hq h.1) hafter, hrun,
    replicate_append_triple, List.append_nil]

/-! ## 3. When nothing is found

The search may stop before the three quotes it is shown, at others, but it does stop.  So it finds
nothing only where there are none, behind whole units.
-/

/-- Nothing is found if nothing is found behind the first character. -/
theorem pushBefore_eq_none {c : Char} {split : Option (List Char × List Char)} :
    pushBefore c split = none ↔ split = none := by
  rcases split with _ | ⟨before, suffix⟩ <;> simp [pushBefore]

/-- Three quotes behind whole units close the string, or others in front of them do. -/
theorem closeTriple?_units_ne_none (hq : quote ≠ '\\') (behind : List Char) :
    ∀ {units : List StringUnit}, (∀ u ∈ units, StringUnit.Fits quote u) →
      closeTriple? quote (unitsText units ++ (quote :: quote :: quote :: behind)) ≠ none
  | [], _ => by
    have hafter : after? [quote, quote, quote] (quote :: quote :: quote :: behind) = some behind :=
      after?_eq_some_iff.mpr rfl
    rw [unitsText_nil, List.nil_append, closeTriple?_close (fun h => hq h.1) hafter]
    exact Option.some_ne_none _
  | .hidden c :: units, h => by
    obtain ⟨hfits, hmore⟩ := List.forall_mem_cons.mp h
    have ih := closeTriple?_units_ne_none hq behind hmore
    have htext : unitsText (.hidden c :: units) ++ (quote :: quote :: quote :: behind)
        = '\\' :: c :: (unitsText units ++ (quote :: quote :: quote :: behind)) := rfl
    rw [htext, hfits.closeTriple?, ne_eq, pushBefore_eq_none, pushBefore_eq_none]
    exact ih
  | .char c :: units, h => by
    obtain ⟨hfits, hmore⟩ := List.forall_mem_cons.mp h
    have ih := closeTriple?_units_ne_none hq behind hmore
    have htext : unitsText (.char c :: units) ++ (quote :: quote :: quote :: behind)
        = c :: (unitsText units ++ (quote :: quote :: quote :: behind)) := rfl
    rw [htext]
    -- three quotes begin at this unit, or the search goes on behind it
    cases ha : after? [quote, quote, quote]
        (c :: (unitsText units ++ (quote :: quote :: quote :: behind))) with
    | some rest =>
      rw [closeTriple?_close hfits ha]
      exact Option.some_ne_none _
    | none =>
      rw [closeTriple?_char hfits ha, ne_eq, pushBefore_eq_none]
      exact ih

/-- What closes a string stands behind whole units. -/
theorem hasTriple_of_closeTriple? {text body behind : List Char}
    (h : closeTriple? quote text = some (body, behind)) : HasTriple quote text := by
  -- by the cases of the search; each of its steps is one unit
  induction text using closeTriple_induction quote generalizing body with
  | nil => simp [closeTriple?_nil] at h
  | lone hq =>
    subst hq
    simp [closeTriple?_lone] at h
  | hidden c rest hq ih =>
    subst hq
    obtain ⟨b, rfl, hb⟩ := pushBefore_eq_some (closeTriple?_hidden c rest ▸ h)
    obtain ⟨b', rfl, hb'⟩ := pushBefore_eq_some hb
    obtain ⟨units, more, hfits, rfl⟩ := ih hb'
    have hunit : StringUnit.Fits '"' (.hidden c) := rfl
    exact ⟨.hidden c :: units, more, List.forall_mem_cons.mpr ⟨hunit, hfits⟩, rfl⟩
  | close c rest rest' hc ha =>
    have htext := after?_eq_some_iff.mp ha
    exact ⟨[], rest', List.forall_mem_nil _, htext⟩
  | char c rest hc ha ih =>
    obtain ⟨b, rfl, hb⟩ := pushBefore_eq_some (closeTriple?_char hc ha ▸ h)
    obtain ⟨units, more, hfits, rfl⟩ := ih hb
    have hunit : StringUnit.Fits quote (.char c) := hc
    exact ⟨.char c :: units, more, List.forall_mem_cons.mpr ⟨hunit, hfits⟩, rfl⟩

/-- **Nothing closes a string** exactly if no three quotes stand behind whole units of it. -/
theorem closeTriple?_eq_none_iff (hq : quote ≠ '\\') {text : List Char} :
    closeTriple? quote text = none ↔ ¬ HasTriple quote text := by
  constructor
  · rintro h ⟨units, behind, hfits, rfl⟩
    exact closeTriple?_units_ne_none hq behind hfits h
  · intro h
    cases hc : closeTriple? quote text with
    | none => rfl
    | some parts => exact absurd (hasTriple_of_closeTriple? hc) h

/-! ## 4. Byte by byte

The loop keeps an index into the bytes and nothing else.  It is compared with the search of the text
that is left at the index; a character of several bytes takes the loop as many steps, all but the
first of them over bytes that mean nothing.
-/

namespace ByOffset

/-- Behind the quotes that close a string: at most `left` more quotes belong to it. -/
def extraEnd (quote : UInt8) (bytes : List UInt8) : Nat → Nat → Nat
  | 0, stop => stop
  | left + 1, stop =>
    if bytes[stop]? = some quote then extraEnd quote bytes left (stop + 1) else stop

/-- The end of a string, looked for from the byte at `i` on. -/
def closingEnd? (quote : UInt8) (bytes : List UInt8) (i : Nat) : Option Nat :=
  if h : i < bytes.length then
    if quote = asciiByte '"' ∧ bytes[i] = asciiByte '\\' then closingEnd? quote bytes (i + 2)
    else if [quote, quote, quote].isPrefixOf (bytes.drop i) then
      some (extraEnd quote bytes 2 (i + 3))
    else closingEnd? quote bytes (i + 1)
  else none
termination_by bytes.length - i

/-- The end of the multi-line string that begins at a byte. -/
def tripleEnd? (text : List Char) (start : Nat) : Option Nat :=
  let bytes := utf8 text
  let single := asciiByte '\''
  let double := asciiByte '"'
  if [double, double, double].isPrefixOf (bytes.drop start) then
    closingEnd? double bytes (start + 3)
  else if [single, single, single].isPrefixOf (bytes.drop start) then
    closingEnd? single bytes (start + 3)
  else none

variable {bytes : List UInt8} {i : Nat}

/-- At the end of the bytes nothing is found. -/
theorem closingEnd?_nil (q : UInt8) (h : bytes.drop i = []) : closingEnd? q bytes i = none := by
  have hle : bytes.length ≤ i := List.drop_eq_nil_iff.mp h
  rw [closingEnd?, dif_neg (Nat.not_lt.mpr hle)]

/-- One step of the loop, said of the bytes that are left. -/
theorem closingEnd?_cons (q : UInt8) {b : UInt8} {more : List UInt8}
    (h : bytes.drop i = b :: more) :
    closingEnd? q bytes i
      = if q = asciiByte '"' ∧ b = asciiByte '\\' then closingEnd? q bytes (i + 2)
        else if [q, q, q].isPrefixOf (bytes.drop i) then some (extraEnd q bytes 2 (i + 3))
        else closingEnd? q bytes (i + 1) := by
  have hi : i < bytes.length := by
    by_contra hle
    rw [List.drop_eq_nil_of_le (Nat.le_of_not_lt hle)] at h
    cases h
  have hb : bytes[i] = b := by
    rw [List.drop_eq_getElem_cons hi] at h
    exact (List.cons.inj h).1
  rw [closingEnd?, dif_pos hi, hb]

/-- What is left behind the bytes that were read. -/
theorem drop_add_of_drop {left more : List UInt8} (h : bytes.drop i = left ++ more) :
    bytes.drop (i + left.length) = more := by
  rw [← List.drop_drop, h, List.drop_left]

/-- **The bytes inside a character are passed over.** -/
theorem closingEnd?_inner {q : UInt8} (hq : q.toNat < 128) :
    ∀ {inner : List UInt8} {i : Nat} {more : List UInt8}, (∀ b ∈ inner, 128 ≤ b.toNat) →
      bytes.drop i = inner ++ more →
        closingEnd? q bytes i = closingEnd? q bytes (i + inner.length)
  | [], _, _, _, _ => rfl
  | b :: inner, i, more, hinner, h => by
    obtain ⟨hb, hmore⟩ := List.forall_mem_cons.mp hinner
    have hslash : b ≠ asciiByte '\\' := by
      rintro rfl
      exact absurd hb (by decide)
    have hquote : q ≠ b := by
      rintro rfl
      omega
    have hrest : bytes.drop (i + 1) = inner ++ more := @drop_add_of_drop bytes i [b] _ h
    rw [closingEnd?_cons q h, if_neg (fun hand => hslash hand.2), h, List.cons_append,
      List.isPrefixOf_cons_cons, beq_false_of_ne hquote, Bool.false_and, if_neg Bool.false_ne_true,
      closingEnd?_inner hq hmore hrest, List.length_cons, Nat.add_assoc, Nat.add_comm 1]

theorem extraEnd_eq (hq : quote.toNat < 128) : ∀ {n stop : Nat} {behind : List Char},
    bytes.drop stop = utf8 behind →
      extraEnd (asciiByte quote) bytes n stop = stop + byteLength (splitRun quote n behind).1
  | 0, _, _, _ => rfl
  | n + 1, stop, behind, h => by
    have hhead : bytes[stop]? = some (asciiByte quote) ↔ behind.head? = some quote := by
      rw [← List.head?_drop, h]
      exact head?_utf8_iff hq behind
    rw [extraEnd]
    cases behind with
    | nil => rw [if_neg (fun e => by simpa using hhead.mp e)]; rfl
    | cons c rest =>
      by_cases hc : c = quote
      · rw [hc, utf8_cons] at h
        have hrest := drop_add_of_drop h
        rw [String.length_utf8EncodeChar, utf8Size_ascii hq] at hrest
        rw [if_pos (hhead.mpr (congrArg some hc)), extraEnd_eq hq hrest]
        simp [splitRun, hc, utf8Size_ascii hq, Nat.add_assoc]
      · rw [if_neg (fun e => hc (Option.some.inj (hhead.mp e))), splitRun, if_neg hc]
        rfl

/-- Where the first part of a split ends, if the text that is split begins at `i`. -/
def splitEnd? (i : Nat) (split : Option (List Char × List Char)) : Option Nat :=
  split.map fun parts => i + byteLength parts.1

/-- The first character moves where the rest begins. -/
theorem splitEnd?_pushBefore (i : Nat) (c : Char) (split : Option (List Char × List Char)) :
    splitEnd? i (pushBefore c split) = splitEnd? (i + c.utf8Size) split := by
  rcases split with _ | ⟨before, suffix⟩
  · rfl
  · simp [splitEnd?, pushBefore, Nat.add_assoc]

/-- Three quotes are three bytes. -/
theorem utf8_triple (hq : quote.toNat < 128) :
    utf8 [quote, quote, quote] = [asciiByte quote, asciiByte quote, asciiByte quote] := by
  simp [utf8EncodeChar_ascii hq]

/-- Three quotes at the beginning of a text are its first bytes. -/
theorem isPrefixOf_triple (hq : quote.toNat < 128) (text : List Char) :
    [asciiByte quote, asciiByte quote, asciiByte quote].isPrefixOf (utf8 text)
      = beginsWith [quote, quote, quote] text := by
  have hall : ∀ d ∈ [quote, quote, quote], d.toNat < 128 := by simpa using hq
  exact isPrefixOf_utf8 hall text

/-- **The loop finds the end that the search finds.** -/
theorem closingEnd?_eq (hq : quote = '"' ∨ quote = '\'') {text : List Char} :
    ∀ {i : Nat}, bytes.drop i = utf8 text →
      closingEnd? (asciiByte quote) bytes i = splitEnd? i (closeTriple? quote text) := by
  have hascii : quote.toNat < 128 := by rcases hq with rfl | rfl <;> decide
  have hbyte : (asciiByte quote).toNat < 128 := by rw [toNat_asciiByte hascii]; exact hascii
  have hdouble : asciiByte quote = asciiByte '"' ↔ quote = '"' := by
    rcases hq with rfl | rfl <;> decide
  have hslash : ('\\' : Char).toNat < 128 := by decide
  -- by the cases of the search
  induction text using closeTriple_induction quote with
  | nil =>
    intro i h
    rw [closingEnd?_nil _ h]
    rfl
  | lone hlone =>
    subst hlone
    intro i h
    have hrest : bytes.drop (i + 2) = [] := by
      rw [← List.drop_drop, h]
      rfl
    rw [closingEnd?_cons _ h, if_pos ⟨rfl, rfl⟩, closingEnd?_nil _ hrest]
    rfl
  | hidden c rest hlone ih =>
    -- the first byte of the hidden character is skipped, the others are passed over
    subst hlone
    intro i h
    obtain ⟨b, inner, he, hinner, -⟩ := exists_utf8EncodeChar c
    have hlength : inner.length + 1 = c.utf8Size := by
      rw [← String.length_utf8EncodeChar, he, List.length_cons]
    have hbytes : bytes.drop i = [asciiByte '\\', b] ++ (inner ++ utf8 rest) := by
      rw [h, utf8_cons, utf8_cons, he]
      rfl
    have hskip : bytes.drop (i + 2) = inner ++ utf8 rest := drop_add_of_drop hbytes
    have hend : i + 2 + inner.length = i + ('\\' : Char).utf8Size + c.utf8Size := by
      rw [utf8Size_ascii hslash]
      omega
    rw [closingEnd?_cons _ hbytes, if_pos ⟨rfl, rfl⟩, closingEnd?_inner hbyte hinner hskip,
      ih (drop_add_of_drop hskip), closeTriple?_hidden, splitEnd?_pushBefore, splitEnd?_pushBefore,
      hend]
  | close c rest behind hc ha =>
    intro i h
    obtain ⟨rfl, hrest⟩ := List.cons.inj (after?_eq_some_iff.mp ha)
    have hprefix : [asciiByte c, asciiByte c, asciiByte c].isPrefixOf (bytes.drop i) = true := by
      rw [h, isPrefixOf_triple hascii, beginsWith, ha]
      rfl
    have hbehind : bytes.drop (i + 3) = utf8 behind := by
      have htriple : bytes.drop i = [asciiByte c, asciiByte c, asciiByte c] ++ utf8 behind := by
        rw [h, hrest, ← utf8_triple hascii]
        exact utf8_append [c, c, c] behind
      exact drop_add_of_drop htriple
    have hcons : bytes.drop i = asciiByte c :: utf8 rest := by
      rw [h, utf8_cons, utf8EncodeChar_ascii hascii]
      rfl
    have hopen : ¬ (asciiByte c = asciiByte '"' ∧ asciiByte c = asciiByte '\\') := by
      rintro ⟨h1, h2⟩
      rw [h1] at h2
      exact absurd h2 (by decide)
    rw [closingEnd?_cons _ hcons, if_neg hopen, if_pos hprefix, extraEnd_eq hascii hbehind,
      closeTriple?_close hc ha]
    simp [splitEnd?, utf8Size_ascii hascii, Nat.add_assoc]
    omega
  | char c rest hc ha ih =>
    intro i h
    have hprefix : [asciiByte quote, asciiByte quote, asciiByte quote].isPrefixOf (bytes.drop i)
        = false := by
      rw [h, isPrefixOf_triple hascii, beginsWith, ha]
      rfl
    obtain ⟨b, inner, he, hinner, hb⟩ := exists_utf8EncodeChar c
    have hlength : inner.length + 1 = c.utf8Size := by
      rw [← String.length_utf8EncodeChar, he, List.length_cons]
    have hbytes : bytes.drop i = [b] ++ (inner ++ utf8 rest) := by
      rw [h, utf8_cons, he]
      rfl
    have hskip : bytes.drop (i + 1) = inner ++ utf8 rest := drop_add_of_drop hbytes
    have hnone : ¬ (asciiByte quote = asciiByte '"' ∧ b = asciiByte '\\') := by
      rw [hdouble, hb _ hslash]
      exact fun hand => hc ⟨hand.2, hand.1⟩
    have hend : i + 1 + inner.length = i + c.utf8Size := by omega
    rw [closingEnd?_cons _ hbytes, if_neg hnone, hprefix, if_neg Bool.false_ne_true,
      closingEnd?_inner hbyte hinner hskip, ih (drop_add_of_drop hskip), closeTriple?_char hc ha,
      splitEnd?_pushBefore, hend]

/-- Three quotes do not begin inside a character, nor behind the text. -/
theorem isPrefixOf_of_splitAt?_eq_none (hq : quote.toNat < 128) {text : List Char} {start : Nat}
    (h : splitAt? start text = none) (more : List UInt8) :
    (asciiByte quote :: more).isPrefixOf ((utf8 text).drop start) = false := by
  -- behind the text there is no byte, and inside a character none below 128
  rcases splitAt?_eq_none h with hlt | ⟨b, hb, hle⟩
  · rw [List.drop_eq_nil_of_le (by rw [length_utf8]; omega)]
    rfl
  · rw [← List.head?_drop] at hb
    obtain ⟨rest, hrest⟩ := List.head?_eq_some_iff.mp hb
    have hne : asciiByte quote ≠ b := by
      rintro rfl
      rw [toNat_asciiByte hq] at hle
      omega
    rw [hrest, List.isPrefixOf_cons_cons, beq_false_of_ne hne, Bool.false_and]

/-- The search of a string's end, from behind its opening quotes on. -/
theorem multilineEnd?_of_cut {text front suffix : List Char} {start : Nat}
    (h : splitAt? start text = some (front, suffix)) :
    multilineEnd? text start = (tripleQuote? suffix).bind fun quote =>
      splitEnd? (start + 3) (closeTriple? quote (suffix.drop 3)) := by
  simp only [multilineEnd?, h, splitMultiline?]
  cases hq : tripleQuote? suffix with
  | none => rfl
  | some quote =>
    have hascii : quote.toNat < 128 := by rcases tripleQuote?_cases hq with rfl | rfl <;> decide
    rw [Option.bind_some]
    dsimp only
    rcases closeTriple? quote (suffix.drop 3) with _ | ⟨body, behind⟩
    · rfl
    · simp only [splitEnd?, Option.map_some, byteLength_cons, utf8Size_ascii hascii]
      congr 1
      omega

/-- The loop, behind the opening quotes of a string. -/
theorem closingEnd?_of_tripleQuote? {text suffix : List Char} {start : Nat}
    (hdrop : (utf8 text).drop start = utf8 suffix) (hq : tripleQuote? suffix = some quote) :
    closingEnd? (asciiByte quote) (utf8 text) (start + 3)
      = splitEnd? (start + 3) (closeTriple? quote (suffix.drop 3)) := by
  have hquote := tripleQuote?_cases hq
  have hascii : quote.toNat < 128 := by rcases hquote with rfl | rfl <;> decide
  obtain ⟨rest, rfl⟩ := tripleQuote?_eq_some hq
  have hbytes : (utf8 text).drop start
      = [asciiByte quote, asciiByte quote, asciiByte quote] ++ utf8 rest := by
    rw [hdrop, ← utf8_triple hascii]
    exact utf8_append [quote, quote, quote] rest
  exact closingEnd?_eq hquote (drop_add_of_drop hbytes)

/-- **The end that is found byte by byte** is the end of the string.  A number that is no offset of
the text is where no string begins. -/
theorem tripleEnd?_eq (text : List Char) (start : Nat) :
    tripleEnd? text start = multilineEnd? text start := by
  have hd : ('"' : Char).toNat < 128 := by decide
  have hs : ('\'' : Char).toNat < 128 := by decide
  -- the number is no offset of the text, or the text is cut there and both look at the same quotes
  cases hcut : splitAt? start text with
  | none =>
    simp [tripleEnd?, multilineEnd?, hcut, isPrefixOf_of_splitAt?_eq_none hd hcut,
      isPrefixOf_of_splitAt?_eq_none hs hcut]
  | some parts =>
    obtain ⟨front, suffix⟩ := parts
    have hdrop := drop_utf8 hcut
    rw [multilineEnd?_of_cut hcut]
    simp only [tripleEnd?, hdrop, isPrefixOf_triple hd, isPrefixOf_triple hs]
    by_cases hdouble : beginsWith ['"', '"', '"'] suffix = true
    · have hq : tripleQuote? suffix = some '"' := by rw [tripleQuote?, if_pos hdouble]
      rw [if_pos hdouble, hq, Option.bind_some, closingEnd?_of_tripleQuote? hdrop hq]
    · by_cases hsingle : beginsWith ['\'', '\'', '\''] suffix = true
      · have hq : tripleQuote? suffix = some '\'' := by
          rw [tripleQuote?, if_neg hdouble, if_pos hsingle]
        rw [if_neg hdouble, if_pos hsingle, hq, Option.bind_some,
          closingEnd?_of_tripleQuote? hdrop hq]
      · rw [tripleQuote?, if_neg hdouble, if_neg hsingle, if_neg hdouble, if_neg hsingle,
          Option.bind_none]

end ByOffset

/-! ## 5. The end of a string

A string begins at an offset with three quotes, and its end is an offset, too.  What was said of the
text behind the opening quotes is said here of the whole.
-/

/-- **A string opens** at an offset of a text, with three quotes; `rest` is what stands behind
them. -/
def OpensAt (text : List Char) (start : Nat) (quote : Char) (rest : List Char) : Prop :=
  (quote = '"' ∨ quote = '\'')
    ∧ ∃ front, text = front ++ (quote :: quote :: quote :: rest) ∧ byteLength front = start

/-- The end is looked for from behind the opening quotes on. -/
theorem OpensAt.multilineEnd? {text rest : List Char} {start : Nat}
    (h : OpensAt text start quote rest) :
    multilineEnd? text start = ByOffset.splitEnd? (start + 3) (closeTriple? quote rest) := by
  obtain ⟨hq, front, rfl, rfl⟩ := h
  have htriple : tripleQuote? (quote :: quote :: quote :: rest) = some quote := by
    rcases hq with rfl | rfl <;> simp [tripleQuote?, beginsWith, after?]
  rw [ByOffset.multilineEnd?_of_cut (splitAt?_byteLength _ _), htriple]
  rfl

/-- Where no string opens none ends. -/
theorem multilineEnd?_of_not_opensAt {text : List Char} {start : Nat}
    (h : ¬ ∃ quote rest, OpensAt text start quote rest) : multilineEnd? text start = none := by
  cases hcut : splitAt? start text with
  | none => simp [multilineEnd?, hcut]
  | some parts =>
    obtain ⟨front, suffix⟩ := parts
    rw [ByOffset.multilineEnd?_of_cut hcut]
    cases hq : tripleQuote? suffix with
    | none => rfl
    | some quote =>
      obtain ⟨rest, rfl⟩ := tripleQuote?_eq_some hq
      obtain ⟨rfl, rfl⟩ := splitAt?_eq_some hcut
      exact absurd ⟨quote, rest, tripleQuote?_cases hq, front, rfl, rfl⟩ h

/-- The end of a string lies in the text. -/
theorem le_of_multilineEnd? {text : List Char} {start stop : Nat}
    (h : multilineEnd? text start = some stop) : stop ≤ byteLength text := by
  unfold multilineEnd? at h
  split at h
  · cases h
  · next front suffix hcut =>
    obtain ⟨rfl, rfl⟩ := splitAt?_eq_some hcut
    split at h
    · cases h
    · next value behind hsplit =>
      obtain rfl := Option.some.inj h
      obtain ⟨rfl, -⟩ := splitMultiline?_eq_some hsplit
      simp only [byteLength_append]
      omega

/-- So many quotes are so many bytes. -/
theorem byteLength_replicate {c : Char} (hc : c.toNat < 128) (n : Nat) :
    byteLength (List.replicate n c) = n := by
  induction n with
  | zero => rfl
  | succ n ih =>
    rw [List.replicate_succ, byteLength_cons, ih, utf8Size_ascii hc]
    omega

/-- **The end of a multi-line string is found.**  The string is its body, up to two quotes more
and the three that close it, and its end is found whatever stands in front of it and behind it.
Nothing is found exactly where no string opens or no three quotes follow its opening; what is
found lies in the text; and the search byte by byte finds the same. -/
theorem multilineEnd?_exact :
    (∀ (quote : Char) (units : List StringUnit) (n : Nat) (front behind : List Char),
        quote = '"' ∨ quote = '\'' → IsTripleBody quote units → n ≤ 2 →
        (n < 2 → behind.head? ≠ some quote) →
          multilineEnd? (front ++ [quote, quote, quote] ++ unitsText units ++ List.replicate n quote
              ++ [quote, quote, quote] ++ behind) (byteLength front)
            = some (byteLength front + 3 + byteLength (unitsText units) + n + 3))
      ∧ (∀ text start, multilineEnd? text start = none
        ↔ (¬ ∃ quote rest, OpensAt text start quote rest)
          ∨ ∃ quote rest, OpensAt text start quote rest ∧ ¬ HasTriple quote rest)
      ∧ (∀ text start stop, multilineEnd? text start = some stop → stop ≤ byteLength text)
      ∧ ∀ text start, ByOffset.tripleEnd? text start = multilineEnd? text start := by
  have hne {quote : Char} (hq : quote = '"' ∨ quote = '\'') : quote ≠ '\\' := by
    rcases hq with rfl | rfl <;> decide
  refine ⟨fun quote units n front behind hq hbody hn hb => ?_, fun text start => ⟨fun h => ?_, ?_⟩,
    fun text start stop => le_of_multilineEnd?, ByOffset.tripleEnd?_eq⟩
  -- a string with its body, and up to two quotes in front of those that close it
  · have hascii : quote.toNat < 128 := by rcases hq with rfl | rfl <;> decide
    have hopens : OpensAt (front ++ [quote, quote, quote] ++ unitsText units
        ++ List.replicate n quote ++ [quote, quote, quote] ++ behind) (byteLength front) quote
        (unitsText units ++ (List.replicate n quote ++ (quote :: quote :: quote :: behind))) :=
      ⟨hq, front, by simp, rfl⟩
    rw [hopens.multilineEnd?, hbody.closeTriple? (hne hq), closeTriple?_replicate hn (hne hq) hb]
    simp [ByOffset.splitEnd?, byteLength_replicate hascii, utf8Size_ascii hascii]
    omega
  -- nothing is found: no string opens, or nothing closes it
  · by_cases hopens : ∃ quote rest, OpensAt text start quote rest
    · obtain ⟨quote, rest, ho⟩ := hopens
      rw [ho.multilineEnd?, ByOffset.splitEnd?, Option.map_eq_none_iff,
        closeTriple?_eq_none_iff (hne ho.1)] at h
      exact .inr ⟨quote, rest, ho, h⟩
    · exact .inl hopens
  · rintro (hopens | ⟨quote, rest, ho, hrun⟩)
    · exact multilineEnd?_of_not_opensAt hopens
    · rw [ho.multilineEnd?, (closeTriple?_eq_none_iff (hne ho.1)).mpr hrun]
      rfl

/-- A body with two quotes in it, a hidden letter of two bytes and a hidden quote, and six quotes
behind it, of which the last does not belong to the string. -/
theorem multilineEnd?_six_quotes :
    let text :=
      ['é', '=', '"', '"', '"', '"', '"', '\\', 'é', '\\', '"', '"', '"', '"', '"', '"', '"', '\n']
    IsTripleBody '"' [.char '"', .char '"', .hidden 'é', .hidden '"']
      ∧ multilineEnd? text 3 = some 18 := by
  intro text
  have hbody : IsTripleBody '"' [.char '"', .char '"', .hidden 'é', .hidden '"'] := by
    refine ⟨?_, by decide, by decide⟩
    simp [StringUnit.Fits]
  have hbehind : 2 < 2 → ['"', '\n'].head? ≠ some '"' := fun h => absurd h (by decide)
  have hend :=
    multilineEnd?_exact.1 '"' _ 2 ['é', '='] ['"', '\n'] (.inl rfl) hbody (by decide) hbehind
  exact ⟨hbody, hend⟩

end TomlKeep
