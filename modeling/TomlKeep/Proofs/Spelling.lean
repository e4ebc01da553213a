/-
# Spellings of keys

A key is spelled bare, in single quotes or in double quotes (`KeySpelling`).  However it is
spelled, it is a simple key (`KeySpelling.Valid.isSimpleKey`).  So between gaps and in front of
an equals sign it makes the lead of an assignment (`KeySpelling.Valid.isLead`), and the parts of
a name with dots between them make a header (`classify_header`).
-/
import TomlKeep.Proofs.Keys

namespace TomlKeep

open Text

/-! ## 1. Spellings

One key has several spellings, and a spelling is more than its text: the quotes decide which texts
can be spelled so.  What is asked of a spelling can be computed, so that an example can be checked.
-/

/-- How a key is quoted. -/
inductive KeyQuotes where
  | bare
  | single
  | double
  deriving DecidableEq, Repr

/-- A key as it is spelled. -/
structure KeySpelling where
  quotes : KeyQuotes
  text : List Char
  deriving DecidableEq, Repr

/-- A character of a key in double quotes: only the quote and the backslash are escaped. -/
def escapeKeyChar (c : Char) : List Char :=
  if c = '"' ∨ c = '\\' then ['\\', c] else [c]

namespace KeySpelling

/-- The characters of the spelling. -/
def chars (k : KeySpelling) : List Char :=
  match k.quotes with
  | .bare => k.text
  | .single => '\'' :: (k.text ++ ['\''])
  | .double => '"' :: (k.text.flatMap escapeKeyChar ++ ['"'])

/-- The key that is spelled. -/
def key (k : KeySpelling) : String := String.ofList k.text

/-- Whether the key can be spelled that way, on one line. -/
def Valid (k : KeySpelling) : Prop :=
  match k.quotes with
  | .bare => k.text ≠ [] ∧ ∀ c ∈ k.text, Toml.isBareKeyChar c = true
  | .single => '\'' ∉ k.text ∧ '\n' ∉ k.text
  | .double => '\n' ∉ k.text

end KeySpelling

instance (k : KeySpelling) : Decidable k.Valid :=
  match k with
  | ⟨.bare, text⟩ => decidable_of_iff (text ≠ [] ∧ text.all Toml.isBareKeyChar = true)
    (and_congr_right' List.all_eq_true)
  | ⟨.single, text⟩ => inferInstanceAs (Decidable ('\'' ∉ text ∧ '\n' ∉ text))
  | ⟨.double, text⟩ => inferInstanceAs (Decidable ('\n' ∉ text))

/-! ## 2. Spellings are simple keys

The path reader undoes what a spelling does.  In single quotes there is nothing to undo; in double
quotes the quote and the backslash are hidden, and no character that is spelled so is an escape of
another one.
-/

/-- What stands between the quotes is a body, since quotes and backslashes are hidden in it. -/
theorem quotedBody_escapeKeyChar (text : List Char) : QuotedBody (text.flatMap escapeKeyChar) := by
  induction text with
  | nil => exact .nil
  | cons c rest ih =>
    rw [List.flatMap_cons, escapeKeyChar]
    split
    · exact .hidden ih
    · next h => exact .char (fun e => h (.inl e)) (fun e => h (.inr e)) ih

/-- No character is added but backslashes. -/
theorem not_mem_escapeKeyChar {d : Char} (hd : d ≠ '\\') {text : List Char} (h : d ∉ text) :
    d ∉ text.flatMap escapeKeyChar := by
  simp only [List.mem_flatMap, not_exists, not_and]
  intro c hc hm
  have hne : d ≠ c := fun e => h (e ▸ hc)
  unfold escapeKeyChar at hm
  split at hm <;> simp_all

/-- The escapes of a spelling are undone by the reader.  Only a quote and a backslash are hidden,
and both stand for themselves behind a backslash. -/
theorem unescapeKey_escapeKeyChar (text : List Char) :
    unescapeKey (text.flatMap escapeKeyChar) = text := by
  induction text with
  | nil => rfl
  | cons c rest ih =>
    rw [List.flatMap_cons, escapeKeyChar]
    split
    · next h =>
      have hu : unescapeKeyChar c = c := by
        rcases h with rfl | rfl <;> decide
      simp [unescapeKey, hu, ih]
    · next h => rw [List.singleton_append, unescapeKey_char (fun e => h (.inr e)), ih]

namespace KeySpelling.Valid

variable {k : KeySpelling}

/-- **A spelling is a simple key.** -/
theorem isSimpleKey (h : k.Valid) : IsSimpleKey k.chars k.text := by
  obtain ⟨quotes, text⟩ := k
  cases quotes with
  | bare => exact isSimpleKey_bare h.1 h.2
  | single => exact isSimpleKey_single h.1 h.2
  | double =>
    have hs := isSimpleKey_double (quotedBody_escapeKeyChar text)
      (not_mem_escapeKeyChar (by decide) h)
    rwa [unescapeKey_escapeKeyChar] at hs

/-- A spelling stays on one line. -/
theorem not_feed (h : k.Valid) : '\n' ∉ k.chars := h.isSimpleKey.feed

/-- **A spelled key, an equals sign and gaps make a lead.** -/
theorem isLead (h : k.Valid) {indent before after : List Char} (hi : IsGapText indent)
    (hb : IsGapText before) (ha : IsGapText after) :
    IsLead ⟨[k.key]⟩ (indent ++ (k.chars ++ before) ++ '=' :: after) :=
  h.isSimpleKey.isKey.isLead hi hb ha

end KeySpelling.Valid

/-! ## 3. Names of sections

A name is written with dots between its parts and gaps around each of them.  The gaps at both ends
belong to the brackets and not to the key, so the name is cut into three when it is read as a key.
-/

/-- A part of the name of a section, with the gaps around it. -/
structure NamePart where
  before : List Char
  spelling : KeySpelling
  after : List Char
  deriving DecidableEq, Repr

namespace NamePart

/-- The characters of the part. -/
def chars (p : NamePart) : List Char := p.before ++ (p.spelling.chars ++ p.after)

/-- Whether the part can be written so. -/
def Valid (p : NamePart) : Prop :=
  IsGapText p.before ∧ p.spelling.Valid ∧ IsGapText p.after

instance (p : NamePart) : Decidable p.Valid :=
  inferInstanceAs (Decidable (IsGapText p.before ∧ p.spelling.Valid ∧ IsGapText p.after))

end NamePart

/-- The name of a section: parts with dots between them. -/
def nameChars : List NamePart → List Char
  | [] => []
  | [p] => p.chars
  | p :: q :: rest => p.chars ++ '.' :: nameChars (q :: rest)

/-- The name of a section is a key between gaps. -/
theorem isKey_nameChars : ∀ {parts : List NamePart}, parts ≠ [] → (∀ p ∈ parts, p.Valid) →
    ∃ before core after, nameChars parts = before ++ (core ++ after) ∧ IsGapText before ∧
      IsGapText after ∧ IsKey core (parts.map fun p => p.spelling.text)
  | [], hne, _ => absurd rfl hne
  | [p], _, hv => by
    obtain ⟨hb, hk, ha⟩ := hv p (by simp)
    exact ⟨p.before, p.spelling.chars, p.after, rfl, hb, ha, hk.isSimpleKey.isKey⟩
  -- the gap in front of the first part stays outside, the one behind it goes in front of the dot
  | p :: q :: rest, _, hv => by
    obtain ⟨hb, hk, ha⟩ := hv p (by simp)
    have hrest : ∀ r ∈ q :: rest, r.Valid := fun r hr => hv r (List.mem_cons_of_mem p hr)
    obtain ⟨before, core, after, hcore, hbefore, hafter, hkey⟩ :=
      isKey_nameChars (List.cons_ne_nil q rest) hrest
    refine ⟨p.before, p.spelling.chars ++ (p.after ++ '.' :: (before ++ core)), after, ?_, hb,
      hafter, hk.isSimpleKey.dot ha hbefore hkey⟩
    simp [nameChars, NamePart.chars, hcore]

/-- **A name in brackets is a header.** -/
theorem classify_header {parts : List NamePart} (hne : parts ≠ []) (hv : ∀ p ∈ parts, p.Valid)
    {indent gap comment : List Char} (hi : IsGapText indent) (ht : IsTail gap comment) :
    classify (indent ++ '[' :: (nameChars parts ++ ']' :: (gap ++ comment)))
      = .header ⟨⟨parts.map fun p => p.spelling.key⟩, false⟩ := by
  obtain ⟨before, core, after, hcore, hb, ha, hkey⟩ := isKey_nameChars hne hv
  have h := hkey.classify_header false hi hb ha ht
  rw [hcore]
  simpa [headerBrackets, KeySpelling.key, Function.comp_def] using h

end TomlKeep
