/-
# What the line reader steps over

The line reader searches a line for the end of a key, for a comment and for closing brackets, and
it counts the brackets that a value opens.  All of them pass a quoted string without looking into
it, so a hash, an equals sign or a bracket in a string does nothing.

Here this is said of a text on its own: it is stepped over if every search that begins in front
of it finds what the same search finds behind it, in pieces and by offsets, and if it does not
change a count of brackets (`SteppedOver`).  Such texts are the rows of whole strings and no
others (`steppedOver_iff`).  One half is that a search goes through whole strings (`Quotes`); the
other is that what a search has gone through is text outside quotes (`outside_of_splitOutside?`),
for the search that stops at the first unquoted character.

A text that is stepped over may stand in a line as its value (`SteppedOver.formed`): the value is
all of it, and the comment begins at the first hash behind it.  A quoted literal is such a text,
whatever it quotes (`quote_steppedOver`).
-/
import TomlKeep.Proofs.Keys
import TomlKeep.Proofs.OffsetsAgree

namespace TomlKeep

open Text

/-! ## 1. What a search goes through

A search may begin in a string, so what it has gone through is a rest of a string and then text
outside quotes.  From the outside it is text outside quotes alone.
-/

/-- Text outside quotes may hold more characters for a weaker condition. -/
theorem Outside.mono {p q : Char → Bool} {text : List Char} (h : Outside p text)
    (hpq : ∀ c, p c = true → q c = true) : Outside q text := by
  induction h with
  | nil => exact .nil
  | char h1 h2 h3 _ ih => exact .char h1 h2 (hpq _ h3) ih
  | double hbody _ ih => exact .double hbody ih
  | single hbody _ ih => exact .single hbody ih

/-- The last character closes a string or stands outside quotes. -/
theorem Outside.last {p : Char → Bool} {text : List Char} (h : Outside p text) {c : Char}
    (hc : text.getLast? = some c) : c = '"' ∨ c = '\'' ∨ p c = true := by
  induction h with
  | nil => cases hc
  | @char d rest _ _ hp _ ih =>
    cases rest with
    | nil =>
      obtain rfl := Option.some.inj hc
      exact .inr (.inr hp)
    | cons e rest => exact ih (by rwa [List.getLast?_cons_cons] at hc)
  | @double body rest _ _ ih =>
    rw [← List.cons_append, List.getLast?_append_of_ne_nil _ (List.cons_ne_nil _ _)] at hc
    cases rest with
    | nil => exact .inl (Option.some.inj hc).symm
    | cons e rest => exact ih (by rwa [List.getLast?_cons_cons] at hc)
  | @single body rest _ _ ih =>
    rw [← List.cons_append, List.getLast?_append_of_ne_nil _ (List.cons_ne_nil _ _)] at hc
    cases rest with
    | nil => exact .inr (.inl (Option.some.inj hc).symm)
    | cons e rest => exact ih (by rwa [List.getLast?_cons_cons] at hc)

/-- **What a search has gone through** if it began inside or outside quotes: a string that is
open is closed first. -/
inductive Crossed (p : Char → Bool) : Quoting → List Char → Prop where
  | outside {text : List Char} : Outside p text → Crossed p .outside text
  | double {body rest : List Char} : QuotedBody body → Outside p rest →
      Crossed p .double (body ++ '"' :: rest)
  | single {body rest : List Char} : '\'' ∉ body → Outside p rest →
      Crossed p .single (body ++ '\'' :: rest)

/-- A search stops outside quotes only, so it has closed every string on its way. -/
theorem crossed_of_splitOutside? {found : List Char → Bool} {p : Char → Bool}
    (hp : ∀ c rest, found (c :: rest) = false → p c = true) {state : Quoting}
    {text before suffix : List Char} (h : splitOutside? found state text = some (before, suffix)) :
    Crossed p state before := by
  -- by the cases of the search: in single quotes, in double quotes, and outside
  fun_induction splitOutside? found state text generalizing before with
  | case1 state => cases h
  | case2 c rest ih =>
    obtain ⟨b, rfl, hb⟩ := pushBefore_eq_some h
    have hcrossed := ih hb
    by_cases hc : c = '\''
    · rw [if_pos hc] at hcrossed
      cases hcrossed with
      | outside hrest =>
        subst hc
        have hnothing : '\'' ∉ ([] : List Char) := List.not_mem_nil
        exact .single hnothing hrest
    · rw [if_neg hc] at hcrossed
      cases hcrossed with
      | single hbody hrest =>
        exact .single (List.not_mem_cons_of_ne_of_not_mem (Ne.symm hc) hbody) hrest
  | case3 c rest ih =>
    obtain ⟨_, rfl, hpushed⟩ := pushBefore_eq_some h
    obtain ⟨b, rfl, hb⟩ := pushBefore_eq_some hpushed
    cases ih hb with
    | double hbody hrest => exact .double (.hidden hbody) hrest
  | case4 c rest hhide ih =>
    obtain ⟨b, rfl, hb⟩ := pushBefore_eq_some h
    have hcrossed := ih hb
    by_cases hc : c = '"'
    · rw [if_pos hc] at hcrossed
      cases hcrossed with
      | outside hrest =>
        subst hc
        exact .double .nil hrest
    · rw [if_neg hc] at hcrossed hb
      -- a backslash hides something, or the text ends behind it and nothing is found
      have hslash : c ≠ '\\' := by
        rintro rfl
        cases rest with
        | nil => cases hb
        | cons d rest => exact hhide d rest rfl rfl
      cases hcrossed with
      | double hbody hrest => exact .double (.char hc hslash hbody) hrest
  | case5 rest ih =>
    obtain ⟨b, rfl, hb⟩ := pushBefore_eq_some h
    cases ih hb with
    | double hbody hrest => exact .outside (.double hbody hrest)
  | case6 rest _ ih =>
    obtain ⟨b, rfl, hb⟩ := pushBefore_eq_some h
    cases ih hb with
    | single hbody hrest => exact .outside (.single hbody hrest)
  | case7 c rest _ _ _ =>
    obtain ⟨rfl, -⟩ := Prod.mk.inj (Option.some.inj h)
    exact .outside .nil
  | case8 c rest hd hs hfound ih =>
    obtain ⟨b, rfl, hb⟩ := pushBefore_eq_some h
    cases ih hb with
    | outside hrest => exact .outside (.char hd hs (hp c rest (Bool.eq_false_iff.mpr hfound)) hrest)

/-- **What a search goes through is text outside quotes.** -/
theorem outside_of_splitOutside? {found : List Char → Bool} {p : Char → Bool}
    (hp : ∀ c rest, found (c :: rest) = false → p c = true) {text before suffix : List Char}
    (h : splitOutside? found .outside text = some (before, suffix)) : Outside p before := by
  cases crossed_of_splitOutside? hp h with
  | outside hbefore => exact hbefore

/-! ## 2. Whole strings

Five things are asked of a text, and all follow from the first: the searches of the program by
pieces and by offsets, and the count of brackets, are put together of searches for characters
outside quotes.
-/

/-- **A text that the line reader steps over.**  Whatever is searched for, a search that begins
in front of the text goes on behind it; by offsets, where a search begins at a number and gives
one, both searches give the same.  And the text opens and closes no bracket. -/
structure SteppedOver (text : List Char) : Prop where
  search : ∀ found behind, splitOutside? found .outside (text ++ behind)
    = pushText text (splitOutside? found .outside behind)
  balance : ∀ behind, bracketBalance .outside (text ++ behind) = bracketBalance .outside behind
  charFrom : ∀ stop front behind, ∃ found,
    ByOffset.scanQuoted? stop (front ++ text ++ behind) (byteLength front) = some found
      ∧ ByOffset.scanQuoted? stop (front ++ text ++ behind) (byteLength (front ++ text))
        = some found
  wordFrom : ∀ first more front behind, ∃ found,
    ByOffset.findUnquoted? first more (front ++ text ++ behind) (byteLength front) = some found
      ∧ ByOffset.findUnquoted? first more (front ++ text ++ behind) (byteLength (front ++ text))
        = some found
  delta : ∀ behind, ∃ depth,
    ByOffset.bracketDelta? (text ++ behind) 0 0 = some depth
      ∧ ByOffset.bracketDelta? behind 0 0 = some depth

/-- The text in front moves where the search began. -/
theorem foundAt?_pushText (i : Nat) (text : List Char) (split : Option (List Char × List Char)) :
    ByOffset.foundAt? i (pushText text split) = ByOffset.foundAt? (i + byteLength text) split := by
  rcases split with _ | ⟨before, suffix⟩
  · rfl
  · simp [ByOffset.foundAt?, Nat.add_assoc]

/-- **Whole strings are stepped over, and nothing else is.** -/
theorem steppedOver_iff {text : List Char} : SteppedOver text ↔ Outside (fun _ => false) text := by
  constructor
  · intro h
    -- a search for anything at all stops at the first character outside quotes
    have hstop : splitOutside? (fun _ => true) .outside (text ++ ['x'])
        = some (text ++ [], ['x']) :=
      h.search (fun _ => true) ['x']
    rw [List.append_nil] at hstop
    exact outside_of_splitOutside? (fun _ _ hfound => hfound.symm) hstop
  · intro h
    have hsearch (found : List Char → Bool) (behind : List Char) :
        splitOutside? found .outside (text ++ behind)
          = pushText text (splitOutside? found .outside behind) :=
      splitOutside?_outside h (fun _ _ hc => absurd hc Bool.false_ne_true) behind
    have hbalance : ∀ behind, bracketBalance .outside (text ++ behind)
        = bracketBalance .outside behind :=
      bracketBalance_outside (h.mono fun _ hc => absurd hc Bool.false_ne_true)
    -- the searches by offsets are those in pieces, begun at the length of what stands in front
    refine ⟨hsearch, hbalance, ?_, ?_, ?_⟩
    · intro stop front behind
      have hfront := ByOffset.scanQuoted?_append stop front (text ++ behind)
      rw [hsearch, foundAt?_pushText, ← byteLength_append, ← List.append_assoc] at hfront
      exact ⟨_, hfront, ByOffset.scanQuoted?_append stop (front ++ text) behind⟩
    · intro first more front behind
      have hfront := ByOffset.findUnquoted?_append first more front (text ++ behind)
      have hbehind := ByOffset.findUnquoted?_append first more (front ++ text) behind
      rw [hsearch, pushText, Option.map_map, ← List.append_assoc] at hfront
      refine ⟨_, hfront, ?_⟩
      rw [hbehind]
      simp [Function.comp_def, Nat.add_assoc]
    · intro behind
      have hdelta := ByOffset.bracketDelta?_zero (text ++ behind)
      rw [hbalance] at hdelta
      exact ⟨_, hdelta, ByOffset.bracketDelta?_zero behind⟩

/-! ## 3. In a line

A value in a line has to begin and end with no gap, and the comment must not begin inside it.  The
first is seen from the quotes at both ends of a whole string, and the second is that the search for
a hash steps over it.
-/

/-- **A text that is stepped over may stand in a line as its value.** -/
theorem SteppedOver.formed {value : List Char} (h : SteppedOver value) (hne : value ≠ [])
    {lead gap comment : List Char} {key : KeyPath} (hl : IsLead key lead)
    (ht : IsTail gap comment) :
    (Assignment.mk key lead value gap comment).Formed := by
  have hstrings := steppedOver_iff.mp h
  obtain ⟨c, rest, rfl⟩ := List.exists_cons_of_ne_nil hne
  have hhead : c = '"' ∨ c = '\'' := by simpa using hstrings.head
  have hopens (more : List Char) :
      startsIn Assignment.isQuotedStart (c :: rest ++ more) = true := by
    rcases hhead with rfl | rfl <;> rfl
  have hquote {d : Char} (hd : d = '"' ∨ d = '\'') : isGap d = false := by
    rcases hd with rfl | rfl <;> rfl
  refine ⟨hl, ?_, ?_, ht, ?_⟩
  · intro d hd
    obtain rfl : c = d := Option.some.inj hd
    exact hquote hhead
  · intro d hd
    exact hquote (by simpa using hstrings.last hd)
  · exact splitComment_quoted hopens (hstrings.mono fun _ hc => absurd hc Bool.false_ne_true) ht

/-- **What is read of a line by offsets** are the lengths of what stands in front of the value,
behind it and in front of the comment. -/
theorem ByOffset.classify?_chars {a : Assignment} (h : a.Formed) :
    classify? a.chars = some (.assignment {
      key := a.key
      valueStart := byteLength a.lead
      valueEnd := byteLength (a.lead ++ a.value)
      commentStart? := if a.comment.isEmpty then none
        else some (byteLength (a.lead ++ a.value ++ a.gap)) }) := by
  rw [classify?_eq, classify_eq_assignment_iff.mpr ⟨h, rfl⟩, byteLength_append, byteLength_append,
    byteLength_append]
  rfl

/-- **A quoted literal is stepped over,** whatever text it quotes.  So on a line that assigns it
to a bare key the value is exactly the literal, and the comment begins where it is put.  In front
of the equals sign any blanks may stand, behind it and behind the literal spaces and tabs. -/
theorem quote_steppedOver (text : List Char) :
    SteppedOver (quote text)
      ∧ ∀ {indent key before after gap comment : List Char}, (∀ c ∈ indent, isBlank c = true) →
          key ≠ [] → (∀ c ∈ key, Toml.isBareKeyChar c = true) → (∀ c ∈ before, isBlank c = true) →
          IsGapText after → IsTail gap comment →
          let lead := indent ++ (key ++ before) ++ '=' :: after
          let line := lead ++ quote text ++ gap ++ comment
          classify line = .assignment ⟨⟨[String.ofList key]⟩, lead, quote text, gap, comment⟩
            ∧ ByOffset.classify? line = some (.assignment {
                key := ⟨[String.ofList key]⟩
                valueStart := byteLength lead
                valueEnd := byteLength (lead ++ quote text)
                commentStart? := if comment.isEmpty then none
                  else some (byteLength (lead ++ quote text ++ gap)) }) := by
  have hstepped : SteppedOver (quote text) := steppedOver_iff.mpr (outside_quote _ text)
  refine ⟨hstepped, ?_⟩
  intro indent key before after gap comment hi hne hkey hb ha ht lead line
  have hlead : IsLead ⟨[String.ofList key]⟩ lead :=
    (isSimpleKey_bare hne hkey).isKey.isLead_blanks hi hb ha
  have hform := hstepped.formed (List.cons_ne_nil _ _) hlead ht
  exact ⟨classify_eq_assignment_iff.mpr ⟨hform, rfl⟩, ByOffset.classify?_chars hform⟩

/-- A quote, a hash, a bracket, a line feed and a backslash at the end are stepped over, from
behind a quote that nothing closes, and on a line that is indented by a blank of two bytes. -/
theorem quote_steppedOver_marks :
    let text := ['a', '"', '#', '[', '\n', 'é', '\\']
    let lead := ['\u00A0', 'k', '-', '1', ' ', '=', '\t']
    let line := lead ++ quote text ++ [' '] ++ ['#', '"']
    ByOffset.scanQuoted? (· == '#') (['"'] ++ quote text ++ [']', '#']) 1 = some (some (15, '#'))
      ∧ classify line = .assignment ⟨⟨["k-1"]⟩, lead, quote text, [' '], ['#', '"']⟩
      ∧ ByOffset.classify? line = some (.assignment ⟨⟨["k-1"]⟩, 8, 21, some 22⟩) := by
  intro text lead line
  obtain ⟨hstepped, hline⟩ := quote_steppedOver text
  have hindent : ∀ c ∈ ['\u00A0'], isBlank c = true := List.forall_mem_singleton.mpr (by decide)
  have hkey : ∀ c ∈ ['k', '-', '1'], Toml.isBareKeyChar c = true := by simp [Toml.isBareKeyChar]
  have hbefore : ∀ c ∈ [' '], isBlank c = true := List.forall_mem_singleton.mpr rfl
  have hafter : IsGapText ['\t'] := by decide
  have htail : IsTail [' '] ['#', '"'] := ⟨List.forall_mem_singleton.mpr rfl, by simp⟩
  obtain ⟨hclass, hoffsets⟩ := hline hindent (by simp) hkey hbefore hafter htail
  obtain ⟨found, hfront, hbehind⟩ := hstepped.charFrom (· == '#') ['"'] [']', '#']
  have hfound : ByOffset.scanQuoted? (· == '#') (['"'] ++ quote text ++ [']', '#'])
      (byteLength (['"'] ++ quote text)) = some (some (15, '#')) := by decide +kernel
  refine ⟨?_, hclass, hoffsets⟩
  rw [hbehind.symm.trans hfound] at hfront
  exact hfront

end TomlKeep
