/-
# Values on one line are read back

A value that is written on one line is read as the term of that value, with `null` left out
(`represents_toTerm`).  The reader goes on behind it if what follows ends a value (`EndsValue`):
the end of the line, a comma, or a closing bracket.

Three readers are put together.  A scalar is a string or a token (`takeScalar?_token`); the
members of a list in brackets are taken one by one (`takeMembers?_commaSeparated`); an entry is a
key and a term (`takeBinding?_written`).
-/
import TomlKeep.Proofs.ReadBack
import TomlKeep.Proofs.Keys

namespace TomlKeep

open Text

/-! ## 1. Values without `null`

What a document cannot say is left out when it is written: there is no text for `null`.  What is
read back is therefore the value without it, at every depth, and the nesting of a value is how many
levels the reader has to go down.
-/

mutual

/-- A value without what stands for nothing: `null` in arrays, and the keys of `null`. -/
def Value.withoutNulls : Value → Value
  | .array items => .array (itemsWithoutNulls items)
  | .table entries => .table (entriesWithoutNulls entries)
  | value => value

/-- The items of an array but `null`. -/
def itemsWithoutNulls : List Value → List Value
  | [] => []
  | .null :: rest => itemsWithoutNulls rest
  | value :: rest => value.withoutNulls :: itemsWithoutNulls rest

/-- The entries of a table but those of `null`. -/
def entriesWithoutNulls : List (String × Value) → List (String × Value)
  | [] => []
  | (_, .null) :: rest => entriesWithoutNulls rest
  | (key, value) :: rest => (key, value.withoutNulls) :: entriesWithoutNulls rest

end

mutual

/-- How deep arrays and tables nest. -/
def Value.nesting : Value → Nat
  | .array items => nestingItems items + 1
  | .table entries => nestingEntries entries + 1
  | _ => 0

/-- How deep the deepest item nests. -/
def nestingItems : List Value → Nat
  | [] => 0
  | value :: rest => max value.nesting (nestingItems rest)

/-- How deep the deepest value of an entry nests. -/
def nestingEntries : List (String × Value) → Nat
  | [] => 0
  | (_, value) :: rest => max value.nesting (nestingEntries rest)

end

/-- **A scalar that a document can hold as it is:** floats are finite and date-times canonical.
`null` is left out. -/
def Value.IsExact : Value → Prop
  | .float x => x.isFinite = true
  | .datetime text => Datetime.canonical? text.toList = some text.toList
  | _ => True

namespace Toml

/-! ## 2. Scalars

A scalar ends where its text ends, if what follows belongs to no token and no string.  Behind a date
a space and a digit would be taken for a time, which is why this is asked of what follows as well.
-/

/-- **What may stand behind a value.**  It goes on neither with a token nor with a quote, nor
with the time of a day. -/
structure EndsValue (rest : List Char) : Prop where
  stop : ∀ c, rest.head? = some c → isTokenChar c = false
  quotes : rest.head? ≠ some '"' ∧ rest.head? ≠ some '\''
  noTime : startsIn (· == ' ') rest = true → startsIn Char.isDigit (rest.drop 1) = false

/-- A character that ends a value. -/
theorem endsValue_cons {c : Char} (hc : c = '\n' ∨ c = ',' ∨ c = ']' ∨ c = '}') (rest : List Char) :
    EndsValue (c :: rest) := by
  rcases hc with rfl | rfl | rfl | rfl <;>
  · refine ⟨?_, ?_, ?_⟩
    · intro d hd
      obtain rfl := Option.some.inj hd
      decide
    · exact ⟨by simp, by simp⟩
    · intro h
      exact absurd h (by simp [startsIn])

/-- The space in front of a closing brace. -/
theorem endsValue_brace (rest : List Char) : EndsValue (' ' :: '}' :: rest) := by
  refine ⟨?_, ⟨by simp, by simp⟩, ?_⟩
  · intro d hd
    obtain rfl := Option.some.inj hd
    decide
  · intro _
    rfl

/-- The characters of words are those of tokens. -/
theorem isTokenChar_of_isWordChar {c : Char} (h : isWordChar c = true) : isTokenChar c = true := by
  rw [isTokenChar, Bool.not_eq_true', Bool.eq_false_iff]
  intro hc
  simp only [isGap, Bool.or_eq_true, beq_iff_eq] at hc
  rcases hc with
    ((((((((((((rfl | rfl) | rfl) | rfl) | rfl) | rfl) | rfl) | rfl) | rfl) | rfl) | rfl) | rfl)
      | rfl) <;>
    exact absurd h (by decide)

/-- **A token is read** in front of what ends it. -/
theorem takeScalar?_token {token rest : List Char} {value : Value} (hne : token ≠ [])
    (hw : ∀ c ∈ token, isWordChar c = true) (hv : tokenValue? token = some value)
    (hr : EndsValue rest) : takeScalar? (token ++ rest) = some (.leaf value, rest) := by
  have hchars : ∀ c ∈ token, isTokenChar c = true := by
    intro c hc
    exact isTokenChar_of_isWordChar (hw c hc)
  obtain ⟨htake, hdrop⟩ := takeWhile_append_stop hchars hr.stop
  have hquote : startsIn (fun c => c == '"' || c == '\'') (token ++ rest) = false := by
    obtain ⟨c, more, rfl⟩ := List.exists_cons_of_ne_nil hne
    have hc := hw c List.mem_cons_self
    have h1 : c ≠ '"' := isWordChar_ne hc (by decide)
    have h2 : c ≠ '\'' := isWordChar_ne hc (by decide)
    simp [startsIn, h1, h2]
  -- no time is joined, because none follows
  have hjoin : joinsTime token rest = false := by
    rw [joinsTime, Bool.and_eq_false_iff]
    cases hs : startsIn (· == ' ') rest with
    | true => exact .inr (hr.noTime hs)
    | false => exact .inl (by simp)
  have htoken : takeToken (token ++ rest) = (token, rest) := by
    rw [takeToken_eq, htake, hdrop, hjoin, if_neg Bool.false_ne_true]
  rw [takeScalar?, hquote, if_neg Bool.false_ne_true, htoken]
  simp only [hv, Option.map_some]

/-- **A string is read** in front of what ends it. -/
theorem takeScalar?_writeString (text : List Char) {rest : List Char} (hr : EndsValue rest) :
    takeScalar? (writeString text ++ rest) = some (.leaf (.string (String.ofList text)), rest) := by
  have hquote : startsIn (fun c => c == '"' || c == '\'') (writeString text ++ rest) = true := by
    unfold writeString
    repeat' split
    all_goals rfl
  rw [takeScalar?, if_pos hquote, takeString?_writeString text hr.quotes.1 hr.quotes.2]
  rfl

/-- Where neither an array nor a table begins, a term is a scalar. -/
theorem takeTerm?_scalar {text : List Char} (h1 : text.head? ≠ some '[')
    (h2 : text.head? ≠ some '{') :
    ∀ levels : Nat, takeTerm? levels text = takeScalar? text
  | 0 => rfl
  | levels + 1 => by
    have no {c : Char} (hc : text.head? ≠ some c) : startsIn (· == c) text = false := by
      cases text with
      | nil => rfl
      | cons d rest => simpa [startsIn] using hc
    rw [takeTerm?_succ, no h1, no h2, if_neg Bool.false_ne_true, if_neg Bool.false_ne_true]

/-! ## 3. Lists in brackets

Items and entries are separated by a comma and a space, so behind each comma there is a gap, which
the reader skips before it takes the next member.  How a member is read is a parameter, as it is in
the reader.
-/

/-- **How a member of a list begins:** with no blank, no comment and no closing bracket. -/
def Begun (text : List Char) : Prop :=
  ∃ c more, text = c :: more ∧ isGap c = false ∧ c ≠ '\n' ∧ c ≠ '\r' ∧ c ≠ '#' ∧ c ≠ ']' ∧ c ≠ '}'

namespace Begun

variable {text : List Char}

/-- What begins a member begins it with more behind. -/
theorem append (h : Begun text) (rest : List Char) : Begun (text ++ rest) := by
  obtain ⟨c, more, rfl, hc⟩ := h
  exact ⟨c, more ++ rest, rfl, hc⟩

/-- Nothing is skipped in front of a member. -/
theorem skipFiller? (h : Begun text) : skipFiller? false text = some text := by
  obtain ⟨c, more, rfl, hg, hn, hr, hh, -⟩ := h
  rw [Toml.skipFiller?, if_neg hn, if_neg hr, if_neg Bool.false_ne_true, if_neg (by simp [hg]),
    if_neg hh]

/-- A member is no closing bracket. -/
theorem not_closing (h : Begun text) {closing : Char} (hc : closing = ']' ∨ closing = '}') :
    startsIn (· == closing) text = false := by
  obtain ⟨c, more, rfl, -, -, -, -, h1, h2⟩ := h
  rcases hc with rfl | rfl
  · simpa [startsIn] using h1
  · simpa [startsIn] using h2

end Begun

/-- A gap in front of what begins a member does not count. -/
theorem skipFiller?_gap : ∀ {gap : List Char}, IsGapText gap → ∀ rest,
    skipFiller? false (gap ++ rest) = skipFiller? false rest
  | [], _, _ => rfl
  | c :: gap, h, rest => by
    obtain ⟨hc, hg⟩ := List.forall_mem_cons.mp h
    have hn : c ≠ '\n' ∧ c ≠ '\r' := by
      refine ⟨?_, ?_⟩ <;>
      · rintro rfl
        exact absurd hc (by decide)
    rw [List.cons_append, skipFiller?, if_neg hn.1, if_neg hn.2, if_neg Bool.false_ne_true,
      if_pos hc, skipFiller?_gap hg]

/-- **A member that is taken** in front of what ends it. -/
def Taken {α : Type} (item : List Char → Option (α × List Char)) (text : List Char) (result : α) :
    Prop :=
  Begun text ∧ ∀ rest, EndsValue rest → item (text ++ rest) = some (result, rest)

/-- The end of a list: a closing bracket, with a gap in front of it or none. -/
structure EndsList (closing : Char) (tail behind : List Char) : Prop where
  ends : EndsValue tail
  skipped : skipFiller? false tail = some (closing :: behind)

/-- **The members of a list are taken one by one.**  By induction on the members, each with the
gap in front of it and with its comma behind it. -/
theorem takeMembers?_commaSeparated {α : Type} {closing : Char} (hc : closing = ']' ∨ closing = '}')
    {item : List Char → Option (α × List Char)} {tail behind : List Char}
    (ht : EndsList closing tail behind) : ∀ (members : List (List Char × α)),
      (∀ m ∈ members, Taken item m.1 m.2) → ∀ gap, IsGapText gap → ∀ bound,
        (commaSeparated (members.map (·.1))).length < bound →
          takeMembers? closing item bound (gap ++ (commaSeparated (members.map (·.1)) ++ tail))
            = some (members.map (·.2), behind)
  | _, _, _, _, 0, hb => absurd hb (Nat.not_lt_zero _)
  | [], _, gap, hg, bound + 1, _ => by
    have hskip : skipFiller? false (gap ++ (commaSeparated [] ++ tail))
        = some (closing :: behind) := by
      rw [skipFiller?_gap hg]
      exact ht.skipped
    have hclose : startsIn (· == closing) (closing :: behind) = true := by simp [startsIn]
    simp only [takeMembers?, List.map_nil, hskip, Option.bind_some, hclose, if_true, List.drop_one,
      List.tail_cons]
  | [m], hm, gap, hg, bound + 1, _ => by
    obtain ⟨hbegun, htake⟩ := hm m List.mem_cons_self
    have hone : commaSeparated [m.1] = m.1 := by simp [commaSeparated, List.intercalate]
    have hskip : skipFiller? false (gap ++ (m.1 ++ tail)) = some (m.1 ++ tail) := by
      rw [skipFiller?_gap hg, (hbegun.append tail).skipFiller?]
    have hclose : startsIn (· == closing) (closing :: behind) = true := by simp [startsIn]
    simp only [takeMembers?, List.map_cons, List.map_nil, hone, hskip, Option.bind_some,
      (hbegun.append tail).not_closing hc, Bool.false_eq_true, if_false, htake tail ht.ends,
      ht.skipped, goOn, hclose, if_true, List.drop_one, List.tail_cons]
  | m :: m' :: members, hm, gap, hg, bound + 1, hb => by
    obtain ⟨⟨hbegun, htake⟩, hmembers⟩ := List.forall_mem_cons.mp hm
    -- a member, a comma and a space, and the others
    have hmany : commaSeparated ((m :: m' :: members).map (·.1))
        = m.1 ++ ',' :: ' ' :: commaSeparated ((m' :: members).map (·.1)) := by
      simp [commaSeparated, List.intercalate_cons_cons]
    have hbound : (commaSeparated ((m' :: members).map (·.1))).length < bound := by
      rw [hmany] at hb
      simp only [List.length_append, List.length_cons] at hb ⊢
      omega
    have ih :=
      takeMembers?_commaSeparated hc ht (m' :: members) hmembers [' '] (by decide) bound hbound
    have htext : commaSeparated ((m :: m' :: members).map (·.1)) ++ tail
        = m.1 ++ ',' :: ' ' :: (commaSeparated ((m' :: members).map (·.1)) ++ tail) := by
      rw [hmany]
      simp
    rw [htext]
    generalize commaSeparated ((m' :: members).map (·.1)) ++ tail = more at ih
    have hskip : skipFiller? false (gap ++ (m.1 ++ ',' :: ' ' :: more))
        = some (m.1 ++ ',' :: ' ' :: more) := by
      rw [skipFiller?_gap hg, (hbegun.append _).skipFiller?]
    have hcomma : skipFiller? false (',' :: ' ' :: more) = some (',' :: ' ' :: more) := rfl
    have hclose : startsIn (· == closing) (',' :: ' ' :: more) = false := by
      rcases hc with rfl | rfl <;> rfl
    have hgo : startsIn (· == ',') (',' :: ' ' :: more) = true := rfl
    rw [List.singleton_append] at ih
    simp only [takeMembers?, hskip, Option.bind_some, (hbegun.append _).not_closing hc,
      Bool.false_eq_true, if_false, htake _ (endsValue_cons (.inr (.inl rfl)) _), hcomma, goOn,
      hclose, hgo, if_true, List.drop_one, List.tail_cons, ih, Option.map_some]
    rfl

/-! ## 4. Keys and entries

An entry is a key, an equals sign between spaces, and a term.  Entries of inline tables and those on
lines of their own are read in the same way, save for what is skipped around the equals sign.
-/

/-- A character that begins a key is none of those that begin no key. -/
theorem ne_of_beginsKey {c d : Char} (hc : isBareKeyChar c = true ∨ c = '"' ∨ c = '\'')
    (hd : isBareKeyChar d = false) (h1 : '"' ≠ d) (h2 : '\'' ≠ d) : c ≠ d := by
  rcases hc with hc | rfl | rfl
  · exact isBareKeyChar_ne hc hd
  · exact h1
  · exact h2

/-- What a key begins with begins a member. -/
theorem begun_of_isBareKeyChar {c : Char} (hc : isBareKeyChar c = true ∨ c = '"' ∨ c = '\'')
    (more : List Char) : Begun (c :: more) := by
  refine ⟨c, more, rfl, ?_⟩
  have ne {d : Char} := @ne_of_beginsKey c d hc
  have hgap : isGap c = false := by
    have hspace : c ≠ ' ' := ne (by decide) (by decide) (by decide)
    have htab : c ≠ '\t' := ne (by decide) (by decide) (by decide)
    simp [isGap, hspace, htab]
  exact ⟨hgap, ne (by decide) (by decide) (by decide), ne (by decide) (by decide) (by decide),
    ne (by decide) (by decide) (by decide), ne (by decide) (by decide) (by decide),
    ne (by decide) (by decide) (by decide)⟩

/-- **How a key begins:** with a quote or with a character of a bare key. -/
theorem exists_writeKey (key : String) : ∃ c more, writeKey key = c :: more
    ∧ (isBareKeyChar c = true ∨ c = '"' ∨ c = '\'') := by
  unfold writeKey
  simp only
  split
  · next h =>
    simp only [Bool.and_eq_true, Bool.not_eq_true', List.isEmpty_eq_false_iff, List.all_eq_true]
      at h
    obtain ⟨c, more, hcons⟩ := List.exists_cons_of_ne_nil h.1
    exact ⟨c, more, hcons, .inl (h.2 c (by simp [hcons]))⟩
  split
  · exact ⟨_, _, rfl, .inr (.inl rfl)⟩
  split
  · exact ⟨_, _, rfl, .inr (.inr rfl)⟩
  · exact ⟨_, _, rfl, .inr (.inl rfl)⟩

/-- So a key begins one. -/
theorem begun_writeKey (key : String) : Begun (writeKey key) := by
  obtain ⟨c, more, hkey, hc⟩ := exists_writeKey key
  rw [hkey]
  exact begun_of_isBareKeyChar hc more

/-- **An entry is taken:** its key, and the term behind the equals sign and what is skipped
there. -/
theorem takeBinding?_written {skip? : List Char → Option (List Char)}
    {item : List Char → Option (Term × List Char)} (key : String) {text body : List Char}
    (he : ∀ more, skip? ('=' :: more) = some ('=' :: more)) (hs : skip? (' ' :: text) = some body) :
    takeBinding? skip? item (writeKey key ++ ([' ', '=', ' '] ++ text))
      = (item body).map fun (term, behind) => (([key], term), behind) := by
  -- a written key begins with no gap, and ends in front of one
  have hdrop : (writeKey key ++ ([' ', '=', ' '] ++ text)).dropWhile isGap
      = writeKey key ++ ([' ', '=', ' '] ++ text) := by
    obtain ⟨c, more, hkey, hg, -⟩ := begun_writeKey key
    rw [hkey, List.cons_append, List.dropWhile_cons_of_neg (by simp [hg])]
  have hkey : takeSimpleKey? (writeKey key ++ ([' ', '=', ' '] ++ text))
      = some (key, [' ', '=', ' '] ++ text) := by
    refine takeSimpleKey?_writeKey key ?_
    intro c hc
    obtain rfl := Option.some.inj hc
    decide
  have hbehind : ([' ', '=', ' '] ++ text).dropWhile isGap = '=' :: ' ' :: text := rfl
  have htake : takeKey? maxKeyParts (writeKey key ++ ([' ', '=', ' '] ++ text))
      = some ([key], '=' :: ' ' :: text) := by
    rw [maxKeyParts, takeKey?_succ, hdrop, hkey, Option.bind_some]
    simp only [hbehind]
    rfl
  have hequals : startsIn (· == '=') ('=' :: ' ' :: text) = true := rfl
  simp only [takeBinding?_eq, htake, Option.bind_some, he, hequals, if_true, List.drop_one,
    List.tail_cons, hs]

/-! ## 5. What is left without `null`

Leaving `null` out is a filter on entries, though it is defined by recursion.  A table keeps its
other keys in their order.
-/

/-- An item that is not `null` is kept. -/
theorem itemsWithoutNulls_cons {value : Value} (h : value ≠ .null) (rest : List Value) :
    itemsWithoutNulls (value :: rest) = value.withoutNulls :: itemsWithoutNulls rest := by
  cases value with
  | null => exact absurd rfl h
  | _ => rfl

/-- So is an entry. -/
theorem entriesWithoutNulls_cons {value : Value} (h : value ≠ .null) (key : String)
    (rest : List (String × Value)) : entriesWithoutNulls ((key, value) :: rest)
      = (key, value.withoutNulls) :: entriesWithoutNulls rest := by
  cases value with
  | null => exact absurd rfl h
  | _ => rfl

/-- The keys that are left are some of the keys, in their order. -/
theorem keys_entriesWithoutNulls : ∀ entries : Table,
    (Keyed.keys (entriesWithoutNulls entries)).Sublist (Keyed.keys entries)
  | [] => .slnil
  | (key, value) :: rest => by
    have ih := keys_entriesWithoutNulls rest
    by_cases h : value = .null
    · subst h
      exact ih.cons key
    · rw [entriesWithoutNulls_cons h]
      exact ih.cons_cons key

/-- Every item without `null` comes from an item. -/
theorem exists_of_mem_itemsWithoutNulls {items : List Value} {value : Value}
    (h : value ∈ itemsWithoutNulls items) : ∃ v ∈ items, value = v.withoutNulls := by
  induction items with
  | nil => cases h
  | cons v rest ih =>
    by_cases hv : v = .null
    · subst hv
      obtain ⟨w, hw, he⟩ := ih h
      exact ⟨w, List.mem_cons_of_mem _ hw, he⟩
    · rw [itemsWithoutNulls_cons hv] at h
      rcases List.mem_cons.mp h with rfl | h
      · exact ⟨v, List.mem_cons_self, rfl⟩
      · obtain ⟨w, hw, he⟩ := ih h
        exact ⟨w, List.mem_cons_of_mem _ hw, he⟩

/-- **The entries without `null`** are the entries that are not `null`. -/
theorem mem_entriesWithoutNulls {entries : Table} {key : String} {value : Value} :
    (key, value) ∈ entriesWithoutNulls entries
      ↔ ∃ v, (key, v) ∈ entries ∧ v ≠ .null ∧ value = v.withoutNulls := by
  induction entries with
  | nil => simp [entriesWithoutNulls]
  | cons e rest ih =>
    obtain ⟨k, v⟩ := e
    -- a null value is none of the entries, and any other is the first of them
    by_cases hv : v = .null
    · subst hv
      rw [entriesWithoutNulls, ih]
      constructor
      · rintro ⟨w, hw, h⟩
        exact ⟨w, List.mem_cons_of_mem _ hw, h⟩
      · rintro ⟨w, hw, hne, h⟩
        rcases List.mem_cons.mp hw with he | hw
        · exact absurd (Prod.mk.inj he).2 hne
        · exact ⟨w, hw, hne, h⟩
    · rw [entriesWithoutNulls_cons hv, List.mem_cons, ih]
      constructor
      · rintro (he | ⟨w, hw, h⟩)
        · obtain ⟨rfl, rfl⟩ := Prod.mk.inj he
          exact ⟨v, List.mem_cons_self, hv, rfl⟩
        · exact ⟨w, List.mem_cons_of_mem _ hw, h⟩
      · rintro ⟨w, hw, hne, rfl⟩
        rcases List.mem_cons.mp hw with he | hw
        · obtain ⟨rfl, rfl⟩ := Prod.mk.inj he
          exact .inl rfl
        · exact .inr ⟨w, hw, hne, rfl⟩

/-- What stands under a key without `null`. -/
theorem find?_entriesWithoutNulls {entries : Table} (hn : (Keyed.keys entries).Nodup) {key : String}
    {value : Value} (hm : (key, value) ∈ entries) (hv : value ≠ .null) :
    Keyed.find? key (entriesWithoutNulls entries) = some value.withoutNulls :=
  Keyed.find?_of_mem (hn.sublist (keys_entriesWithoutNulls entries))
    (mem_entriesWithoutNulls.mpr ⟨value, hm, hv, rfl⟩)

/-- Every value but `null` has a text. -/
theorem writeInline?_eq_none {value : Value} : writeInline? value = none ↔ value = .null := by
  cases value with
  | null => simp [writeInline?]
  | table entries =>
    rw [writeInline?]
    cases inlineEntries entries <;> simp
  | _ => simp [writeInline?]

/-! ## 6. Values are read back

A value is written and read by recursion on it, and the two go along together: to each text belongs
the term that is read from it, and to the term the value (`Represents`).  The texts, terms and
values of the members of a list are three lists of one length, which are built side by side.
-/

/-- **A literal is read** as the scalar that it stands for. -/
theorem takeTerm?_literal {literal rest : List Char} {value : Value} (hl : IsLiteral literal)
    (hv : scalarOf? literal = some value) (hr : EndsValue rest) (levels : Nat) :
    takeTerm? levels (literal ++ rest) = some (.leaf value, rest) := by
  have hline := hl.oneLine
  have hhead (c : Char) : (literal ++ rest).head? = some c → literal.head? = some c := by
    intro hc
    rwa [List.head?_append_of_ne_nil _ hline.ne_nil] at hc
  rw [takeTerm?_scalar (fun hc => hline.bracket.1 (hhead _ hc))
    (fun hc => hline.bracket.2 (hhead _ hc))]
  cases hl with
  | quoted text =>
    rw [scalarOf?_quote] at hv
    obtain rfl := Option.some.inj hv
    have hquote : startsIn (fun c => c == '"' || c == '\'') (quote text ++ rest) = true := rfl
    rw [takeScalar?, if_pos hquote, takeString?_quote text hr.quotes.1]
    rfl
  | word hne hw =>
    rw [scalarOf?_word hne hw] at hv
    exact takeScalar?_token hne hw hv hr

/-- A literal is taken as the scalar that it stands for. -/
theorem taken_literal {literal : List Char} {value : Value} (hl : IsLiteral literal)
    (hv : scalarOf? literal = some value) (levels : Nat) :
    Taken (takeTerm? levels) literal (.leaf value) := by
  constructor
  · cases hl with
    | quoted text => exact begun_of_isBareKeyChar (.inr (.inl rfl)) _
    | word hne hw =>
      obtain ⟨c, more, rfl⟩ := List.exists_cons_of_ne_nil hne
      have ne {d : Char} (hd : isWordChar d = false) : c ≠ d :=
        isWordChar_ne (hw c List.mem_cons_self) hd
      have hgap : isGap c = false := by
        have hspace : c ≠ ' ' := ne (by decide)
        have htab : c ≠ '\t' := ne (by decide)
        simp [isGap, hspace, htab]
      exact ⟨c, more, rfl, hgap, ne (by decide), ne (by decide), ne (by decide), ne (by decide),
        ne (by decide)⟩
  · intro rest hr
    exact takeTerm?_literal hl hv hr levels

/-- **A scalar is read back.**  Floats and strings are written in a document otherwise than in a
literal, and have their own lemmas. -/
theorem taken_scalar {value : Value} (hs : value.isScalar = true) (hx : value.IsExact)
    {text : List Char} (ht : writeInline? value = some text) (levels : Nat) :
    Taken (takeTerm? levels) text (.leaf value) := by
  -- but for floats and strings the text is the literal of the value
  have literal (hnull : value ≠ .null) (hp : value.isPlain = true)
      (hl : value.literal? = some text) :
      Taken (takeTerm? levels) text (.leaf value) := by
    exact taken_literal (isLiteral_of_literal? hp hl) (scalarOf?_literal? hp hnull hl) levels
  cases value with
  | null => cases ht
  | bool b => exact literal (by simp) rfl ht
  | integer n => exact literal (by simp) rfl ht
  | float x =>
    cases x with
    | nan | infinite => cases hx
    | finite negative rank =>
      obtain rfl := Option.some.inj ht
      have hl : IsLiteral (writeFloat (.finite negative rank)) :=
        FloatStyle.isLiteral_signed _ negative rank.val
      have hv : tokenValue? (writeFloat (.finite negative rank))
          = some (.float (.finite negative rank)) :=
        tokenValue?_signed rfl rfl negative rank
      refine taken_literal hl ?_ levels
      rw [scalarOf?_of_isLiteral hl (head?_ne_of_tokenValue? hl hv), hv]
  | string s =>
    obtain rfl := Option.some.inj ht
    obtain ⟨c, more, hc, hquote⟩ : ∃ c more, writeString s.toList = c :: more
      ∧ (c = '"' ∨ c = '\'') := by
      unfold writeString
      repeat' split
      all_goals first
        | exact ⟨_, _, rfl, .inl rfl⟩
        | exact ⟨_, _, rfl, .inr rfl⟩
    constructor
    · rw [hc]
      exact begun_of_isBareKeyChar (.inr hquote) more
    · intro rest hr
      have hhead : (writeString s.toList ++ rest).head? = some c := by rw [hc]; rfl
      have h1 : (writeString s.toList ++ rest).head? ≠ some '[' := by
        rw [hhead]
        rcases hquote with rfl | rfl <;> simp
      have h2 : (writeString s.toList ++ rest).head? ≠ some '{' := by
        rw [hhead]
        rcases hquote with rfl | rfl <;> simp
      rw [takeTerm?_scalar h1 h2, takeScalar?_writeString _ hr, String.ofList_toList]
  | datetime text' =>
    have hc : Datetime.canonical? text'.toList = some text'.toList := hx
    refine literal (by simp) (by simp [Value.isPlain, hc]) ?_
    rw [← ht, writeInline?, writeDatetime, hc, Value.literal?]
  | array | table => cases hs

mutual

/-- The term that a value is read as: its tables are inline. -/
def toTerm : Value → Term
  | .array items => .array (itemTerms items)
  | .table entries => .inline ((entryTerms entries).map fun e => ([e.1], e.2))
  | value => .leaf value

/-- The terms of the items of an array. -/
def itemTerms : List Value → List Term
  | [] => []
  | .null :: rest => itemTerms rest
  | value :: rest => toTerm value :: itemTerms rest

/-- The terms of the values of a table under their keys. -/
def entryTerms : List (String × Value) → List (String × Term)
  | [] => []
  | (_, .null) :: rest => entryTerms rest
  | (key, value) :: rest => (key, toTerm value) :: entryTerms rest

end

/-- An item that is not `null` has a term. -/
theorem itemTerms_cons {value : Value} (h : value ≠ .null) (rest : List Value) :
    itemTerms (value :: rest) = toTerm value :: itemTerms rest := by
  cases value with
  | null => exact absurd rfl h
  | _ => rfl

/-- So has an entry. -/
theorem entryTerms_cons {value : Value} (h : value ≠ .null) (key : String)
    (rest : List (String × Value)) :
    entryTerms ((key, value) :: rest) = (key, toTerm value) :: entryTerms rest := by
  cases value with
  | null => exact absurd rfl h
  | _ => rfl

/-- An entry as it is written: the key, the text of the value, and the term that is read. -/
structure WrittenEntry where
  key : String
  text : List Char
  term : Term

/-- The text of the entry. -/
def WrittenEntry.line (w : WrittenEntry) : List Char := writeKey w.key ++ [' ', '=', ' '] ++ w.text

/-- A text that is read as a term of the value. -/
def Represents (levels : Nat) (text : List Char) (term : Term) (value : Value) : Prop :=
  term.value? = some value ∧ Taken (takeTerm? levels) text term

/-- An entry that is read as an entry of the key and the value. -/
def WrittenEntry.Represents (levels : Nat) (w : WrittenEntry) (e : String × Value) : Prop :=
  w.key = e.1 ∧ Toml.Represents levels w.text w.term e.2

/-- The nodes of values. -/
def valueNodes (entries : Table) : Nodes := entries.map fun e => (e.1, .value e.2)

@[simp] theorem nodeEntries_valueNodes (entries : Table) :
    nodeEntries (valueNodes entries) = entries := by
  simp [nodeEntries_eq_map, valueNodes, Function.comp_def, Node.toValue]

/-- The nodes of values have their keys. -/
theorem keys_valueNodes (entries : Table) :
    Keyed.keys (valueNodes entries) = Keyed.keys entries := by
  simp [Keyed.keys, valueNodes]

/-- A key that is none of the keys is not contained. -/
theorem contains_eq_false {α : Type} {key : String} {entries : List (String × α)}
    (h : key ∉ Keyed.keys entries) : Keyed.contains key entries = false := by
  rw [Keyed.contains, Keyed.find?_eq_none.mpr h]
  rfl

/-- **Entries with distinct keys are added one by one.**  A key that is new to the table is put
at its end. -/
theorem termEntries?_eq {levels : Nat} : ∀ {ws : List WrittenEntry} {entries : Table},
    List.Forall₂ (WrittenEntry.Represents levels) ws entries → ∀ nodes : Nodes,
      (Keyed.keys nodes ++ Keyed.keys entries).Nodup →
        termEntries? (ws.map fun w => ([w.key], w.term)) nodes = some (nodes ++ valueNodes entries)
  | _, _, .nil, nodes, _ => by simp [termEntries?, valueNodes]
  | w :: ws, (key, value) :: entries, .cons hw hws, nodes, hn => by
    obtain ⟨hkey, hvalue, -⟩ := hw
    obtain rfl : w.key = key := hkey
    have hnot : w.key ∉ Keyed.keys nodes := by
      intro hm
      exact (List.nodup_append.mp hn).2.2 _ hm _ List.mem_cons_self rfl
    have hn' : (Keyed.keys (nodes ++ [(w.key, Node.value value)]) ++ Keyed.keys entries).Nodup := by
      simpa [Keyed.keys] using hn
    -- a single key that is new
    have hadd : addAt? value true [w.key] nodes = some (nodes ++ [(w.key, .value value)]) := by
      rw [addAt?, contains_eq_false hnot]
      rfl
    rw [List.map_cons, termEntries?, hvalue]
    simp only [hadd, termEntries?_eq hws _ hn']
    simp [valueNodes]
termination_by structural ws => ws

/-- The values of items are taken one by one. -/
theorem termItems?_eq {levels : Nat} {members : List (List Char × Term)} {items : List Value}
    (h : List.Forall₂ (fun m v => Represents levels m.1 m.2 v) members items) :
    termItems? (members.map (·.2)) = some items := by
  induction h with
  | nil => rfl
  | cons hm _ ih =>
    rw [List.map_cons, termItems?, hm.1, ih]

/-- Entries that are taken in an inline table. -/
theorem taken_line {levels : Nat} {w : WrittenEntry} {e : String × Value}
    (h : w.Represents levels e) :
    Taken (takeBinding? (skipFiller? false) (takeTerm? levels)) w.line ([w.key], w.term) := by
  obtain ⟨-, -, hbegun, htake⟩ := h
  constructor
  · rw [WrittenEntry.line, List.append_assoc]
    exact (begun_writeKey w.key).append _
  · intro rest hr
    have hskip : skipFiller? false (' ' :: (w.text ++ rest)) = some (w.text ++ rest) := by
      rw [← List.singleton_append, skipFiller?_gap (by decide), (hbegun.append rest).skipFiller?]
    have hline : w.line ++ rest = writeKey w.key ++ ([' ', '=', ' '] ++ (w.text ++ rest)) := by
      simp [WrittenEntry.line]
    have hequals (more : List Char) : skipFiller? false ('=' :: more) = some ('=' :: more) := rfl
    rw [hline, takeBinding?_written w.key hequals hskip, htake rest hr]
    rfl

/-- What follows from being related to something holds of each member. -/
theorem forall_of_forall₂ {α β : Type} {r : α → β → Prop} {p : α → Prop} {as : List α} {bs : List β}
    (h : List.Forall₂ r as bs) (hp : ∀ a b, r a b → p a) : ∀ a ∈ as, p a := by
  induction h with
  | nil => simp
  | cons hr _ ih => exact List.forall_mem_cons.mpr ⟨hp _ _ hr, ih⟩

/-- **An array is read back** if its items are, one level further up. -/
theorem represents_array {levels : Nat} {members : List (List Char × Term)} {items : List Value}
    (h : List.Forall₂ (fun m v => Represents levels m.1 m.2 v) members items) :
    Represents (levels + 1) ('[' :: commaSeparated (members.map (·.1)) ++ [']'])
      (.array (members.map (·.2))) (.array items) := by
  have hmembers : ∀ m ∈ members, Taken (takeTerm? levels) m.1 m.2 :=
    forall_of_forall₂ h fun _ _ hm => hm.2
  constructor
  -- the three parts: the value of the term, how its text begins, and what is taken of it
  · rw [Term.value?, termItems?_eq h]
    rfl
  constructor
  · exact ⟨'[', _, rfl, by decide, by decide, by decide, by decide, by decide, by decide⟩
  · intro rest _
    have hends : EndsList ']' (']' :: rest) rest :=
      ⟨endsValue_cons (.inr (.inr (.inl rfl))) rest, rfl⟩
    have htake := takeMembers?_commaSeparated (.inl rfl) hends members hmembers [] (by decide)
      (commaSeparated (members.map (·.1)) ++ ']' :: rest).length.succ (by simp)
    rw [List.nil_append] at htake
    have htext : '[' :: commaSeparated (members.map (·.1)) ++ [']'] ++ rest
        = '[' :: (commaSeparated (members.map (·.1)) ++ ']' :: rest) := by simp
    have hstart : startsIn (· == '[') ('[' :: (commaSeparated (members.map (·.1)) ++ ']' :: rest))
        = true :=
      rfl
    rw [htext, takeTerm?_succ, if_pos hstart, List.drop_one, List.tail_cons, takeItems?_eq, htake]
    rfl

/-- The braces of an inline table, with a space inside them if it has entries. -/
def inlineTable (texts : List (List Char)) : List Char :=
  match texts with
  | [] => ['{', '}']
  | texts => ['{', ' '] ++ commaSeparated texts ++ [' ', '}']

/-- **An inline table is read back** if its entries are and their keys are distinct. -/
theorem represents_table {levels : Nat} {ws : List WrittenEntry} {entries : Table}
    (h : List.Forall₂ (WrittenEntry.Represents levels) ws entries)
    (hn : (Keyed.keys entries).Nodup) :
    Represents (levels + 1) (inlineTable (ws.map WrittenEntry.line))
      (.inline (ws.map fun w => ([w.key], w.term))) (.table entries) := by
  have hlines : ∀ m ∈ ws.map (fun w => (w.line, ([w.key], w.term))),
      Taken (takeBinding? (skipFiller? false) (takeTerm? levels)) m.1 m.2 := by
    intro m hm
    obtain ⟨w, hw, rfl⟩ := List.mem_map.mp hm
    exact forall_of_forall₂ h (fun _ _ hw => taken_line hw) w hw
  have hfirst : (ws.map fun w => (w.line, ([w.key], w.term))).map (·.1)
      = ws.map WrittenEntry.line := by
    simp
  have hsecond : (ws.map fun w => (w.line, ([w.key], w.term))).map (·.2)
      = ws.map fun w => ([w.key], w.term) := by
    simp
  constructor
  · rw [Term.value?, termEntries?_eq h [] (by simpa [Keyed.keys] using hn)]
    simp
  -- the entries between the braces, whatever stands in front of them
  have inside {tail behind : List Char} (ht : EndsList '}' tail behind) {gap : List Char}
      (hg : IsGapText gap) : takeTerm? (levels + 1)
        ('{' :: (gap ++ (commaSeparated (ws.map WrittenEntry.line) ++ tail)))
          = some (.inline (ws.map fun w => ([w.key], w.term)), behind) := by
    have htake := takeMembers?_commaSeparated (.inr rfl) ht _ hlines gap hg
      (gap ++ (commaSeparated (ws.map WrittenEntry.line) ++ tail)).length.succ
      (by rw [hfirst]; simp only [List.length_append]; omega)
    rw [hfirst, hsecond] at htake
    have hno :
        startsIn (· == '[') ('{' :: (gap ++ (commaSeparated (ws.map WrittenEntry.line) ++ tail)))
        = false := rfl
    have hstart :
        startsIn (· == '{') ('{' :: (gap ++ (commaSeparated (ws.map WrittenEntry.line) ++ tail)))
        = true := rfl
    rw [takeTerm?_succ, hno, if_neg Bool.false_ne_true, if_pos hstart, List.drop_one,
      List.tail_cons, takeEntries?_eq, htake]
    rfl
  cases ws with
  | nil =>
    constructor
    · exact ⟨'{', ['}'], rfl, by decide, by decide, by decide, by decide, by decide, by decide⟩
    · intro rest _
      have hends : EndsList '}' ('}' :: rest) rest :=
        ⟨endsValue_cons (.inr (.inr (.inr rfl))) rest, rfl⟩
      have hgap : IsGapText [] := by decide
      exact inside hends hgap
  | cons w ws =>
    constructor
    · exact ⟨'{', _, rfl, by decide, by decide, by decide, by decide, by decide, by decide⟩
    · intro rest _
      have hends : EndsList '}' (' ' :: '}' :: rest) rest := ⟨endsValue_brace rest, rfl⟩
      have hgap : IsGapText [' '] := by decide
      have htake := inside hends hgap
      simpa [inlineTable] using htake

/-- A scalar is read back on every level. -/
theorem represents_scalar {value : Value} (hs : value.isScalar = true)
    (hx : value.Scalars Value.IsExact) {text : List Char} (ht : writeInline? value = some text)
    (levels : Nat) : Represents levels text (toTerm value) value.withoutNulls := by
  have hexact : value.IsExact := by cases value <;> first | exact hx | cases hs
  have hsame : value.withoutNulls = value := by cases value <;> first | rfl | cases hs
  have hterm : toTerm value = .leaf value := by cases value <;> first | rfl | cases hs
  constructor
  · rw [hsame, hterm]
    rfl
  · rw [hterm]
    exact taken_scalar hs hexact ht levels

mutual

/-- **A value is read back,** without `null`.  The levels have to be enough for its nesting, and
the keys of its tables distinct, since a key that stands twice in an inline table is refused. -/
theorem represents_toTerm : ∀ (value : Value) (levels : Nat), value.WellKeyed →
    value.Scalars Value.IsExact → value.nesting ≤ levels → ∀ text, writeInline? value = some text →
      Represents levels text (toTerm value) value.withoutNulls
  | .array items, levels, hk, hs, hn, text, ht => by
    obtain ⟨levels, rfl⟩ : ∃ n, levels = n + 1 := ⟨levels - 1, by simp [Value.nesting] at hn; omega⟩
    obtain ⟨members, hm, hterms, hitems⟩ :=
      exists_members items levels hk hs (Nat.le_of_succ_le_succ hn)
    obtain rfl := Option.some.inj ht
    rw [hm, toTerm, ← hterms]
    exact represents_array hitems
  | .table entries, levels, hk, hs, hn, text, ht => by
    obtain ⟨levels, rfl⟩ : ∃ n, levels = n + 1 := ⟨levels - 1, by simp [Value.nesting] at hn; omega⟩
    obtain ⟨ws, hw, hterms, hentries⟩ :=
      exists_entries entries levels hk.2 hs (Nat.le_of_succ_le_succ hn)
    -- the braces stand with no space between them if there is nothing inside
    have htext : text = inlineTable (ws.map WrittenEntry.line) := by
      rw [← hw]
      rw [writeInline?] at ht
      cases he : inlineEntries entries with
      | nil =>
        rw [he] at ht
        exact (Option.some.inj ht).symm
      | cons line lines =>
        rw [he] at ht
        exact (Option.some.inj ht).symm
    rw [htext, toTerm, ← hterms, List.map_map]
    exact represents_table hentries (hk.1.sublist (keys_entriesWithoutNulls entries))
  | .null, _, _, _, _, _, ht => by cases ht
  | .bool _, levels, _, hs, _, _, ht => represents_scalar rfl hs ht levels
  | .integer _, levels, _, hs, _, _, ht => represents_scalar rfl hs ht levels
  | .float _, levels, _, hs, _, _, ht => represents_scalar rfl hs ht levels
  | .string _, levels, _, hs, _, _, ht => represents_scalar rfl hs ht levels
  | .datetime _, levels, _, hs, _, _, ht => represents_scalar rfl hs ht levels

/-- The items of an array are read back. -/
theorem exists_members : ∀ (items : List Value) (levels : Nat), WellKeyedItems items →
    ScalarsItems Value.IsExact items → nestingItems items ≤ levels →
      ∃ members : List (List Char × Term),
      inlineItems items = members.map (·.1) ∧ members.map (·.2) = itemTerms items
        ∧ List.Forall₂ (fun m v => Represents levels m.1 m.2 v) members (itemsWithoutNulls items)
  | [], _, _, _, _ => ⟨[], rfl, rfl, .nil⟩
  | value :: rest, levels, hk, hs, hn => by
    rw [nestingItems, Nat.max_le] at hn
    obtain ⟨members, hm, hterms, hrest⟩ := exists_members rest levels hk.2 hs.2 hn.2
    -- an item without a text is `null`, and is left out on all three lists
    cases ht : writeInline? value with
    | none =>
      obtain rfl := writeInline?_eq_none.mp ht
      exact ⟨members, by rw [inlineItems, ht]; exact hm, hterms, hrest⟩
    | some text =>
      have hnull : value ≠ .null := fun h => by simp [writeInline?_eq_none.mpr h] at ht
      have hterm := represents_toTerm value levels hk.1 hs.1 hn.1 text ht
      refine ⟨(text, toTerm value) :: members, ?_, ?_, ?_⟩
      · rw [inlineItems, ht, List.map_cons, hm]
      · rw [itemTerms_cons hnull, List.map_cons, hterms]
      · rw [itemsWithoutNulls_cons hnull]
        exact .cons hterm hrest

/-- **The entries of a table are read back.** -/
theorem exists_entries :
    ∀ (entries : List (String × Value)) (levels : Nat), WellKeyedEntries entries →
    ScalarsEntries Value.IsExact entries → nestingEntries entries ≤ levels →
      ∃ ws : List WrittenEntry,
      inlineEntries entries = ws.map WrittenEntry.line
        ∧ (ws.map fun w => (w.key, w.term)) = entryTerms entries
        ∧ List.Forall₂ (WrittenEntry.Represents levels) ws (entriesWithoutNulls entries)
  | [], _, _, _, _ => ⟨[], rfl, rfl, .nil⟩
  | (key, value) :: rest, levels, hk, hs, hn => by
    rw [nestingEntries, Nat.max_le] at hn
    obtain ⟨ws, hw, hterms, hrest⟩ := exists_entries rest levels hk.2 hs.2 hn.2
    -- an entry without a text is `null`, as an item is
    cases ht : writeInline? value with
    | none =>
      obtain rfl := writeInline?_eq_none.mp ht
      exact ⟨ws, by rw [inlineEntries, ht]; exact hw, hterms, hrest⟩
    | some text =>
      have hnull : value ≠ .null := fun h => by simp [writeInline?_eq_none.mpr h] at ht
      have hterm := represents_toTerm value levels hk.1 hs.1 hn.1 text ht
      refine ⟨⟨key, text, toTerm value⟩ :: ws, ?_, ?_, ?_⟩
      · rw [inlineEntries, ht, List.map_cons, hw]
        rfl
      · rw [entryTerms_cons hnull, List.map_cons, hterms]
      · rw [entriesWithoutNulls_cons hnull]
        exact .cons ⟨rfl, hterm⟩ hrest

end

end Toml

end TomlKeep
