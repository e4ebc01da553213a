/-
# Blocks are pieces

The blocks that the grammar reads are pieces for the scan (`Block.Formed.exists_piece`).  A value
of one line and a multi-line string are found by the scan as the grammar reads them.  Of an array
or an inline table the scan finds the lines, unless a string in three quotes in it spoils the
count of the brackets (`Block.Counted`), and it never replaces such a value.  So a document that
the grammar reads falls into its blocks for the scan too (`IsDocument.exists_segmented`).
-/
import TomlKeep.Proofs.Blocks
import TomlKeep.Proofs.Brackets

namespace TomlKeep

open Text Toml

/-! ## 1. The forms of a value

The grammar tells the form of a value by its first characters, and so does the scan.  The two are
compared here once; all later proofs split on the forms and do not look at the readers again.
-/

/-- Whether a value is an array or an inline table. -/
def isBracketed (value : List Char) : Bool := startsIn (fun c => c == '[' || c == '{') value

/-- The characters of a token are unquoted ones. -/
theorem isUnquotedChar_of_isTokenChar {c : Char} (h : isTokenChar c = true ∨ c = ' ') :
    isUnquotedChar c = true := by
  rcases h with h | rfl
  · simp only [isTokenChar, Bool.not_eq_true', Bool.or_eq_false_iff, beq_eq_false_iff_ne] at h
    simp [isUnquotedChar, h]
  · decide

/-- **The forms of a value:** brackets, a multi-line string, a string on one line, or an unquoted
token.  In each form the value ends where the scan finds its end. -/
theorem Stands.cases {value rest : List Char} {term : Term} (h : Stands value rest term) :
    isBracketed value = true
      ∨ ((tripleQuote? (value ++ rest)).isSome = true
        ∧ splitMultiline? (value ++ rest) = some (value, rest))
      ∨ OneLine value ∧ (startsIn Assignment.isQuotedStart value = true
        ∨ ∃ v, tokenValue? value = some v ∧ term = .leaf v) := by
  have htake := h.taken [] (mayFollow_nil rest)
  obtain ⟨c, tail, hcons⟩ := List.exists_cons_of_ne_nil h.ne_nil
  have hstart (p : Char → Bool) (more : List Char) :
      startsIn p (value ++ more) = startsIn p value := by
    rw [hcons]
    rfl
  by_cases hb : isBracketed value = true
  · exact .inl hb
  · have hscalar : takeScalar? (value ++ rest) = some (term, rest) := by
      have hno : startsIn (· == '[') value = false ∧ startsIn (· == '{') value = false := by
        simpa [isBracketed, hcons, startsIn] using hb
      rw [List.append_nil, maxNesting, takeTerm?_succ, hstart, hstart, hno.1, hno.2] at htake
      exact htake
    refine .inr ?_
    unfold takeScalar? at hscalar
    rw [hstart] at hscalar
    split at hscalar
    · next hq =>
      obtain ⟨⟨s, rest⟩, hs, he⟩ := Option.map_eq_some_iff.mp hscalar
      obtain ⟨rfl, rfl⟩ := Prod.mk.inj he
      cases ht : tripleQuote? (value ++ rest) with
      | some quote =>
        have hsome : (tripleQuote? (value ++ rest)).isSome = true := by rw [ht]; rfl
        -- the string and what the scan finds stand before the same rest
        obtain ⟨value', hsplit⟩ := splitMultiline?_of_takeString? hsome hs
        obtain ⟨happ, -⟩ := splitMultiline?_eq_some hsplit
        obtain rfl : value = value' := List.append_cancel_right happ
        exact .inl ⟨rfl, hsplit⟩
      | none =>
        have hs : takeQuoted? (value ++ rest) = some (s, rest) := by
          simpa only [takeString?, ht] using hs
        refine .inr ⟨?_, .inl ?_⟩
        · rcases takeQuoted?_eq_some hs
            with ⟨body, chars, he, hbody, hn, -⟩ | ⟨body, he, hbody, hn, -⟩
          · obtain rfl : value = '"' :: (body ++ ['"']) :=
              List.append_cancel_right (he.trans (by simp))
            exact oneLine_double hbody hn
          · obtain rfl : value = '\'' :: (body ++ ['\'']) :=
              List.append_cancel_right (he.trans (by simp))
            exact oneLine_single hbody hn
        · rw [hcons] at hq ⊢
          simp only [startsIn, Bool.or_eq_true, beq_iff_eq] at hq
          rcases hq with rfl | rfl <;> rfl
    · rcases htoken : takeToken (value ++ rest) with ⟨token, rest⟩
      rw [htoken] at hscalar
      obtain ⟨v, hv, he⟩ := Option.map_eq_some_iff.mp hscalar
      obtain ⟨rfl, rfl⟩ := Prod.mk.inj he
      obtain ⟨happ, -⟩ := local_takeToken htoken
      obtain rfl : value = token := List.append_cancel_right happ
      obtain ⟨hchars, hhead, hlast⟩ := takeToken_chars htoken
      refine .inr ⟨oneLine_plain h.ne_nil (fun d hd => isUnquotedChar_of_isTokenChar (hchars d hd))
        fun d hd => ?_, .inr ⟨v, hv, rfl⟩⟩
      -- a token neither begins nor ends with the space that it may have
      have hne : d ≠ ' ' := by
        rintro rfl
        exact hd.elim hhead hlast
      have hmem : d ∈ value := hd.elim List.mem_of_mem_head? List.mem_of_mem_getLast?
      rcases hchars d hmem with ht | rfl
      · simp only [isTokenChar, Bool.not_eq_true', Bool.or_eq_false_iff] at ht
        simp [ht]
      · exact absurd rfl hne

/-! ## 2. The first line of an entry

The scan sees an entry line by line, and classifies the first one.  That line is the lead with the
beginning of the value behind it, so it is an assignment of the key of the lead, whatever the value
goes on with.
-/

/-- The first line of a text stands at its beginning. -/
theorem firstContent_append (text : List Char) : ∃ rest, text = firstContent text ++ rest := by
  have h := flatten_lines text
  unfold firstContent
  cases hl : lines text with
  | nil => exact ⟨text, rfl⟩
  | cons line ls =>
    rw [hl] at h
    exact ⟨line.ending.chars ++ ls.flatMap Line.chars, by rw [← h]; simp [Line.chars]⟩

/-- What the first line begins with, the text begins with. -/
theorem head?_firstContent {text : List Char} {c : Char} (h : (firstContent text).head? = some c) :
    text.head? = some c := by
  obtain ⟨rest, hrest⟩ := firstContent_append text
  rw [hrest, List.head?_append, h]
  rfl

/-- **The first line of an entry** is an assignment of its key, and its value begins on that
line.  What the line holds behind the lead is cut into value, gap and comment by the scan;
together they are the first line of the value. -/
theorem LineLead.exists_line {lead body : List Char} {key : KeyPath} (h : LineLead lead key)
    (hb : ∀ c, body.head? = some c → isGap c = false) :
    ∃ line a, lines (lead ++ body) = line :: laterLines body
      ∧ classify line.content = .assignment a ∧ a.key = key ∧ a.lead = lead
      ∧ a.value ++ a.gap ++ a.comment = firstContent body := by
  obtain ⟨hfirst, hlater⟩ := lines_piece h.feed h.ret body
  have hne : lead ≠ [] := by
    obtain ⟨left, gap, h, -⟩ := h.isLead
    simp [h]
  cases hl : lines (lead ++ body) with
  | nil =>
    have := flatten_lines (lead ++ body)
    rw [hl] at this
    simp [hne] at this
  | cons line ls =>
    have hcontent : line.content = lead ++ firstContent body := by
      rw [← hfirst, firstContent, hl]
    have hls : ls = laterLines body := by rw [← hlater, laterLines, hl, List.tail_cons]
    have hstart : ∀ c, (firstContent body).head? = some c → isGap c = false := fun c hc =>
      hb c (head?_firstContent hc)
    have hk := classify_lead_append h.isLead hstart
    rw [hls]
    refine ⟨line, _, rfl, by rw [hcontent, hk], rfl, rfl, ?_⟩
    simp only [dropEnd_append_takeEnd, splitComment_append]

/-! ## 3. The pieces of blocks

Each kind of block is a piece of the kind that one expects, and only for values in brackets
something can go wrong.  What can is asked of the text (`CountsAsRead`): a computable condition that
holds wherever no string in three quotes stands in brackets, and that may hold even there.
-/

/-- Whether brackets that are open balance on the last of the lines that follow, and not before. -/
def balancesOnLast : Int → List Line → Bool
  | depth, [] => depth ≤ 0
  | depth, line :: ls =>
    0 < depth && balancesOnLast (depth + bracketBalance .outside line.content) ls

/-- The count takes just these lines. -/
theorem takeBrackets_of_balancesOnLast (more : List Line) : ∀ {depth : Int} {ls : List Line},
    balancesOnLast depth ls = true → takeBrackets depth (ls ++ more) = (ls, more)
  | depth, [], h => Walk.takeBrackets_of_le (by simpa [balancesOnLast] using h) more
  | depth, line :: ls, h => by
    simp only [balancesOnLast, Bool.and_eq_true, decide_eq_true_eq] at h
    rw [List.cons_append, takeBrackets, if_pos h.1, takeBrackets_of_balancesOnLast more h.2]

/-- **Whether the scan counts the brackets of a text as the grammar does.**  A string in three
quotes among them may spoil the count, but need not. -/
def CountsAsRead (text : List Char) : Prop :=
  hasTriple .outside text = true →
    balancesOnLast (bracketBalance .outside (firstContent text)) (laterLines text) = true

/-- Whether the scan counts the brackets of the value of a block as the grammar does. -/
def Block.Counted (b : Block) : Prop :=
  isBracketed b.value = true → CountsAsRead (b.value ++ b.rest)

instance (text : List Char) : Decidable (CountsAsRead text) :=
  inferInstanceAs (Decidable (_ → _))

instance (b : Block) : Decidable b.Counted :=
  inferInstanceAs (Decidable (_ → _))

/-- **What the scan finds of a block.**  A line without a statement is no header and no
assignment; an entry is one with the same value, brackets apart, of which the scan knows the
first line. -/
inductive Block.IsPiece : Block → Piece → Prop where
  | blank {rest : List Char} : (Piece.fixed rest).head = .other →
      IsPiece ⟨[], [], rest, none⟩ (.fixed rest)
  | header {lead rest : List Char} {path : List String} {heading : Header} :
      HeaderLead lead path heading → (Piece.fixed (lead ++ rest)).head = .header heading →
      IsPiece ⟨lead, [], rest, some (.header path heading.array)⟩ (.fixed (lead ++ rest))
  | entry {lead value rest : List Char} {path : List String} {term : Term} {key : KeyPath} :
      EntryLead lead path key → isBracketed value = false →
      IsPiece ⟨lead, value, rest, some (.entry path term)⟩ (.entry ⟨key, lead, value, rest⟩)
  | brackets {lead value rest : List Char} {path : List String} {term : Term} {key : KeyPath}
      {e : Entry} : EntryLead lead path key → isBracketed value = true →
      isBracketed e.value = true → e.key = key → e.text = lead ++ (value ++ rest) →
      IsPiece ⟨lead, value, rest, some (.entry path term)⟩ (.entry e)

/-- The piece has the text of the block. -/
theorem Block.IsPiece.text {b : Block} {p : Piece} (h : b.IsPiece p) : p.text = b.text := by
  cases h with
  | blank _ => rfl
  | header _ _ => simp [Piece.text, Block.text]
  | entry _ _ => simp [Piece.text, Entry.text, Block.text]
  | brackets _ _ _ _ ht => exact ht

/-- The parts of the rest of a line. -/
theorem LineRest.exists_parts {rest : List Char} (h : LineRest rest) :
    ∃ gap comment ending, rest = gap ++ comment ++ LineEnd.chars ending ∧ IsTail gap comment
      ∧ '\n' ∉ gap ++ comment ∧ '\r' ∉ gap ++ comment
      ∧ ∀ behind, MayFollow rest behind → ending = .none → behind = [] := by
  obtain ⟨gap, comment, ending, rfl, ht, hn, hr⟩ := h.shape
  refine ⟨gap, comment, ending, rfl, ht, ?_, ?_, fun behind hb => (mayFollow_ending ht hn).mp hb⟩
  · simp [hn, IsGapText.not_mem (c := '\n') ht.gap (by decide)]
  · simp [hr, IsGapText.not_mem (c := '\r') ht.gap (by decide)]

/-- A line of a gap and a comment is neither a header nor an assignment. -/
theorem classify_tail {gap comment : List Char} (ht : IsTail gap comment) :
    classify (gap ++ comment) = .other := by
  have hstart : ∀ c, comment.head? = some c → isBlank c = false := by
    intro c hc
    rw [ht.comment c hc]
    decide
  rw [classify, trimStart_gap ht.gap hstart]
  cases comment with
  | nil => rfl
  | cons c comment =>
    obtain rfl := ht.comment c rfl
    rfl

/-- A block of one line that is no assignment. -/
theorem exists_piece_fixed {content : List Char} {ending : LineEnd} (hn : '\n' ∉ content)
    (hr : ending = .lf → content.getLast? ≠ some '\r') (hne : content ++ ending.chars ≠ [])
    (hk : ∀ a, classify content ≠ .assignment a) :
    (∀ behind, (Piece.fixed (content ++ ending.chars)).Reads behind)
      ∧ (Piece.fixed (content ++ ending.chars)).head = (classify content).head := by
  -- the line is one that the text falls into
  have hproper : (Line.mk content ending).Proper := by
    refine ⟨hn, hr, ?_⟩
    rintro rfl
    simpa [LineEnd.chars] using hne
  refine ⟨fun behind => reads_other hproper hk behind, ?_⟩
  simp [Piece.head, Piece.text, lines_line hproper]

/-- A place for a literal. -/
theorem LineLead.fits {lead value rest : List Char} {key : KeyPath} (hl : LineLead lead key)
    (hr : LineRest rest) :
    (Entry.mk key lead value rest).Fits := by
  obtain ⟨gap, comment, ending, hrest, ht, hn, hret, -⟩ := hr.exists_parts
  exact ⟨gap, comment, ending, hrest, hl.isLead, ht, List.not_mem_append hl.feed hn,
    fun _ hlast => hret (List.mem_of_mem_getLast? hlast)⟩

/-- A multi-line string begins with its three quotes. -/
theorem exists_triple {text : List Char} {quote : Char} (h : tripleQuote? text = some quote) :
    ∃ rest, text = [quote, quote, quote] ++ rest := by
  have begins {q : Char} (hq : beginsWith [q, q, q] text = true) :
      ∃ rest, text = [q, q, q] ++ rest := by
    obtain ⟨rest, hrest⟩ := Option.isSome_iff_exists.mp hq
    exact ⟨rest, after?_eq_some_iff.mp hrest⟩
  unfold tripleQuote? at h
  split at h
  · next hq =>
    obtain rfl := Option.some.inj h
    exact begins hq
  · split at h
    · next hq =>
      obtain rfl := Option.some.inj h
      exact begins hq
    · cases h

/-- The first line of a multi-line string shows that it is one. -/
theorem tripleQuote?_firstContent {text : List Char} (h : (tripleQuote? text).isSome = true) :
    (tripleQuote? (firstContent text)).isSome = true := by
  obtain ⟨quote, hq⟩ := Option.isSome_iff_exists.mp h
  have hc := tripleQuote?_cases hq
  have hn : '\n' ∉ [quote, quote, quote] ∧ [quote, quote, quote].getLast? ≠ some '\r' := by
    rcases hc with rfl | rfl <;> decide
  -- the three quotes stay on their line
  obtain ⟨rest, rfl⟩ : ∃ rest, text = [quote, quote, quote] ++ rest := exists_triple hq
  rw [(lines_piece hn.1 hn.2 rest).1]
  rcases hc with rfl | rfl <;> rfl

/-- **A multi-line string is a piece.**  The search for its end runs over the lines of the entry,
which put together are the value and the rest of its last line. -/
theorem reads_string {lead value rest : List Char} {key : KeyPath} (hl : LineLead lead key)
    (hr : LineRest rest) (hh : ∀ c, (value ++ rest).head? = some c → isGap c = false)
    (hs : splitMultiline? (value ++ rest) = some (value, rest)) {behind : List Char}
    (hb : MayFollow rest behind) : (Entry.mk key lead value rest).Reads behind := by
  obtain ⟨gap, comment, ending, hrest, ht, hn, hret, hend⟩ := hr.exists_parts
  obtain ⟨line, a, hlines, hk, hkey, hlead, hbody⟩ := hl.exists_line hh
  have hp := properLines_lines (lead ++ (value ++ rest))
  have hflat := flatten_lines (lead ++ (value ++ rest))
  rw [hlines] at hp hflat
  obtain ⟨-, hchars⟩ := classify_eq_assignment_iff.mp hk
  -- what the scan joins is the value with its rest
  have hinner : a.value ++ a.gap ++ a.comment ++ line.ending.chars
      ++ (laterLines (value ++ rest)).flatMap Line.chars = value ++ rest := by
    rw [← List.append_cancel_left_eq lead, ← hflat]
    simp [Line.chars, ← hchars, Assignment.chars, hlead]
  obtain ⟨-, quote, hquote, hlast, -⟩ := splitMultiline?_eq_some hs
  have htriple := tripleQuote?_firstContent (Option.isSome_of_eq_some hquote)
  rw [← hbody] at htriple
  have hrest' : gap ++ comment ++ ending.chars = rest := hrest.symm
  -- a string in three quotes ends in a quote, so the gap and the comment are cut off cleanly
  have hcut : StringEnd.Cut ⟨value, gap ++ comment, ending⟩ := by
    refine ⟨?_, hn, fun _ hl => hret (List.mem_of_mem_getLast? hl)⟩
    rcases tripleQuote?_cases hquote with rfl | rfl
    · exact .inl hlast
    · exact .inr hlast
  have hsplit : splitMultiline? (a.value ++ a.gap ++ a.comment ++ line.ending.chars
      ++ (laterLines (value ++ rest)).flatMap Line.chars)
      = some (value, (StringEnd.mk value (gap ++ comment) ending).rest ++ []) := by
    rw [hinner, hs]
    simp [StringEnd.rest, hrest']
  have hread := reads_multiline (c := ⟨value, gap ++ comment, ending⟩) hp hk hsplit htriple hcut
    (fun _ => rfl) (hend behind hb)
  rwa [hkey, hlead, StringEnd.rest, hrest'] at hread

/-- What is left of a line has no brackets, and no line follows it. -/
theorem LineRest.firstContent {rest : List Char} (h : LineRest rest) :
    bracketBalance .outside (firstContent rest) = 0 ∧ laterLines rest = [] := by
  obtain ⟨gap, comment, ending, rfl, ht, hn, hret, -⟩ := h.exists_parts
  obtain ⟨h1, h2⟩ := lines_piece hn (fun hl => hret (List.mem_of_mem_getLast? hl)) ending.chars
  have hend : TomlKeep.firstContent ending.chars = [] ∧ laterLines ending.chars = [] := by
    cases ending <;> exact ⟨rfl, rfl⟩
  rw [h1, h2, hend.1, hend.2, List.append_nil, bracketBalance_outside (isNoBracket_gap ht.gap)]
  exact ⟨Walk.bracketBalance_comment ht.comment, rfl⟩

/-- The count of the scan ends on the last line of a value: a value without strings in three
quotes is walked, and for one with them this is the condition. -/
theorem Stands.takeBrackets {value rest : List Char} {term : Term} (hv : Stands value rest term)
    (hr : LineRest rest) (hc : CountsAsRead (value ++ rest)) (ls : List Line) :
    takeBrackets (bracketBalance .outside (firstContent (value ++ rest)))
      (laterLines (value ++ rest) ++ ls) = (laterLines (value ++ rest), ls) := by
  cases ht : hasTriple .outside (value ++ rest) with
  | true => exact takeBrackets_of_balancesOnLast ls (hc ht)
  | false =>
    have htake := hv.taken [] (mayFollow_nil rest)
    rw [List.append_nil] at htake
    have hwalk := walks_takeTerm? maxNesting htake ht 0 (Int.le_refl 0)
    have hcount := hwalk.takeBrackets (Int.le_refl 0) hr.firstContent.1 hr.firstContent.2 ls
    rwa [Int.zero_add] at hcount

/-- **A value in brackets is a piece** if the scan counts its brackets as the grammar does.  The
entry that the scan finds has as its value the part of the first line only; since brackets are
never replaced, nothing is asked of it but its key, its text and that it begins with a bracket. -/
theorem exists_piece_brackets {lead value rest : List Char} {key : KeyPath} {term : Term}
    (hl : LineLead lead key) (hr : LineRest rest) (hv : Stands value rest term)
    (hc : CountsAsRead (value ++ rest)) (hb : isBracketed value = true) :
    ∃ e : Entry, isBracketed e.value = true ∧ e.key = key ∧ e.text = lead ++ (value ++ rest)
      ∧ (rest.getLast? = some '\n' → e.rest.getLast? = some '\n')
      ∧ ∀ behind, MayFollow rest behind → e.Reads behind := by
  have hh := hv.head_append rest
  obtain ⟨line, a, hlines, hk, hkey, hlead, hbody⟩ := hl.exists_line hh
  obtain ⟨hform, hchars⟩ := classify_eq_assignment_iff.mp hk
  have hflat := flatten_lines (lead ++ (value ++ rest))
  rw [hlines] at hflat
  obtain ⟨c, more, hcons⟩ : ∃ c more, value = c :: more ∧ (c = '[' ∨ c = '{') := by
    obtain ⟨c, more, hcons⟩ := List.exists_cons_of_ne_nil hv.ne_nil
    refine ⟨c, more, hcons, ?_⟩
    simpa [hcons, isBracketed, startsIn] using hb
  obtain ⟨rfl, hopen⟩ := hcons
  -- the first line begins with the bracket
  have hstay : '\n' ∉ [c] ∧ [c].getLast? ≠ some '\r' := by
    rcases hopen with rfl | rfl <;> decide
  have hfirst : firstContent (c :: more ++ rest) = c :: firstContent (more ++ rest) :=
    (lines_piece hstay.1 hstay.2 (more ++ rest)).1
  have hbracket : startsIn (fun c => c == '[' || c == '{') (a.value ++ a.gap ++ a.comment)
      = true := by
    rw [hbody, hfirst]
    rcases hopen with rfl | rfl <;> rfl
  have htriple : tripleQuote? (a.value ++ a.gap ++ a.comment) = none := by
    rw [hbody, hfirst]
    refine tripleQuote?_eq_none ?_ ?_ <;>
    · rcases hopen with rfl | rfl <;> simp
  have hcount := hv.takeBrackets hr hc
  have htext :
      (a.entry (line.ending.chars ++ (laterLines (c :: more ++ rest)).flatMap Line.chars)).text
      = lead ++ (c :: more ++ rest) := by
    rw [a.entry_text, hchars, ← hflat]
    simp [Line.chars]
  refine ⟨_, ?_, hkey, htext, fun hlast => ?_, fun behind hbehind => ?_⟩
  · rwa [hform.startsIn_body rfl] at hbracket
  · -- the first line has no line feed, so what stands behind its value ends in one
    have hall : (a.lead ++ a.value ++ (a.entry (line.ending.chars
        ++ (laterLines (c :: more ++ rest)).flatMap Line.chars)).rest).getLast? = some '\n' := by
      refine (congrArg List.getLast? htext).trans ?_
      rw [← List.append_assoc, List.getLast?_append, hlast]
      rfl
    refine getLast?_of_append (fun hnil => ?_) hall
    have hp := properLines_lines (lead ++ (c :: more ++ rest))
    rw [hlines] at hp
    rw [hnil, List.append_nil] at hall
    have hmem : '\n' ∈ a.chars := by
      have := List.mem_of_mem_getLast? hall
      simp only [Assignment.chars, List.append_assoc] at this ⊢
      simp only [List.mem_append] at this ⊢
      tauto
    exact hp.1.noFeed (hchars ▸ hmem)
  · have hall : lines (lead ++ (c :: more ++ rest) ++ behind)
        = line :: (laterLines (c :: more ++ rest) ++ lines behind) := by
      rw [lines_append (hbehind.imp (fun hlast => ?_) id), hlines, List.cons_append]
      rw [← List.append_assoc, List.getLast?_append, hlast]
      rfl
    have hp := properLines_lines (lead ++ (c :: more ++ rest) ++ behind)
    rw [hall] at hp
    have htake : takeBrackets (bracketBalance .outside (a.value ++ a.gap ++ a.comment))
        (laterLines (c :: more ++ rest) ++ lines behind)
          = (laterLines (c :: more ++ rest), lines behind) := by
      rw [hbody, hcount]
    refine reads_brackets hp hk htriple hbracket htake fun hnil => ?_
    rw [← flatten_lines behind, hnil]
    rfl

/-- **A block is a piece,** whatever it stands in front of.  The cases are those of the grammar,
and below an entry those of the forms of a value. -/
theorem Block.Formed.exists_piece {b : Block} (h : b.Formed) (hc : b.Counted) (hne : b.text ≠ []) :
    ∃ p, b.IsPiece p ∧ (b.rest.getLast? = some '\n' → p.Followed)
      ∧ ∀ behind, MayFollow b.rest behind → p.Reads behind := by
  cases h with
  | @blank rest hr =>
    obtain ⟨gap, comment, ending, rfl, ht, hn, hret, -⟩ := hr.exists_parts
    have hother := classify_tail ht
    obtain ⟨hread, hhead⟩ := exists_piece_fixed hn (fun _ hl => hret (List.mem_of_mem_getLast? hl))
      hne (by simp [hother])
    exact ⟨_, .blank (by rw [hhead, hother]; rfl), id, fun behind _ => hread behind⟩
  | @header lead rest path heading hl hr _ =>
    obtain ⟨gap, comment, ending, rfl, ht, hn, hret, -⟩ := hr.exists_parts
    have hheader := hl.classify gap comment ht
    -- a header ends in its bracket or in the gap or comment behind it
    have hlast : (lead ++ (gap ++ comment)).getLast? ≠ some '\r' := by
      cases htail : gap ++ comment with
      | nil => simpa using hl.ret
      | cons c tail =>
        rw [List.getLast?_append_of_ne_nil _ (by simp), ← htail]
        exact fun hl => hret (List.mem_of_mem_getLast? hl)
    have hlf : ending = .lf → (lead ++ (gap ++ comment)).getLast? ≠ some '\r' := fun _ => hlast
    obtain ⟨hread, hhead⟩ := exists_piece_fixed (List.not_mem_append hl.feed hn) hlf
      (by simp [hl.ne_nil]) (by simp [hheader])
    rw [List.append_assoc] at hread hhead
    refine ⟨_, .header hl (by rw [hhead, hheader]; rfl), fun hlast => ?_,
      fun behind _ => hread behind⟩
    rw [Piece.Followed, List.getLast?_append, hlast]
    rfl
  | @entry lead value rest path term key hl hr hv =>
    have hh := hv.head_append rest
    by_cases hb : isBracketed value = true
    · obtain ⟨e, hbracket, hkey, htext, hlast, hread⟩ :=
        exists_piece_brackets hl.toLineLead hr hv (hc hb) hb
      exact ⟨.entry e, .brackets hl hb hbracket hkey htext, hlast, hread⟩
    · refine ⟨_, .entry hl (Bool.eq_false_iff.mpr hb), id, fun behind hbehind => ?_⟩
      rcases hv.cases with hbracket | ⟨-, hs⟩ | ⟨hline, -⟩
      · exact absurd hbracket hb
      · exact reads_string hl.toLineLead hr hh hs hbehind
      · have hfits : (Entry.mk key lead value rest).Fits := hl.toLineLead.fits hr
        exact hfits.reads hline behind

/-- A piece in front of the pieces of the blocks that follow.  The line feed that a block needs
before another one is what makes the piece followed. -/
theorem Segmented.consBlock {b : Block} {bs : List Block} {p : Piece} {ps : List Piece}
    (hseg : Segmented ps) (hps : List.Forall₂ Block.IsPiece bs ps) (hdoc : IsDocument bs)
    (hfollow : MayFollow b.rest (blocksText bs)) (hlast : b.rest.getLast? = some '\n' → p.Followed)
    (hread : ∀ behind, MayFollow b.rest behind → p.Reads behind) : Segmented (p :: ps) := by
  -- nothing follows a block only if it is the last one
  have hnil (h : blocksText bs = []) : ps = [] := by
    cases hps with
    | nil => rfl
    | cons _ _ =>
      rw [blocksText_cons, List.append_eq_nil_iff] at h
      exact absurd h.1 hdoc.2.1
  exact ⟨fun behind hbehind => hread behind (hfollow.imp id fun h => hbehind (hnil h)),
    hfollow.symm.imp hnil hlast, hseg⟩

/-- **A document that the grammar reads falls into its blocks for the scan too,** piece by piece
and in the same order. -/
theorem IsDocument.exists_segmented : ∀ {bs : List Block}, IsDocument bs → (∀ b ∈ bs, b.Counted) →
    ∃ ps, List.Forall₂ Block.IsPiece bs ps ∧ Segmented ps
  | [], _, _ => ⟨[], .nil, trivial⟩
  | b :: bs, ⟨hform, hne, hfollow, hdoc⟩, hc => by
    obtain ⟨hb, hbs⟩ := List.forall_mem_cons.mp hc
    obtain ⟨p, hp, hlast, hread⟩ := hform.exists_piece hb hne
    obtain ⟨ps, hps, hseg⟩ := hdoc.exists_segmented hbs
    exact ⟨p :: ps, .cons hp hps, hseg.consBlock hps hdoc hfollow hlast hread⟩

/-- The pieces have the text of the blocks. -/
theorem textOf_of_isPiece {bs : List Block} {ps : List Piece}
    (h : List.Forall₂ Block.IsPiece bs ps) :
    textOf ps = blocksText bs := by
  induction h with
  | nil => rfl
  | cons hp _ ih => rw [textOf_cons, blocksText_cons, hp.text, ih]

end TomlKeep
