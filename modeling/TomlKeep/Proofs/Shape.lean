/-
# The shape of an assignment

A line is an assignment exactly if it is made of four pieces that fit together: a lead that ends
in the equals sign and a gap, a value, a gap, and a comment (`classify_eq_assignment_iff`).  Each
piece fits on its own terms (`Assignment.Formed`), so one of them may be changed and the line read
again: above all, any literal may stand in the place of the value (`IsLiteral.formed`).
-/
import TomlKeep.Proofs.Quotes

namespace TomlKeep

open Text

/-! ## 1. Taking a gap off the end

A value is what is left when a gap is taken off its end, so whatever does not end in a gap is found
again with any gap behind it.  The same holds at the front for what does not begin with one.
-/

/-- Nothing is left of a text of which every character is taken off. -/
theorem dropEnd_of_forall {p : Char → Bool} : ∀ {text : List Char}, (∀ c ∈ text, p c = true) →
    dropEnd p text = []
  | [], _ => rfl
  | c :: rest, h => by
    have ih : dropEnd p rest = [] := dropEnd_of_forall fun d hd => h d (by simp [hd])
    simp [dropEnd, ih, h c (by simp)]

/-- The tail is found where it was put. -/
theorem dropEnd_append {p : Char → Bool} {text tail : List Char}
    (ht : ∀ c, text.getLast? = some c → p c = false) (hp : ∀ c ∈ tail, p c = true) :
    dropEnd p (text ++ tail) = text := by
  induction text with
  | nil => exact dropEnd_of_forall hp
  | cons c rest ih =>
    cases rest with
    | nil => simp [dropEnd, dropEnd_of_forall hp, ht c (by simp)]
    | cons d ds =>
      have := ih fun e he => ht e (by simpa [List.getLast?_cons_cons] using he)
      simp only [List.cons_append] at this ⊢
      rw [dropEnd, this]

/-- What is taken off the end is the tail that was put there. -/
theorem takeEnd_append {p : Char → Bool} {text tail : List Char}
    (ht : ∀ c, text.getLast? = some c → p c = false) (hp : ∀ c ∈ tail, p c = true) :
    takeEnd p (text ++ tail) = tail := by
  simp [takeEnd, dropEnd_append ht hp]

/-- Only such characters are taken off the end. -/
theorem forall_takeEnd {p : Char → Bool} : ∀ {text : List Char} {c : Char},
    c ∈ takeEnd p text → p c = true
  | [], c, h => by simp [takeEnd, dropEnd] at h
  | d :: rest, c, h => by
    have ih := @forall_takeEnd p rest c
    simp only [takeEnd, dropEnd] at h ih
    -- the first character goes with the end only if nothing is kept behind it
    cases hr : dropEnd p rest with
    | nil =>
      rw [hr] at h ih
      by_cases hd : p d = true
      · simp only [hd, if_true, List.length_nil, List.drop_zero, List.mem_cons] at h
        rcases h with rfl | h
        · exact hd
        · exact ih (by simpa using h)
      · simp only [hd, Bool.false_eq_true, if_false, List.length_singleton] at h
        exact ih (by simpa using h)
    | cons e kept =>
      rw [hr] at h ih
      exact ih (by simpa using h)

/-- What would be taken off makes no difference, whatever stands in front of it. -/
theorem dropEnd_append_of_forall {p : Char → Bool} {text tail : List Char}
    (h : ∀ c ∈ tail, p c = true) : dropEnd p (text ++ tail) = dropEnd p text := by
  have hparts := dropEnd_append_takeEnd p text
  conv_lhs => rw [← hparts, List.append_assoc]
  refine dropEnd_append (fun c hc => getLast?_dropEnd hc) ?_
  intro c hc
  exact (List.mem_append.mp hc).elim forall_takeEnd (h c)

/-- A character that is not taken off the end stays with all in front of it. -/
theorem dropEnd_append_cons {p : Char → Bool} {c : Char} (hc : p c = false) (rest : List Char) :
    ∀ front, dropEnd p (front ++ c :: rest) = front ++ c :: dropEnd p rest
  | [] => by
    rw [List.nil_append, List.nil_append, dropEnd]
    cases dropEnd p rest <;> simp [hc]
  | d :: front => by
    rw [List.cons_append, dropEnd, dropEnd_append_cons hc rest front]
    cases front <;> rfl

/-- What is taken from the front is found where it was put, up to a character that stops it. -/
theorem takeWhile_append_stop {p : Char → Bool} {text rest : List Char}
    (ht : ∀ c ∈ text, p c = true) (hr : ∀ c, rest.head? = some c → p c = false) :
    (text ++ rest).takeWhile p = text ∧ (text ++ rest).dropWhile p = rest := by
  induction text with
  | nil => cases rest <;> simp_all
  | cons c text ih =>
    obtain ⟨h1, h2⟩ := ih fun d hd => ht d (by simp [hd])
    simp [ht c (by simp), h1, h2]

theorem forall_takeWhile {p : Char → Bool} {text : List Char} {c : Char}
    (h : c ∈ text.takeWhile p) : p c = true :=
  List.all_eq_true.mp List.all_takeWhile c h

/-! ## 2. The pieces

Each of the four pieces has a condition of its own, and one condition ties the value to the comment:
where the comment is cut off depends on the value, since only a value that opens a string or a
bracket hides a hash.
-/

/-- The character that ends the left side of an assignment, or the line before there is one. -/
def isKeyEnd (c : Char) : Bool := c == '=' || c == '#'

/-- **The lead.**  A left side that is the key `key`, the equals sign, and a gap.  The equals
sign is the first one outside quotes, and the line is neither a comment nor a header. -/
def IsLead (key : KeyPath) (lead : List Char) : Prop :=
  ∃ left gap, lead = left ++ '=' :: gap ∧ (∀ c ∈ gap, isGap c = true)
    ∧ (∀ rest, splitOutside? (startsIn isKeyEnd) .outside (left ++ '=' :: rest)
        = some (left, '=' :: rest))
    ∧ KeyPath.parse (trim left) = .ok key
    ∧ ∃ c rest, trimStart left = c :: rest ∧ c ≠ '#' ∧ c ≠ '['

/-- What may stand behind a value on its line. -/
structure IsTail (gap comment : List Char) : Prop where
  gap : ∀ c ∈ gap, isGap c = true
  comment : ∀ c, comment.head? = some c → c = '#'

/-- **The pieces fit together.**  The value neither begins nor ends in a gap, and the comment is cut
off right behind the gap. -/
structure Assignment.Formed (a : Assignment) : Prop where
  lead : IsLead a.key a.lead
  start : ∀ c, (a.value ++ a.gap ++ a.comment).head? = some c → isGap c = false
  stop : ∀ c, a.value.getLast? = some c → isGap c = false
  tail : IsTail a.gap a.comment
  cut : Assignment.splitComment (a.value ++ a.gap ++ a.comment) = (a.value ++ a.gap, a.comment)

/-- Cutting the comment off loses nothing. -/
theorem splitComment_append (body : List Char) :
    (Assignment.splitComment body).1 ++ (Assignment.splitComment body).2 = body := by
  unfold Assignment.splitComment
  split
  · cases hs : splitOutside? (startsIn (· == '#')) .outside body with
    | none => simp
    | some parts => simpa using append_of_splitOutside? hs
  · simp

/-- A search stops where there is what it looks for. -/
theorem found_of_splitOutside? {found : List Char → Bool} {state : Quoting}
    {text before rest : List Char} (h : splitOutside? found state text = some (before, rest)) :
    found rest = true := by
  fun_induction splitOutside? found state text generalizing before <;>
    grind [pushBefore_eq_some]

/-- A comment begins with its hash, whichever way it is cut off. -/
theorem splitComment_head (body : List Char) (c : Char)
    (h : (Assignment.splitComment body).2.head? = some c) : c = '#' := by
  unfold Assignment.splitComment at h
  split at h
  · cases hs : splitOutside? (startsIn (· == '#')) .outside body with
    | none => simp [hs] at h
    | some parts =>
      have := found_of_splitOutside? hs
      simp only [hs, Option.getD_some] at h
      cases hp : parts.2 with
      | nil => simp [hp] at h
      | cons d ds =>
        obtain rfl : d = '#' := by simpa [hp, startsIn] using this
        simpa [hp, eq_comm] using h
  -- behind an unquoted value the first hash is taken, without a search
  · have := List.head?_dropWhile_not (fun c => c != '#') body
    simp_all

/-- Without a hash there is no comment to cut off.  What is cut off begins with a hash, and it is
a part of the text. -/
theorem splitComment_of_not_mem {body : List Char} (h : '#' ∉ body) :
    Assignment.splitComment body = (body, []) := by
  have happend := splitComment_append body
  have hhead := splitComment_head body
  generalize Assignment.splitComment body = parts at happend hhead
  obtain ⟨left, comment⟩ := parts
  cases comment with
  | nil => rw [← happend, List.append_nil]
  | cons c rest =>
    obtain rfl := hhead c rfl
    exact absurd (by simp [← happend]) h

/-- In an unquoted value the first hash begins the comment. -/
theorem splitComment_unquoted {body comment : List Char}
    (hs : startsIn Assignment.isQuotedStart (body ++ comment) = false) (hb : '#' ∉ body)
    (hc : ∀ c, comment.head? = some c → c = '#') :
    Assignment.splitComment (body ++ comment) = (body, comment) := by
  have hbody : ∀ c ∈ body, (c != '#') = true := by
    intro c hm
    rw [bne_iff_ne]
    rintro rfl
    exact hb hm
  have hstop : ∀ c, comment.head? = some c → (c != '#') = false := by
    intro c hhead
    rw [hc c hhead]
    rfl
  obtain ⟨htake, hdrop⟩ := takeWhile_append_stop hbody hstop
  rw [Assignment.splitComment, hs, if_neg Bool.false_ne_true, htake, hdrop]

/-! ## 3. Assignments and their lines

One direction writes the pieces of an assignment out and classifies the line again; the other reads
a line and shows that what it is cut into fits.  What the second needs is that the first character
of the line, which tells a comment or a header, stands in the key.
-/

/-- A text behind the first character that is no blank does not change which one that is. -/
theorem trimStart_append {c : Char} {rest : List Char} : ∀ {text : List Char},
    trimStart text = c :: rest → ∀ other, trimStart (text ++ other) = c :: (rest ++ other)
  | [], h, _ => by simp [trimStart] at h
  | d :: ds, h, other => by
    by_cases hd : isBlank d = true
    · have h' : trimStart ds = c :: rest := by simpa [trimStart, hd] using h
      simpa [trimStart, hd] using trimStart_append h' other
    · simp_all [trimStart]

/-- A lead with anything behind it that does not begin with a gap is an assignment.  The pieces
behind the lead are those that its body is cut into, so nothing has to be known of the body
itself. -/
theorem classify_lead_append {key : KeyPath} {lead : List Char} (h : IsLead key lead)
    {body : List Char} (hb : ∀ c, body.head? = some c → isGap c = false) :
    classify (lead ++ body) = .assignment {
      key, lead
      value := dropEnd isGap (Assignment.splitComment body).1
      gap := takeEnd isGap (Assignment.splitComment body).1
      comment := (Assignment.splitComment body).2 } := by
  obtain ⟨left, gap, rfl, hgap, hsplit, hkey, c, rest, htrim, hc1, hc2⟩ := h
  have hline : left ++ '=' :: gap ++ body = left ++ '=' :: (gap ++ body) := by simp
  have htrim' := trimStart_append htrim ('=' :: (gap ++ body))
  obtain ⟨h1, h2⟩ := takeWhile_append_stop hgap hb
  have hs := hsplit (gap ++ body)
  unfold isKeyEnd at hs
  rw [hline]
  simp [classify, htrim', startsIn, hc1, hc2, Assignment.ofLine?, hs, hkey, h1, h2]

/-- What is read as an assignment begins with neither a comment nor a bracket. -/
theorem ofLine?_of_classify {line : List Char} {a : Assignment}
    (h : classify line = .assignment a) :
    Assignment.ofLine? line = some a
      ∧ ∃ c rest, trimStart line = c :: rest ∧ c ≠ '#' ∧ c ≠ '[' := by
  cases ht : trimStart line with
  | nil => simp [classify, ht] at h
  | cons c rest =>
    simp only [classify, ht, List.isEmpty_cons, Bool.false_or, startsIn, beq_iff_eq] at h
    by_cases hc1 : c = '#'
    · simp [hc1] at h
    · by_cases hc2 : c = '['
      · subst hc2
        simp only [hc1, if_false, if_true] at h
        split at h <;> simp at h
      · simp only [hc1, hc2, if_false] at h
        split at h
        · next hs =>
          obtain rfl := LineKind.assignment.inj h
          exact ⟨hs, c, rest, rfl, hc1, hc2⟩
        · simp at h

/-- The first character that is no blank stands in a left side that is a key. -/
theorem trimStart_of_append {c : Char} {rest other : List Char} : ∀ {text : List Char},
    trimStart (text ++ other) = c :: rest → trimStart text ≠ [] →
      ∃ tail, trimStart text = c :: tail
  | [], _, hne => absurd rfl hne
  | d :: ds, h, hne => by
    by_cases hd : isBlank d = true
    · simp only [trimStart, List.cons_append, List.dropWhile_cons, hd, if_true] at h hne ⊢
      exact trimStart_of_append h hne
    · simp_all [trimStart]

/-- A left side of blanks only is no key. -/
theorem trimStart_ne_nil_of_parse {left : List Char} {key : KeyPath}
    (h : KeyPath.parse (trim left) = .ok key) : trimStart left ≠ [] := by
  intro hn
  simp [trim, hn, trimEnd, dropEnd, KeyPath.parse, segments] at h

/-- **A line is an assignment exactly if its pieces fit.**  So a line may be taken apart, one
piece changed, and the line is an assignment again if the new piece fits; this is how everything
is shown that is said of edits. -/
theorem classify_eq_assignment_iff {line : List Char} {a : Assignment} :
    classify line = .assignment a ↔ a.Formed ∧ a.chars = line := by
  constructor
  · intro h
    obtain ⟨hof, c, rest, htrim, hc1, hc2⟩ := ofLine?_of_classify h
    -- the line is read: each piece fits since it was cut where the reader stopped
    refine ⟨?_, Assignment.chars_of_ofLine? hof⟩
    unfold Assignment.ofLine? at hof
    split at hof
    · next left right hs =>
      split at hof
      · next key hkey =>
        have hline := append_of_splitOutside? hs
        obtain ⟨tail, htail⟩ := trimStart_of_append (hline ▸ htrim) (trimStart_ne_nil_of_parse hkey)
        have hbody := splitComment_append (right.dropWhile isGap)
        have hhead := splitComment_head (right.dropWhile isGap)
        have hgap := List.head?_dropWhile_not isGap right
        generalize hp : Assignment.splitComment (right.dropWhile isGap) = parts at hof hbody hhead
        obtain ⟨body, comment⟩ := parts
        obtain rfl := Option.some.inj hof
        have hends := dropEnd_append_takeEnd isGap body
        refine ⟨⟨left, _, rfl, fun c => forall_takeWhile, splitOutside?_congr hs, hkey, c, tail,
          htail, hc1, hc2⟩, fun d hd => ?_, fun c => getLast?_dropEnd, ⟨fun c => forall_takeEnd,
          hhead⟩, ?_⟩
        · rw [hends, hbody] at hd
          simp_all
        · rw [hends, hbody, hp]
      · simp at hof
    · simp at hof
  -- the pieces are given: the reader cuts them apart again, the gap last
  · rintro ⟨h, rfl⟩
    have := classify_lead_append h.lead h.start
    rw [h.cut] at this
    simp only [dropEnd_append h.stop h.tail.gap, takeEnd_append h.stop h.tail.gap] at this
    simpa [Assignment.chars] using this

end TomlKeep
