/-
# Laws of edits

An edit applies exactly to the texts that its range cuts in three and that hold, between the two
cuts, what it expects or what it puts there (`Edit.apply_eq_ok_iff`).  From this the algebra of
edits follows by looking at the three parts (`Edit.apply_laws`):

* an edit that found what it expected is undone by its inverse;
* an edit that keeps the length of its range changes nothing a second time;
* two edits apart may be carried out in either order, if the second range is moved by what the
  first edit adds or takes away.

All offsets count bytes and all cuts are between characters, so nothing is asked of the texts.
-/
import TomlKeep.Proofs.Sequential

namespace TomlKeep

open Text

namespace Edit

/-! ## 1. When an edit applies

The range is two byte offsets, and it is good for nothing unless both fall between characters.  Then
it cuts the text in three, and these three parts are what everything else is said of.
-/

/-- **The range of an edit cuts a text** in what stands before it, in it and behind it. -/
structure Cuts (e : Edit) (text before inside behind : List Char) : Prop where
  text_eq : text = before ++ inside ++ behind
  start_eq : e.start = byteLength before
  stop_eq : e.stop = byteLength before + byteLength inside

/-- The range of an edit holds what the edit expects. -/
def Finds (e : Edit) (text : List Char) : Prop :=
  ∃ before behind, e.Cuts text before e.expected behind

/-- The cut is the one that the edit makes. -/
theorem Cuts.span? {e : Edit} {text before inside behind : List Char}
    (h : e.Cuts text before inside behind) :
    span? e.start e.stop text = some ⟨before, inside, behind⟩ := by
  rw [h.text_eq, h.start_eq, h.stop_eq]
  exact span?_append before inside behind

/-- **When an edit applies, and what it gives.** -/
theorem apply_eq_ok_iff {e : Edit} {text result : List Char} :
    e.apply text = .ok result ↔ ∃ before inside behind, e.Cuts text before inside behind
      ∧ (inside = e.expected ∨ inside = e.replacement)
      ∧ result = before ++ e.replacement ++ behind := by
  -- an edit that applied has cut the text; the other way the cut is found and passes each test
  constructor
  · intro h
    obtain ⟨⟨before, inside, behind⟩, hspan, hfound, hresult⟩ := apply_eq_ok h
    obtain ⟨htext, hstart, hstop⟩ := span?_eq_some hspan
    rw [byteLength_append] at hstop
    exact ⟨before, inside, behind, ⟨htext, hstart.symm, hstop.symm⟩, hfound, hresult⟩
  · rintro ⟨before, inside, behind, hcuts, hfound, rfl⟩
    have hno : ¬ (inside ≠ e.expected ∧ inside ≠ e.replacement) := by tauto
    simp only [apply, hcuts.span?, if_neg hno]

/-- What an edit gives at a cut that is known. -/
theorem Cuts.apply {e : Edit} {text before inside behind : List Char}
    (h : e.Cuts text before inside behind) (hf : inside = e.expected ∨ inside = e.replacement) :
    e.apply text = .ok (before ++ e.replacement ++ behind) :=
  apply_eq_ok_iff.mpr ⟨before, inside, behind, h, hf, rfl⟩

/-! ## 2. Room for the result

The room is computed before the result is written, by two subtractions of numbers that know no
negatives.  So it has to be shown that neither goes wrong, and this needs the cut.
-/

/-- The bytes that are set aside for the result before it is written: what the text and the
replacement take, less what is taken out.  None if either difference would go below zero. -/
def room? (e : Edit) (text : List Char) : Option Nat := do
  let removed ← Nat.psub e.stop e.start
  Nat.psub (byteLength text + byteLength e.replacement) removed

/-- **The room is there, and it is exactly what the result takes.** -/
theorem room?_of_apply {e : Edit} {text result : List Char} (h : e.apply text = .ok result) :
    e.room? text = some (byteLength result) := by
  obtain ⟨before, inside, behind, hcuts, -, rfl⟩ := apply_eq_ok_iff.mp h
  have hremoved : Nat.psub e.stop e.start = some (byteLength inside) := by
    rw [hcuts.start_eq, hcuts.stop_eq]
    exact Nat.psub_eq_some.mpr (Nat.add_comm _ _)
  rw [room?, hremoved, Option.bind_eq_bind, Option.bind_some, hcuts.text_eq, Nat.psub_eq_some]
  simp only [byteLength_append]
  omega

/-! ## 3. Undoing and repeating

An edit may find what it puts there already, and then it changes nothing but still applies.  Only
one that found what it expected is undone, for otherwise the inverse would put there what has never
been.
-/

/-- The edit that takes the replacement out again and puts back what was expected. -/
def inverse (e : Edit) : Edit :=
  { start := e.start, stop := e.start + byteLength e.replacement,
    replacement := e.expected, expected := e.replacement }

/-- **An edit that found what it expected is undone by its inverse.** -/
theorem apply_inverse {e : Edit} {text result : List Char} (hf : e.Finds text)
    (h : e.apply text = .ok result) : e.inverse.apply result = .ok text := by
  obtain ⟨before, behind, hcuts⟩ := hf
  have hresult : result = before ++ e.replacement ++ behind :=
    Except.ok.inj (h.symm.trans (hcuts.apply (.inl rfl)))
  have hback : e.inverse.Cuts result before e.replacement behind :=
    ⟨hresult, hcuts.start_eq, by rw [inverse, hcuts.start_eq]⟩
  rw [hback.apply (.inl rfl), hcuts.text_eq]
  rfl

/-- **An edit that keeps the length of its range** leaves its own result as it is. -/
theorem apply_again {e : Edit} {text result : List Char} (h : e.apply text = .ok result)
    (hlen : byteLength e.replacement = e.stop - e.start) : e.apply result = .ok result := by
  obtain ⟨before, inside, behind, hcuts, -, rfl⟩ := apply_eq_ok_iff.mp h
  -- the range covers the replacement as it covered what was there
  have hagain : e.Cuts (before ++ e.replacement ++ behind) before e.replacement behind := by
    refine ⟨rfl, hcuts.start_eq, ?_⟩
    have hstart := hcuts.start_eq
    have hstop := hcuts.stop_eq
    omega
  exact hagain.apply (.inr rfl)

/-! ## 4. Edits apart

The second edit sees the first in the distance only, as a number of bytes.  The text between the two
ranges is in both cuts, which is why the two may be made in either order.
-/

/-- By how many bytes a text grows. -/
def growth (e : Edit) : Int :=
  byteLength e.replacement - ((e.stop : Int) - e.start)

/-- The edit with its range moved. -/
def shift (e : Edit) (distance : Int) : Edit :=
  { e with start := (e.start + distance).toNat, stop := (e.stop + distance).toNat }

/-- Of two beginnings of a text the one that is not longer begins the other. -/
theorem exists_between {a b c d : List Char} (h : a ++ c = b ++ d)
    (hle : byteLength a ≤ byteLength b) : ∃ between, b = a ++ between ∧ c = between ++ d := by
  rcases List.append_eq_append_iff.mp h with ⟨between, hb, hc⟩ | ⟨extra, ha, hd⟩
  · exact ⟨between, hb, hc⟩
  · have hextra : extra = [] := by
      by_contra hne
      have hpos := byteLength_pos hne
      rw [ha, byteLength_append] at hle
      omega
    subst hextra
    exact ⟨[], by simpa using ha.symm, by simpa using hd.symm⟩

/-- **Two edits of ranges apart** give the same text in either order; the later range is moved by
what the earlier edit adds. -/
theorem apply_comm {e f : Edit} {text : List Char} (he : e.Finds text) (hf : f.Finds text)
    (hle : e.stop ≤ f.start) :
    ∃ first second result, e.apply text = .ok first ∧ (f.shift e.growth).apply first = .ok result
      ∧ f.apply text = .ok second ∧ e.apply second = .ok result := by
  obtain ⟨before, rest, hecuts⟩ := he
  obtain ⟨front, behind, hfcuts⟩ := hf
  have htext := hecuts.text_eq.symm.trans hfcuts.text_eq
  rw [hecuts.stop_eq, hfcuts.start_eq, ← byteLength_append] at hle
  rw [List.append_assoc front] at htext
  -- the text is now in five parts, with the two ranges in the second and the fourth
  obtain ⟨between, rfl, rfl⟩ := exists_between htext hle
  have hstart := hfcuts.start_eq
  have hstop := hfcuts.stop_eq
  simp only [byteLength_append] at hstart hstop
  have hgrowth : e.growth = (byteLength e.replacement : Int) - byteLength e.expected := by
    rw [growth, hecuts.start_eq, hecuts.stop_eq]
    push_cast
    omega
  refine ⟨_, _, before ++ e.replacement ++ (between ++ (f.replacement ++ behind)),
    hecuts.apply (.inl rfl), ?_, hfcuts.apply (.inl rfl), ?_⟩
  -- behind the first edit the second range begins later by its growth
  · have hmoved :
        (f.shift e.growth).Cuts (before ++ e.replacement ++ (between ++ (f.expected ++ behind)))
          (before ++ e.replacement ++ between) f.expected behind := by
      refine ⟨by simp, ?_, ?_⟩
      · simp only [shift, hgrowth, byteLength_append]
        omega
      · simp only [shift, hgrowth, byteLength_append]
        omega
    rw [hmoved.apply (.inl rfl)]
    simp [shift]
  -- behind the second edit the first range is where it was
  · have hkept :
        e.Cuts (before ++ e.expected ++ between ++ f.replacement ++ behind) before e.expected
          (between ++ (f.replacement ++ behind)) := ⟨by simp, hecuts.start_eq, hecuts.stop_eq⟩
    rw [hkept.apply (.inl rfl)]

/-- **The laws of edits.**  When an edit applies and what it gives, whether or not it rewrites
anything; that the room for the result is there; how an edit is undone, when it may be repeated, and
that edits apart commute. -/
theorem apply_laws (e : Edit) (text : List Char) :
    (∀ result, e.apply text = .ok result ↔ ∃ before inside behind, e.Cuts text before inside behind
        ∧ (inside = e.expected ∨ inside = e.replacement)
        ∧ result = before ++ e.replacement ++ behind)
      ∧ (∀ result, e.apply text = .ok result → e.room? text = some (byteLength result))
      ∧ (∀ result, e.Finds text → e.apply text = .ok result → e.inverse.apply result = .ok text)
      ∧ (∀ result, e.apply text = .ok result → byteLength e.replacement = e.stop - e.start →
        e.apply result = .ok result)
      ∧ ∀ f : Edit, e.Finds text → f.Finds text → e.stop ≤ f.start →
        ∃ first second result, e.apply text = .ok first
          ∧ (f.shift e.growth).apply first = .ok result
          ∧ f.apply text = .ok second ∧ e.apply second = .ok result :=
  ⟨fun _ => apply_eq_ok_iff, fun _ => room?_of_apply, fun _ => apply_inverse, fun _ => apply_again,
    fun _ => apply_comm⟩

/-- Two values behind a letter of two bytes: the first grows by a byte, the second keeps its
length. -/
theorem apply_laws_two_values :
    let text := "é=1\nb=22\n".toList
    let e : Edit := ⟨3, 4, ['3', '0'], ['1']⟩
    let f : Edit := ⟨7, 9, ['4', '4'], ['2', '2']⟩
    e.apply text = .ok "é=30\nb=22\n".toList ∧ e.room? text = some 11
      ∧ e.inverse.apply "é=30\nb=22\n".toList = .ok text
      ∧ f.apply "é=1\nb=44\n".toList = .ok "é=1\nb=44\n".toList
      ∧ ∃ first second result, e.apply text = .ok first
        ∧ (f.shift e.growth).apply first = .ok result
        ∧ f.apply text = .ok second ∧ e.apply second = .ok result := by
  intro text e f
  have hecuts : e.Cuts text ['é', '='] ['1'] "\nb=22\n".toList := ⟨rfl, rfl, rfl⟩
  have hfcuts : f.Cuts text "é=1\nb=".toList ['2', '2'] ['\n'] := ⟨rfl, rfl, rfl⟩
  have hefinds : e.Finds text := ⟨_, _, hecuts⟩
  have hffinds : f.Finds text := ⟨_, _, hfcuts⟩
  obtain ⟨happly, hroom, hundo, -, hcomm⟩ := apply_laws e text
  have happlied := (happly _).mpr ⟨_, _, _, hecuts, .inl rfl, rfl⟩
  have hdone : f.apply text = .ok "é=1\nb=44\n".toList :=
    ((apply_laws f text).1 _).mpr ⟨_, _, _, hfcuts, .inl rfl, rfl⟩
  exact ⟨happlied, hroom _ happlied, hundo _ hefinds happlied,
    (apply_laws f text).2.2.2.1 _ hdone rfl, hcomm f hefinds hffinds (by decide)⟩

end Edit

end TomlKeep
