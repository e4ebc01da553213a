/-
# Which target a position answers

A position lies in the section of the header that stands last before it (`governing`).  The search
for a target finds a position that lies in the section of the target and holds its key
(`Answers`), so one position answers one target only (`targetIndex?_injective`).

Conversely the position that answers a target is found, if it is the first to answer and no two
headers open its section (`targetIndex?_eq_some`).
-/
import TomlKeep.Proofs.Pieces

namespace TomlKeep

open Text

/-! ## 1. The section of a position

The search walks down the heads and forgets what it has passed.  What it knows of a position when it
gets there is said here from the position itself: the header that stands last before it, and the key
that it holds.  The header is carried along as `above`, so that the induction can go on behind a
header.
-/

/-- The header that stands last before a position, if there is one; `above` stands before all. -/
def governing (above : Option Header) : List Head → Nat → Option Header
  | [], _ => above
  | _ :: _, 0 => above
  | .header h :: rest, n + 1 => governing (some h) rest n
  | _ :: rest, n + 1 => governing above rest n

/-- Whether the header, or its absence, opens a section. -/
def opensSection (target : SectionPath) : Option Header → Bool
  | none => target.isRoot
  | some h => !target.isRoot && !h.array && h.path == target

/-- **The position holds the key of the target, in its section.** -/
def Answers (target : SectionPath) (key : String) (heads : List Head) (n : Nat) : Prop :=
  opensSection target (governing none heads n) = true
    ∧ ∃ path, heads[n]? = some (.key path) ∧ path.isSingle key = true

@[simp] theorem governing_header (above : Option Header) (h : Header) (rest : List Head) (n : Nat) :
    governing above (.header h :: rest) (n + 1) = governing (some h) rest n := rfl

@[simp] theorem governing_key (above : Option Header) (path : KeyPath) (rest : List Head)
    (n : Nat) :
    governing above (.key path :: rest) (n + 1) = governing above rest n := rfl

@[simp] theorem governing_other (above : Option Header) (rest : List Head) (n : Nat) :
    governing above (.other :: rest) (n + 1) = governing above rest n := rfl

/-- No header stands before the key that is found in a section.  So whatever governs the first
head governs the key as well. -/
theorem keyIndex?_spec {key : String} : ∀ {heads : List Head} {n : Nat},
    keyIndex? key heads = some n → (∀ above, governing above heads n = above)
      ∧ ∃ path, heads[n]? = some (.key path) ∧ path.isSingle key = true
  | [], _, h => by simp [keyIndex?] at h
  | .header _ :: _, _, h => by simp [keyIndex?] at h
  | .key path :: rest, n, h => by
    rw [keyIndex?] at h
    split at h
    · next hk =>
      obtain rfl := Option.some.inj h
      exact ⟨fun above => rfl, path, rfl, hk⟩
    · obtain ⟨m, hm, rfl⟩ := Option.map_eq_some_iff.mp h
      obtain ⟨h1, h2⟩ := keyIndex?_spec hm
      exact ⟨fun above => by rw [governing_key, h1], by simpa using h2⟩
  | .other :: rest, n, h => by
    rw [keyIndex?] at h
    obtain ⟨m, hm, rfl⟩ := Option.map_eq_some_iff.mp h
    obtain ⟨h1, h2⟩ := keyIndex?_spec hm
    exact ⟨fun above => by rw [governing_other, h1], by simpa using h2⟩

/-- The header of the section governs the key that is found in it.  The search for the key begins
right behind that header, and it stops at the next one. -/
theorem sectionIndex?_spec {target : SectionPath} {key : String} : ∀ {heads : List Head} {n : Nat},
    sectionIndex? target key heads = some n →
      (∀ above, ∃ h, governing above heads n = some h ∧ h.array = false ∧ h.path = target)
        ∧ ∃ path, heads[n]? = some (.key path) ∧ path.isSingle key = true
  | [], _, h => by simp [sectionIndex?] at h
  | .header d :: rest, n, h => by
    rw [sectionIndex?] at h
    split at h
    -- the header of the section: from here on the search is for the key
    · next hd =>
      obtain ⟨m, hm, rfl⟩ := Option.map_eq_some_iff.mp h
      obtain ⟨h1, h2⟩ := keyIndex?_spec hm
      refine ⟨fun above => ⟨d, by rw [governing_header, h1], ?_⟩, by simpa using h2⟩
      simpa using hd
    · obtain ⟨m, hm, rfl⟩ := Option.map_eq_some_iff.mp h
      obtain ⟨h1, h2⟩ := sectionIndex?_spec hm
      exact ⟨fun above => h1 (some d), by simpa using h2⟩
  | .key _ :: rest, n, h => by
    obtain ⟨m, hm, rfl⟩ := Option.map_eq_some_iff.mp h
    obtain ⟨h1, h2⟩ := sectionIndex?_spec hm
    exact ⟨fun above => h1 above, by simpa using h2⟩
  | .other :: rest, n, h => by
    obtain ⟨m, hm, rfl⟩ := Option.map_eq_some_iff.mp h
    obtain ⟨h1, h2⟩ := sectionIndex?_spec hm
    exact ⟨fun above => h1 above, by simpa using h2⟩

/-- **What is found answers the target.**  Nothing is said of positions that answer and are not
found; there may be several. -/
theorem answers_of_targetIndex? {i : Instruction} {heads : List Head} {n : Nat}
    (h : targetIndex? i heads = some n) : Answers i.target i.key heads n := by
  unfold targetIndex? at h
  split at h
  · next hr =>
    obtain ⟨h1, h2⟩ := keyIndex?_spec h
    exact ⟨by rw [h1]; exact hr, h2⟩
  · next hr =>
    obtain ⟨h1, h2⟩ := sectionIndex?_spec h
    obtain ⟨d, hd, ha, hp⟩ := h1 none
    exact ⟨by simp [hd, opensSection, ha, hp, hr], h2⟩

/-- A position answers one target only: the header that governs it names the section, and the key
that it holds is a single name. -/
theorem Answers.unique {s t : SectionPath} {k l : String} {heads : List Head} {n : Nat}
    (h : Answers s k heads n) (h' : Answers t l heads n) : s = t ∧ k = l := by
  obtain ⟨hs, p, hp, hk⟩ := h
  obtain ⟨ht, q, hq, hl⟩ := h'
  constructor
  -- without a header in front both sections are the root; with one, both are its path
  · cases hg : governing none heads n with
    | none =>
      rw [hg] at hs ht
      obtain ⟨s⟩ := s
      obtain ⟨t⟩ := t
      simp only [opensSection, SectionPath.isRoot, List.isEmpty_iff] at hs ht
      rw [hs, ht]
    | some h =>
      rw [hg] at hs ht
      simp only [opensSection, Bool.and_eq_true, beq_iff_eq] at hs ht
      rw [← hs.2, ← ht.2]
  · obtain rfl : p = q := by simpa [hp] using hq
    simp only [KeyPath.isSingle, beq_iff_eq] at hk hl
    simpa [hk] using hl

/-- What an instruction is aimed at. -/
def Instruction.address (i : Instruction) : SectionPath × String := (i.target, i.key)

/-- **One position answers one target only.**  So instructions for different targets are written
into different entries, and what they do can be told apart by position. -/
theorem targetIndex?_injective {i j : Instruction} {heads : List Head} {n : Nat}
    (hi : targetIndex? i heads = some n) (hj : targetIndex? j heads = some n) :
    i.address = j.address := by
  obtain ⟨h1, h2⟩ := (answers_of_targetIndex? hi).unique (answers_of_targetIndex? hj)
  simp [Instruction.address, h1, h2]

/-- The literal of an instruction does not matter for its position. -/
theorem targetIndex?_address {i j : Instruction} (h : i.address = j.address) (heads : List Head) :
    targetIndex? i heads = targetIndex? j heads := by
  simp only [Instruction.address, Prod.mk.injEq] at h
  simp [targetIndex?, h.1, h.2]

/-! ## 2. Finding a position that answers

The other direction needs that nothing stops the search on its way.  No header may stand between the
section and the position; that is what it means for the header of the section to govern it.  No
earlier key may answer, and no earlier header may open the section, for the search goes to the first
of each.
-/

/-- Whether the search for a key goes on behind the head. -/
def Head.passes (key : String) : Head → Bool
  | .header _ => false
  | .key path => !path.isSingle key
  | .other => true

/-- Whether the head is a header of the section. -/
def Head.opens (target : SectionPath) : Head → Bool
  | .header h => !h.array && h.path == target
  | _ => false

/-- The section behind a head is that of the head, if it is a header.  `governing` is defined
from the front, and this is its recursion at the other end. -/
theorem governing_succ (above : Option Header) : ∀ (heads : List Head) (n : Nat),
    governing above heads (n + 1)
      = match heads[n]? with
        | some (.header h) => some h
        | _ => governing above heads n
  | [], _ => rfl
  | .header h :: rest, 0 => by cases rest <;> rfl
  | .key _ :: rest, 0 => by cases rest <;> rfl
  | .other :: rest, 0 => by cases rest <;> rfl
  | .header h :: rest, n + 1 => governing_succ (some h) rest n
  | .key _ :: rest, n + 1 => governing_succ above rest n
  | .other :: rest, n + 1 => governing_succ above rest n

/-- Where no header governs, none stands before.  The induction goes back from the position, one
head at a time. -/
theorem not_header_of_governing {heads : List Head} : ∀ {n : Nat},
    governing none heads n = none → ∀ m, m < n →
      governing none heads m = none ∧ ∀ h, heads[m]? ≠ some (.header h)
  | 0, _, m, hm => absurd hm (Nat.not_lt_zero m)
  | n + 1, hn, m, hm => by
    rw [governing_succ] at hn
    have hlast : governing none heads n = none ∧ ∀ h, heads[n]? ≠ some (.header h) := by
      split at hn
      · simp at hn
      · next hne => exact ⟨hn, fun h hh => hne h hh⟩
    rcases Nat.lt_succ_iff_lt_or_eq.mp hm with hlt | rfl
    · exact not_header_of_governing hlast.1 m hlt
    · exact hlast

/-- Where a header governs, it is the last one before.  All positions in between are governed by
it, too. -/
theorem header_of_governing {heads : List Head} {h : Header} : ∀ {n : Nat},
    governing none heads n = some h → ∃ m, m < n ∧ heads[m]? = some (.header h)
      ∧ ∀ l, m < l → l < n → governing none heads l = some h ∧ ∀ d, heads[l]? ≠ some (.header d)
  | 0, hn => by cases heads <;> simp [governing] at hn
  | n + 1, hn => by
    rw [governing_succ] at hn
    split at hn
    · next d hd =>
      obtain rfl := Option.some.inj hn
      exact ⟨n, Nat.lt_succ_self n, hd, fun l h1 h2 => by omega⟩
    · next hne =>
      obtain ⟨m, hm, hh, hbetween⟩ := header_of_governing hn
      refine ⟨m, Nat.lt_succ_of_lt hm, hh, fun l h1 h2 => ?_⟩
      rcases Nat.lt_succ_iff_lt_or_eq.mp h2 with hlt | rfl
      · exact hbetween l h1 hlt
      · exact ⟨hn, fun d hd => hne d hd⟩

/-- A key is found behind heads that the search passes: no header, and no other assignment of the
key. -/
theorem keyIndex?_eq_some {key : String} {path : KeyPath} (hk : path.isSingle key = true) :
    ∀ {heads : List Head} {n : Nat}, heads[n]? = some (.key path) →
      (∀ m, m < n → ∀ d, heads[m]? = some d → d.passes key = true) →
        keyIndex? key heads = some n
  | [], _, h, _ => by simp at h
  | d :: rest, 0, h, _ => by
    obtain rfl : d = .key path := by simpa using h
    simp [keyIndex?, hk]
  | d :: rest, n + 1, h, hpass => by
    have hd := hpass 0 (Nat.succ_pos n) d rfl
    have ih := keyIndex?_eq_some hk (by simpa using h)
      fun m hm e he => hpass (m + 1) (Nat.succ_lt_succ hm) e (by simpa using he)
    cases d with
    | header e => simp [Head.passes] at hd
    | key other => simp_all [keyIndex?, Head.passes]
    | other => simp [keyIndex?, ih]

/-- A section is found at its first header, and a key in it behind heads that the search passes. -/
theorem sectionIndex?_eq_some {target : SectionPath} {key : String} {path : KeyPath} {h : Header}
    (hk : path.isSingle key = true) (hh : Head.opens target (.header h) = true) :
    ∀ {heads : List Head} {m n : Nat}, m < n → heads[m]? = some (.header h) →
      heads[n]? = some (.key path) →
      (∀ l, l < m → ∀ d, heads[l]? = some d → d.opens target = false) →
      (∀ l, m < l → l < n → ∀ d, heads[l]? = some d → d.passes key = true) →
        sectionIndex? target key heads = some n
  | [], _, _, _, hm, _, _, _ => by simp at hm
  | d :: rest, 0, n + 1, _, hm, hn, _, hpass => by
    obtain rfl : d = .header h := by simpa using hm
    have hkey := keyIndex?_eq_some hk (by simpa using hn)
      fun l hl e he => hpass (l + 1) (Nat.succ_pos l) (Nat.succ_lt_succ hl) e (by simpa using he)
    simp only [Head.opens] at hh
    simp [sectionIndex?, hh, hkey]
  | d :: rest, m + 1, n + 1, hlt, hm, hn, hopen, hpass => by
    -- the head in front of the header does not open the section, so the search passes it
    have hd := hopen 0 (Nat.succ_pos m) d rfl
    have ih := sectionIndex?_eq_some hk hh (Nat.lt_of_succ_lt_succ hlt) (by simpa using hm)
      (by simpa using hn)
      (fun l hl e he => hopen (l + 1) (Nat.succ_lt_succ hl) e (by simpa using he))
      fun l h1 h2 e he => hpass (l + 1) (Nat.succ_lt_succ h1) (Nat.succ_lt_succ h2) e
        (by simpa using he)
    cases d with
    | header e =>
      simp only [Head.opens] at hd
      rw [sectionIndex?, hd, ih]
      rfl
    | key | other => simp [sectionIndex?, ih]

/-- **The position that answers is found,** if it is the first one to answer and no two headers open
the section. -/
theorem targetIndex?_eq_some {i : Instruction} {heads : List Head} {n : Nat}
    (h : Answers i.target i.key heads n) (honce : ∀ m, m < n → ¬ Answers i.target i.key heads m)
    (hopen : ∀ (l m : Nat) (d e : Head), l < m → heads[l]? = some d → heads[m]? = some e →
      d.opens i.target = true → e.opens i.target = false) :
    targetIndex? i heads = some n := by
  obtain ⟨hg, path, hpath, hk⟩ := h
  -- between the header and the position nothing stops the search: an assignment of the key there
  -- would answer before the position does
  have hpass : ∀ l, l < n → governing none heads l = governing none heads n →
      (∀ d, heads[l]? ≠ some (.header d)) → ∀ d, heads[l]? = some d → d.passes i.key = true := by
    intro l hl hgl hnh d hd
    cases d with
    | header e => exact absurd hd (hnh e)
    | other => rfl
    | key other =>
      by_contra hsingle
      refine honce l hl ⟨by rw [hgl]; exact hg, other, hd, ?_⟩
      simpa [Head.passes] using hsingle
  unfold targetIndex?
  -- the target is the root, or a section whose header governs the position
  cases hgov : governing none heads n with
  | none =>
    rw [hgov] at hg hpass
    have hbefore := not_header_of_governing hgov
    have hroot : i.target.isRoot = true := hg
    rw [if_pos hroot]
    exact keyIndex?_eq_some hk hpath fun m hm d hd =>
      hpass m hm (hbefore m hm).1 (hbefore m hm).2 d hd
  | some e =>
    rw [hgov] at hg hpass
    simp only [opensSection, Bool.and_eq_true, Bool.not_eq_true', beq_iff_eq] at hg
    obtain ⟨m, hm, hhead, hbetween⟩ := header_of_governing hgov
    have he : Head.opens i.target (.header e) = true := by
      simp [Head.opens, hg.1.2, hg.2]
    rw [if_neg (by simp [hg.1.1])]
    refine sectionIndex?_eq_some hk he hm hhead hpath (fun l hl d hd => ?_) fun l h1 h2 d hd =>
      hpass l h2 (hbetween l h1 h2).1 (hbetween l h1 h2).2 d hd
    by_contra hopens
    have := hopen l m d _ hl hd hhead (by simpa using hopens)
    simp [he] at this

end TomlKeep
