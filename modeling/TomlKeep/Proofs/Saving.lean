/-
# A save is all or nothing

A save ends in one of three ways, and its mode tells which (`Settled`): the text is returned as it
is, or with every rewrite of the difference carried out in order, or the document is written anew.
No text between the first two is ever returned, although the patches are tried one by one on a text
that changes: a save of which a single patch misses is written anew as well.

* The patches of a save split its instructions in two, those carried out and those missed, each in
  their order (`interleaves_patchAll`).
* If none is missed, the text is that of all the rewrites (`rewriteAll?_of_missed_eq_nil`).
-/
import Mathlib
import TomlKeep.Save

namespace TomlKeep

/-! ## 1. Patches one after the other

Each patch is tried on the text that the ones before it left.  Those that find a line and those that
do not are put on two lists, and the two together are all of them, so that nothing is lost and
nothing done twice.
-/

/-- The text with all the instructions carried out, one after the other; none if one of them finds
no line. -/
def rewriteAll? : List Char → List Instruction → Option (List Char)
  | text, [] => some text
  | text, i :: rest => (patch? text i).bind fun patched => rewriteAll? patched rest

/-- **Two lists that make up a third,** each of them in its order. -/
inductive Interleaves {α : Type} : List α → List α → List α → Prop where
  | nil : Interleaves [] [] []
  | left {a : α} {as bs all : List α} : Interleaves as bs all → Interleaves (a :: as) bs (a :: all)
  | right {b : α} {as bs all : List α} : Interleaves as bs all → Interleaves as (b :: bs) (b :: all)

/-- Where the second list is empty, the first is all. -/
theorem Interleaves.of_right_nil {α : Type} {as all : List α} (h : Interleaves as [] all) :
    as = all := by
  generalize hb : ([] : List α) = bs at h
  induction h with
  | nil => rfl
  | left _ ih => rw [ih hb]
  | right => cases hb

/-- **Each instruction is carried out or missed.** -/
theorem interleaves_patchAll : ∀ (text : List Char) (is : List Instruction),
    Interleaves (patchAll text is).applied (patchAll text is).missed is
  | _, [] => .nil
  | text, i :: rest => by
    rw [patchAll]
    cases patch? text i with
    | some patched => exact .left (interleaves_patchAll patched rest)
    | none => exact .right (interleaves_patchAll text rest)

/-- Where no instruction is missed, the text is that of all the rewrites. -/
theorem rewriteAll?_of_missed_eq_nil : ∀ {text : List Char} {is : List Instruction},
    (patchAll text is).missed = [] → rewriteAll? text is = some (patchAll text is).text
  | _, [], _ => rfl
  | text, i :: rest, h => by
    rw [patchAll] at h ⊢
    rw [rewriteAll?]
    cases hp : patch? text i with
    | some patched =>
      rw [hp] at h
      exact rewriteAll?_of_missed_eq_nil h
    | none =>
      rw [hp] at h
      cases h

/-! ## 2. The outcome of a save

The outcome is told by the mode.  For the reasons of a fallback it is said when they are given as
well, by an equivalence where there is one; the last two differ only in whether some patch was
carried out.
-/

/-- **The three ways in which a save may end.** -/
def Settled (text : List Char) (old : Option Value) (new : Value) (preserve : Bool)
    (o : Outcome) : Prop :=
  match o.report.mode with
  | .unchanged =>
    o.preserved = true ∧ o.text = text ∧ preserve = true
      ∧ ∃ tree, old = some tree ∧ (difference tree new).isEmpty = true
  | .patched =>
    o.preserved = true ∧ preserve = true
      ∧ ∃ tree, old = some tree ∧ o.report.applied = (difference tree new).instructions
        ∧ o.report.applied ≠ [] ∧ o.report.missed = [] ∧ o.report.structural = []
        ∧ rewriteAll? text o.report.applied = some o.text
  | .fallback reason =>
    o.preserved = false ∧ o.text = Toml.render new
      ∧ (reason = .disabled ↔ preserve = false)
      ∧ (reason = .parseFailure ↔ preserve = true ∧ old = none)
      ∧ (reason = .structuralChange ↔ preserve = true
        ∧ ∃ tree, old = some tree ∧ (difference tree new).isStructural = true)
      ∧ (reason = .patchMiss ∨ reason = .noInstructionsApplied →
        ∃ tree, old = some tree
          ∧ Interleaves o.report.applied o.report.missed (difference tree new).instructions
          ∧ o.report.missed ≠ [] ∧ (o.report.applied ≠ [] ↔ reason = .patchMiss))

/-- Without its structural changes a difference has its instructions only. -/
theorem Difference.isEmpty_eq {d : Difference} (h : d.isStructural = false) :
    d.isEmpty = d.instructions.isEmpty := by
  simp only [isStructural, Bool.not_eq_false'] at h
  simp [isEmpty, h]

/-- What a save does with the instructions of a difference that is not structural. -/
theorem reconcile_patches {text : List Char} {tree new : Value}
    (hs : (difference tree new).isStructural = false)
    (hi : (difference tree new).instructions ≠ []) :
    reconcile text (some tree) new true =
      let p := patchAll text (difference tree new).instructions
      if p.applied = [] then regenerate new .noInstructionsApplied p.applied p.missed []
      else if p.missed = [] then ⟨p.text, ⟨.patched, p.applied, [], []⟩⟩
      else regenerate new .patchMiss p.applied p.missed [] := by
  simp only [reconcile, Bool.not_true, Bool.false_eq_true, if_false, hs, List.isEmpty_iff, hi,
    Bool.not_eq_true', List.isEmpty_eq_false_iff]
  split
  · rfl
  · split <;> simp_all

/-- **A save is all or nothing.**  The text is returned as it is if the difference is empty, with
every one of its rewrites carried out in order if none of them misses, and otherwise the document is
written anew; which of these it was, and why, is told by the mode. -/
theorem reconcile_settled (text : List Char) (old : Option Value) (new : Value) (preserve : Bool) :
    Settled text old new preserve (reconcile text old new preserve) := by
  cases preserve with
  | false => simp [reconcile, regenerate, Settled, Outcome.preserved]
  | true =>
    cases old with
    | none => simp [reconcile, regenerate, Settled, Outcome.preserved]
    | some tree =>
      -- a structural change is written anew before any patch is tried
      cases hs : (difference tree new).isStructural with
      | true => simp [reconcile, regenerate, Settled, Outcome.preserved, hs]
      | false =>
        by_cases hi : (difference tree new).instructions = []
        · have hempty : (difference tree new).isEmpty = true := by
            rw [Difference.isEmpty_eq hs, hi]
            rfl
          simp [reconcile, Settled, Outcome.preserved, hs, hi, hempty]
        · have hsplit := interleaves_patchAll text (difference tree new).instructions
          have hall := @rewriteAll?_of_missed_eq_nil text (difference tree new).instructions
          rw [reconcile_patches hs hi]
          generalize patchAll text (difference tree new).instructions = p at hsplit hall
          -- were nothing carried out and nothing missed, there would be no instruction
          have hsome : p.applied = [] → p.missed ≠ [] := by
            intro ha hm
            rw [hm] at hsplit
            exact hi (hsplit.of_right_nil.symm.trans ha)
          -- the three ends: nothing carried out, everything, or some of it
          by_cases ha : p.applied = []
          · rw [ha] at hsplit
            simp [ha, regenerate, Settled, Outcome.preserved, hs, hsome ha, hsplit]
          · by_cases hm : p.missed = []
            · have happlied := (hm ▸ hsplit).of_right_nil
              simp [hm, Settled, Outcome.preserved, happlied, hi, hall hm]
            · simp [ha, hm, regenerate, Settled, Outcome.preserved, hs, hsplit]

end TomlKeep
