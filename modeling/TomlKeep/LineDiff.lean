/-
# The difference of two texts, line by line

`LineDiff.blocks` aligns two lists of lines: runs of lines that stay, lines that go, and lines
that come.  The alignment is a shortest one, found by searching from both ends at once for the
middle of a shortest path; then insertions are moved up and down over equal lines so that
neighbouring ones meet.  In a run of changes the lines that go are shown before those that come.

Whatever the search finds, the blocks hold all lines of either text in their order; this rests on
the steps alone (`splitCommon`, `Block.old`, `Block.new`) and not on the search.
-/
import TomlKeep.Text.Blank

namespace TomlKeep.LineDiff

/-! ## 1. Lines -/

/-- The lines of a text, with their ends.  A carriage return ends a line, alone or before a line
feed. -/
def looseLines : List Char → List (List Char)
  | [] => []
  | '\n' :: rest => ['\n'] :: looseLines rest
  | '\r' :: '\n' :: rest => ['\r', '\n'] :: looseLines rest
  | '\r' :: rest => ['\r'] :: looseLines rest
  | c :: rest =>
    match looseLines rest with
    | [] => [[c]]
    | line :: lines => (c :: line) :: lines

/-- A run of lines. -/
inductive Block (α : Type) where
  | equal (lines : List α)
  | delete (lines : List α)
  | insert (lines : List α)
  deriving Repr

variable {α : Type}

/-- The lines of a block. -/
def Block.lines : Block α → List α
  | .equal ls | .delete ls | .insert ls => ls

/-- The lines of a block that stand in the old text. -/
def Block.old : Block α → List α
  | .equal ls | .delete ls => ls
  | .insert _ => []

/-- The lines of a block that stand in the new text. -/
def Block.new : Block α → List α
  | .equal ls | .insert ls => ls
  | .delete _ => []

/-! ## 2. The middle of a shortest path -/

variable [DecidableEq α]

/-- The common beginning of two lists and what is left of each. -/
def splitCommon : List α → List α → List α × List α × List α
  | a :: as, b :: bs =>
    if a = b then
      let (common, as, bs) := splitCommon as bs
      (a :: common, as, bs)
    else ([], a :: as, b :: bs)
  | as, bs => ([], as, bs)

/-- How far a search has come on each diagonal; the diagonal `k` has its place at `k + middle`. -/
structure Reach where
  middle : Nat
  cells : Array Nat

/-- The start of a search that may take `steps` steps. -/
def Reach.start (steps : Nat) : Reach :=
  ⟨steps + 2, Array.replicate (2 * steps + 5) 0⟩

/-- How far the search has come on a diagonal. -/
def Reach.get (r : Reach) (k : Int) : Nat :=
  r.cells.getD (k + r.middle).toNat 0

/-- Notes how far the search has come on a diagonal. -/
def Reach.set (r : Reach) (k : Int) (x : Nat) : Reach :=
  { r with cells := r.cells.setIfInBounds (k + r.middle).toNat x }

/-- Where the best path of `d` changes enters diagonal `k`, and where it is after following equal
lines. -/
def extend (a b : List α) (r : Reach) (d k : Int) : Nat × Nat :=
  let x :=
    if k = -d ∨ (k ≠ d ∧ r.get (k - 1) < r.get (k + 1)) then r.get (k + 1)
    else r.get (k - 1) + 1
  let y := (x - k).toNat
  (x, x + (splitCommon (a.drop x) (b.drop y)).1.length)

/-- The diagonals that `d` changes can reach, from the uppermost down. -/
def diagonals (d : Nat) : List Int :=
  (List.range (d + 1)).map fun (i : Nat) => (d : Int) - 2 * i

/-- One round of the search from the front; a meeting with the search from the back ends it. -/
def forwardRound (a b : List α) (back : Reach) (d : Nat) (r : Reach) : Except (Nat × Nat) Reach :=
  let delta : Int := a.length - b.length
  (diagonals d).foldlM (fun r k =>
    let (x₀, x) := extend a b r d k
    if delta % 2 ≠ 0 ∧ (k - delta).natAbs + 1 ≤ d ∧ a.length ≤ x + back.get (delta - k) then
      .error (x₀, (x₀ - k).toNat)
    else .ok (r.set k x)) r

/-- One round of the search from the back, given the reversed lists; a meeting with the search
from the front ends it. -/
def backwardRound (a b : List α) (front : Reach) (d : Nat) (r : Reach) :
    Except (Nat × Nat) Reach :=
  let delta : Int := a.length - b.length
  (diagonals d).foldlM (fun r k =>
    let (_, x) := extend a b r d k
    if delta % 2 = 0 ∧ (k - delta).natAbs ≤ d ∧ a.length ≤ x + front.get (delta - k) then
      .error (a.length - x, b.length - (x - k).toNat)
    else .ok (r.set k x)) r

/-- Searches from both ends with one change more each round. -/
def searchMiddle (a b ra rb : List α) : (rounds d : Nat) → Reach → Reach → Option (Nat × Nat)
  | 0, _, _, _ => none
  | rounds + 1, d, front, back =>
    match forwardRound a b back d front with
    | .error found => some found
    | .ok front =>
      match backwardRound ra rb front d back with
      | .error found => some found
      | .ok back => searchMiddle a b ra rb rounds (d + 1) front back

/-- How many lines of each list stand before the middle of a shortest path. -/
def middle? (a b : List α) : Option (Nat × Nat) :=
  let rounds := (a.length + b.length + 1) / 2 + 1
  searchMiddle a b a.reverse b.reverse rounds 0 (.start rounds) (.start rounds)

/-! ## 3. Alignment -/

/-- The block of equal lines, if there are any. -/
def equalBlock : List α → List (Block α)
  | [] => []
  | ls => [.equal ls]

/-- Aligns two lists; `depth` bounds the number of times that they are cut in two. -/
def align : (depth : Nat) → List α → List α → List (Block α)
  | depth, a, b =>
    let (start, a, b) := splitCommon a b
    let (finish, ra, rb) := splitCommon a.reverse b.reverse
    let a := ra.reverse
    let b := rb.reverse
    let between : List (Block α) :=
      match a, b with
      | [], [] => []
      | a, [] => [.delete a]
      | [], b => [.insert b]
      | a, b =>
        match depth, middle? a b with
        | depth + 1, some (x, y) =>
          align depth (a.take x) (b.take y) ++ align depth (a.drop x) (b.drop y)
        | _, _ => [.delete a, .insert b]
    equalBlock start ++ between ++ equalBlock finish.reverse

/-! ## 4. Moving changes together -/

/-- A list of blocks with one of them in hand; those before it stand in reverse. -/
structure Focus (α : Type) where
  before : List (Block α)
  block : Block α
  behind : List (Block α)

/-- Moves the block in hand up by one step; none if it stays. -/
def moveUp? (f : Focus α) : Option (Focus α) :=
  match f.before, f.block with
  | .equal [] :: before, block => some ⟨before, block, f.behind⟩
  | .equal xs :: before, .insert ys =>
    let (reversed, rest, kept) := splitCommon xs.reverse ys.reverse
    if reversed.isEmpty then none
    else
      let shared := reversed.reverse
      let behind :=
        match f.behind with
        | .equal zs :: behind => .equal (shared ++ zs) :: behind
        | behind => .equal shared :: behind
      some ⟨equalBlock rest.reverse ++ before, .insert (shared ++ kept.reverse), behind⟩
  | .insert xs :: before, .insert ys => some ⟨before, .insert (xs ++ ys), f.behind⟩
  | .delete xs :: before, .delete ys => some ⟨before, .delete (xs ++ ys), f.behind⟩
  | .delete xs :: before, .insert ys => some ⟨before, .insert ys, .delete xs :: f.behind⟩
  | .insert xs :: before, .delete ys => some ⟨before, .delete ys, .insert xs :: f.behind⟩
  | _, _ => none

/-- Moves the block in hand down by one step; none if it stays. -/
def moveDown? (f : Focus α) : Option (Focus α) :=
  match f.block, f.behind with
  | block, .equal [] :: behind => some ⟨f.before, block, behind⟩
  | .insert ys, .equal zs :: behind =>
    let (shared, rest, kept) := splitCommon zs ys
    if shared.isEmpty then none
    else
      let before :=
        match f.before with
        | .equal xs :: before => .equal (xs ++ shared) :: before
        | before => .equal shared :: before
      some ⟨before, .insert (kept ++ shared), equalBlock rest ++ behind⟩
  | .insert xs, .insert ys :: behind => some ⟨f.before, .insert (xs ++ ys), behind⟩
  | .delete xs, .delete ys :: behind => some ⟨f.before, .delete (xs ++ ys), behind⟩
  | .insert xs, .delete ys :: behind => some ⟨.delete ys :: f.before, .insert xs, behind⟩
  | .delete xs, .insert ys :: behind => some ⟨.insert ys :: f.before, .delete xs, behind⟩
  | _, _ => none

/-- Repeats a step until there is none, at most `bound` times. -/
def repeatStep {β : Type} (step : β → Option β) : Nat → β → β
  | 0, f => f
  | bound + 1, f =>
    match step f with
    | some g => repeatStep step bound g
    | none => f

/-- Moves every block in `chosen` up and then down as far as it goes; a block passed is not
visited again. -/
def settle (chosen : Block α → Bool) (moves : Nat) :
    (bound : Nat) → List (Block α) → List (Block α) → List (Block α)
  | 0, before, behind => before.reverse ++ behind
  | _ + 1, before, [] => before.reverse
  | bound + 1, before, block :: behind =>
    if chosen block then
      let f := repeatStep moveDown? moves (repeatStep moveUp? moves ⟨before, block, behind⟩)
      settle chosen moves bound (f.block :: f.before) f.behind
    else settle chosen moves bound (block :: before) behind

/-- Whether the block holds lines that go. -/
def isDelete : Block α → Bool
  | .delete _ => true
  | _ => false

/-- Whether the block holds lines that come. -/
def isInsert : Block α → Bool
  | .insert _ => true
  | _ => false

/-- The aligned blocks of two lists of lines. -/
def blocks (a b : List α) : List (Block α) :=
  let size := a.length + b.length + 1
  let aligned := align size a b
  let deleted := settle isDelete (4 * size) (4 * size * size) [] aligned
  settle isInsert (4 * size) (4 * size * size) [] deleted

/-! ## 5. Showing -/

/-- A line behind its mark; a line without an end gets one. -/
def showLine (mark : Char) (line : List Char) : List Char :=
  mark :: line ++ (if line.getLast?.any (fun c => c == '\n' || c == '\r') then [] else ['\n'])

/-- The text of blocks; the lines that go and come in a run of changes are collected first. -/
def showBlocks : (gone come : List (List Char)) → List (Block (List Char)) → List Char
  | gone, come, [] => gone.flatMap (showLine '-') ++ come.flatMap (showLine '+')
  | gone, come, .delete ls :: rest => showBlocks (gone ++ ls) come rest
  | gone, come, .insert ls :: rest => showBlocks gone (come ++ ls) rest
  | gone, come, .equal ls :: rest =>
    gone.flatMap (showLine '-') ++ come.flatMap (showLine '+') ++ ls.flatMap (showLine ' ')
      ++ showBlocks [] [] rest

/-- The difference of two texts, every line marked. -/
def render (old new : List Char) : List Char :=
  showBlocks [] [] (blocks (looseLines old) (looseLines new))

end TomlKeep.LineDiff
