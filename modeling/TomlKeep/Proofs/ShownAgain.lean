/-
# Applying what was shown

`show` prints the tree of a document as JSON, and `apply` saves a tree that is given as JSON.
Applied to the same document, what was shown makes no change at all if and only if the tree nests
no deeper than JSON may and every float in it is read as it was shown (`apply_shown_iff`).  A
tree that nests deeper is refused, and a float that is not read as it was shown is taken for an
edit; so is one that is not finite, since it is shown as `null`.
-/
import TomlKeep.Proofs.ShortDecimals
import TomlKeep.Proofs.ShownTrees
import TomlKeep.Proofs.Writing

namespace TomlKeep.Command

open Json

variable {files before : Files} {arguments shown : List String} {file : String} {text : List Char}
  {tree : Value}

/-! ## 1. What is shown and what is applied

The two commands are joined by a file: the output of the first is what the second reads as its tree.
Between the two the document may have been copied anywhere, as long as its text is the same.
-/

/-- **What a run of `show` gives.**  A tree that was read is printed, indented, and no file
changes. -/
theorem runOn_tree (hp : Invocation.parse? arguments = some (.tree file))
    (hf : files.read file = .ok text) (ht : readRelaxed text = .ok tree) :
    runOn files arguments = (.done (String.ofList tree.toJson.pretty ++ "\n"), files) := by
  have hrun : runTree files.read file = .ok (.done (String.ofList tree.toJson.pretty ++ "\n")) := by
    simp only [runTree, bind_eq_ok, loadDocument_eq_ok, requireTree_eq_ok]
    exact ⟨_, ⟨text, hf, rfl⟩, tree, ht, rfl⟩
  have hresult : run files.read arguments = .done (String.ofList tree.toJson.pretty ++ "\n") := by
    simp only [run, hp, runInvocation, hrun]
  simp only [runOn, hresult, RunResult.done]

/-- What was shown is read as the JSON of the tree.  The line end behind it is blank, so it is
not in the way. -/
theorem read?_shown (tree : Value) :
    read? (String.ofList tree.toJson.pretty ++ "\n").toList = reread? maxNesting tree.toJson := by
  have hblank : IsBlankText ['\n'] := by simp [IsBlankText, isJsonBlank]
  rw [String.toList_append, String.toList_ofList]
  exact read?_write tree.toJson true hblank

/-- What comes back of a table is a table. -/
theorem exists_table_of_returned? {entries : Table} {levels : Nat} {new : Value}
    (hn : (Keyed.keys entries).Nodup) (h : (Value.table entries).returned? levels = some new) :
    ∃ news, new = .table news := by
  obtain ⟨-, news, -, -, rfl⟩ := exists_of_returned?_table hn h
  exact ⟨news, rfl⟩

/-- Beside a document, JSON is read with the tree of the document at hand. -/
theorem treeOfJson_ofText (ht : readRelaxed text = .ok tree) (json : Json) :
    (Document.ofText text).treeOfJson json = .ofJsonLike json tree := by
  simp only [Document.treeOfJson, Document.ofText, ht]

/-- **What was shown reaches the save of what comes back of the tree,** and no other.  All that
can fail on the way is the reading of the JSON. -/
theorem reachesOn_shown_iff {source : String} {flags : SaveFlags} {s : Saving}
    (hp : Invocation.parse? arguments = some (.apply file source flags))
    (hf : files.read file = .ok text) (ht : readRelaxed text = .ok tree)
    (hs : files.read source = .ok (String.ofList tree.toJson.pretty ++ "\n").toList) :
    ReachesOn files arguments s
      ↔ ∃ new, tree.returned? maxNesting = some new ∧ s = ⟨file, flags, .ofText text, new⟩ := by
  obtain ⟨entries, rfl, hread⟩ := holds_of_readRelaxed ht
  constructor
  -- what is read is the file and the JSON that are there, so the tree is the one that comes back
  · rintro ⟨invocation, hp', hr⟩
    obtain rfl := Option.some.inj (hp.symm.trans hp')
    cases hr with
    | apply hf' hs' hj he =>
      obtain rfl := Except.ok.inj (hf.symm.trans hf')
      obtain rfl := Except.ok.inj (hs.symm.trans hs')
      rw [read?_shown] at hj
      rw [treeOfJson_ofText ht] at he
      exact ⟨_, by rw [Value.returned?, hj, Option.map_some, he], rfl⟩
  · rintro ⟨new, hnew, rfl⟩
    obtain ⟨news, rfl⟩ := exists_table_of_returned? (holds_table_iff.mp hread).1 hnew
    obtain ⟨json, hj, he⟩ := Option.map_eq_some_iff.mp hnew
    exact ⟨_, hp, .apply hf hs (by rw [read?_shown, hj]) (by rw [treeOfJson_ofText ht, he])⟩

/-- A run that applies what was shown saves what comes back. -/
theorem runApply_shown {source : String} {flags : SaveFlags} {entries : Table} {new : Value}
    (hf : files.read file = .ok text) (ht : readRelaxed text = .ok (.table entries))
    (hs : files.read source = .ok (String.ofList (Value.table entries).toJson.pretty
      ++ "\n").toList)
    (hnew : (Value.table entries).returned? maxNesting = some new) :
    runApply files.read file source flags = .ok (finish file (.ofText text) new flags "") := by
  obtain ⟨_, he, hread⟩ := holds_of_readRelaxed ht
  obtain rfl := Value.table.inj he
  obtain ⟨news, rfl⟩ := exists_table_of_returned? (holds_table_iff.mp hread).1 hnew
  obtain ⟨json, hj, he⟩ := Option.map_eq_some_iff.mp hnew
  exact runApply_eq_ok.mpr ⟨text, _, json, news, hf, hs, by rw [read?_shown, hj],
    by rw [treeOfJson_ofText ht, he], rfl⟩

/-- A run that applies what nests too deep is refused. -/
theorem runApply_refused {source : String} {flags : SaveFlags} (hf : files.read file = .ok text)
    (hs : files.read source = .ok (String.ofList tree.toJson.pretty ++ "\n").toList)
    (hw : tree.WellKeyed) (hdeep : maxNesting < tree.nesting) :
    runApply files.read file source flags = .error (.noJson source) := by
  have hnone : read? (String.ofList tree.toJson.pretty ++ "\n").toList = none := by
    rw [read?_shown]
    rcases hj : reread? maxNesting tree.toJson with _ | json
    · rfl
    · have hnew : tree.returned? maxNesting = some (.ofJsonLike json tree) := by
        rw [Value.returned?, hj, Option.map_some]
      exact absurd (nesting_le_of_returned? hw hnew) (Nat.not_le_of_lt hdeep)
  simp only [runApply, loadDocument, hf, loadTree, hs, hnone, bind, Except.bind]

/-! ## 2. Saves that change nothing

A save compares the two trees by their literals.  It reports that nothing changed exactly if they
agree at every place.
-/

variable {flags : SaveFlags}

/-- What a save over a document gives. -/
theorem outcome_eq_reconcile (file : String) (new : Value) (ht : readRelaxed text = .ok tree)
    (hflags : flags.noPreserve = false) :
    (Saving.mk file flags (.ofText text) new).outcome = reconcile text (some tree) new true := by
  simp [Saving.outcome, Document.save, Document.ofText, ht, hflags, Except.toOption]

/-- A save over a document reports that nothing changed if and only if the two trees agree. -/
theorem mode_eq_unchanged_iff {entries news : Table} (ht : readRelaxed text = .ok (.table entries))
    (hflags : flags.noPreserve = false) :
    (Saving.mk file flags (.ofText text) (.table news)).outcome.report.mode = .unchanged
      ↔ Corresponds SameLiteral (.table entries) (.table news) := by
  obtain ⟨_, he, hread⟩ := holds_of_readRelaxed ht
  obtain rfl := Value.table.inj he
  rw [outcome_eq_reconcile _ _ ht hflags, mode_reconcile_eq_unchanged_iff,
    difference_eq_empty_iff hread.1]

/-- The report that nothing changed. -/
def unchangedReport : Report := ⟨.unchanged, [], [], []⟩

/-- **What a run says of a save that changed nothing,** without a warning and without a write. -/
def unchangedResult (file : String) (text : List Char) (flags : SaveFlags) : RunResult :=
  .done ((if flags.diff then diffText file text text else "")
    ++ if flags.json then String.ofList unchangedReport.toJson.pretty ++ "\n"
      else reportText file unchangedReport)

/-- A run that finds no difference says so, and has nothing to write. -/
theorem finish_unchanged {new : Value} (ht : readRelaxed text = .ok tree)
    (hflags : flags.noPreserve = false) (hd : difference tree new = .empty) :
    finish file (.ofText text) new flags "" = unchangedResult file text flags := by
  have hsave : (Document.ofText text).save new (!flags.noPreserve) = ⟨text, unchangedReport⟩ := by
    have h := outcome_eq_reconcile file new ht hflags
    rw [reconcile_of_eq_empty hd] at h
    exact h
  simp only [finish, hsave, unchangedReport, if_true]
  rfl

/-! ## 3. The two commands one after the other

The three parts meet here: what is printed, what comes back of it, and what a save makes of that.
-/

/-- **Applying what was shown** makes no change if and only if the tree nests no deeper than JSON
may and every float in it is read as it was shown.  Then the run says so, and all files stay as
they are.  A tree that nests deeper is refused.  A float that is not read as it was shown does
not stop the run: it is written over the one that is there. -/
theorem apply_shown_iff {source : String} (hshown : Invocation.parse? shown = some (.tree file))
    (hbefore : before.read file = .ok text) (ht : readRelaxed text = .ok tree)
    (happlied : Invocation.parse? arguments = some (.apply file source flags))
    (hflags : flags.noPreserve = false) (hfile : files.read file = .ok text)
    (hsource : files.read source = .ok (runOn before shown).1.stdout.toList) :
    ((runOn before shown).1.code = 0 ∧ (runOn before shown).2 = before)
      ∧ ((∃ s, ReachesOn files arguments s ∧ s.outcome.report.mode = .unchanged)
        ↔ tree.nesting ≤ maxNesting ∧ tree.Scalars Value.IsKept)
      ∧ (tree.nesting ≤ maxNesting → tree.Scalars Value.IsKept →
        runOn files arguments = (unchangedResult file text flags, files))
      ∧ (maxNesting < tree.nesting → (runOn files arguments).1.code = 1
        ∧ (runOn files arguments).2 = files) := by
  have hrun := runOn_tree hshown hbefore ht
  rw [hrun] at hsource ⊢
  have hreach {s : Saving} := reachesOn_shown_iff (s := s) happlied hfile ht hsource
  obtain ⟨entries, rfl, hread⟩ := holds_of_readRelaxed ht
  have hnodup := (holds_table_iff.mp hread).1
  refine ⟨⟨rfl, rfl⟩, ?_, fun hn hk => ?_, fun hdeep => ?_⟩
  -- nothing changed if and only if what comes back agrees with the tree
  · rw [← corresponds_returned?_iff hread]
    constructor
    · rintro ⟨s, hs, hmode⟩
      obtain ⟨new, hnew, rfl⟩ := hreach.mp hs
      obtain ⟨news, rfl⟩ := exists_table_of_returned? hnodup hnew
      exact ⟨_, hnew, (mode_eq_unchanged_iff ht hflags).mp hmode⟩
    · rintro ⟨new, hnew, hc⟩
      obtain ⟨news, rfl⟩ := exists_table_of_returned? hnodup hnew
      exact ⟨_, hreach.mpr ⟨_, hnew, rfl⟩, (mode_eq_unchanged_iff ht hflags).mpr hc⟩
  -- then what comes back is the tree itself
  · have hd : difference (.table entries) (.table entries) = .empty := by
      obtain ⟨new, hnew, hc⟩ := (corresponds_returned?_iff hread).mpr ⟨hn, hk⟩
      obtain rfl := Option.some.inj ((returned?_eq_self hread hn hk).symm.trans hnew)
      exact (difference_eq_empty_iff hread.1).mpr hc
    have hresult : run files.read arguments = unchangedResult file text flags := by
      simp only [run, happlied, runInvocation,
        runApply_shown hfile ht hsource (returned?_eq_self hread hn hk),
        finish_unchanged ht hflags hd]
    simp only [runOn, hresult, unchangedResult, RunResult.done]
  · have hresult : run files.read arguments
        = ⟨1, "", "Error: " ++ (Failure.noJson source).message ++ "\n", none⟩ := by
      simp only [run, happlied, runInvocation, runApply_refused hfile hsource hread.1 hdeep]
    simp only [runOn, hresult, and_self]

/-- The text of a document with a date, a float with a sign, a string and a section. -/
def mixedText : List Char :=
  ['d', '=', '1', '9', '7', '9', '-', '0', '5', '-', '2', '7', '\n', '[', 's', ']', '\n',
    'x', '=', '[', '-', '0', '.', '0', ',', '"', '\\', 'n', '"', ']', '\n']

/-- What is shown of the document makes no change to it. -/
theorem apply_shown_mixed :
    let files : Files := [("f", mixedText),
      ("t", (runOn [("f", mixedText)] ["show", "f"]).1.stdout.toList)]
    runOn files ["apply", "f", "--tree", "t"]
      = (unchangedResult "f" mixedText ⟨false, false, false, false⟩, files) := by
  intro files
  have hread : readRelaxed mixedText = .ok (.table [("d", .datetime "1979-05-27"),
      ("s", .table [("x", .array [.float (Binary64.zero true), .string "\n"])])]) := by rfl
  have hshown : Invocation.parse? ["show", "f"] = some (.tree "f") := by decide
  have happlied : Invocation.parse? ["apply", "f", "--tree", "t"]
      = some (.apply "f" "t" ⟨false, false, false, false⟩) := by decide
  have hbefore : Files.read [("f", mixedText)] "f" = .ok mixedText := by rfl
  have hfile : files.read "f" = .ok mixedText := by rfl
  have hsource : files.read "t"
      = .ok (runOn [("f", mixedText)] ["show", "f"]).1.stdout.toList := by rfl
  obtain ⟨-, -, hsame, -⟩ := apply_shown_iff hshown hbefore hread happlied rfl hfile hsource
  have hzero : (Value.float (Binary64.zero true)).IsKept := read?_writeFloat_zero true
  exact hsame (by decide) ⟨trivial, ⟨⟨hzero, trivial, trivial⟩, trivial⟩, trivial⟩

/-- A float that is not finite is shown as `null`, and `null` is written over it. -/
theorem apply_shown_nan :
    let text := ['x', ' ', '=', ' ', 'n', 'a', 'n', '\n']
    let printed := (runOn [("f", text)] ["show", "f"]).1.stdout.toList
    printed = ['{', '\n', ' ', ' ', '"', 'x', '"', ':', ' ', 'n', 'u', 'l', 'l', '\n', '}', '\n']
      ∧ (runOn [("f", text), ("t", printed)] ["apply", "f", "--tree", "t"]).2
        = [("f", ['x', ' ', '=', ' ', 'n', 'u', 'l', 'l', '\n']), ("t", printed)] := by
  decide +kernel

end TomlKeep.Command
