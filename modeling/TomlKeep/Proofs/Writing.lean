/-
# What a run writes

A run reads what it needs first, and only a run of `set` or `apply` gets as far as a save
(`Reaches`).  A save that is reached is carried out, and the run ends with its result
(`runInvocation_of_reaches`); a run that reaches none asks for nothing to be written
(`run_of_not_writes`).  This holds for any way to read files (`run_write_eq_some_iff`), and so on
any store that can be read and written, also if writing fails (`runOnStore_eq_or`).

For a directory of files the whole statement is `runOn_files`: behind a run the files are those
before it, but for the one file that was saved.
-/
import TomlKeep.Command.Run

namespace TomlKeep.Command

/-! ## 1. Steps that may fail

A command is a chain of steps, each of which may end the run: the file is read, parsed, the fields
or the JSON are read, the new tree is built.  For each step it is said when it ends well and with
what, so a command that ends well can be taken apart into its steps, and a reader of what follows
never opens one.
-/

theorem bind_eq_ok {ε α β : Type} {x : Except ε α} {f : α → Except ε β} {b : β} :
    x >>= f = .ok b ↔ ∃ a, x = .ok a ∧ f a = .ok b := by
  cases x <;> simp [bind, Except.bind]

theorem mapError_eq_ok {ε ε' α : Type} {x : Except ε α} {f : ε → ε'} {a : α} :
    x.mapError f = .ok a ↔ x = .ok a := by
  constructor
  · intro h
    cases x with
    | error e => cases h
    | ok b =>
      obtain rfl : b = a := Except.ok.inj h
      rfl
  · rintro rfl
    rfl

variable {read : Reader}

/-- A document is loaded when its file can be read; a text that does not parse is a document as
well. -/
theorem loadDocument_eq_ok {file : String} {document : Document} :
    loadDocument read file = .ok document
      ↔ ∃ text, read file = .ok text ∧ document = .ofText text := by
  unfold loadDocument
  split <;> simp_all [eq_comm]

/-- The tree of a document is asked for apart from its text, and only here does a text that does
not parse end the run. -/
theorem requireTree_eq_ok {file : String} {document : Document} {tree : Value} :
    requireTree file document = .ok tree ↔ document.tree = .ok tree := by
  unfold requireTree
  split <;> simp_all

/-- The tree of `apply` is there when its file can be read, holds JSON and gives a table; a JSON
array or scalar at the top is refused. -/
theorem loadTree_eq_ok {file : String} {document : Document} {new : Value} :
    loadTree read file document = .ok new ↔ ∃ text json entries, read file = .ok text
      ∧ Json.read? text = some json ∧ document.treeOfJson json = .table entries
      ∧ new = .table entries := by
  unfold loadTree
  split
  · next h => simp [h]
  · next text h =>
    split
    · next hj => simp [h, hj]
    · next json hj =>
      split
      · next entries he => simp [h, hj, he, eq_comm]
      · next he =>
        simp only [h, Except.ok.injEq, reduceCtorEq, false_iff, not_exists, not_and]
        rintro _ json' entries rfl hj' hentries
        rw [hj] at hj'
        obtain rfl := Option.some.inj hj'
        exact absurd hentries (he entries)

/-! ## 2. Saves

A save is a file, the flags of the command, the document that was read and the new tree.  `Reaches`
states all that a command checks before it saves, and only that; the commands `tree`, `check`,
`help` and `version` have no case in it.
-/

/-- A save that a run is about to carry out. -/
structure Saving where
  file : String
  flags : SaveFlags
  document : Document
  new : Value

namespace Saving

/-- What the save gives. -/
def outcome (s : Saving) : Outcome :=
  s.document.save s.new (!s.flags.noPreserve)

/-- **The save changes the file:** it is no dry run, and it changed something. -/
structure Writes (s : Saving) : Prop where
  wet : s.flags.dryRun = false
  changed : s.outcome.report.mode ≠ .unchanged

end Saving

/-- The file that an invocation is to save. -/
def Invocation.target? : Invocation → Option String
  | .set file _ _ _ _ => some file
  | .apply file _ _ => some file
  | _ => none

/-- **An invocation that gets as far as a save:** everything it reads is there and reads well, and
its fields or its JSON make a tree. -/
inductive Reaches (read : Reader) : Invocation → Saving → Prop where
  | set {file : String} {arguments : List String} {rulesFile : Option String} {allowNew : Bool}
      {flags : SaveFlags} {text : List Char} {base new : Value} {rules : RuleSet}
      {fields : List Field} :
      read file = .ok text → readRelaxed text = .ok base → loadRules? read rulesFile = .ok rules →
      readFields arguments = .ok fields → collect rules allowNew fields base = .ok new →
      Reaches read (.set file arguments rulesFile allowNew flags) ⟨file, flags, .ofText text, new⟩
  | apply {file tree : String} {flags : SaveFlags} {text source : List Char} {json : Json}
      {entries : Table} :
      read file = .ok text → read tree = .ok source → Json.read? source = some json →
      (Document.ofText text).treeOfJson json = .table entries →
      Reaches read (.apply file tree flags) ⟨file, flags, .ofText text, .table entries⟩

/-- The save that is reached is one of the file that the arguments name. -/
theorem Reaches.target? {invocation : Invocation} {s : Saving}
    (h : Reaches read invocation s) : invocation.target? = some s.file := by
  cases h <;> rfl

/-- A run of `set` that ends well has taken all its steps, in this order, and ends with what the
save reports.  The warnings are those of the rules for the new tree; they stand in the output and
stop nothing. -/
theorem runSet_eq_ok {file : String} {arguments : List String} {rulesFile : Option String}
    {allowNew : Bool} {flags : SaveFlags} {result : RunResult} :
    runSet read file arguments rulesFile allowNew flags = .ok result
      ↔ ∃ text base rules fields new, read file = .ok text ∧ readRelaxed text = .ok base
        ∧ loadRules? read rulesFile = .ok rules ∧ readFields arguments = .ok fields
        ∧ collect rules allowNew fields base = .ok new
        ∧ finish file (.ofText text) new flags
            (String.join ((rules.check new).map fun v => "warning: " ++ v.display ++ "\n"))
          = result := by
  simp only [runSet, bind_eq_ok, loadDocument_eq_ok, requireTree_eq_ok, mapError_eq_ok, pure,
    Except.pure, Except.ok.injEq]
  constructor
  · rintro ⟨_, ⟨text, ht, rfl⟩, base, hb, rules, hr, fields, hf, new, hn, rfl⟩
    exact ⟨text, base, rules, fields, new, ht, hb, hr, hf, hn, rfl⟩
  · rintro ⟨text, base, rules, fields, new, ht, hb, hr, hf, hn, rfl⟩
    exact ⟨_, ⟨text, ht, rfl⟩, base, hb, rules, hr, fields, hf, new, hn, rfl⟩

/-- A run of `apply` that ends well likewise; it knows no rules and so has no warnings. -/
theorem runApply_eq_ok {file tree : String} {flags : SaveFlags} {result : RunResult} :
    runApply read file tree flags = .ok result
      ↔ ∃ text source json entries, read file = .ok text ∧ read tree = .ok source
        ∧ Json.read? source = some json
        ∧ (Document.ofText text).treeOfJson json = .table entries
        ∧ finish file (.ofText text) (.table entries) flags "" = result := by
  simp only [runApply, bind_eq_ok, loadDocument_eq_ok, loadTree_eq_ok, pure, Except.pure,
    Except.ok.injEq]
  constructor
  · rintro ⟨_, ⟨text, ht, rfl⟩, _, ⟨source, json, entries, hs, hj, he, rfl⟩, rfl⟩
    exact ⟨text, source, json, entries, ht, hs, hj, he, rfl⟩
  · rintro ⟨text, source, json, entries, ht, hs, hj, he, rfl⟩
    exact ⟨_, ⟨text, ht, rfl⟩, _, ⟨source, json, entries, hs, hj, he, rfl⟩, rfl⟩

/-- **A save that is reached is carried out.** -/
theorem runInvocation_of_reaches {invocation : Invocation} {s : Saving}
    (h : Reaches read invocation s) :
    ∃ warnings, runInvocation read invocation
      = .ok (finish s.file s.document s.new s.flags warnings) := by
  cases h with
  | set ht hb hr hf hn => exact ⟨_, runSet_eq_ok.mpr ⟨_, _, _, _, _, ht, hb, hr, hf, hn, rfl⟩⟩
  | apply ht hs hj he => exact ⟨_, runApply_eq_ok.mpr ⟨_, _, _, _, ht, hs, hj, he, rfl⟩⟩

/-- A run that ends without a failure reaches a save or writes nothing. -/
theorem reaches_or_write_eq_none {invocation : Invocation} {result : RunResult}
    (h : runInvocation read invocation = .ok result) :
    (∃ s, Reaches read invocation s) ∨ result.write = none := by
  -- by the commands: two reach a save, and the results of the others have nothing to write
  cases invocation with
  | version | help =>
    obtain rfl := Except.ok.inj h
    exact .inr rfl
  | tree file =>
    simp only [runInvocation, runTree, bind_eq_ok, pure, Except.pure, Except.ok.injEq] at h
    obtain ⟨-, -, -, -, rfl⟩ := h
    exact .inr rfl
  | set =>
    obtain ⟨_, _, _, _, _, ht, hb, hr, hf, hn, -⟩ := runSet_eq_ok.mp h
    exact .inl ⟨_, .set ht hb hr hf hn⟩
  | apply =>
    obtain ⟨_, _, _, _, ht, hs, hj, he, -⟩ := runApply_eq_ok.mp h
    exact .inl ⟨_, .apply ht hs hj he⟩
  | check file rules =>
    simp only [runInvocation, runCheck, bind_eq_ok, pure, Except.pure, Except.ok.injEq] at h
    obtain ⟨-, -, -, -, -, -, rfl⟩ := h
    refine .inr ?_
    split <;> rfl

/-- **A run reaches one save at most.**  A command is a function of what it reads, so both saves
are built from the same steps. -/
theorem Reaches.unique {invocation : Invocation} {s s' : Saving}
    (h : Reaches read invocation s) (h' : Reaches read invocation s') : s = s' := by
  cases h with
  | set ht hb hr hf hn =>
    cases h' with
    | set ht' hb' hr' hf' hn' => simp_all
  | apply ht hs hj he =>
    cases h' with
    | apply ht' hs' hj' he' => simp_all

/-! ## 3. Writes

What is written is decided at the end of a command, by `finish`: the mode of the save comes first,
and the flag for a dry run only matters when something changed.
-/

/-- A command that gets as far as a save ends well, whatever the save does. -/
theorem code_finish (s : Saving) (warnings : String) :
    (finish s.file s.document s.new s.flags warnings).code = 0 := by
  unfold finish
  simp only
  split
  · rfl
  · split <;> rfl

/-- A save that changes the file asks for its outcome to be written there. -/
theorem write_finish_of_writes {s : Saving} (h : s.Writes) (warnings : String) :
    (finish s.file s.document s.new s.flags warnings).write
      = some (s.file, s.outcome.text) := by
  have hmode : (s.document.save s.new (!s.flags.noPreserve)).report.mode ≠ .unchanged := h.changed
  simp [finish, hmode, h.wet, Saving.outcome]

/-- A save that changed nothing, or whose run is dry, asks for nothing. -/
theorem write_finish_of_not_writes {s : Saving} (h : ¬ s.Writes) (warnings : String) :
    (finish s.file s.document s.new s.flags warnings).write = none := by
  unfold finish
  simp only
  split
  · rfl
  -- something changed, so the run must be dry
  · next hmode =>
    split
    · rfl
    · next hdry => exact absurd ⟨by simpa using hdry, hmode⟩ h

/-- What arguments reach, with files read as a reader reads them. -/
def ReachesBy (read : Reader) (arguments : List String) (s : Saving) : Prop :=
  ∃ invocation, Invocation.parse? arguments = some invocation ∧ Reaches read invocation s

/-- Arguments are read in one way, and the command they give reaches one save at most. -/
theorem ReachesBy.unique {arguments : List String} {s s' : Saving} (h : ReachesBy read arguments s)
    (h' : ReachesBy read arguments s') : s = s' := by
  obtain ⟨invocation, hp, hr⟩ := h
  obtain ⟨invocation', hp', hr'⟩ := h'
  obtain rfl : invocation = invocation' := Option.some.inj (hp.symm.trans hp')
  exact hr.unique hr'

/-- A run that reaches a save which changes the file asks for it to be written, and ends well. -/
theorem run_of_writes {arguments : List String} {s : Saving} (h : ReachesBy read arguments s)
    (hw : s.Writes) : (run read arguments).code = 0
      ∧ (run read arguments).write = some (s.file, s.outcome.text) := by
  obtain ⟨invocation, hp, hr⟩ := h
  obtain ⟨warnings, hrun⟩ := runInvocation_of_reaches hr
  have hresult : run read arguments = finish s.file s.document s.new s.flags warnings := by
    simp only [run, hp, hrun]
  rw [hresult]
  exact ⟨code_finish s warnings, write_finish_of_writes hw warnings⟩

/-- **Any other run asks for nothing to be written.** -/
theorem run_of_not_writes {arguments : List String}
    (h : ∀ s, ReachesBy read arguments s → ¬ s.Writes) : (run read arguments).write = none := by
  unfold run
  split
  · rfl
  -- the arguments are a command; if it fails there is nothing to write, as when they are none
  · next invocation hp =>
    split
    · next result hrun =>
      rcases reaches_or_write_eq_none hrun with ⟨s, hs⟩ | hnone
      · obtain ⟨warnings, hfinish⟩ := runInvocation_of_reaches hs
        obtain rfl : finish s.file s.document s.new s.flags warnings = result :=
          Except.ok.inj (hfinish.symm.trans hrun)
        exact write_finish_of_not_writes (h s ⟨invocation, hp, hs⟩) warnings
      · exact hnone
    · rfl

/-- **What a run asks to be written** is the outcome of the save that it reaches, for any reader
of files. -/
theorem run_write_eq_some_iff {arguments : List String} {path : String} {text : List Char} :
    (run read arguments).write = some (path, text)
      ↔ ∃ s, ReachesBy read arguments s ∧ s.Writes ∧ s.file = path ∧ s.outcome.text = text := by
  constructor
  · intro h
    -- a run with something to write reaches a save, for without one it writes nothing
    by_cases hs : ∃ s, ReachesBy read arguments s ∧ s.Writes
    · obtain ⟨s, hr, hw⟩ := hs
      have hwrite := (run_of_writes hr hw).2
      obtain ⟨hfile, htext⟩ := Prod.mk.inj (Option.some.inj (hwrite.symm.trans h))
      exact ⟨s, hr, hw, hfile, htext⟩
    · have hnone : (run read arguments).write = none :=
        run_of_not_writes fun s hr hw => hs ⟨s, hr, hw⟩
      rw [hnone] at h
      cases h
  · rintro ⟨s, hr, hw, rfl, rfl⟩
    exact (run_of_writes hr hw).2

/-! ## 4. Runs on a store

The files of a system are more than names with texts: a path may be absolute or lead through
another directory, and a write may fail, in which case the old file stays.  None of this matters
to what a run does, so it is said here of any store with a way to read and a way to write that
may fail.
-/

section Store

variable {Store : Type} (readFrom : Store → Reader)
  (write? : Store → String → List Char → Option Store)

/-- A run on a store, with its exit code.  A write that fails changes nothing, and the run fails. -/
def runOnStore (store : Store) (arguments : List String) : Nat × Store :=
  let result := run (readFrom store) arguments
  match result.write with
  | none => (result.code, store)
  | some (path, text) =>
    match write? store path text with
    | some written => (result.code, written)
    | none => (1, store)

/-- **A run changes a store by one write or not at all.**  If the store behind the run is another
one, the run ended well, and what was written is the outcome of the save that the run reached. -/
theorem runOnStore_eq_or (store : Store) (arguments : List String) :
    (runOnStore readFrom write? store arguments).2 = store
      ∨ ∃ s, ReachesBy (readFrom store) arguments s ∧ s.Writes
        ∧ (runOnStore readFrom write? store arguments).1 = 0
        ∧ write? store s.file s.outcome.text
          = some (runOnStore readFrom write? store arguments).2 := by
  unfold runOnStore
  simp only
  split
  · exact .inl rfl
  -- something is to be written, and the write may still fail
  · next path text hwrite =>
    obtain ⟨s, hr, hw, rfl, rfl⟩ := run_write_eq_some_iff.mp hwrite
    split
    · next written hwritten => exact .inr ⟨s, hr, hw, (run_of_writes hr hw).1, hwritten⟩
    · exact .inl rfl

/-- **A run that fails leaves the store as it was,** also if it fails in writing. -/
theorem runOnStore_of_failed {store : Store} {arguments : List String}
    (h : (runOnStore readFrom write? store arguments).1 ≠ 0) :
    (runOnStore readFrom write? store arguments).2 = store := by
  rcases runOnStore_eq_or readFrom write? store arguments with hsame | ⟨s, -, -, hcode, -⟩
  · exact hsame
  · exact absurd hcode h

end Store

/-! ## 5. Runs on files

The store of this section is a list of files with their texts, where a write replaces one text.  The
lemmas above say what the list is behind a run; `runOn_files` says it file by file.
-/

/-- What arguments reach on files. -/
def ReachesOn (files : Files) (arguments : List String) (s : Saving) : Prop :=
  ReachesBy files.read arguments s

/-- A run that reaches a save which changes the file writes it, and ends well. -/
theorem runOn_of_writes {files : Files} {arguments : List String} {s : Saving}
    (h : ReachesOn files arguments s) (hw : s.Writes) :
    (runOn files arguments).1.code = 0
      ∧ (runOn files arguments).2 = files.write s.file s.outcome.text := by
  have hreach : ReachesBy files.read arguments s := h
  obtain ⟨hcode, hwrite⟩ := run_of_writes hreach hw
  simp only [runOn, hwrite, hcode, and_self]

/-- **Any other run leaves the files alone.** -/
theorem runOn_of_not_writes {files : Files} {arguments : List String}
    (h : ∀ s, ReachesOn files arguments s → ¬ s.Writes) : (runOn files arguments).2 = files := by
  have hnone : (run files.read arguments).write = none := run_of_not_writes h
  simp only [runOn, hnone]

/-- A run on files is a run on a store of names and texts, where no write fails. -/
theorem runOnStore_files (files : Files) (arguments : List String) :
    runOnStore Files.read (fun files path text => some (files.write path text)) files arguments
      = ((runOn files arguments).1.code, (runOn files arguments).2) := by
  rcases hwrite : (run files.read arguments).write with _ | ⟨path, text⟩
  · simp only [runOnStore, runOn, hwrite]
  · simp only [runOnStore, runOn, hwrite]

/-- **A run damages no file.**  The files are a directory of names with texts, all paths lead
into it, and a write does not fail (a store in which it may is the subject of
`runOnStore_eq_or`).  Every file but the one to be saved stays as it was.  That one changes only
in a run that ends well, is no dry run and whose save changed something; then it holds the text
that the save gives for the tree of the fields or of the JSON, and every such run writes it.  A
run that fails leaves all files as they were. -/
theorem runOn_files (files : Files) (arguments : List String) :
    (∀ name, (∀ invocation file, Invocation.parse? arguments = some invocation →
          invocation.target? = some file → name ≠ plainPath file) →
        Keyed.find? name (runOn files arguments).2 = Keyed.find? name files)
      ∧ (∀ name, Keyed.find? name (runOn files arguments).2 ≠ Keyed.find? name files →
        ∃ s, ReachesOn files arguments s ∧ name = plainPath s.file
          ∧ (runOn files arguments).1.code = 0 ∧ s.flags.dryRun = false
          ∧ s.outcome.report.mode ≠ .unchanged
          ∧ Keyed.find? name (runOn files arguments).2 = some s.outcome.text)
      ∧ (∀ s, ReachesOn files arguments s → s.flags.dryRun = false →
        s.outcome.report.mode ≠ .unchanged → (runOn files arguments).1.code = 0
          ∧ Keyed.find? (plainPath s.file) (runOn files arguments).2 = some s.outcome.text)
      ∧ ((runOn files arguments).1.code ≠ 0 → (runOn files arguments).2 = files) := by
  -- there is a save that changes its file, or there is none and nothing changes at all
  by_cases hs : ∃ s, ReachesOn files arguments s ∧ s.Writes
  · obtain ⟨s, hreach, hw⟩ := hs
    obtain ⟨hcode, hfiles⟩ := runOn_of_writes hreach hw
    have hself : Keyed.find? (plainPath s.file) (runOn files arguments).2
        = some s.outcome.text := by
      rw [hfiles, Files.write, Keyed.find?_insert_self]
    have hother (name : String) (hne : name ≠ plainPath s.file) :
        Keyed.find? name (runOn files arguments).2 = Keyed.find? name files := by
      rw [hfiles, Files.write, Keyed.find?_insert_of_ne hne]
    refine ⟨fun name hname => ?_, fun name hname => ?_, fun s' hs' _ _ => ?_, fun h => ?_⟩
    -- the file to be saved is the one that the arguments name
    · obtain ⟨invocation, hp, hr⟩ := hreach
      exact hother name (hname invocation s.file hp hr.target?)
    -- a file that changed must be that file, as the others have not
    · obtain rfl : name = plainPath s.file :=
        Decidable.byContradiction fun hne => hname (hother name hne)
      exact ⟨s, hreach, rfl, hcode, hw.wet, hw.changed, hself⟩
    -- another save that is reached is the same one
    · have hsame : s = s' := ReachesBy.unique hreach hs'
      exact hsame ▸ ⟨hcode, hself⟩
    · exact absurd hcode h
  · have hno : ∀ s, ReachesOn files arguments s → ¬ s.Writes := fun s hr hw => hs ⟨s, hr, hw⟩
    have hfiles := runOn_of_not_writes hno
    refine ⟨fun name _ => by rw [hfiles], fun name hname => ?_, fun s hr hd hm => ?_,
      fun _ => hfiles⟩
    · exact absurd (by rw [hfiles]) hname
    · exact absurd ⟨hd, hm⟩ (hno s hr)

/-- A field that is set changes its file, and no other. -/
theorem runOn_files_set :
    let files : Files := [("f", ['a', '=', '1', '\n']), ("g", ['b'])]
    let arguments := ["set", "f", "a=2"]
    Keyed.find? "f" (runOn files arguments).2 = some ['a', '=', '2', '\n']
      ∧ Keyed.find? "g" (runOn files arguments).2 = some ['b'] := by
  intro files arguments
  obtain ⟨hother, -, hwrites, -⟩ := runOn_files files arguments
  have hparse : Invocation.parse? arguments
      = some (.set "f" ["a=2"] none false ⟨false, false, false, false⟩) := by decide
  have hbase : readRelaxed ['a', '=', '1', '\n'] = .ok (.table [("a", .integer 1)]) := by rfl
  have hrules : loadRules? files.read none = .ok [] := rfl
  have hfields : readFields ["a=2"] = .ok [⟨"a", "2"⟩] := by rfl
  have hnew : collect [] false [⟨"a", "2"⟩] (.table [("a", .integer 1)])
      = .ok (.table [("a", .integer 2)]) := by rfl
  have hreach : ReachesOn files arguments ⟨"f", ⟨false, false, false, false⟩,
      .ofText ['a', '=', '1', '\n'], .table [("a", .integer 2)]⟩ :=
    ⟨_, hparse, .set (by rfl) hbase hrules hfields hnew⟩
  have hf := (hwrites _ hreach rfl (by decide)).2
  refine ⟨hf.trans (by rfl), (hother "g" fun invocation file hp ht => ?_).trans (by rfl)⟩
  obtain rfl := Option.some.inj (hparse.symm.trans hp)
  obtain rfl := Option.some.inj ht
  decide

end TomlKeep.Command
