/-
# Where the entries of a document end up

An entry is put at a path of keys: that of its section, and its own behind it (`lands_within?`).
There it stays, whatever is added later (`Retains`), so it is found there in the tree of the
document (`lands_enter?`), unless the path comes to an array of tables.  An array has no keys, so
nothing of it is found at any path, and a path that has come to one never leads on.
-/
import TomlKeep.Proofs.Entering

namespace TomlKeep

namespace Toml

/-! ## 1. What has landed

What a path leads to during a run is told by the nodes, since a table that is still open may receive
more.  That the path comes to an array counts as landed, because from there on no statement can be
made by paths, neither that something is found nor that it is lost.
-/

/-- **A value has landed at a path,** or the path comes to an array of tables. -/
def Lands (value : Value) : List String → Nodes → Prop
  | [], _ => False
  | key :: path, nodes =>
    match Keyed.find? key nodes with
    | some (.value v) => path = [] ∧ v = value
    | some (.table _ inner) => Lands value path inner
    | some (.tables _) => path ≠ []
    | none => False

/-- What has landed is found at its path, if anything is. -/
theorem Lands.at? {value v : Value} :
    ∀ {path : List String} {nodes : Nodes}, Lands value path nodes →
    (Value.table (nodeEntries nodes)).at? path = some v → v.isScalar = true → v = value
  | key :: path, nodes, h, hv, hs => by
    rw [at?_table, find?_nodeEntries] at hv
    unfold Lands at h
    split at h
    · next w hw =>
      obtain ⟨rfl, rfl⟩ := h
      rw [hw] at hv
      exact (Option.some.inj hv).symm
    · next origin inner hinner =>
      rw [hinner] at hv
      exact Lands.at? h hv hs
    · next elements he =>
      rw [he] at hv
      -- an array has no keys
      cases path with
      | nil => exact absurd rfl h
      | cons key' path => cases hv
    · exact h.elim

/-- **Whatever has landed stays.** -/
def Retains (a b : Nodes) : Prop := ∀ value path, Lands value path a → Lands value path b

/-- What a node may become. -/
def Node.Retains : Node → Node → Prop
  | .value v, .value w => v = w
  | .table _ a, .table _ b => Toml.Retains a b
  | .tables _, .tables _ => True
  | _, _ => False

/-- A node retains what it has. -/
theorem Node.Retains.refl (node : Node) : node.Retains node := by
  cases node with
  | value v => exact rfl
  | table origin inner => exact fun _ _ h => h
  | tables elements => exact trivial

/-- What stands under each key decides. -/
theorem retains_of_find? {a b : Nodes} (h : ∀ key n, Keyed.find? key a = some n →
    ∃ m, Keyed.find? key b = some m ∧ n.Retains m) : Retains a b := by
  intro value path hl
  cases path with
  | nil => exact hl
  | cons key path =>
    unfold Lands at hl ⊢
    cases hn : Keyed.find? key a with
    | none =>
      rw [hn] at hl
      exact hl.elim
    | some n =>
      obtain ⟨m, hm, hr⟩ := h key n hn
      rw [hn] at hl
      rw [hm]
      -- a value stays that value, a table may only gain, and an array stays an array
      cases n with
      | value v =>
        cases m with
        | value w =>
          obtain rfl : v = w := hr
          exact hl
        | table | tables => exact hr.elim
      | table origin inner =>
        cases m with
        | table origin' inner' => exact hr value path hl
        | value | tables => exact hr.elim
      | tables elements =>
        cases m with
        | tables elements' => exact hl
        | value | table => exact hr.elim

/-! ## 2. Each statement retains what has landed

A statement appends a node or puts a node in the place of another.  The first cannot hide what was
there, since the first entry of a key is the one that counts; the second is asked to retain what the
old node had.
-/

variable {a b : Nodes} {key : String}

/-- What is found stays found when something is put behind it. -/
theorem find?_append_of_some {α : Type} {key : String} {entries : List (String × α)} {value : α}
    (h : Keyed.find? key entries = some value) (more : List (String × α)) :
    Keyed.find? key (entries ++ more) = some value := by
  induction entries with
  | nil => cases h
  | cons e rest ih =>
    obtain ⟨k, v⟩ := e
    rw [List.cons_append, Keyed.find?]
    rw [Keyed.find?] at h
    split
    · next hk =>
      rw [if_pos hk] at h
      exact h
    · next hk =>
      rw [if_neg hk] at h
      exact ih h

/-- Erasing a key leaves the others. -/
theorem find?_erase_of_ne {α : Type} {key other : String} (h : other ≠ key)
    (entries : List (String × α)) :
    Keyed.find? other (Keyed.erase key entries) = Keyed.find? other entries := by
  induction entries with
  | nil => rfl
  | cons e rest ih =>
    obtain ⟨k, v⟩ := e
    rw [Keyed.erase]
    split
    · next hk =>
      subst hk
      rw [Keyed.find?, if_neg (Ne.symm h)]
    · rw [Keyed.find?, Keyed.find?, ih]

/-- Nodes that are put behind others hide nothing. -/
theorem retains_append (a more : Nodes) : Retains a (a ++ more) := by
  refine retains_of_find? ?_
  intro key n hn
  exact ⟨n, find?_append_of_some hn more, .refl n⟩

/-- A node may be replaced by one that retains what it had. -/
theorem retains_insert {n m : Node} (hn : Keyed.find? key a = some n) (hr : n.Retains m) :
    Retains a (Keyed.insert key m a) := by
  refine retains_of_find? ?_
  intro other o ho
  by_cases hk : other = key
  · subst hk
    obtain rfl : n = o := Option.some.inj (hn.symm.trans ho)
    exact ⟨m, Keyed.find?_insert_self other m a, hr⟩
  · refine ⟨o, ?_, .refl o⟩
    rw [Keyed.find?_insert_of_ne hk]
    exact ho

/-- Opening a table retains everything: an implied table is moved to the end with all that is in
it. -/
theorem retains_openTable? {p : Value → Prop} (hs : Sound p a) (h : openTable? key a = some b) :
    Retains a b := by
  unfold openTable? at h
  split at h
  · obtain rfl := Option.some.inj h
    exact retains_append a _
  · next inner hinner =>
    obtain rfl := Option.some.inj h
    refine retains_of_find? ?_
    intro other n hn
    by_cases hk : other = key
    · subst hk
      obtain rfl : Node.table .implied inner = n := Option.some.inj (hinner.symm.trans hn)
      refine ⟨.table .headed inner, ?_, fun _ _ hl => hl⟩
      have hkeys : (Keyed.keys a).Nodup := by
        have hnodup := (holds_table_iff.mp hs).1
        rwa [nodeEntries_eq_map, Keyed.keys, List.map_map] at hnodup
      exact Keyed.find?_concat (Keyed.find?_erase_self hkeys) _
    · refine ⟨n, find?_append_of_some ?_ _, .refl n⟩
      rw [find?_erase_of_ne hk]
      exact hn
  · cases h

/-- So does opening an element of an array. -/
theorem retains_openElement? (h : openElement? key a = some b) : Retains a b := by
  unfold openElement? at h
  split at h
  · obtain rfl := Option.some.inj h
    exact retains_append a _
  · next elements he =>
    obtain rfl := Option.some.inj h
    exact retains_insert he trivial
  · cases h

/-- Adding under a dotted key retains everything, since a key that has a value is refused another
one. -/
theorem retains_addAt? {value : Value} : ∀ {path : List String} {receives : Bool} {a b : Nodes},
    addAt? value receives path a = some b → Retains a b
  | [], _, _, _, h => by cases h
  | [key], receives, a, b, h => by
    rw [addAt?] at h
    obtain ⟨-, h⟩ := Option.ite_none_right_eq_some.mp h
    obtain rfl := Option.some.inj h
    exact retains_append a _
  | key :: key' :: path, receives, a, b, h => by
    rw [addAt?] at h
    · split at h
      · obtain ⟨inner, -, rfl⟩ := Option.map_eq_some_iff.mp h
        exact retains_append a _
      · cases h
      · next origin inner _ hinner =>
        obtain ⟨inner', hi, rfl⟩ := Option.map_eq_some_iff.mp h
        exact retains_insert hinner (retains_addAt? hi)
      · next elements he =>
        obtain ⟨elements', -, rfl⟩ := Option.map_eq_some_iff.mp h
        exact retains_insert he trivial
      · cases h
    · simp

/-- **A change that retains what has landed does so at any path.**  Tables stay sound on the way,
which is needed where a key is moved. -/
theorem retains_within? {p : Value → Prop} {f : Nodes → Option Nodes}
    (hf : ∀ a b, Sound p a → f a = some b → Retains a b) : ∀ {path : List String} {a b : Nodes},
      Sound p a → within? f path a = some b → Retains a b
  | [], _, _, hs, h => hf _ _ hs h
  | key :: path, a, b, hs, h => by
    rw [within?] at h
    split at h
    · obtain ⟨inner, -, rfl⟩ := Option.map_eq_some_iff.mp h
      exact retains_append a _
    · next origin inner hinner =>
      obtain ⟨inner', hi, rfl⟩ := Option.map_eq_some_iff.mp h
      have hsound : Sound p inner := hs.of_find? hinner
      exact retains_insert hinner (retains_within? hf hsound hi)
    · next elements he =>
      obtain ⟨elements', -, rfl⟩ := Option.map_eq_some_iff.mp h
      exact retains_insert he trivial
    · cases h

/-! ## 3. An entry lands at its path

The entry is followed down the path of its section and then down its own keys.  At each key stands a
table, in which it lands by induction, or an array, and then nothing more is claimed.
-/

/-- What lands in a table lands below its key. -/
theorem lands_cons_table {value : Value} {path : List String} {origin : Origin} {inner : Nodes}
    (hf : Keyed.find? key b = some (.table origin inner)) (h : Lands value path inner) :
    Lands value (key :: path) b := by
  unfold Lands
  rw [hf]
  exact h

/-- A longer path that comes to an array counts as landed. -/
theorem lands_cons_tables {value : Value} {path : List String} {elements : List Nodes}
    (hf : Keyed.find? key b = some (.tables elements)) (h : path ≠ []) :
    Lands value (key :: path) b := by
  unfold Lands
  rw [hf]
  exact h

/-- What is added under a dotted key lands there. -/
theorem lands_addAt? {value : Value} : ∀ {path : List String} {receives : Bool} {a b : Nodes},
    addAt? value receives path a = some b → Lands value path b
  | [], _, _, _, h => by cases h
  | [key], receives, a, b, h => by
    rw [addAt?] at h
    obtain ⟨hc, h⟩ := Option.ite_none_right_eq_some.mp h
    obtain rfl := Option.some.inj h
    have hnone : Keyed.find? key a = none := by
      simpa [Keyed.contains] using (Bool.and_eq_true_iff.mp hc).2
    unfold Lands
    rw [Keyed.find?_concat hnone]
    exact ⟨rfl, rfl⟩
  | key :: key' :: path, receives, a, b, h => by
    rw [addAt?] at h
    · split at h
      · next hnone =>
        obtain ⟨inner, hi, rfl⟩ := Option.map_eq_some_iff.mp h
        exact lands_cons_table (Keyed.find?_concat hnone _) (lands_addAt? hi)
      · cases h
      · obtain ⟨inner, hi, rfl⟩ := Option.map_eq_some_iff.mp h
        exact lands_cons_table (Keyed.find?_insert_self _ _ _) (lands_addAt? hi)
      · obtain ⟨elements, -, rfl⟩ := Option.map_eq_some_iff.mp h
        exact lands_cons_tables (Keyed.find?_insert_self _ _ _) (by simp)
      · cases h
    · simp

/-- Nothing lands at the root. -/
theorem Lands.ne_nil {value : Value} {path : List String} (h : Lands value path b) : path ≠ [] := by
  rintro rfl
  exact h

/-- A last element that is changed was there. -/
theorem exists_of_updateLast? {α : Type} {f : α → Option α} : ∀ {as bs : List α},
    updateLast? f as = some bs → ∃ x y, f x = some y
  | [], _, h => by cases h
  | [x], _, h => by
    obtain ⟨y, hy, -⟩ := Option.map_eq_some_iff.mp h
    exact ⟨x, y, hy⟩
  | _ :: y :: rest, _, h => by
    rw [updateLast?] at h
    · obtain ⟨bs, hbs, -⟩ := Option.map_eq_some_iff.mp h
      exact exists_of_updateLast? hbs
    · simp

/-- **An entry lands at the path of its section and its own behind it.**  By induction on the
path of the section. -/
theorem lands_within? {value : Value} {more : List String} {f : Nodes → Option Nodes}
    (hf : ∀ a b, f a = some b → Lands value more b) : ∀ {path : List String} {a b : Nodes},
      within? f path a = some b → Lands value (path ++ more) b
  | [], _, _, h => hf _ _ h
  | key :: path, a, b, h => by
    rw [within?] at h
    split at h
    · next hnone =>
      obtain ⟨inner, hi, rfl⟩ := Option.map_eq_some_iff.mp h
      exact lands_cons_table (Keyed.find?_concat hnone _) (lands_within? hf hi)
    · obtain ⟨inner, hi, rfl⟩ := Option.map_eq_some_iff.mp h
      exact lands_cons_table (Keyed.find?_insert_self _ _ _) (lands_within? hf hi)
    · obtain ⟨elements, he, rfl⟩ := Option.map_eq_some_iff.mp h
      obtain ⟨x, y, hxy⟩ := exists_of_updateLast? he
      have hlands : Lands value (path ++ more) y := lands_within? hf hxy
      exact lands_cons_tables (Keyed.find?_insert_self _ _ _) hlands.ne_nil
    · cases h

/-! ## 4. All entries of a document

One step is looked at first: the statement keeps the tables sound, retains what has landed, and
lands itself if it is an entry.  A run is an induction over such steps.
-/

/-- The entries among statements, with the keys of their sections in front of their own. -/
def entryPaths : (current : List String) → List Statement → List (List String × Term)
  | _, [] => []
  | current, .entry path term :: rest => (current ++ path, term) :: entryPaths current rest
  | _, .header path _ :: rest => entryPaths path rest

/-- The section that the next statement belongs to. -/
def Statement.section (current : List String) : Statement → List String
  | .entry _ _ => current
  | .header path _ => path

/-- **What one statement does:** it retains what has landed, and an entry lands. -/
theorem exists_entered {p : Value → Prop} {statement : Statement} {rest : List Statement}
    {current : List String} (hl : statement.Leaves p) (hs : Sound p a)
    (h : enter? current (statement :: rest) a = some b) :
    ∃ middle, Sound p middle ∧ Retains a middle
      ∧ enter? (statement.section current) rest middle = some b
      ∧ ∀ path term, statement = .entry path term →
        ∃ value, term.value? = some value ∧ Lands value (current ++ path) middle := by
  cases statement with
  | entry path term =>
    rw [enter?] at h
    split at h
    · cases h
    · next value hv =>
      split at h
      · cases h
      · next middle hw =>
        have hvalue : value.Holds p := Term.Leaves.value? hl hv
        refine ⟨middle, hs.within? (fun _ _ => Sound.addAt? hvalue) hw,
          retains_within? (fun _ _ _ => retains_addAt?) hs hw, h, ?_⟩
        intro path' term' he
        obtain ⟨rfl, rfl⟩ := Statement.entry.inj he
        exact ⟨value, hv, lands_within? (fun _ _ => lands_addAt?) hw⟩
  | header path array =>
    rw [enter?] at h
    split at h
    · cases h
    · next key _ =>
      split at h
      · cases h
      · next middle hw =>
        refine ⟨middle, hs.within? ?_ hw, retains_within? ?_ hs hw, h, ?_⟩
        · intro x y hx hy
          split at hy
          · exact hx.openElement? hy
          · exact hx.openTable? hy
        · intro x y hx hy
          split at hy
          · exact retains_openElement? hy
          · exact retains_openTable? hx hy
        · intro path' term he
          cases he

/-- **Whatever has landed stays** until the end of the document. -/
theorem retains_enter? {p : Value → Prop} : ∀ {statements : List Statement} {current : List String}
    {a b : Nodes}, (∀ s ∈ statements, s.Leaves p) → Sound p a →
      enter? current statements a = some b → Retains a b
  | [], _, a, b, _, _, h => by
    obtain rfl := Option.some.inj h
    exact fun _ _ hl => hl
  | _ :: _, _, _, _, hl, hs, h => by
    obtain ⟨hstatement, hrest⟩ := List.forall_mem_cons.mp hl
    obtain ⟨middle, hsound, hstep, hlater, -⟩ := exists_entered hstatement hs h
    have hretains := retains_enter? hrest hsound hlater
    exact fun value path hlands => hretains value path (hstep value path hlands)

/-- **Every entry of a document has landed at its end.**  It lands at its own statement, and all
statements behind retain it. -/
theorem lands_enter? {p : Value → Prop} : ∀ {statements : List Statement} {current : List String}
    {a b : Nodes}, (∀ s ∈ statements, s.Leaves p) → Sound p a →
      enter? current statements a = some b →
      ∀ path term, (path, term) ∈ entryPaths current statements →
        ∃ value, term.value? = some value ∧ Lands value path b
  | [], _, _, _, _, _, _, _, _, hm => by cases hm
  | statement :: rest, current, a, b, hl, hs, h, path, term, hm => by
    obtain ⟨hstatement, hrest⟩ := List.forall_mem_cons.mp hl
    obtain ⟨middle, hsound, -, hlater, hentry⟩ := exists_entered hstatement hs h
    -- the entry is one of those that follow
    have later (hm : (path, term) ∈ entryPaths (statement.section current) rest) :
        ∃ value, term.value? = some value ∧ Lands value path b :=
      lands_enter? hrest hsound hlater path term hm
    cases statement with
    | entry path' term' =>
      rcases List.mem_cons.mp hm with he | hm
      · obtain ⟨rfl, rfl⟩ := Prod.mk.inj he
        obtain ⟨value, hv, hlands⟩ := hentry path' term rfl
        exact ⟨value, hv, retains_enter? hrest hsound hlater value _ hlands⟩
      · exact later hm
    | header path' array => exact later hm

end Toml

end TomlKeep
