/-
# A document that is written anew reads as the same tree

The statements of a written document build the nodes of its table in the order of the text: the
plain entries of a table first and its sections behind them, depth first (`tableNodes`,
`enter?_documentStatements`).  That is the table again, up to the order of its keys and without
`null` (`same_tableNodes`).  So writing and reading again changes no tree that a document can
hold (`readStrict_render`).

Everything is added at the end of the tree.  A header makes the table that it opens the last one,
so the table that receives the next entries is the last of the last of the root table.  It is
described by what surrounds it (`Surrounds`), and a change of it changes nothing there.
-/
import TomlKeep.Proofs.WrittenLines
import TomlKeep.Proofs.Unedited

namespace TomlKeep

namespace Toml

open Text

/-! ## 1. The table at the end

A change at a path looks the keys of the path up from the front; here it always ends in the last
entry of each table on the way, because the keys are distinct.  What surrounds the place is a
function, so a change of the place is that function after the change, and places in places are
compositions.
-/

section LastEntry

variable {α : Type} {key : String} {entries : List (String × α)}

/-- Putting a value in under the last key replaces the last entry. -/
theorem insert_concat (h : key ∉ Keyed.keys entries) (value new : α) :
    Keyed.insert key new (entries ++ [(key, value)]) = entries ++ [(key, new)] := by
  induction entries with
  | nil => simp [Keyed.insert]
  | cons e rest ih =>
    obtain ⟨k, v⟩ := e
    obtain ⟨hk, hrest⟩ : key ≠ k ∧ key ∉ Keyed.keys rest := by simpa [Keyed.keys] using h
    rw [List.cons_append, Keyed.insert, if_neg (Ne.symm hk), ih hrest, List.cons_append]

end LastEntry

/-- The last element of a list is changed. -/
theorem updateLast?_concat {α : Type} (f : α → Option α) (last : α) : ∀ front : List α,
    updateLast? f (front ++ [last]) = (f last).map fun new => front ++ [new]
  | [] => rfl
  | [a] => by simp [updateLast?, Function.comp_def]
  | a :: b :: front => by
    have ih := updateLast?_concat f last (b :: front)
    rw [List.cons_append, List.cons_append, updateLast?, ← List.cons_append, ih, Option.map_map]
    · rfl
    · simp

/-- **What surrounds the table at a path:** the nodes of the root table as a function of its
nodes. -/
def Surrounds (path : List String) (whole : Nodes → Nodes) : Prop :=
  ∀ (f : Nodes → Option Nodes) (nodes : Nodes), within? f path (whole nodes) = (f nodes).map whole

/-- Nothing surrounds the root table. -/
theorem surrounds_root : Surrounds [] id := by
  intro f nodes
  rw [Option.map_id]
  rfl

/-- A path goes on where another one ends. -/
theorem within?_append (f : Nodes → Option Nodes) (path' : List String) :
    ∀ (path : List String) (nodes : Nodes),
      within? f (path ++ path') nodes = within? (within? f path') path nodes
  | [], _ => rfl
  | key :: path, nodes => by
    have ih : within? f (path ++ path') = within? (within? f path') path := by
      funext inner
      exact within?_append f path' path inner
    rw [List.cons_append, within?, within?, ih]

/-- **A place in a place** is surrounded by both surroundings. -/
theorem Surrounds.comp {path path' : List String} {whole whole' : Nodes → Nodes}
    (h : Surrounds path whole) (h' : Surrounds path' whole') :
    Surrounds (path ++ path') (whole ∘ whole') := by
  intro f nodes
  rw [within?_append, Function.comp_apply, h, h', Option.map_map]

variable {key : String} {nodes : Nodes}

/-- The last node is a table. -/
theorem surrounds_table (h : key ∉ Keyed.keys nodes) (origin : Origin) :
    Surrounds [key] fun inner => nodes ++ [(key, .table origin inner)] := by
  intro f inner
  simp only [within?, Keyed.find?_concat (Keyed.find?_eq_none.mpr h), insert_concat h]

/-- The last node is an array of tables. -/
theorem surrounds_element (h : key ∉ Keyed.keys nodes) (front : List Nodes) :
    Surrounds [key] fun inner => nodes ++ [(key, .tables (front ++ [inner]))] := by
  intro f inner
  have hf : within? f [] = f := rfl
  simp only [within?, Keyed.find?_concat (Keyed.find?_eq_none.mpr h), insert_concat h,
    updateLast?_concat, Option.map_map]
  rfl

/-! ## 2. Statements that lead on

Which section is current matters only to the entries that follow, and every header names its section
in full.  So pieces of a document can be run one after the other, forgetting which section the one
before ended in.
-/

/-- **Statements lead from some nodes to others,** whatever table they begin in and whatever stands
behind them. -/
def Leads (statements : List Statement) (nodes result : Nodes) : Prop :=
  ∀ current, ∃ last, ∀ rest, enter? current (statements ++ rest) nodes = enter? last rest result

namespace Leads

variable {statements more : List Statement} {a b c : Nodes}

/-- No statements lead nowhere. -/
theorem refl (nodes : Nodes) : Leads [] nodes nodes := by
  intro current
  exact ⟨current, fun _ => rfl⟩

/-- Runs are put together. -/
theorem append (h : Leads statements a b) (h' : Leads more b c) :
    Leads (statements ++ more) a c := by
  intro current
  obtain ⟨middle, h⟩ := h current
  obtain ⟨last, h'⟩ := h' middle
  refine ⟨last, ?_⟩
  intro rest
  rw [List.append_assoc, h, h']

end Leads

/-- A term under a key that stands for the value under that key. -/
def StandsFor (t : String × Term) (e : String × Value) : Prop :=
  t.1 = e.1 ∧ t.2.value? = some e.2

/-- **Entries are added one by one** to the table that the section names.  Their keys are new to
it, so each is put at its end. -/
theorem enter?_entries {path : List String} {whole : Nodes → Nodes} (hw : Surrounds path whole)
    (rest : List Statement) {terms : List (String × Term)} {values : Table}
    (h : List.Forall₂ StandsFor terms values) : ∀ nodes : Nodes,
      (Keyed.keys nodes ++ Keyed.keys values).Nodup →
        enter? path (terms.map (fun e => .entry [e.1] e.2) ++ rest) (whole nodes)
          = enter? path rest (whole (nodes ++ valueNodes values)) := by
  induction h with
  | nil =>
    intro nodes _
    simp [valueNodes]
  | @cons t e terms values ht _ ih =>
    intro nodes hn
    obtain ⟨key, term⟩ := t
    obtain ⟨key', value⟩ := e
    obtain ⟨rfl, hvalue⟩ : key = key' ∧ term.value? = some value := ht
    have hnew : key ∉ Keyed.keys nodes := by
      intro hm
      exact (List.nodup_append.mp hn).2.2 _ hm _ List.mem_cons_self rfl
    have hadd : addAt? value true [key] nodes = some (nodes ++ [(key, .value value)]) := by
      rw [addAt?, contains_eq_false hnew]
      rfl
    have hn' : (Keyed.keys (nodes ++ [(key, Node.value value)]) ++ Keyed.keys values).Nodup := by
      simpa [Keyed.keys] using hn
    -- a change of the table is a change of the root, in its surroundings
    have hstep : within? (addAt? value true [key]) path (whole nodes)
        = some (whole (nodes ++ [(key, .value value)])) := by
      rw [hw, hadd]
      rfl
    rw [List.map_cons, List.cons_append, enter?, hvalue]
    simp only [hstep, ih _ hn']
    simp [valueNodes]

/-- What a table holds in its plain entries. -/
def plainEntries (entries : Table) : Table :=
  entriesWithoutNulls (entries.filter fun e => !isSection e.2)

/-- The keys of the plain entries are some of the keys. -/
theorem keys_plainEntries (entries : Table) :
    (Keyed.keys (plainEntries entries)).Sublist (Keyed.keys entries) :=
  (keys_entriesWithoutNulls _).trans (List.filter_sublist.map _)

/-- The plain entries of a table stand for themselves. -/
theorem forall₂_plainEntries {entries : Table} (hk : WellKeyedEntries entries)
    (hs : ScalarsEntries Value.IsExact entries) (hn : nestingEntries entries ≤ maxNesting) :
    List.Forall₂ StandsFor (entryTerms (entries.filter fun e => !isSection e.2))
      (plainEntries entries) := by
  obtain ⟨ws, -, hterms, hws⟩ := exists_plain_entries hk hs hn
  rw [← hterms, plainEntries, List.forall₂_map_left_iff]
  refine hws.imp ?_
  intro w e he
  exact ⟨he.1, he.2.1⟩

/-- **A header and the plain entries of its table.**  The header makes an empty table in the
surroundings, and the entries fill it. -/
theorem leads_section {path : List String} {key : String} (array : Bool) {nodes : Nodes}
    {whole : Nodes → Nodes} (hw : Surrounds (path ++ [key]) whole)
    (ho : within? (if array then openElement? key else openTable? key) path nodes = some (whole []))
    {entries : Table} (hk : (Value.table entries).WellKeyed)
    (hs : ScalarsEntries Value.IsExact entries) (hn : nestingEntries entries ≤ maxNesting) :
    Leads (.header (path ++ [key]) array :: plainStatements entries) nodes
      (whole (valueNodes (plainEntries entries))) := by
  intro current
  refine ⟨path ++ [key], ?_⟩
  intro rest
  have hkeys : (Keyed.keys ([] : Nodes) ++ Keyed.keys (plainEntries entries)).Nodup :=
    hk.1.sublist (keys_plainEntries entries)
  have hrun := enter?_entries hw rest (forall₂_plainEntries hk.2 hs hn) [] hkeys
  rw [List.cons_append, enter?]
  simp only [List.getLast?_concat, List.dropLast_concat, ho]
  exact hrun

/-! ## 3. Sections

The nodes that a written table becomes are defined along the recursion of the writer.  Each section
is run in three steps: its header with its entries, its own sections inside it, and the sections
behind it; that there is room for the keys is what the steps hand on.
-/

mutual

/-- The nodes of the sections under a table. -/
def sectionNodes : List (String × Value) → Nodes
  | [] => []
  | (key, .table entries) :: rest =>
    (key, .table .headed (valueNodes (plainEntries entries) ++ sectionNodes entries))
      :: sectionNodes rest
  | (key, .array items) :: rest =>
    (if isSection (.array items) then [(key, .tables (elementNodes items))] else [])
      ++ sectionNodes rest
  | _ :: rest => sectionNodes rest

/-- The nodes of the tables of an array. -/
def elementNodes : List Value → List Nodes
  | [] => []
  | .table entries :: rest =>
    (valueNodes (plainEntries entries) ++ sectionNodes entries) :: elementNodes rest
  | _ :: rest => elementNodes rest

end

/-- The nodes of a table as it is written: the plain entries first. -/
def tableNodes (entries : Table) : Nodes :=
  valueNodes (plainEntries entries) ++ sectionNodes entries

/-- **There is room for the sections** of a table among some nodes: the keys are all distinct. -/
def RoomFor (nodes : Nodes) (entries : Table) : Prop :=
  (Keyed.keys nodes ++ Keyed.keys (entries.filter fun e => isSection e.2)).Nodup

namespace RoomFor

variable {nodes : Nodes} {key : String} {value : Value} {rest : Table}

/-- An entry that is no section takes no room. -/
theorem skip (h : RoomFor nodes ((key, value) :: rest)) (hv : isSection value = false) :
    RoomFor nodes rest := by
  rwa [RoomFor, List.filter_cons_of_neg (by simp [hv])] at h

/-- The key of a section is new. -/
theorem not_mem (h : RoomFor nodes ((key, value) :: rest)) (hv : isSection value = true) :
    key ∉ Keyed.keys nodes := by
  rw [RoomFor, List.filter_cons_of_pos (by exact hv)] at h
  intro hm
  exact (List.nodup_append.mp h).2.2 _ hm _ List.mem_cons_self rfl

/-- Behind a section there is room for the next ones. -/
theorem next (h : RoomFor nodes ((key, value) :: rest)) (hv : isSection value = true)
    (node : Node) :
    RoomFor (nodes ++ [(key, node)]) rest := by
  rw [RoomFor, List.filter_cons_of_pos (by exact hv)] at h
  simpa [RoomFor, Keyed.keys] using h

/-- Behind the plain entries of a table there is room for its sections. -/
theorem plain {entries : Table} (h : (Keyed.keys entries).Nodup) :
    RoomFor (valueNodes (plainEntries entries)) entries := by
  have hperm : (entries.filter (fun e => !isSection e.2)
      ++ entries.filter fun e => isSection e.2).Perm entries := by
    have hparts := List.filter_append_perm (fun e : String × Value => !isSection e.2) entries
    simpa using hparts
  have hall : (Keyed.keys (entries.filter fun e => !isSection e.2)
      ++ Keyed.keys (entries.filter fun e => isSection e.2)).Nodup := by
    rw [Keyed.keys, Keyed.keys, ← List.map_append]
    exact (hperm.map _).nodup_iff.mpr h
  rw [RoomFor, keys_valueNodes]
  exact hall.sublist ((keys_entriesWithoutNulls _).append_right _)

end RoomFor

/-- The nodes with an array of tables behind them, if it has elements. -/
def withElements (nodes : Nodes) (key : String) : List Nodes → Nodes
  | [] => nodes
  | elements => nodes ++ [(key, .tables elements)]

/-- An array with a last element is an array. -/
theorem withElements_concat (nodes : Nodes) (key : String) (front : List Nodes) (inner : Nodes) :
    withElements nodes key (front ++ [inner]) = nodes ++ [(key, .tables (front ++ [inner]))] := by
  cases front <;> rfl

/-- An array that is written under headers has elements. -/
theorem withElements_of_isSection {items : List Value} (h : isSection (.array items) = true)
    (nodes : Nodes) (key : String) :
    withElements nodes key (elementNodes items)
      = nodes ++ [(key, .tables (elementNodes items))] := by
  cases items with
  | nil => cases h
  | cons value rest =>
    cases value with
    | table entries => rw [elementNodes, withElements]; simp
    | _ => cases h

/-- A header of an array of tables makes its next element. -/
theorem openElement?_withElements {nodes : Nodes} {key : String} (h : key ∉ Keyed.keys nodes)
    (front : List Nodes) : openElement? key (withElements nodes key front)
      = some (nodes ++ [(key, .tables (front ++ [[]]))]) := by
  cases front with
  | nil => simp [withElements, openElement?, Keyed.find?_eq_none.mpr h]
  | cons first front =>
    simp only [withElements, openElement?, Keyed.find?_concat (Keyed.find?_eq_none.mpr h),
      insert_concat h]

mutual

/-- **The sections of a table are added behind its plain entries.**  The bound on nesting is the
one under which the text could be read; here it is only handed down. -/
theorem leads_sections : ∀ (entries : Table) {path : List String} {whole : Nodes → Nodes}
    {nodes : Nodes}, Surrounds path whole → RoomFor nodes entries → WellKeyedEntries entries →
      ScalarsEntries Value.IsExact entries → nestingEntries entries ≤ maxNesting →
        Leads (sectionStatements path entries).flatten (whole nodes)
          (whole (nodes ++ sectionNodes entries))
  | [], _, whole, nodes, _, _, _, _, _ => by
    rw [sectionStatements, sectionNodes, List.append_nil]
    exact .refl _
  | (key, .table entries) :: rest, path, whole, nodes, hw, hr, hk, hs, hn => by
    rw [nestingEntries, Value.nesting, Nat.max_le] at hn
    have hnest : nestingEntries entries ≤ maxNesting := Nat.le_of_succ_le hn.1
    have hnew : key ∉ Keyed.keys nodes := hr.not_mem rfl
    -- the section is the last node of the table in these surroundings
    have hinner := hw.comp (surrounds_table hnew .headed)
    have hopen : within? (openTable? key) path (whole nodes)
        = some (whole (nodes ++ [(key, .table .headed [])])) := by
      rw [hw, openTable?, Keyed.find?_eq_none.mpr hnew]
      rfl
    have hhead := leads_section false hinner hopen hk.1 hs.1 hnest
    have hsub := leads_sections entries hinner (.plain hk.1.1) hk.1.2 hs.1 hnest
    have hrest := leads_sections rest hw
      (hr.next rfl (.table .headed (tableNodes entries))) hk.2 hs.2 hn.2
    have hall := (hhead.append hsub).append hrest
    rw [sectionStatements, sectionNodes]
    simpa [tableNodes] using hall
  | (key, .array items) :: rest, path, whole, nodes, hw, hr, hk, hs, hn => by
    rw [nestingEntries, Value.nesting, Nat.max_le] at hn
    rw [sectionStatements, sectionNodes]
    by_cases hsec : isSection (.array items) = true
    · have hhead := leads_elements items hw (hr.not_mem hsec) [] hk.1 hs.1 (by omega)
      have hrest :=
        leads_sections rest hw (hr.next hsec (.tables (elementNodes items))) hk.2 hs.2 hn.2
      rw [List.nil_append, withElements_of_isSection hsec, withElements] at hhead
      have hall := hhead.append hrest
      rw [if_pos hsec, if_pos hsec]
      simpa using hall
    · have hrest := leads_sections rest hw (hr.skip (Bool.eq_false_iff.mpr hsec)) hk.2 hs.2 hn.2
      rw [if_neg hsec, if_neg hsec]
      exact hrest
  | (_, .null) :: rest, path, whole, nodes, hw, hr, hk, hs, hn
  | (_, .bool _) :: rest, path, whole, nodes, hw, hr, hk, hs, hn
  | (_, .integer _) :: rest, path, whole, nodes, hw, hr, hk, hs, hn
  | (_, .float _) :: rest, path, whole, nodes, hw, hr, hk, hs, hn
  | (_, .string _) :: rest, path, whole, nodes, hw, hr, hk, hs, hn
  | (_, .datetime _) :: rest, path, whole, nodes, hw, hr, hk, hs, hn => by
    rw [nestingEntries, Nat.max_le] at hn
    simp only [sectionStatements, sectionNodes]
    exact leads_sections rest hw (hr.skip rfl) hk.2 hs.2 hn.2

/-- The tables of an array are added one by one. -/
theorem leads_elements : ∀ (items : List Value) {path : List String} {whole : Nodes → Nodes}
    {nodes : Nodes} {key : String}, Surrounds path whole → key ∉ Keyed.keys nodes →
      ∀ front : List Nodes, WellKeyedItems items → ScalarsItems Value.IsExact items →
        nestingItems items ≤ maxNesting + 1 →
          Leads (elementStatements (path ++ [key]) items).flatten
            (whole (withElements nodes key front))
            (whole (withElements nodes key (front ++ elementNodes items)))
  | [], _, whole, nodes, key, _, _, front, _, _, _ => by
    rw [elementStatements, elementNodes, List.append_nil]
    exact .refl _
  | .table entries :: rest, path, whole, nodes, key, hw, hnew, front, hk, hs, hn => by
    rw [nestingItems, Value.nesting, Nat.max_le] at hn
    have hnest : nestingEntries entries ≤ maxNesting := Nat.le_of_succ_le_succ hn.1
    have hinner := hw.comp (surrounds_element hnew front)
    have hopen : within? (openElement? key) path (whole (withElements nodes key front))
        = some (whole (nodes ++ [(key, .tables (front ++ [[]]))])) := by
      rw [hw, openElement?_withElements hnew]
      rfl
    have hhead := leads_section true hinner hopen hk.1 hs.1 hnest
    have hsub := leads_sections entries hinner (.plain hk.1.1) hk.1.2 hs.1 hnest
    have hrest := leads_elements rest hw hnew (front ++ [tableNodes entries]) hk.2 hs.2 hn.2
    rw [withElements_concat] at hrest
    have hall := (hhead.append hsub).append hrest
    rw [elementStatements, elementNodes]
    simpa [tableNodes] using hall
  | .null :: rest, path, whole, nodes, key, hw, hnew, front, hk, hs, hn
  | .bool _ :: rest, path, whole, nodes, key, hw, hnew, front, hk, hs, hn
  | .integer _ :: rest, path, whole, nodes, key, hw, hnew, front, hk, hs, hn
  | .float _ :: rest, path, whole, nodes, key, hw, hnew, front, hk, hs, hn
  | .string _ :: rest, path, whole, nodes, key, hw, hnew, front, hk, hs, hn
  | .datetime _ :: rest, path, whole, nodes, key, hw, hnew, front, hk, hs, hn
  | .array _ :: rest, path, whole, nodes, key, hw, hnew, front, hk, hs, hn => by
    rw [nestingItems, Nat.max_le] at hn
    simp only [elementStatements, elementNodes]
    exact leads_elements rest hw hnew front hk.2 hs.2 hn.2

end

/-- **A written document is entered as its table,** the plain entries first.  The root has no
header, so its entries are added before any section is current. -/
theorem enter?_documentStatements {entries : Table} (hk : (Value.table entries).WellKeyed)
    (hs : ScalarsEntries Value.IsExact entries) (hn : nestingEntries entries ≤ maxNesting) :
    enter? [] (documentStatements entries) [] = some (tableNodes entries) := by
  have hkeys : (Keyed.keys ([] : Nodes) ++ Keyed.keys (plainEntries entries)).Nodup :=
    hk.1.sublist (keys_plainEntries entries)
  have hplain := enter?_entries surrounds_root (sectionStatements [] entries).flatten
    (forall₂_plainEntries hk.2 hs hn) [] hkeys
  obtain ⟨last, hsections⟩ := leads_sections entries surrounds_root (.plain hk.1) hk.2 hs hn []
  have hall := hsections []
  rw [List.append_nil] at hall
  rw [documentStatements, plainStatements]
  exact hplain.trans hall

/-! ## 4. The same table

The nodes hold the plain entries first, so the order of the keys may have changed; equality of
tables does not see that.  It asks for as many entries on both sides and for each entry on the left
to be found on the right.  The counts agree since every entry is written in one place or not at all.
-/

/-- Entries are compared one by one. -/
theorem sameEntries_append {a b other : Table} :
    Value.sameEntries (a ++ b) other
      = (Value.sameEntries a other && Value.sameEntries b other) := by
  induction a with
  | nil => rfl
  | cons e rest ih =>
    obtain ⟨key, value⟩ := e
    rw [List.cons_append, Value.sameEntries, Value.sameEntries, ih, Bool.and_assoc]

/-- A scalar that can be held as it is is no NaN. -/
theorem Value.IsExact.isNumeric {value : Value} (h : value.IsExact) : value.IsNumeric := by
  cases value with
  | float x =>
    cases x with
    | nan => cases h
    | _ => trivial
  | _ => trivial

/-- **A value without NaN is the same as itself** also without `null`. -/
theorem same_withoutNulls {value : Value} : value.WellKeyed → value.Scalars Value.IsExact →
    value.withoutNulls.same value.withoutNulls = true := by
  induction value using Value.treeInduction with
  | scalar value hs =>
    intro _ hx
    have hsame : value.withoutNulls = value := by cases value <;> first | rfl | cases hs
    rw [hsame, same_scalar_self_iff hs]
    exact Value.IsExact.isNumeric ((scalars_of_isScalar hs).mp hx)
  | array items ih =>
    intro hk hx
    rw [Value.withoutNulls, Value.same, sameItems_self_iff]
    intro value hm
    obtain ⟨v, hv, rfl⟩ := exists_of_mem_itemsWithoutNulls hm
    exact ih v hv (wellKeyedItems_iff.mp hk v hv) (scalarsItems_iff.mp hx v hv)
  | table entries ih =>
    intro hk hx
    rw [Value.withoutNulls, Value.same, beq_self_eq_true, Bool.true_and, sameEntries_iff]
    intro key value hm
    obtain ⟨v, hv, hne, rfl⟩ := mem_entriesWithoutNulls.mp hm
    refine ⟨v.withoutNulls, find?_entriesWithoutNulls hk.1 hv hne, ?_⟩
    exact ih key v hv (wellKeyedEntries_iff.mp hk.2 key v hv) (scalarsEntries_iff.mp hx key v hv)

/-- An entry that is no section is a plain one, unless it is `null`. -/
theorem plainEntries_cons {key : String} {value : Value} {rest : Table}
    (h : isSection value = false) :
    plainEntries ((key, value) :: rest)
      = entriesWithoutNulls [(key, value)] ++ plainEntries rest := by
  rw [plainEntries, List.filter_cons_of_pos (by simp [h])]
  cases value <;> rfl

/-- A section is none. -/
theorem plainEntries_cons_of_isSection {key : String} {value : Value} {rest : Table}
    (h : isSection value = true) : plainEntries ((key, value) :: rest) = plainEntries rest := by
  rw [plainEntries, List.filter_cons_of_neg (by simp [h])]
  rfl

/-- Plain entries have no section. -/
theorem sectionNodes_cons {key : String} {value : Value} {rest : Table}
    (h : isSection value = false) :
    sectionNodes ((key, value) :: rest) = sectionNodes rest := by
  cases value with
  | table entries => cases h
  | array items => rw [sectionNodes, h, if_neg Bool.false_ne_true, List.nil_append]
  | _ => simp only [sectionNodes]

/-- No entry is written twice, and none but those of `null` is left out. -/
theorem length_tableNodes (entries : Table) :
    (tableNodes entries).length = (entriesWithoutNulls entries).length := by
  simp only [tableNodes, List.length_append, valueNodes, List.length_map]
  induction entries with
  | nil =>
    rw [sectionNodes]
    rfl
  | cons e rest ih =>
    obtain ⟨key, value⟩ := e
    -- an entry counts once among the plain ones, or once among the sections
    cases hv : isSection value with
    | false =>
      have hone : (entriesWithoutNulls ((key, value) :: rest)).length
          = (entriesWithoutNulls [(key, value)]).length + (entriesWithoutNulls rest).length := by
        cases value <;> simp [entriesWithoutNulls, Nat.add_comm]
      rw [plainEntries_cons hv, sectionNodes_cons hv, hone, List.length_append]
      omega
    | true =>
      have hone : (sectionNodes ((key, value) :: rest)).length
          = (sectionNodes rest).length + 1 := by
        cases value with
        | table => rw [sectionNodes, List.length_cons]
        | array =>
          rw [sectionNodes, if_pos hv, List.length_append, List.length_singleton, Nat.add_comm]
        | _ => cases hv
      have hnull : value ≠ .null := by
        rintro rfl
        cases hv
      rw [plainEntries_cons_of_isSection hv, hone, entriesWithoutNulls_cons hnull, List.length_cons,
        ← ih]
      omega

/-- **A table is the same as it is written** if its sections are.  The plain entries are those of
the table itself. -/
theorem same_table {entries : Table} (hk : (Value.table entries).WellKeyed)
    (hx : ScalarsEntries Value.IsExact entries)
    (hs : Value.sameEntries (nodeEntries (sectionNodes entries)) (entriesWithoutNulls entries)
      = true) :
    (Value.table (nodeEntries (tableNodes entries))).same (.table (entriesWithoutNulls entries))
      = true := by
  have hlength : (nodeEntries (tableNodes entries)).length
      = (entriesWithoutNulls entries).length := by
    rw [nodeEntries_eq_map, List.length_map, length_tableNodes]
  have hplain : Value.sameEntries (plainEntries entries) (entriesWithoutNulls entries) = true := by
    rw [sameEntries_iff]
    intro key value hm
    obtain ⟨v, hv, hne, rfl⟩ := mem_entriesWithoutNulls.mp hm
    have hmem : (key, v) ∈ entries := List.mem_of_mem_filter hv
    exact ⟨v.withoutNulls, find?_entriesWithoutNulls hk.1 hmem hne,
      same_withoutNulls (wellKeyedEntries_iff.mp hk.2 key v hmem)
      (scalarsEntries_iff.mp hx key v hmem)⟩
  have hnodes : nodeEntries (tableNodes entries)
      = plainEntries entries ++ nodeEntries (sectionNodes entries) := by
    rw [tableNodes, nodeEntries_append, nodeEntries_valueNodes]
  rw [Value.same, hlength, beq_self_eq_true, Bool.true_and, hnodes, sameEntries_append, hplain, hs]
  rfl

mutual

/-- The sections of a table hold the same as the table. -/
theorem sameEntries_sectionNodes : ∀ (entries : Table) {other : Table},
    (∀ key value, (key, value) ∈ entries → value ≠ .null →
      Keyed.find? key other = some value.withoutNulls) → WellKeyedEntries entries →
        ScalarsEntries Value.IsExact entries →
          Value.sameEntries (nodeEntries (sectionNodes entries)) other = true
  | [], _, _, _, _ => by
    rw [sectionNodes]
    rfl
  | (key, .table entries) :: rest, other, ho, hk, hs => by
    have hrest : Value.sameEntries (nodeEntries (sectionNodes rest)) other = true :=
      sameEntries_sectionNodes rest
        (fun key value hm => ho key value (List.mem_cons_of_mem _ hm)) hk.2 hs.2
    have hinner := sameEntries_sectionNodes entries
      (fun key value hm hv => find?_entriesWithoutNulls hk.1.1 hm hv) hk.1.2 hs.1
    have hfind : Keyed.find? key other = some (.table (entriesWithoutNulls entries)) :=
      ho key (.table entries) List.mem_cons_self (by simp)
    have hsame := same_table hk.1 hs.1 hinner
    rw [sectionNodes, nodeEntries, Value.sameEntries, hfind, hrest, Bool.and_true]
    exact hsame
  | (key, .array items) :: rest, other, ho, hk, hs => by
    have hrest : Value.sameEntries (nodeEntries (sectionNodes rest)) other = true :=
      sameEntries_sectionNodes rest
        (fun key value hm => ho key value (List.mem_cons_of_mem _ hm)) hk.2 hs.2
    by_cases hsec : isSection (.array items) = true
    · have htables : items.all isTable = true := by
        rw [isSection, Bool.and_eq_true] at hsec
        exact hsec.2
      have hfind : Keyed.find? key other = some (.array (itemsWithoutNulls items)) :=
        ho key (.array items) List.mem_cons_self (by simp)
      have hsame := sameItems_elementNodes items htables hk.1 hs.1
      rw [sectionNodes, if_pos hsec, List.singleton_append, nodeEntries, Value.sameEntries, hfind,
        hrest, Bool.and_true]
      exact hsame
    · rw [sectionNodes, if_neg hsec, List.nil_append]
      exact hrest
  | (_, .null) :: rest, _, ho, hk, hs | (_, .bool _) :: rest, _, ho, hk, hs
  | (_, .integer _) :: rest, _, ho, hk, hs | (_, .float _) :: rest, _, ho, hk, hs
  | (_, .string _) :: rest, _, ho, hk, hs | (_, .datetime _) :: rest, _, ho, hk, hs => by
    simp only [sectionNodes]
    refine sameEntries_sectionNodes rest ?_ hk.2 hs.2
    intro key value hm
    exact ho key value (List.mem_cons_of_mem _ hm)

/-- The elements of an array of tables are the same one by one. -/
theorem sameItems_elementNodes :
    ∀ items : List Value, items.all isTable = true → WellKeyedItems items →
    ScalarsItems Value.IsExact items →
      Value.sameItems (nodeElements (elementNodes items)) (itemsWithoutNulls items) = true
  | [], _, _, _ => by
    rw [elementNodes]
    rfl
  | .table entries :: rest, ht, hk, hs => by
    have hrest := sameItems_elementNodes rest (by simpa [isTable] using ht) hk.2 hs.2
    have hinner := sameEntries_sectionNodes entries
      (fun key value hm hv => find?_entriesWithoutNulls hk.1.1 hm hv) hk.1.2 hs.1
    have hsame := same_table hk.1 hs.1 hinner
    rw [elementNodes, nodeElements, itemsWithoutNulls_cons (by simp), Value.sameItems, hrest,
      Bool.and_true]
    exact hsame
  | .null :: _, ht, _, _ | .bool _ :: _, ht, _, _ | .integer _ :: _, ht, _, _
  | .float _ :: _, ht, _, _ | .string _ :: _, ht, _, _ | .datetime _ :: _, ht, _, _
  | .array _ :: _, ht, _, _ => by
    simp [isTable] at ht

end

/-- **The table of a written document is the table that was written,** up to the order of its
keys and without `null`. -/
theorem same_tableNodes {entries : Table} (hk : (Value.table entries).WellKeyed)
    (hs : ScalarsEntries Value.IsExact entries) :
    (Value.table (nodeEntries (tableNodes entries))).same (Value.table entries).withoutNulls
      = true :=
  same_table hk hs (sameEntries_sectionNodes entries
    (fun _ _ hm hv => find?_entriesWithoutNulls hk.1 hm hv) hk.2 hs)

end Toml

/-! ## 5. Regeneration

The two halves meet here: the text of a document is read as its statements, and the statements are
entered as its table.
-/

/-- **A document that is written anew reads as the tree it was written from,** up to the order of
keys and without `null`.  The values under the root table may nest as deep as the reader goes.
Floats have to be finite and date-times canonical, as any that were read are; others have no text
that gives them back. -/
theorem readStrict_render {entries : Table} (h : (Value.table entries).Holds Value.IsExact)
    (hn : nestingEntries entries ≤ Toml.maxNesting) :
    ∃ tree, readStrict (Toml.render (.table entries)) = .ok tree
      ∧ tree.same (Value.table entries).withoutNulls = true := by
  obtain ⟨hk, hs⟩ := h
  refine ⟨.table (Toml.nodeEntries (Toml.tableNodes entries)), ?_, Toml.same_tableNodes hk hs⟩
  have hread : Toml.read? (Toml.render (.table entries))
      = some (Toml.nodeEntries (Toml.tableNodes entries)) := by
    rw [Toml.render, Toml.read?, Toml.readStatements?_renderTable hk.2 hs hn]
    simp only [Toml.enter?_documentStatements hk hs hn, Option.map_some]
  rw [readStrict, hread]

/-- A table in which every form of writing occurs, and a key and an item that are left out. -/
def mixedTable : Table :=
  [("", .table [("a.b", .integer 1), ("gone", .null), ("deep", .table [])]),
    ("list", .array [.table [("x", .string "it's \"so\"\r\n")], .table []]),
    ("mixed", .array [.null, .table [("k\x01", .bool true)], .array [.integer (-2)]]),
    ("when", .datetime "1979-05-27T07:32:00Z")]

/-- A table with plain entries, sections, an array of tables, an inline table and strings of
several forms is read back. -/
theorem readStrict_render_mixedTable :
    (Value.table mixedTable).Holds Value.IsExact ∧ nestingEntries mixedTable ≤ Toml.maxNesting
      ∧ ∃ tree, readStrict (Toml.render (.table mixedTable)) = .ok tree
        ∧ tree.same (Value.table mixedTable).withoutNulls = true := by
  have hholds : (Value.table mixedTable).Holds Value.IsExact := by
    constructor
    · simp [mixedTable, Value.WellKeyed, WellKeyedEntries, WellKeyedItems, Keyed.keys]
    · simp only [mixedTable, Value.Scalars, ScalarsEntries, ScalarsItems, Value.IsExact, and_true,
        true_and]
      decide
  have hnest : nestingEntries mixedTable ≤ Toml.maxNesting := by decide
  exact ⟨hholds, hnest, readStrict_render hholds hnest⟩

end TomlKeep
