/-
# Entries under keys

Tables, rule sets and the tables of a document under construction are lists of entries with
pairwise distinct keys, in the order in which the keys came.  `insert` keeps both: an entry whose
key is there already is replaced where it stands, any other comes last (`keys_insert`).
-/

namespace TomlKeep.Keyed

variable {α : Type}

/-- What stands under a key. -/
def find? (key : String) : List (String × α) → Option α
  | [] => none
  | (k, v) :: rest => if k = key then some v else find? key rest

/-- Puts a value under a key. -/
def insert (key : String) (value : α) : List (String × α) → List (String × α)
  | [] => [(key, value)]
  | (k, v) :: rest => if k = key then (k, value) :: rest else (k, v) :: insert key value rest

/-- The entries without the one under a key. -/
def erase (key : String) : List (String × α) → List (String × α)
  | [] => []
  | (k, v) :: rest => if k = key then rest else (k, v) :: erase key rest

/-- The keys in their order. -/
def keys (entries : List (String × α)) : List String :=
  entries.map (·.1)

/-- Whether there is an entry under a key. -/
def contains (key : String) (entries : List (String × α)) : Bool :=
  (find? key entries).isSome

/-- Builds the entries from pairs: a later pair replaces an earlier one of its key. -/
def ofList (pairs : List (String × α)) : List (String × α) :=
  pairs.foldl (fun entries (key, value) => insert key value entries) []

theorem find?_insert_self (key : String) (value : α) (entries : List (String × α)) :
    find? key (insert key value entries) = some value := by
  induction entries with
  | nil => simp [insert, find?]
  | cons e rest ih =>
    obtain ⟨k, v⟩ := e
    by_cases h : k = key <;> simp [insert, find?, h, ih]

theorem find?_insert_of_ne {key other : String} (h : other ≠ key) (value : α)
    (entries : List (String × α)) :
    find? other (insert key value entries) = find? other entries := by
  induction entries with
  | nil => simp [insert, find?, h.symm]
  | cons e rest ih =>
    obtain ⟨k, v⟩ := e
    by_cases hk : k = key
    · simp [insert, find?, hk, h.symm]
    · simp [insert, find?, hk, ih]

/-- **Insertion keeps the order of keys;** a new key comes last. -/
theorem keys_insert (key : String) (value : α) (entries : List (String × α)) :
    keys (insert key value entries)
      = if contains key entries then keys entries else keys entries ++ [key] := by
  induction entries with
  | nil => simp [insert, keys, contains, find?]
  | cons e rest ih =>
    obtain ⟨k, v⟩ := e
    by_cases h : k = key
    · simp [insert, keys, contains, find?, h]
    · simp only [keys, contains] at ih
      simp only [insert, keys, contains, find?, h, if_false, List.map_cons, ih]
      by_cases hc : (find? key rest).isSome = true <;> simp [hc]

end TomlKeep.Keyed
