/-
# The same document with other values

Two lists of statements that differ in the values of their entries only are entered in the same
way: what is added, and where, never depends on a value (`Follows`).  So the trees that they
build have the same tables and keys, and the values under the same path of keys are related as
those of the entries were (`NodesAlike`, `follows_enter?`).
-/
import TomlKeep.Proofs.Landing

namespace TomlKeep.Toml

/-! ## 1. Trees with other values

Nodes that are alike have the same shape down to the values, arrays of tables included.  The
relation between the values may depend on the path, as an instruction does; elements of an array
have the path of the array, since they have none of their own.
-/

mutual

/-- **Two nodes with the same tables and keys;** values at the same path are related by `r`. -/
inductive NodeAlike (r : List String → Value → Value → Prop) :
    List String → Node → Node → Prop where
  | value {path : List String} {v w : Value} : r path v w → NodeAlike r path (.value v) (.value w)
  | table {path : List String} {origin : Origin} {a b : Nodes} : NodesAlike r path a b →
      NodeAlike r path (.table origin a) (.table origin b)
  | tables {path : List String} {as bs : List Nodes} : ElementsAlike r path as bs →
      NodeAlike r path (.tables as) (.tables bs)

/-- Two tables with the same tables and keys. -/
inductive NodesAlike (r : List String → Value → Value → Prop) :
    List String → Nodes → Nodes → Prop where
  | nil {path : List String} : NodesAlike r path [] []
  | cons {path : List String} {key : String} {n m : Node} {a b : Nodes} :
      NodeAlike r (path ++ [key]) n m → NodesAlike r path a b →
      NodesAlike r path ((key, n) :: a) ((key, m) :: b)

/-- Two arrays of such tables. -/
inductive ElementsAlike (r : List String → Value → Value → Prop) :
    List String → List Nodes → List Nodes → Prop where
  | nil {path : List String} : ElementsAlike r path [] []
  | cons {path : List String} {a b : Nodes} {as bs : List Nodes} : NodesAlike r path a b →
      ElementsAlike r path as bs → ElementsAlike r path (a :: as) (b :: bs)

end

section

variable {r : List String → Value → Value → Prop} {path : List String} {key : String}
    {a b c d : Nodes}

/-- Tables that are alike have the same keys in the same order. -/
theorem NodesAlike.keys : ∀ {a b : Nodes}, NodesAlike r path a b → Keyed.keys a = Keyed.keys b
  | _, _, .nil => rfl
  | _, _, .cons _ h => congrArg (_ :: ·) h.keys

/-- What stands under a key: nothing in both tables, or two nodes that are alike. -/
theorem NodesAlike.find? (key : String) : ∀ {a b : Nodes}, NodesAlike r path a b →
    (Keyed.find? key a = none ∧ Keyed.find? key b = none)
      ∨ ∃ n m, Keyed.find? key a = some n ∧ Keyed.find? key b = some m
          ∧ NodeAlike r (path ++ [key]) n m
  | _, _, .nil => .inl ⟨rfl, rfl⟩
  | (k, n) :: _, (_, m) :: _, .cons hn h => by
    rw [Keyed.find?, Keyed.find?]
    by_cases hk : k = key
    · subst hk
      rw [if_pos rfl, if_pos rfl]
      exact .inr ⟨n, m, rfl, rfl, hn⟩
    · rw [if_neg hk, if_neg hk]
      exact h.find? key
termination_by structural a => a

/-- Nodes may be put behind others in both tables. -/
theorem NodesAlike.append : ∀ {a b : Nodes}, NodesAlike r path a b → NodesAlike r path c d →
    NodesAlike r path (a ++ c) (b ++ d)
  | _, _, .nil, h => h
  | _, _, .cons hn ha, h => .cons hn (ha.append h)

/-- So may a single pair of nodes. -/
theorem NodesAlike.concat (h : NodesAlike r path a b) {n m : Node}
    (hn : NodeAlike r (path ++ [key]) n m) :
    NodesAlike r path (a ++ [(key, n)]) (b ++ [(key, m)]) :=
  h.append (.cons hn .nil)

/-- A pair of nodes may be put in under one key. -/
theorem NodesAlike.insert {n m : Node} (hn : NodeAlike r (path ++ [key]) n m) : ∀ {a b : Nodes},
    NodesAlike r path a b → NodesAlike r path (Keyed.insert key n a) (Keyed.insert key m b)
  | _, _, .nil => .cons hn .nil
  | (k, _) :: _, _, .cons hn' h => by
    rw [Keyed.insert, Keyed.insert]
    by_cases hk : k = key
    · subst hk
      rw [if_pos rfl, if_pos rfl]
      exact .cons hn h
    · rw [if_neg hk, if_neg hk]
      exact .cons hn' (h.insert hn)
termination_by structural a => a

/-- A key may be erased from both. -/
theorem NodesAlike.erase (key : String) : ∀ {a b : Nodes}, NodesAlike r path a b →
    NodesAlike r path (Keyed.erase key a) (Keyed.erase key b)
  | _, _, .nil => .nil
  | (k, _) :: _, _, .cons hn h => by
    rw [Keyed.erase, Keyed.erase]
    by_cases hk : k = key
    · rw [if_pos hk, if_pos hk]
      exact h
    · rw [if_neg hk, if_neg hk]
      exact .cons hn (h.erase key)
termination_by structural a => a

/-- Elements may be put behind others in both arrays. -/
theorem ElementsAlike.append : ∀ {as bs cs ds : List Nodes}, ElementsAlike r path as bs →
    ElementsAlike r path cs ds → ElementsAlike r path (as ++ cs) (bs ++ ds)
  | _, _, _, _, .nil, h => h
  | _, _, _, _, .cons ha has, h => .cons ha (has.append h)

end

/-! ## 2. Each statement does the same

What a statement does depends on what stands under its keys: a value, a table of some origin, or an
array.  All of that is the same in tables that are alike, so a step that succeeds in one succeeds in
the other.
-/

/-- **One change follows another:** where the one succeeds on a table, so does the other on a
table that is alike, and the results are alike. -/
def Follows (r : List String → Value → Value → Prop) (path : List String)
    (f g : Nodes → Option Nodes) : Prop :=
  ∀ a b c, NodesAlike r path a b → f a = some c → ∃ d, g b = some d ∧ NodesAlike r path c d

variable {r : List String → Value → Value → Prop} {path : List String} {key : String}

/-- A change of the last element follows another if the changes of the tables do. -/
theorem follows_updateLast? {f g : Nodes → Option Nodes} (h : Follows r path f g) :
    ∀ {as bs cs : List Nodes}, ElementsAlike r path as bs → updateLast? f as = some cs →
      ∃ ds, updateLast? g bs = some ds ∧ ElementsAlike r path cs ds
  | [], _, _, _, hu => by cases hu
  | [_], _, _, .cons ha .nil, hu => by
    obtain ⟨c, hc, rfl⟩ := Option.map_eq_some_iff.mp hu
    obtain ⟨d, hd, hcd⟩ := h _ _ c ha hc
    exact ⟨[d], by rw [updateLast?, hd]; rfl, .cons hcd .nil⟩
  | _ :: _ :: _, _, _, .cons ha has, hu => by
    cases has with
    | cons hb hbs =>
      rw [updateLast?] at hu
      · obtain ⟨cs, hcs, rfl⟩ := Option.map_eq_some_iff.mp hu
        obtain ⟨ds, hds, hcd⟩ := follows_updateLast? h (.cons hb hbs) hcs
        refine ⟨_ :: ds, ?_, .cons ha hcd⟩
        rw [updateLast?, hds]
        · rfl
        · simp
      · simp

/-- **A change follows another at any path** if it does in the table there.  The cases are those
of the walk: nothing under the key, a table, or an array. -/
theorem follows_within? {f g : Nodes → Option Nodes} : ∀ {more : List String} {path : List String},
    Follows r (path ++ more) f g → Follows r path (within? f more) (within? g more)
  | [], path, h => by
    rw [List.append_nil] at h
    exact h
  | key :: more, path, h => by
    intro a b c hab hc
    have hin : Follows r (path ++ [key]) (within? f more) (within? g more) := by
      refine follows_within? ?_
      rw [List.append_assoc]
      exact h
    rw [within?] at hc ⊢
    -- both tables have a node under the key, of the same kind, or neither has
    rcases hab.find? key with ⟨ha, hb⟩ | ⟨n, m, ha, hb, hnm⟩
    · rw [ha] at hc
      obtain ⟨x, hx, rfl⟩ := Option.map_eq_some_iff.mp hc
      obtain ⟨y, hy, hxy⟩ := hin [] [] x .nil hx
      exact ⟨b ++ [(key, .table .implied y)], by rw [hb, hy]; rfl, hab.concat (.table hxy)⟩
    · rw [ha] at hc
      cases hnm with
      | value => cases hc
      | @table _ origin x y hxy =>
        obtain ⟨x', hx, rfl⟩ := Option.map_eq_some_iff.mp hc
        obtain ⟨y', hy, hxy'⟩ := hin x y x' hxy hx
        exact ⟨Keyed.insert key (.table origin y') b, by rw [hb]; simp only [hy]; rfl,
          hab.insert (.table hxy')⟩
      | @tables _ xs ys hxy =>
        obtain ⟨xs', hx, rfl⟩ := Option.map_eq_some_iff.mp hc
        obtain ⟨ys', hy, hxy'⟩ := follows_updateLast? hin hxy hx
        exact ⟨Keyed.insert key (.tables ys') b, by rw [hb]; simp only [hy]; rfl,
          hab.insert (.tables hxy')⟩

/-- Opening a table follows itself. -/
theorem follows_openTable? (r : List String → Value → Value → Prop) (path : List String)
    (key : String) :
    Follows r path (openTable? key) (openTable? key) := by
  intro a b c hab hc
  unfold openTable? at hc ⊢
  rcases hab.find? key with ⟨ha, hb⟩ | ⟨n, m, ha, hb, hnm⟩
  · rw [ha] at hc
    obtain rfl := Option.some.inj hc
    exact ⟨_, by rw [hb], hab.concat (.table .nil)⟩
  · rw [ha] at hc
    cases hnm with
    | value => cases hc
    | tables => cases hc
    | @table _ origin x y hxy =>
      cases origin with
      | implied =>
        obtain rfl := Option.some.inj hc
        exact ⟨_, by rw [hb], (hab.erase key).concat (.table hxy)⟩
      | headed | dotted => cases hc

/-- So does opening an element of an array. -/
theorem follows_openElement? (r : List String → Value → Value → Prop) (path : List String)
    (key : String) : Follows r path (openElement? key) (openElement? key) := by
  intro a b c hab hc
  unfold openElement? at hc ⊢
  rcases hab.find? key with ⟨ha, hb⟩ | ⟨n, m, ha, hb, hnm⟩
  · rw [ha] at hc
    obtain rfl := Option.some.inj hc
    exact ⟨_, by rw [hb], hab.concat (.tables (.cons .nil .nil))⟩
  · rw [ha] at hc
    cases hnm with
    | value => cases hc
    | table => cases hc
    | tables hxy =>
      obtain rfl := Option.some.inj hc
      exact ⟨_, by rw [hb], hab.insert (.tables (hxy.append (.cons .nil .nil)))⟩

/-- **An entry with another value is added in the same way.**  Whether there is room for a key is
asked of the keys only. -/
theorem follows_addAt? {v w : Value} : ∀ {more path : List String} {receives : Bool},
    r (path ++ more) v w → Follows r path (addAt? v receives more) (addAt? w receives more)
  | [], _, _, _ => by
    intro a b c _ hc
    cases hc
  | [key], path, receives, hr => by
    intro a b c hab hc
    rw [addAt?] at hc ⊢
    obtain ⟨hcond, hc⟩ := Option.ite_none_right_eq_some.mp hc
    obtain rfl := Option.some.inj hc
    rw [Keyed.contains_eq_of_keys_eq hab.keys] at hcond
    exact ⟨_, if_pos hcond, hab.concat (.value hr)⟩
  | key :: key' :: more, path, receives, hr => by
    intro a b c hab hc
    -- the same one key further down
    have hin (receives : Bool) :
        Follows r (path ++ [key]) (addAt? v receives (key' :: more))
        (addAt? w receives (key' :: more)) := by
      refine follows_addAt? ?_
      rw [List.append_assoc]
      exact hr
    rw [addAt?] at hc ⊢
    · rcases hab.find? key with ⟨ha, hb⟩ | ⟨n, m, ha, hb, hnm⟩
      · rw [ha] at hc
        obtain ⟨x, hx, rfl⟩ := Option.map_eq_some_iff.mp hc
        obtain ⟨y, hy, hxy⟩ := hin true [] [] x .nil hx
        exact ⟨b ++ [(key, .table .dotted y)], by rw [hb, hy]; rfl, hab.concat (.table hxy)⟩
      · rw [ha] at hc
        cases hnm with
        | value => cases hc
        | @table _ origin x y hxy =>
          cases origin with
          | headed => cases hc
          | implied | dotted =>
            obtain ⟨x', hx, rfl⟩ := Option.map_eq_some_iff.mp hc
            obtain ⟨y', hy, hxy'⟩ := hin _ x y x' hxy hx
            exact ⟨_, by rw [hb]; simp only [hy]; rfl, hab.insert (.table hxy')⟩
        | @tables _ xs ys hxy =>
          obtain ⟨xs', hx, rfl⟩ := Option.map_eq_some_iff.mp hc
          obtain ⟨ys', hy, hxy'⟩ := follows_updateLast? (hin false) hxy hx
          exact ⟨_, by rw [hb]; simp only [hy]; rfl, hab.insert (.tables hxy')⟩
    · simp
    · simp

/-! ## 3. A whole run

The headers of the two lists are the same, and the entries have the same paths, so each step of one
run is followed by a step of the other.
-/

/-- **Statements that differ in the values of their entries only.** -/
inductive StatementsAlike (r : List String → Value → Value → Prop) :
    (current : List String) → List Statement → List Statement → Prop where
  | nil {current : List String} : StatementsAlike r current [] []
  | entry {current path : List String} {s t : Term} {ss ts : List Statement} :
      (∀ v, s.value? = some v → ∃ w, t.value? = some w ∧ r (current ++ path) v w) →
      StatementsAlike r current ss ts →
      StatementsAlike r current (.entry path s :: ss) (.entry path t :: ts)
  | header {current path : List String} {array : Bool} {ss ts : List Statement} :
      StatementsAlike r path ss ts →
      StatementsAlike r current (.header path array :: ss) (.header path array :: ts)

/-- **Statements with other values build the same tree with other values.**  By induction on the
statements; in particular the second run succeeds if the first does. -/
theorem follows_enter? {current : List String} {ss ts : List Statement}
    (h : StatementsAlike r current ss ts) :
    Follows r [] (enter? current ss) (enter? current ts) := by
  induction h with
  | nil =>
    intro a b c hab hc
    obtain rfl := Option.some.inj hc
    exact ⟨b, rfl, hab⟩
  | @entry current path s t ss ts hvalue _ ih =>
    intro a b c hab hc
    rw [enter?] at hc ⊢
    split at hc
    · cases hc
    · next v hv =>
      obtain ⟨w, hw, hr⟩ := hvalue v hv
      have hadd : Follows r [] (within? (addAt? v true path) current)
          (within? (addAt? w true path) current) := follows_within? (follows_addAt? hr)
      split at hc
      · cases hc
      · next a' ha =>
        obtain ⟨b', hb, hab'⟩ := hadd a b a' hab ha
        rw [hw]
        simp only [hb]
        exact ih a' b' c hab' hc
  | @header current path array ss ts _ ih =>
    intro a b c hab hc
    rw [enter?] at hc ⊢
    split at hc
    · cases hc
    · next key hkey =>
      have hopen :
          Follows r [] (within? (if array then openElement? key else openTable? key) path.dropLast)
          (within? (if array then openElement? key else openTable? key) path.dropLast) := by
        refine follows_within? ?_
        cases array with
        | true => exact follows_openElement? r _ key
        | false => exact follows_openTable? r _ key
      split at hc
      · cases hc
      · next a' ha =>
        obtain ⟨b', hb, hab'⟩ := hopen a b a' hab ha
        simp only [hb]
        exact ih a' b' c hab' hc

end TomlKeep.Toml
