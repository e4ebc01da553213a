/-
# The rule that governs a key

Two parts of the library look for the rule of a key.  A check reads the path of every rule and
applies the rule to the key that this path stands for (`governing?`, `check_at`).  A form joins
the parts of the key with dots and takes the rule that is written so (`written?`, `setField_eq`).

The two agree on a key if and only if the rule that governs it is written in joined form, and no
other rule is (`written?_eq_governing?_iff`).  They part over a rule path with a quote or a blank
in it, which no form finds, and over a key with a part that cannot be written bare, whose joined
text is the path of another key.
-/
import TomlKeep.Proofs.PlainPaths
import TomlKeep.Proofs.Trees
import TomlKeep.Form

namespace TomlKeep

/-! ## 1. Two ways to look for a rule

A rule is stored under its path as it was written.  Both ways give the path with the rule, so that
two rules with the same content are not taken for each other.
-/

namespace RuleSet

/-- The rule, with its path, that is written as the joined text of a key. -/
def written? (rules : RuleSet) (key : KeyPath) : Option (String × Rule) :=
  (Keyed.find? key.dotted rules).map (key.dotted, ·)

/-- The rule, with its path, whose path stands for a key. -/
def governing? (rules : RuleSet) (key : KeyPath) : Option (String × Rule) :=
  rules.find? fun e => KeyPath.parse e.1.toList = .ok key

/-- **The paths of the rules stand for distinct keys.** -/
def Distinct (rules : RuleSet) : Prop :=
  (rules.map fun e => KeyPath.parse e.1.toList).Nodup

end RuleSet

variable {rules : RuleSet} {key : KeyPath}

/-- The joined text is looked up as it is, without being read. -/
theorem written?_eq_some_iff {path : String} {rule : Rule} :
    rules.written? key = some (path, rule)
      ↔ path = key.dotted ∧ Keyed.find? key.dotted rules = some rule := by
  simp only [RuleSet.written?, Option.map_eq_some_iff, Prod.mk.injEq]
  constructor
  · rintro ⟨_, hf, rfl, rfl⟩
    exact ⟨rfl, hf⟩
  · rintro ⟨rfl, hf⟩
    exact ⟨rule, hf, rfl, rfl⟩

/-- No rule is written as the joined text. -/
theorem written?_eq_none_iff : rules.written? key = none ↔ key.dotted ∉ Keyed.keys rules := by
  rw [RuleSet.written?, Option.map_eq_none_iff, Keyed.find?_eq_none]

/-- No rule stands for the key. -/
theorem governing?_eq_none_iff : rules.governing? key = none
    ↔ ∀ path ∈ Keyed.keys rules, KeyPath.parse path.toList ≠ .ok key := by
  simp only [RuleSet.governing?, List.find?_eq_none, decide_eq_true_eq, Keyed.keys,
    List.forall_mem_map]

/-- One rule at most governs a key.  Without this a check would apply them all, and a form one. -/
theorem RuleSet.Distinct.unique (hd : rules.Distinct) {e e' : String × Rule} (he : e ∈ rules)
    (he' : e' ∈ rules) (h : KeyPath.parse e.1.toList = .ok key)
    (h' : KeyPath.parse e'.1.toList = .ok key) : e = e' :=
  List.inj_on_of_nodup_map hd he he' (h.trans h'.symm)

/-- The rule that governs a key is the one whose path is read as the key. -/
theorem governing?_eq_some_iff (hd : rules.Distinct) {path : String} {rule : Rule} :
    rules.governing? key = some (path, rule)
      ↔ (path, rule) ∈ rules ∧ KeyPath.parse path.toList = .ok key := by
  constructor
  · intro h
    exact ⟨List.mem_of_find?_eq_some h, by simpa using List.find?_some h⟩
  · rintro ⟨hm, hp⟩
    cases hg : rules.governing? key with
    | none => exact absurd hp (governing?_eq_none_iff.mp hg path (List.mem_map_of_mem hm))
    | some e =>
      have he : KeyPath.parse e.1.toList = .ok key := by simpa using List.find?_some hg
      rw [hd.unique (List.mem_of_find?_eq_some hg) hm he hp]

/-! ## 2. Which of them a form takes, and which a check

What a form and a check do is written here with the rule as a parameter, so the two can be told
apart by that parameter alone.
-/

/-- Sets a field in a tree, by the rule that is given for it. -/
def setFieldBy (rule : Option Rule) (allowNew : Bool) (field : Field) (key : KeyPath)
    (tree : Value) : Except FormError Value :=
  match key.parts.getLast?, tree with
  | none, _ => .error (.unknownField field.name)
  | some last, .table entries =>
    (changeAt field.name allowNew (setKey field rule allowNew last) key.parts.dropLast entries).map
      .table
  | some _, _ => .error (.notATable field.name "")

/-- **A form takes the rule that is written as the joined text of the key.** -/
theorem setField_eq {field : Field} (hk : KeyPath.parse field.name.toList = .ok key)
    (allowNew : Bool) (tree : Value) : setField rules allowNew field tree
      = setFieldBy ((rules.written? key).map (·.2)) allowNew field key tree := by
  have hrule : (rules.written? key).map (·.2) = Keyed.find? key.dotted rules := by
    simp [RuleSet.written?, Function.comp_def]
  rw [hrule, setField, hk]
  rfl

/-- Whether a violation is one of the rule for a key. -/
def Violation.concerns (key : KeyPath) (v : Violation) : Bool :=
  decide (KeyPath.parse v.path.toList = .ok key)

/-- Of what a rule complains of, all or nothing is about a key: a rule speaks only of the key
that its path stands for. -/
theorem filter_checkRule (tree : Value) (path : String) (rule : Rule) :
    (checkRule tree path rule).filter (Violation.concerns key)
      = if KeyPath.parse path.toList = .ok key then
          (rule.complaints (tree.at? key.parts)).map fun c => ⟨path, c⟩
        else [] := by
  unfold checkRule
  split
  · next h => simp [h]
  · next key' h =>
    have hconcerns : Violation.concerns key ∘ (fun c => (⟨path, c⟩ : Violation))
        = fun _ => decide (key' = key) := by
      funext c
      simp [Violation.concerns, h]
    rw [List.filter_map, hconcerns]
    -- the key of the rule is the one in question or another one
    by_cases he : key' = key
    · simp [h, he]
    · simp [h, he]

/-- **A check applies to a key the rule whose path stands for it,** and no other. -/
theorem check_at (hd : rules.Distinct) (tree : Value) :
    (rules.check tree).filter (Violation.concerns key) = (rules.governing? key).elim []
      fun e => (e.2.complaints (tree.at? key.parts)).map fun c => ⟨e.1, c⟩ := by
  rw [RuleSet.check, List.filter_flatMap]
  simp only [filter_checkRule]
  -- rule by rule; at the first that stands for the key, the others add nothing
  induction rules with
  | nil => rfl
  | cons e rest ih =>
    obtain ⟨hnot, hrest⟩ := List.nodup_cons.mp hd
    rw [List.flatMap_cons, ih hrest]
    by_cases he : KeyPath.parse e.1.toList = .ok key
    · -- the others stand for other keys
      have hnone : RuleSet.governing? rest key = none :=
        List.find?_eq_none.mpr fun e' hm => by
          intro he'
          refine hnot (List.mem_map.mpr ⟨e', hm, ?_⟩)
          exact (of_decide_eq_true he').trans he.symm
      have hfirst : RuleSet.governing? (e :: rest) key = some e := by simp [RuleSet.governing?, he]
      simp [he, hnone, hfirst]
    · have hfirst : RuleSet.governing? (e :: rest) key = RuleSet.governing? rest key := by
        simp [RuleSet.governing?, he]
      simp [he, hfirst]

/-! ## 3. Where the two agree

Both look-ups give a path with its rule, so they agree when they give the same path, or both
nothing.
-/

/-- **A form and a check agree on the rule of a key** if and only if the rule that governs the
key is written as the joined text of the key, and no rule is written so unless all parts of the
key can be written bare.  The form sets the field by the one rule, and the check judges its key
by the other. -/
theorem written?_eq_governing?_iff (hd : rules.Distinct) {field : Field}
    (hk : KeyPath.parse field.name.toList = .ok key) :
    (∀ allowNew tree, setField rules allowNew field tree
        = setFieldBy ((rules.written? key).map (·.2)) allowNew field key tree)
      ∧ (∀ tree, (rules.check tree).filter (Violation.concerns key)
        = (rules.governing? key).elim []
            fun e => (e.2.complaints (tree.at? key.parts)).map fun c => ⟨e.1, c⟩)
      ∧ (rules.written? key = rules.governing? key
        ↔ (∀ path ∈ Keyed.keys rules, KeyPath.parse path.toList = .ok key → path = key.dotted)
          ∧ (key.dotted ∈ Keyed.keys rules → ∀ part ∈ key.parts, IsPlainPart part)) := by
  refine ⟨setField_eq hk, check_at hd, ?_⟩
  rw [← parse_dotted_iff (parts_ne_nil hk)]
  -- they agree: whatever governs is written in joined form, and what is written so governs
  constructor
  · intro h
    refine ⟨fun path hm hp => ?_, fun hm => ?_⟩
    · obtain ⟨⟨_, rule⟩, he, rfl⟩ := List.mem_map.mp hm
      have hw := h.trans ((governing?_eq_some_iff hd).mpr ⟨he, hp⟩)
      exact (written?_eq_some_iff.mp hw).1
    · cases hw : rules.written? key with
      | none => exact absurd hm (written?_eq_none_iff.mp hw)
      | some e =>
        obtain ⟨path, rule⟩ := e
        rw [← (written?_eq_some_iff.mp hw).1]
        exact ((governing?_eq_some_iff hd).mp (h.symm.trans hw)).2
  -- the other way: a rule found by its text is read as the key, any other governs nothing
  · rintro ⟨hwritten, hread⟩
    cases hw : rules.written? key with
    | none =>
      refine (governing?_eq_none_iff.mpr fun path hm hp => ?_).symm
      exact written?_eq_none_iff.mp hw (hwritten path hm hp ▸ hm)
    | some e =>
      obtain ⟨path, rule⟩ := e
      obtain ⟨rfl, hf⟩ := written?_eq_some_iff.mp hw
      have hm := Keyed.find?_mem hf
      exact ((governing?_eq_some_iff hd).mpr ⟨hm, hread (List.mem_map_of_mem hm)⟩).symm

/-- The rule of a plain key in a section is found both ways; the rule beside it, written with a
blank, governs another key. -/
theorem written?_eq_governing?_section :
    let rules : RuleSet := [("s.a", { kind := some .integer }), ("s . b", { kind := some .bool })]
    RuleSet.Distinct rules
      ∧ rules.written? ⟨["s", "a"]⟩ = some ("s.a", { kind := some .integer })
      ∧ rules.written? ⟨["s", "a"]⟩ = rules.governing? ⟨["s", "a"]⟩ := by
  intro rules
  have hd : rules.Distinct := by
    rw [RuleSet.Distinct]
    decide
  refine ⟨hd, by rfl, ?_⟩
  have hk : KeyPath.parse (Field.mk "s.a" "").name.toList = .ok ⟨["s", "a"]⟩ := by rfl
  obtain ⟨-, -, hiff⟩ := written?_eq_governing?_iff hd hk
  have hplain : ∀ part ∈ ["s", "a"], IsPlainPart part := by
    simp [IsPlainPart, IsPlain, isPlainChar, Text.isBlank]
  exact hiff.mpr ⟨by decide, fun _ => hplain⟩

/-- A rule under a quoted key is accepted, and a check applies it to the key; a form finds no
rule for the key, and reads the text of the field by the kind of the value that stands there. -/
theorem quoted_rule_not_written :
    let rules : RuleSet := [("\"a.b\"", { kind := some .string })]
    let tree := Value.table [("a.b", .integer 1)]
    rules.issues = [] ∧ RuleSet.Distinct rules
      ∧ KeyPath.parse "\"a.b\"".toList = .ok ⟨["a.b"]⟩
      ∧ rules.governing? ⟨["a.b"]⟩ = some ("\"a.b\"", { kind := some .string })
      ∧ rules.written? ⟨["a.b"]⟩ = none
      ∧ rules.check tree = [⟨"\"a.b\"", .wrongKind .string "integer"⟩]
      ∧ collect rules false [⟨"\"a.b\"", "x"⟩] tree
        = .error (.coercion "\"a.b\"" "x" "an integer") := by
  refine ⟨by rfl, ?_, by rfl, by rfl, by rfl, by rfl, by rfl⟩
  rw [RuleSet.Distinct]
  decide

end TomlKeep
