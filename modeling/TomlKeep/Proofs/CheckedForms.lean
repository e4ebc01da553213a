/-
# What a check says of a form

A form reads the text of a field as the kind that the rule of its key asks for, and a check looks
whether the value under the key is of this kind.  So a check has nothing against what a form has
just set but its size or the choices for it (`check_collect`), and nothing at all against a
`null` that the rule allows.

Three things are left out on purpose.  The rule has to be written as the path of the field, for a
form finds no other (`GoverningRules`).  No later field may come near that path, or the value is
not there any more.  And a rule under a path that occurs twice may be another one; in rules that
were loaded no path does (`nodup_keys_of_load`).
-/
import TomlKeep.Proofs.FormFrame
import TomlKeep.Proofs.GoverningRules
import TomlKeep.Proofs.PatchSoundness
import TomlKeep.Rules.Load

namespace TomlKeep

/-! ## 1. Values that are read are of their kind

The readers of the kinds and the test for a kind are written apart from each other, and here they
are brought together, kind by kind.
-/

/-- What is read from one line of text is no `null`, as no document has one. -/
theorem readLiteral?_ne_null {input : List Char} {value : Value}
    (h : readLiteral? input = some value) :
    value ≠ .null := by
  rw [readLiteral?] at h
  split at h
  · cases h
  · split at h
    · next tree htree =>
      obtain ⟨-, -, hread⟩ := holds_of_readStrict htree
      rintro rfl
      exact (hread.at? h).2
    · cases h

/-- **A text that is read as a kind** gives a value of the kind. -/
theorem admits_of_readAs? {kind : Kind} {input : String} {value : Value}
    (h : readAs? kind input = some value) : kind.admits value = true := by
  -- strings and truth values have readers of their own; the others are read as literals and tested
  cases kind with
  | string =>
    obtain rfl := Option.some.inj h
    rfl
  | bool =>
    obtain ⟨b, -, rfl⟩ := Option.map_eq_some_iff.mp h
    rfl
  | float =>
    rw [readAs?] at h
    split at h <;> cases h <;> rfl
  | integer | datetime | array | table => exact (Option.filter_eq_some_iff.mp h).2

/-- `null` is of no kind. -/
theorem ne_null_of_admits {kind : Kind} {value : Value} (h : kind.admits value = true) :
    value ≠ .null := by
  rintro rfl
  cases kind <;> cases h

/-- **The value of a text** is no `null`, and of the kind that was asked for. -/
theorem coerce_sound {field input : String} {kind? : Option Kind} {value : Value}
    (h : coerce field input kind? = .ok value) :
    value ≠ .null ∧ ∀ kind, kind? = some kind → kind.admits value = true := by
  -- without a kind the text is read as what it looks like, and is a string at last
  cases kind? with
  | none =>
    refine ⟨?_, by simp⟩
    obtain rfl := Except.ok.inj h
    cases hl : readLiteral? input.toList with
    | none => simp
    | some value => exact readLiteral?_ne_null hl
  | some kind =>
    rw [coerce] at h
    split at h
    · next hread =>
      obtain rfl := Except.ok.inj h
      have hadmits := admits_of_readAs? hread
      refine ⟨ne_null_of_admits hadmits, ?_⟩
      rintro _ ⟨⟩
      exact hadmits
    · cases h

/-! ## 2. What a rule has against such a value

A rule asks first whether the value is there, then whether it is of its kind, and then about its
content.  A value of a field gets past the first two.
-/

/-- Whether a complaint is about a value that is there and of its kind: about its size, or the
choices for it. -/
def Complaint.isOfContent : Complaint → Bool
  | .missing | .null | .wrongKind _ _ => false
  | .below _ _ | .above _ _ | .noChoice _ _ => true

/-- The bounds and the choices of a rule are about the content. -/
theorem isOfContent_of_mem {rule : Rule} {value : Value} {c : Complaint}
    (h : c ∈ rule.boundComplaints value ++ rule.choiceComplaints value) : c.isOfContent = true := by
  -- the bounds, below and above, and the choices
  rcases List.mem_append.mp h with h | h
  · unfold Rule.boundComplaints at h
    split at h
    · cases h
    · rcases List.mem_append.mp h with h | h
      all_goals
        split at h
        · split at h
          · obtain rfl := List.mem_singleton.mp h
            rfl
          · cases h
        · cases h
  · unfold Rule.choiceComplaints at h
    split at h
    · cases h
    · obtain rfl := List.mem_singleton.mp h
      rfl

/-- **A value of the right kind** is judged by its content only. -/
theorem complaints_of_admits {rule : Rule} {value : Value} (hnull : value ≠ .null)
    (hkind : ∀ kind, rule.kind = some kind → kind.admits value = true) :
    rule.complaints (some value) = rule.boundComplaints value ++ rule.choiceComplaints value := by
  unfold Rule.complaints
  split
  · contradiction
  · next heq => exact absurd (Option.some.inj heq) hnull
  · next heq =>
    obtain rfl := Option.some.inj heq
    split
    · next kind hk => rw [if_pos (hkind kind hk)]
    · rfl

/-- **What a rule has against the value that a field got by it.**  The kind it was read as is
that of the rule, if the rule has one. -/
theorem complaints_of_gets {rules : RuleSet} {field : Field} {path : List String}
    {existing : Option Value} {value : Value} {rule : Rule}
    (h : field.Gets rules path existing value)
    (hrule : Keyed.find? (KeyPath.mk path).dotted rules = some rule) :
    (∀ c ∈ rule.complaints (some value), c.isOfContent = true)
      ∧ (rule.nullable = true → field.text = "" → rule.complaints (some value) = []) := by
  rw [Field.Gets, hrule] at h
  simp only [Option.any_some, Bool.and_eq_true, String.isEmpty_iff, Option.bind_some] at h
  split at h
  -- an empty text under a nullable rule is `null`, which the rule allows
  · next hempty =>
    subst h
    have hnone : rule.complaints (some .null) = [] := if_pos hempty.1
    rw [hnone]
    exact ⟨List.forall_mem_nil _, fun _ _ => rfl⟩
  · next hempty =>
    obtain ⟨hnull, hkind⟩ := coerce_sound h
    have hrule (kind : Kind) (hk : rule.kind = some kind) : kind.admits value = true :=
      hkind kind (by rw [hk, Option.some_or])
    rw [complaints_of_admits hnull hrule]
    exact ⟨fun c hc => isOfContent_of_mem hc, fun hn ht => absurd ⟨hn, ht⟩ hempty⟩

/-! ## 3. The violations of one rule

A check goes through all rules, and says of each violation under which path its rule stands.  Since
paths are not repeated, the path tells which rule it was.
-/

/-- **A violation** is a complaint of a rule about what stands at its path. -/
theorem mem_check_iff {rules : RuleSet} {tree : Value} {v : Violation} :
    v ∈ rules.check tree ↔ ∃ rule key, (v.path, rule) ∈ rules
      ∧ KeyPath.parse v.path.toList = .ok key
      ∧ v.complaint ∈ rule.complaints (tree.at? key.parts) := by
  obtain ⟨path, complaint⟩ := v
  simp only [RuleSet.check, List.mem_flatMap, Prod.exists, checkRule]
  constructor
  · rintro ⟨path', rule, hm, hv⟩
    split at hv
    · cases hv
    · next key hk =>
      obtain ⟨c, hc, he⟩ := List.mem_map.mp hv
      obtain ⟨rfl, rfl⟩ := Violation.mk.inj he
      exact ⟨rule, key, hm, hk, hc⟩
  · rintro ⟨rule, key, hm, hk, hc⟩
    refine ⟨path, rule, hm, ?_⟩
    rw [hk]
    exact List.mem_map_of_mem hc

/-- In rules with distinct paths the violations under one path are those of its rule. -/
theorem mem_complaints_of_mem_check {rules : RuleSet} (hd : (Keyed.keys rules).Nodup)
    {path : String} {rule : Rule} (hf : Keyed.find? path rules = some rule) {key : KeyPath}
    (hk : KeyPath.parse path.toList = .ok key) {tree : Value} {v : Violation}
    (hv : v ∈ rules.check tree) (hp : v.path = path) :
    v.complaint ∈ rule.complaints (tree.at? key.parts) := by
  obtain ⟨rule', key', hm, hk', hc⟩ := mem_check_iff.mp hv
  rw [hp] at hm hk'
  obtain rfl : rule' = rule := Option.some.inj ((Keyed.find?_of_mem hd hm).symm.trans hf)
  obtain rfl : key' = key := Except.ok.inj (hk'.symm.trans hk)
  exact hc

/-- Each rule stands under the path it was written under. -/
theorem keys_of_ofEntries? : ∀ {entries : Table} {rules : RuleSet},
    RuleSet.ofEntries? entries = some rules → Keyed.keys rules = Keyed.keys entries
  | [], rules, h => by
    obtain rfl := Option.some.inj h
    rfl
  | (path, value) :: rest, rules, h => by
    rw [RuleSet.ofEntries?] at h
    split at h
    · next rule more hrule hmore =>
      obtain rfl := Option.some.inj h
      exact congrArg (path :: ·) (keys_of_ofEntries? hmore)
    · cases h

/-- **Rules that were loaded have distinct paths.**  They were the keys of one table of a
document. -/
theorem nodup_keys_of_load {text : List Char} {rules : RuleSet}
    (h : RuleSet.load text = .ok rules) :
    (Keyed.keys rules).Nodup := by
  unfold RuleSet.load at h
  split at h
  · cases h
  · next tree htree =>
    obtain ⟨entries, rfl, hread⟩ := holds_of_readStrict htree
    split at h
    · cases h
    · next loaded hloaded =>
      split at h
      · obtain rfl := Except.ok.inj h
        rw [RuleSet.ofTree?] at hloaded
        split at hloaded
        · obtain rfl := Option.some.inj hloaded
          exact List.nodup_nil
        · next table hf =>
          rw [keys_of_ofEntries? hloaded]
          exact (hread.of_find? hf).1.1
        · cases hloaded
      · cases h

/-! ## 4. Forms and checks

The form is cut at the field in question: what comes before it makes the tree in which it is set,
and what comes behind it leaves its value alone.
-/

/-- **A check of what a form has set.**  The rule of the field is written as its path and read as
it, and no later field comes near it.  Then the key is there, its value is of the kind of the
rule and no `null` unless the rule allows it; a check has nothing against it but its size or the
choices.  An empty text under a nullable rule passes the check of this rule. -/
theorem check_collect {rules : RuleSet} (hd : (Keyed.keys rules).Nodup) {allowNew : Bool}
    (before : List Field) {field : Field} {after : List Field} {base new : Value}
    (h : collect rules allowNew (before ++ field :: after) base = .ok new) {path : List String}
    (hname : field.Names path) {p : String} {rule : Rule}
    (hrule : rules.written? ⟨path⟩ = some (p, rule)) (hp : KeyPath.parse p.toList = .ok ⟨path⟩)
    (hlater : ∀ later ∈ after, ∀ other, later.Names other → PathsApart other path) :
    (∀ v ∈ rules.check new, v.path = p → v.complaint.isOfContent = true)
      ∧ (rule.nullable = true → field.text = "" → ∀ v ∈ rules.check new, v.path ≠ p) := by
  obtain ⟨rfl, hf⟩ := written?_eq_some_iff.mp hrule
  obtain ⟨tree, -, hrest⟩ := collect_append_eq_ok.mp h
  obtain ⟨next, hset, hafter⟩ := collect_cons_eq_ok.mp hrest
  obtain ⟨value, hgets, hat⟩ := at?_setField_self hname hset
  have hstays : new.at? path = some value := by rw [at?_collect_of_apart hafter hlater, hat]
  obtain ⟨hcontent, hnull⟩ := complaints_of_gets hgets hf
  -- every violation under the path is a complaint of the rule about this value
  have hmem (v : Violation) (hv : v ∈ rules.check new) (he : v.path = (KeyPath.mk path).dotted) :
      v.complaint ∈ rule.complaints (some value) := by
    rw [← hstays]
    exact mem_complaints_of_mem_check hd hf hp hv he
  refine ⟨fun v hv he => hcontent _ (hmem v hv he), ?_⟩
  intro hn ht v hv he
  have hc := hmem v hv he
  rw [hnull hn ht] at hc
  cases hc

/-- A number in the place of a string, which is below the minimum of its rule, and an empty text
under a nullable rule. -/
theorem check_collect_section :
    let rules : RuleSet :=
      [("s.p", { kind := some .integer, required := true, min := some (.ofNat 5) }),
      ("s.q", { kind := some .string, nullable := true, choices := ["x"] })]
    let base := Value.table [("s", .table [("p", .string "x")])]
    let new := Value.table [("s", .table [("p", .integer 3), ("q", .null)])]
    collect rules false [⟨"s.p", "3"⟩, ⟨"s.q", ""⟩] base = .ok new
      ∧ (∀ v ∈ rules.check new, v.path = "s.p" → v.complaint.isOfContent = true)
      ∧ ∀ v ∈ rules.check new, v.path ≠ "s.q" := by
  intro rules base new
  have hd : (Keyed.keys rules).Nodup := by decide
  have h : collect rules false [⟨"s.p", "3"⟩, ⟨"s.q", ""⟩] base = .ok new := by rfl
  have hp : Field.Names ⟨"s.p", "3"⟩ ["s", "p"] := by rfl
  have hq : Field.Names ⟨"s.q", ""⟩ ["s", "q"] := by rfl
  have hlater : ∀ later ∈ [Field.mk "s.q" ""], ∀ other, later.Names other →
      PathsApart other ["s", "p"] := by
    intro later hm other hother
    obtain rfl := List.mem_singleton.mp hm
    obtain rfl := hother.unique hq
    decide
  refine ⟨h, ?_, ?_⟩
  · exact (check_collect hd [] h hp rfl (by rfl) hlater).1
  · exact (check_collect hd [_] h hq rfl (by rfl) (by simp)).2 rfl rfl

end TomlKeep
