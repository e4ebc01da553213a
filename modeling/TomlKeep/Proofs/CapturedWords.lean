/-
# Bare words are captured exactly

A line that assigns a bare word is read as the table of exactly that word, without the blanks
around it (`readRelaxed_bareWord`).  The word may hold anything but a hash and a line feed:
quotes, backslashes, equals signs, brackets and control characters.

The argument follows the line through three readers.

* The line reader finds the key, cuts the comment off at the first hash, and keeps the gaps
  around the word apart from it (`IsKey.classify_word`, `splitComment_unquoted`).
* The word is put in quotes without its blanks, and the gaps stay as they are
  (`quoteBareWords_line`).
* The grammar reads what is quoted as the word (`readStrict_assigned`).

A carriage return at the end of the word, right in front of the line feed, is a blank of the word
or part of the line end; the word is the same either way.
-/
import TomlKeep.Proofs.LiteralLines
import TomlKeep.Proofs.LiteralValues

namespace TomlKeep

open Text Toml

/-! ## 1. A bare word in its line

The line is classified, its word is quoted in place, and what comes of it is read.  That the line
end is the one that is written, and no part of the word, is asked here and provided in the next
section.
-/

/-- **A text of one line** is quoted as its line is. -/
theorem quoteBareWords_line {content : List Char} {ending : LineEnd}
    (h : (Line.mk content ending).Proper) : quoteBareWords (content ++ ending.chars)
      = quoteLine ⟨0, ⟨content, ending⟩, classify content⟩ := by
  rw [quoteBareWords, scan, lines_line h, scanLines]
  cases classify content with
  | assignment a => exact List.append_nil _
  | header heading => exact List.append_nil _
  | other => exact List.append_nil _

/-- A key that can be bare is written bare. -/
theorem writeKey_bare {key : List Char} (hne : key ≠ []) (h : ∀ c ∈ key, isBareKeyChar c = true) :
    writeKey (String.ofList key) = key := by
  have hbare : (!key.isEmpty && key.all isBareKeyChar) = true := by
    rw [Bool.and_eq_true, Bool.not_eq_true', List.isEmpty_eq_false_iff]
    exact ⟨hne, List.all_eq_true.mpr h⟩
  rw [writeKey, String.toList_ofList]
  simp only [hbare, if_true]

variable {key word comment : List Char}

/-- **A bare word on a line of its own,** whose end is no part of the word. -/
theorem readRelaxed_properLine (hne : key ≠ []) (hkey : ∀ c ∈ key, isBareKeyChar c = true)
    (hw : isBareWord word = true) (hh : '#' ∉ word) (hc : IsTextComment comment) {ending : LineEnd}
    (hp : (Line.mk (key ++ [' ', '=', ' '] ++ word ++ comment) ending).Proper) :
    readRelaxed (key ++ [' ', '=', ' '] ++ word ++ comment ++ ending.chars)
      = .ok (.table [(String.ofList key, .string (String.ofList (trim word)))]) := by
  have hkind : IsKey key [key] := (isSimpleKey_bare hne hkey).isKey
  have htrim := trim_dropEnd_gap word
  have hbare : isBareWord (dropEnd isGap (word.dropWhile isGap)) = true := by
    rw [isBareWord_congr htrim, hw]
  -- the first hash behind the word is the comment's
  have hquoted : startsIn Assignment.isQuotedStart (word.dropWhile isGap ++ comment) = false := by
    have hno := startsIn_isQuotedStart hbare
    rw [← dropEnd_append_takeEnd isGap (word.dropWhile isGap)]
    generalize dropEnd isGap (word.dropWhile isGap) = left at hbare hno
    cases left with
    | nil => exact absurd hbare (by decide)
    | cons c rest => exact hno
  have hhash : '#' ∉ word.dropWhile isGap := by
    intro hm
    exact hh ((List.dropWhile_suffix isGap).subset hm)
  have hcut := splitComment_unquoted hquoted hhash hc.head
  have hclass := hkind.classify_word hc.head hcut
  rw [readRelaxed, quoteBareWords_line hp, quoteLine, hclass]
  simp only [hbare, if_true, htrim]
  have hgap : IsGapText (word.takeWhile isGap) := fun _ hm => forall_takeWhile hm
  have hrest : LineRest (takeEnd isGap (word.dropWhile isGap) ++ comment ++ ending.chars) :=
    lineRest_of_isTextComment (fun _ => forall_takeEnd) hc ending
  have hread := readStrict_assigned (String.ofList key) hgap (.quoted (trim word))
    (scalarOf?_quote (trim word)) hrest
  rw [writeKey_bare hne hkey] at hread
  simpa using hread

/-! ## 2. Any line end

A word may end in a carriage return and a line in a line feed, and together they are the other line
end.  Then the word is taken without its carriage return, which is a blank.
-/

/-- **A bare word is captured exactly,** whatever else it holds, whatever comment follows it, and
however the line ends. -/
theorem readRelaxed_bareWord (hne : key ≠ []) (hkey : ∀ c ∈ key, isBareKeyChar c = true)
    (hw : isBareWord word = true) (hh : '#' ∉ word) (hn : '\n' ∉ word) (hc : IsTextComment comment)
    (ending : LineEnd) : readRelaxed (key ++ [' ', '=', ' '] ++ word ++ comment ++ ending.chars)
      = .ok (.table [(String.ofList key, .string (String.ofList (trim word)))]) := by
  have hfeed : '\n' ∉ key ++ [' ', '=', ' '] ++ word ++ comment := by
    have hcomment : '\n' ∉ comment := hc.not_mem (by decide)
    have hkey' : '\n' ∉ key := by
      intro hm
      exact absurd (hkey _ hm) (by decide)
    simp [hcomment, hkey', hn]
  have hword : word ≠ [] := by
    rintro rfl
    exact absurd hw (by decide)
  -- the two characters of a line end may come from the word and the line
  by_cases hreturn : ending = .lf
      ∧ (key ++ [' ', '=', ' '] ++ word ++ comment).getLast? = some '\r'
  · obtain ⟨rfl, hlast⟩ := hreturn
    -- the word ends in the carriage return, for a comment does not
    obtain rfl : comment = [] := by
      by_contra hcomment
      rw [List.getLast?_append_of_ne_nil _ hcomment] at hlast
      exact hc.not_mem (by decide) (List.mem_of_mem_getLast? hlast)
    rw [List.append_nil, List.getLast?_append_of_ne_nil _ hword] at hlast
    obtain ⟨front, rfl⟩ := List.getLast?_eq_some_iff.mp hlast
    have htrim : trim front = trim (front ++ ['\r']) := by
      have hblank : ∀ c ∈ ['\r'], isBlank c = true := List.forall_mem_singleton.mpr rfl
      exact (trim_append_blanks hblank).symm
    have hhash : '#' ∉ front := by
      intro hm
      exact hh (List.mem_append_left _ hm)
    have hproper : (Line.mk (key ++ [' ', '=', ' '] ++ front ++ []) .crlf).Proper := by
      refine ⟨?_, by simp, by simp⟩
      simp_all
    rw [isBareWord_congr htrim.symm] at hw
    have hread := readRelaxed_properLine hne hkey hw hhash hc hproper
    rw [htrim] at hread
    simpa [LineEnd.chars] using hread
  · refine readRelaxed_properLine hne hkey hw hh hc ⟨hfeed, ?_, ?_⟩
    · intro hlf hlast
      exact hreturn ⟨hlf, hlast⟩
    · intro _ hnil
      simp [hne] at hnil

/-- A word with quotes, a backslash, an equals sign, a bracket and a control character, in front
of a comment. -/
theorem readRelaxed_bareWord_marks :
    let word := ['i', '\'', 's', ' ', '"', 'a', '\\', '"', '=', '[', '\u0007', '\r', ' ']
    isBareWord word = true
      ∧ readRelaxed (['k', '-', '1'] ++ [' ', '=', ' '] ++ word ++ ['#', 'c']
        ++ LineEnd.chars .crlf)
        = .ok (.table [("k-1", .string "i's \"a\\\"=[\u0007")]) := by
  intro word
  have hkey : ∀ c ∈ ['k', '-', '1'], isBareKeyChar c = true := by simp [isBareKeyChar]
  have hw : isBareWord word = true := by rfl
  have hc : IsTextComment ['#', 'c'] := .inr ⟨['c'], rfl, List.forall_mem_singleton.mpr rfl⟩
  exact ⟨hw, readRelaxed_bareWord (by simp) hkey hw (by decide) (by decide) hc .crlf⟩

end TomlKeep
