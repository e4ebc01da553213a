/-
# Physical lines

A line ends behind a line feed; a carriage return right before the line feed belongs to the line
end and not to the content.  The last line may have no end at all, and then it is not empty.
Writing the lines one after the other gives the text back (`flatten_lines`).
-/
import TomlKeep.Text.Bytes

namespace TomlKeep.Text

/-- How a physical line ends. -/
inductive LineEnd where
  | lf
  | crlf
  | none
  deriving DecidableEq, Repr

/-- The characters that end the line. -/
def LineEnd.chars : LineEnd → List Char
  | .lf => ['\n']
  | .crlf => ['\r', '\n']
  | .none => []

/-- A line of a text, its end apart. -/
structure Line where
  content : List Char
  ending : LineEnd
  deriving DecidableEq, Repr

/-- The whole line as it stands in the text. -/
def Line.chars (line : Line) : List Char :=
  line.content ++ line.ending.chars

/-- Puts a character in front of the first line. -/
def pushFront (c : Char) : List Line → List Line
  | [] => [⟨[c], .none⟩]
  | line :: lines => ⟨c :: line.content, line.ending⟩ :: lines

/-- The physical lines of a text. -/
def lines : List Char → List Line
  | [] => []
  | '\n' :: rest => ⟨[], .lf⟩ :: lines rest
  | '\r' :: '\n' :: rest => ⟨[], .crlf⟩ :: lines rest
  | c :: rest => pushFront c (lines rest)

theorem flatten_pushFront (c : Char) (ls : List Line) :
    (pushFront c ls).flatMap Line.chars = c :: ls.flatMap Line.chars := by
  cases ls <;> simp [pushFront, Line.chars, LineEnd.chars]

/-- **Lines partition the text.** -/
theorem flatten_lines (text : List Char) : (lines text).flatMap Line.chars = text := by
  fun_induction lines text with
  | case1 => rfl
  | case2 rest ih => simp [Line.chars, LineEnd.chars, ih]
  | case3 rest ih => simp [Line.chars, LineEnd.chars, ih]
  | case4 c rest _ _ ih => rw [flatten_pushFront, ih]

end TomlKeep.Text
