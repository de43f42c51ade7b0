/-!
# Filling lines

Words are set on lines greedily: a word goes on the current line if the line, the space before the
word and the word fit in the width, and begins the next line otherwise. A word longer than the
width has a line to itself.
-/

namespace WordVM.Text

/-- Goes on setting words after the words of a line that is `used` columns long. The words already
on that line come last first. -/
def fillFrom (width : Nat) (line : List String) (used : Nat) : List String → List (List String)
  | [] => [line.reverse]
  | word :: rest =>
    if used + 1 + word.length ≤ width then
      fillFrom width (word :: line) (used + 1 + word.length) rest
    else
      line.reverse :: fillFrom width [word] word.length rest

/-- Sets words on lines. -/
def fill (width : Nat) : List String → List (List String)
  | [] => []
  | word :: rest => fillFrom width [word] word.length rest

/-- The text of lines of words: spaces between words, and a line feed after every line. -/
def unlines (lines : List (List String)) : String :=
  String.join (lines.map fun line => " ".intercalate line ++ "\n")

theorem flatten_fillFrom (width : Nat) (line : List String) (used : Nat) (words : List String) :
    (fillFrom width line used words).flatten = line.reverse ++ words := by
  induction words generalizing line used with
  | nil => simp [fillFrom]
  | cons word rest ih =>
    unfold fillFrom
    split <;> simp [ih]

/-- No word is lost, and their order is kept. -/
theorem flatten_fill (width : Nat) (words : List String) : (fill width words).flatten = words := by
  cases words with
  | nil => rfl
  | cons word rest => simp [fill, flatten_fillFrom]

end WordVM.Text
