import WordVM.Word

/-!
# Input text

Text reaches the machine as characters. A carriage return right before a line feed is dropped when
the text is delivered, and what either of them leaves behind reads as the code of a line feed, so a
program sees every line ending as one 10.
-/

namespace WordVM.Input

/-- The text with each carriage return that a line feed follows left out. -/
def normalize : List Char → List Char
  | [] => []
  | '\r' :: '\n' :: rest => '\n' :: normalize rest
  | c :: rest => c :: normalize rest

/-- The word that a program reads for a character. -/
def code (c : Char) : Word :=
  match c with
  | '\n' | '\r' => 10
  | ' ' => 32
  | c => Word.wrap c.val

/-- Cuts bytes into lines. Each line ends with its line feed, except possibly the last. -/
def lines : List UInt8 → List (List UInt8)
  | [] => []
  | b :: rest =>
    if b = 10 then
      [b] :: lines rest
    else
      match lines rest with
      | [] => [[b]]
      | line :: more => (b :: line) :: more

theorem flatten_lines (bytes : List UInt8) : (lines bytes).flatten = bytes := by
  induction bytes with
  | nil => rfl
  | cons b rest ih =>
    unfold lines
    split
    · simp [ih]
    · split <;> simp_all

end WordVM.Input
