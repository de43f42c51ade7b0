import WordVM.Word

/-!
# The stack

An unbounded stack of words. The top is the head of `words`; `toList` shows the stack from the
bottom up, the order in which the words were pushed.
-/

namespace WordVM

/-- A stack of words. -/
structure Stack where
  /-- The words, top first. -/
  words : List Word
deriving DecidableEq, Repr

namespace Stack

/-- The stack with nothing on it. -/
def empty : Stack := ⟨[]⟩

/-- Puts a word on top. -/
def push (s : Stack) (w : Word) : Stack := ⟨w :: s.words⟩

/-- The top word and the stack below it, if there is a top. -/
def pop? (s : Stack) : Option (Word × Stack) :=
  match s.words with
  | [] => none
  | w :: rest => some (w, ⟨rest⟩)

/-- How many words are on the stack. -/
def depth (s : Stack) : Nat := s.words.length

/-- There is no word on the stack. -/
def isEmpty (s : Stack) : Bool := s.words.isEmpty

/-- The words from the bottom up. -/
def toList (s : Stack) : List Word := s.words.reverse

@[simp] theorem toList_empty : empty.toList = [] := rfl

@[simp] theorem toList_push (s : Stack) (w : Word) : (s.push w).toList = s.toList ++ [w] := by
  simp [toList, push]

@[simp] theorem pop?_push (s : Stack) (w : Word) : (s.push w).pop? = some (w, s) := rfl

@[simp] theorem length_toList (s : Stack) : s.toList.length = s.depth := by
  simp [toList, depth]

end Stack

end WordVM
