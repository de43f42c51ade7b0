import WordVM.Text.Fill

/-!
# Filled text

Filling sets words on lines, and the text of the lines shows each word once more, with a space or a
line feed behind it. So the width decides only which of the two it is: with the line feeds put back
as spaces (`Text.rejoin`), filled words are spaced words (`Text.rejoin_fill`).

No line outgrows the width, as long as no word does (`Text.length_of_mem_fill`). The lines of the
text are the lines that were filled (`Text.splitOn_unlines`).
-/

namespace WordVM.Text

/-- The text with a space in the place of each line feed. -/
def rejoin (text : List Char) : List Char := text.map fun c => if c = '\n' then ' ' else c

/-- Words with a space behind each of them. -/
def spaced (words : List String) : List Char := words.flatMap fun word => word.toList ++ [' ']

/-- A line feed stands in none of the words. -/
def Unbroken (words : List String) : Prop := ∀ word ∈ words, '\n' ∉ word.toList

variable {width used : Nat} {words line : List String} {lines : List (List String)}

theorem rejoin_append (a b : List Char) : rejoin (a ++ b) = rejoin a ++ rejoin b := List.map_append

theorem spaced_cons (word : String) (rest : List String) :
    spaced (word :: rest) = word.toList ++ ' ' :: spaced rest := by
  simp [spaced]

theorem spaced_append (a b : List String) : spaced (a ++ b) = spaced a ++ spaced b :=
  List.flatMap_append

theorem rejoin_eq_self {text : List Char} (h : '\n' ∉ text) : rejoin text = text := by
  unfold rejoin
  rw [List.map_congr_left (g := id), List.map_id]
  intro c hc
  exact if_neg (ne_of_mem_of_not_mem hc h)

/-! ## The text of a line -/

theorem notMem_intercalate (h : Unbroken line) : '\n' ∉ (" ".intercalate line).toList := by
  induction line with
  | nil => simp
  | cons word rest ih =>
    have hword : '\n' ∉ word.toList := h word List.mem_cons_self
    cases rest with
    | nil => simpa using hword
    | cons next more =>
      have hrest := ih fun word hmem => h word (List.mem_cons_of_mem _ hmem)
      rw [String.intercalate_cons_cons, String.toList_append, String.toList_append,
        List.mem_append, List.mem_append, not_or, not_or]
      exact ⟨⟨hword, by decide⟩, hrest⟩

theorem intercalate_append_space (h : line ≠ []) :
    (" ".intercalate line).toList ++ [' '] = spaced line := by
  induction line with
  | nil => exact absurd rfl h
  | cons word rest ih =>
    cases rest with
    | nil => simp [spaced]
    | cons next more =>
      have hrest := ih (List.cons_ne_nil next more)
      rw [String.intercalate_cons_cons, String.toList_append, List.append_assoc, hrest,
        String.toList_append, List.append_assoc, spaced_cons word]
      rfl

theorem length_intercalate_append_singleton (h : line ≠ []) (word : String) :
    (" ".intercalate (line ++ [word])).length =
      (" ".intercalate line).length + 1 + word.length := by
  rw [String.intercalate_append_of_ne_nil h (List.cons_ne_nil word []),
    String.intercalate_singleton, String.length_append, String.length_append]
  rfl

/-! ## Lines of text -/

theorem toList_unlines (lines : List (List String)) :
    (unlines lines).toList = lines.flatMap fun line => (" ".intercalate line).toList ++ ['\n'] := by
  rw [unlines, String.toList_join, List.flatMap_map]
  simp only [String.toList_append]
  rfl

/-- The lines of a text are the ones that it was made of. -/
theorem splitOn_unlines (h : ∀ line ∈ lines, Unbroken line) (rest : List Char) :
    ((unlines lines).toList ++ rest).splitOn '\n' =
      lines.map (fun line => (" ".intercalate line).toList) ++ rest.splitOn '\n' := by
  rw [toList_unlines]
  induction lines with
  | nil => rfl
  | cons line more ih =>
    have hmore := ih fun line hline => h line (List.mem_cons_of_mem _ hline)
    have hline := notMem_intercalate (h line List.mem_cons_self)
    rw [List.flatMap_cons, List.append_assoc, List.append_assoc, List.singleton_append,
      List.splitOn_append_cons_self_of_not_mem hline, hmore, List.map_cons, List.cons_append]

/-- Lines that go on with the next word where a line feed was. -/
theorem rejoin_unlines (hne : ∀ line ∈ lines, line ≠ []) (h : ∀ line ∈ lines, Unbroken line) :
    rejoin (unlines lines).toList = spaced lines.flatten := by
  rw [toList_unlines]
  induction lines with
  | nil => rfl
  | cons line more ih =>
    have hmore := ih (fun line hline => hne line (List.mem_cons_of_mem _ hline))
      (fun line hline => h line (List.mem_cons_of_mem _ hline))
    have hline : rejoin (" ".intercalate line).toList = (" ".intercalate line).toList :=
      rejoin_eq_self (notMem_intercalate (h line List.mem_cons_self))
    have hspace : rejoin ['\n'] = [' '] := rfl
    rw [List.flatMap_cons, rejoin_append, rejoin_append, hmore, hline, hspace,
      intercalate_append_space (hne line List.mem_cons_self), List.flatten_cons, spaced_append]

/-! ## Filled lines -/

theorem ne_nil_of_mem_fillFrom (hline : line ≠ []) :
    ∀ filled ∈ fillFrom width line used words, filled ≠ [] := by
  induction words generalizing line used with
  | nil => simpa [fillFrom] using hline
  | cons word rest ih =>
    unfold fillFrom
    split
    · exact ih (List.cons_ne_nil word line)
    · intro filled hfilled
      obtain rfl | hfilled := List.mem_cons.mp hfilled
      · simpa using hline
      · exact ih (List.cons_ne_nil word []) filled hfilled

/-- Each line has a word at least. -/
theorem ne_nil_of_mem_fill : ∀ filled ∈ fill width words, filled ≠ [] := by
  cases words with
  | nil => simp [fill]
  | cons word rest => exact ne_nil_of_mem_fillFrom (List.cons_ne_nil word [])

theorem length_of_mem_fillFrom (hne : line ≠ [])
    (hused : (" ".intercalate line.reverse).length = used) (hle : used ≤ width)
    (hwords : ∀ word ∈ words, word.length ≤ width) :
    ∀ filled ∈ fillFrom width line used words, (" ".intercalate filled).length ≤ width := by
  -- The invariant is `hused`: the column that filling has come to is the length of the line so far.
  induction words generalizing line used with
  | nil =>
    simp only [fillFrom, List.mem_singleton, forall_eq]
    omega
  | cons word rest ih =>
    have hword : word.length ≤ width := hwords word List.mem_cons_self
    have hrest : ∀ word ∈ rest, word.length ≤ width :=
      fun word hmem => hwords word (List.mem_cons_of_mem _ hmem)
    unfold fillFrom
    split
    · next hfits =>
      refine ih (List.cons_ne_nil word line) ?_ hfits hrest
      have hreverse : line.reverse ≠ [] := by simpa using hne
      rw [List.reverse_cons, length_intercalate_append_singleton hreverse, hused]
    · intro filled hfilled
      obtain rfl | hfilled := List.mem_cons.mp hfilled
      · omega
      · exact ih (List.cons_ne_nil word []) (by simp) hword hrest filled hfilled

/-- No line is longer than the width, if no word is. -/
theorem length_of_mem_fill (h : ∀ word ∈ words, word.length ≤ width) :
    ∀ filled ∈ fill width words, (" ".intercalate filled).length ≤ width := by
  cases words with
  | nil => simp [fill]
  | cons word rest =>
    exact length_of_mem_fillFrom (List.cons_ne_nil word []) (by simp) (h word List.mem_cons_self)
      fun word hmem => h word (List.mem_cons_of_mem _ hmem)

/-- Words of a line are words that were filled. -/
theorem unbroken_of_mem_fill (h : Unbroken words) :
    ∀ filled ∈ fill width words, Unbroken filled := by
  intro filled hfilled word hword
  refine h word ?_
  rw [← flatten_fill width words]
  exact List.mem_flatten.mpr ⟨filled, hfilled, hword⟩

/-- Filling puts a line feed in the place of a space, here and there, and does nothing else. -/
theorem rejoin_fill (h : Unbroken words) :
    rejoin (unlines (fill width words)).toList = spaced words := by
  rw [rejoin_unlines ne_nil_of_mem_fill (unbroken_of_mem_fill h), flatten_fill]

end WordVM.Text
