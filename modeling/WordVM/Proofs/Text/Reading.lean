import WordVM.Text.Hex
import WordVM.Word

/-!
# Reading text back

Text can be read back if it says by itself where each of its parts ends. A part is followed by a
character that cannot stand in it (`Text.append_cons_inj`): a number by anything but a digit, an
item of a list by a comma or the closing bracket. So two texts that begin with lists begin with the
same list, and go on alike (`Text.listed_append_inj`).

The numbers themselves are told by their digits (`Text.toString_inj`, `Text.hexOffset_inj`).
-/

namespace WordVM.Text

/-! ## Up to a stop -/

/-- Of two equal texts, the parts before the first stop are equal, and so are the stops and what
stands behind them. -/
theorem append_cons_inj (stop : Char → Prop) {a b s t : List Char} {x y : Char}
    (ha : ∀ c ∈ a, ¬ stop c) (hb : ∀ c ∈ b, ¬ stop c) (hx : stop x) (hy : stop y)
    (h : a ++ x :: s = b ++ y :: t) : a = b ∧ x = y ∧ s = t := by
  induction a generalizing b with
  | nil =>
    cases b with
    | nil => simpa using h
    | cons d more =>
      -- The stop behind the empty part would stand in the other part.
      obtain ⟨rfl, -⟩ := List.cons.inj h
      exact absurd hx (hb x List.mem_cons_self)
  | cons c rest ih =>
    cases b with
    | nil =>
      obtain ⟨rfl, -⟩ := List.cons.inj h
      exact absurd hy (ha c List.mem_cons_self)
    | cons d more =>
      obtain ⟨rfl, hrest⟩ := List.cons.inj h
      obtain ⟨rfl, hstop⟩ := ih (fun c hc => ha c (List.mem_cons_of_mem _ hc))
        (fun c hc => hb c (List.mem_cons_of_mem _ hc)) hrest
      exact ⟨rfl, hstop⟩

/-- The case of a single stop. -/
theorem append_stop_inj {a b s t : List Char} {x : Char} (ha : x ∉ a) (hb : x ∉ b)
    (h : a ++ x :: s = b ++ x :: t) : a = b ∧ s = t := by
  have hne (l : List Char) (hl : x ∉ l) : ∀ c ∈ l, ¬ c = x := fun _ hc => ne_of_mem_of_not_mem hc hl
  obtain ⟨hparts, -, hrest⟩ :=
    append_cons_inj (fun c => c = x) (hne a ha) (hne b hb) rfl rfl h
  exact ⟨hparts, hrest⟩

/-! ## Decimal numbers -/

theorem toList_toString (w : Word) : (toString w).toList = Nat.toDigits 10 w.toNat := by
  have hnat : toString w = toString w.toNat := rfl
  rw [hnat, Nat.toString_eq_ofList_toDigits, String.toList_ofList]

theorem isDigit_of_mem_toString {w : Word} {c : Char} (h : c ∈ (toString w).toList) :
    c.isDigit = true := by
  rw [toList_toString] at h
  exact Nat.isDigit_of_mem_toDigits (by omega) (by omega) h

theorem notMem_toString {c : Char} (h : c.isDigit = false) (w : Word) : c ∉ (toString w).toList :=
  fun hc => by simp [isDigit_of_mem_toString hc] at h

theorem toString_inj {w v : Word} (h : toString w = toString v) : w = v := by
  apply UInt16.toNat_inj.mp
  rw [← Nat.ofDigitChars_ten_toDigits (n := w.toNat), ← toList_toString, h, toList_toString,
    Nat.ofDigitChars_ten_toDigits]

theorem length_toString_le (w : Word) : (toString w).length ≤ 5 := by
  have hlt := w.toNat_lt
  rw [← String.length_toList, toList_toString, Nat.length_toDigits_le_iff (by omega) (by omega)]
  omega

/-! ## Hexadecimal numbers -/

/-- The number that a hexadecimal digit stands for. -/
def digitValue (c : Char) : Nat := if c.isDigit then c.toNat - 48 else c.toNat - 87

/-- The number that hexadecimal digits spell. -/
def readHex (digits : List Char) : Nat := digits.foldl (fun n c => 16 * n + digitValue c) 0

theorem digitValue_digitChar : ∀ d < 16, digitValue d.digitChar = d := by decide

theorem readHex_append_singleton (digits : List Char) (c : Char) :
    readHex (digits ++ [c]) = 16 * readHex digits + digitValue c := by
  rw [readHex, List.foldl_append]
  rfl

theorem readHex_toDigits (n : Nat) : readHex (Nat.toDigits 16 n) = n := by
  induction n using Nat.strongRecOn with
  | ind n ih =>
    rw [Nat.toDigits_eq_if (by omega)]
    split
    · next h => simp [readHex, digitValue_digitChar n h]
    · next h =>
      -- The last digit stands behind the digits of the quotient.
      rw [readHex_append_singleton, ih (n / 16) (by omega),
        digitValue_digitChar _ (Nat.mod_lt _ (by omega))]
      omega

/-- Zeros on the left do not count. -/
theorem readHex_replicate_append (k : Nat) (digits : List Char) :
    readHex (List.replicate k '0' ++ digits) = readHex digits := by
  induction k with
  | zero => rfl
  | succ k ih => exact ih

theorem readHex_hexDigits (n : Nat) : readHex (hexDigits n) = n :=
  (readHex_replicate_append _ _).trans (readHex_toDigits n)

theorem exists_digitChar_of_mem_toDigits {n : Nat} {c : Char} (h : c ∈ Nat.toDigits 16 n) :
    ∃ d < 16, c = d.digitChar := by
  induction n using Nat.strongRecOn with
  | ind n ih =>
    rw [Nat.toDigits_eq_if (by omega)] at h
    split at h
    · next hn => exact ⟨n, hn, List.mem_singleton.mp h⟩
    · next hn =>
      obtain h | h := List.mem_append.mp h
      · exact ih (n / 16) (by omega) h
      · exact ⟨n % 16, Nat.mod_lt _ (by omega), List.mem_singleton.mp h⟩

theorem toList_hexOffset (n : Nat) : (hexOffset n).toList = '0' :: 'x' :: hexDigits n := by
  simp [hexOffset]

theorem hexOffset_inj {m n : Nat} (h : hexOffset m = hexOffset n) : m = n := by
  have hdigits := congrArg String.toList h
  rw [toList_hexOffset, toList_hexOffset, List.cons.injEq, List.cons.injEq] at hdigits
  rw [← readHex_hexDigits m, hdigits.2.2, readHex_hexDigits]

/-- White space does not stand in an offset. -/
theorem isWhitespace_of_mem_hexOffset {n : Nat} {c : Char} (h : c ∈ (hexOffset n).toList) :
    c.isWhitespace = false := by
  have hdigit : ∀ d < 16, (Nat.digitChar d).isWhitespace = false := by decide
  rw [toList_hexOffset, hexDigits, List.leftpad, List.mem_cons, List.mem_cons, List.mem_append,
    List.mem_replicate] at h
  obtain rfl | rfl | ⟨-, rfl⟩ | h := h
  · rfl
  · rfl
  · rfl
  · obtain ⟨d, hd, rfl⟩ := exists_digitChar_of_mem_toDigits h
    exact hdigit d hd

theorem notMem_hexOffset {c : Char} (h : c.isWhitespace = true) (n : Nat) :
    c ∉ (hexOffset n).toList :=
  fun hc => by simp [isWhitespace_of_mem_hexOffset hc] at h

/-- An offset with a space behind it is told by its text, whatever follows. -/
theorem hexOffset_append_inj {m n : Nat} {s t : List Char}
    (h : (hexOffset m).toList ++ ' ' :: s = (hexOffset n).toList ++ ' ' :: t) : m = n ∧ s = t := by
  obtain ⟨hoffset, hrest⟩ := append_stop_inj (notMem_hexOffset rfl m) (notMem_hexOffset rfl n) h
  exact ⟨hexOffset_inj (String.toList_inj.mp hoffset), hrest⟩

/-! ## Lists -/

/-- Items in brackets, with a comma and a space between each two of them. -/
def listed (items : List String) : List Char := ("[" ++ ", ".intercalate items ++ "]").toList

/-- What stands behind an item of a list: the items after it, and the closing bracket. -/
def closing : List String → List Char
  | [] => [']']
  | item :: rest => ',' :: ' ' :: (item.toList ++ closing rest)

/-- A text that can be an item: it is not empty, and has no comma and no closing bracket. -/
def IsItem (item : String) : Prop := item ≠ "" ∧ ∀ c ∈ item.toList, ¬ (c = ',' ∨ c = ']')

variable {items items' : List String} {s t : List Char}

theorem intercalate_append_bracket (item : String) (rest : List String) :
    (", ".intercalate (item :: rest)).toList ++ [']'] = item.toList ++ closing rest := by
  induction rest generalizing item with
  | nil => rw [String.intercalate_singleton, closing]
  | cons next more ih =>
    have hcomma : ", ".toList = [',', ' '] := rfl
    rw [String.intercalate_cons_cons, String.toList_append, String.toList_append, List.append_assoc,
      ih next, hcomma, closing, List.append_assoc, List.cons_append, List.singleton_append]

theorem isItem_toString (w : Word) : IsItem (toString w) := by
  constructor
  · rw [ne_eq, ← String.toList_eq_nil_iff, toList_toString]
    exact Nat.toDigits_ne_nil
  · rintro c hc (rfl | rfl)
    · exact notMem_toString rfl w hc
    · exact notMem_toString rfl w hc

theorem listed_nil : listed [] = ['[', ']'] := rfl

theorem listed_cons (item : String) (rest : List String) :
    listed (item :: rest) = '[' :: (item.toList ++ closing rest) := by
  have hopen : "[".toList = ['['] := rfl
  have hclose : "]".toList = [']'] := rfl
  rw [listed, String.toList_append, String.toList_append, List.append_assoc, hclose,
    intercalate_append_bracket, hopen, List.singleton_append]

theorem notMem_closing {c : Char} (hc : c ∉ [',', ' ', ']'])
    (h : ∀ item ∈ items, c ∉ item.toList) : c ∉ closing items := by
  simp only [List.mem_cons, List.not_mem_nil, or_false, not_or] at hc
  induction items with
  | nil => simpa [closing] using hc.2.2
  | cons item rest ih =>
    rw [List.forall_mem_cons] at h
    simp only [closing, List.mem_cons, List.mem_append, not_or]
    exact ⟨hc.1, hc.2.1, h.1, ih h.2⟩

/-- A list is made of its items, brackets, commas and spaces. -/
theorem notMem_listed {c : Char} (hopen : c ≠ '[') (hc : c ∉ [',', ' ', ']'])
    (h : ∀ item ∈ items, c ∉ item.toList) : c ∉ listed items := by
  cases items with
  | nil =>
    simp only [List.mem_cons, List.not_mem_nil, or_false, not_or] at hc
    simpa [listed_nil] using ⟨hopen, hc.2.2⟩
  | cons item rest =>
    rw [List.forall_mem_cons] at h
    rw [listed_cons, List.mem_cons, List.mem_append, not_or, not_or]
    exact ⟨hopen, h.1, notMem_closing hc h.2⟩

/-- An item ends where a comma or the closing bracket stands. -/
theorem closing_eq_cons (items : List String) :
    ∃ x rest, closing items = x :: rest ∧ (x = ',' ∨ x = ']') := by
  cases items with
  | nil => exact ⟨_, _, rfl, .inr rfl⟩
  | cons item rest => exact ⟨_, _, rfl, .inl rfl⟩

theorem item_append_closing_inj {item item' : String} (h : IsItem item) (h' : IsItem item')
    (heq : item.toList ++ (closing items ++ s) = item'.toList ++ (closing items' ++ t)) :
    item = item' ∧ closing items ++ s = closing items' ++ t := by
  obtain ⟨x, rest, hclosing, hx⟩ := closing_eq_cons items
  obtain ⟨y, rest', hclosing', hy⟩ := closing_eq_cons items'
  rw [hclosing, hclosing', List.cons_append, List.cons_append] at heq ⊢
  obtain ⟨hitem, rfl, hrest⟩ := append_cons_inj _ h.2 h'.2 hx hy heq
  exact ⟨String.toList_inj.mp hitem, by rw [hrest]⟩

theorem closing_append_inj (h : ∀ item ∈ items, IsItem item) (h' : ∀ item ∈ items', IsItem item)
    (heq : closing items ++ s = closing items' ++ t) : items = items' ∧ s = t := by
  induction items generalizing items' with
  | nil =>
    cases items' with
    | nil => exact ⟨rfl, (List.cons.inj heq).2⟩
    | cons item' rest' => simp [closing] at heq
  | cons item rest ih =>
    cases items' with
    | nil => simp [closing] at heq
    | cons item' rest' =>
      rw [List.forall_mem_cons] at h h'
      simp only [closing, List.cons_append, List.cons.injEq, true_and, List.append_assoc] at heq
      obtain ⟨rfl, hclosing⟩ := item_append_closing_inj h.1 h'.1 heq
      obtain ⟨rfl, hrest⟩ := ih h.2 h'.2 hclosing
      exact ⟨rfl, hrest⟩

/-- The first item does not begin with the bracket that stands at the end. -/
theorem item_append_ne {item : String} (h : IsItem item) (rest : List Char) :
    item.toList ++ rest ≠ ']' :: s := by
  obtain ⟨hne, hchars⟩ := h
  obtain ⟨c, cs, hitem⟩ := List.exists_cons_of_ne_nil (mt String.toList_eq_nil_iff.mp hne)
  rw [hitem, List.cons_append]
  intro heq
  obtain ⟨rfl, -⟩ := List.cons.inj heq
  exact hchars ']' (hitem ▸ List.mem_cons_self) (.inr rfl)

/-- A list is told by its text, whatever follows. -/
theorem listed_append_inj (h : ∀ item ∈ items, IsItem item) (h' : ∀ item ∈ items', IsItem item)
    (heq : listed items ++ s = listed items' ++ t) : items = items' ∧ s = t := by
  cases items with
  | nil =>
    cases items' with
    | nil => exact ⟨rfl, List.append_cancel_left heq⟩
    | cons item' rest' =>
      simp only [listed_nil, listed_cons, List.cons_append, List.nil_append, List.append_assoc,
        List.cons.injEq, true_and] at heq
      exact absurd heq.symm (item_append_ne (h' item' List.mem_cons_self) _)
  | cons item rest =>
    cases items' with
    | nil =>
      simp only [listed_nil, listed_cons, List.cons_append, List.nil_append, List.append_assoc,
        List.cons.injEq, true_and] at heq
      exact absurd heq (item_append_ne (h item List.mem_cons_self) _)
    | cons item' rest' =>
      rw [List.forall_mem_cons] at h h'
      simp only [listed_cons, List.cons_append, List.append_assoc, List.cons.injEq, true_and] at heq
      obtain ⟨rfl, hclosing⟩ := item_append_closing_inj h.1 h'.1 heq
      obtain ⟨rfl, hrest⟩ := closing_append_inj h.2 h'.2 hclosing
      exact ⟨rfl, hrest⟩

/-- The case of things that are told by their items. -/
theorem listed_map_append_inj {α : Type} {text : α → String} (hitem : ∀ a, IsItem (text a))
    (hinj : ∀ a b, text a = text b → a = b) {l l' : List α}
    (heq : listed (l.map text) ++ s = listed (l'.map text) ++ t) : l = l' ∧ s = t := by
  have hitems (l : List α) : ∀ item ∈ l.map text, IsItem item :=
    List.forall_mem_map.mpr fun a _ => hitem a
  obtain ⟨hmap, hrest⟩ := listed_append_inj (hitems l) (hitems l') heq
  exact ⟨(List.map_inj_right hinj).mp hmap, hrest⟩

end WordVM.Text
