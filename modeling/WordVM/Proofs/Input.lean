import Mathlib.Data.List.Chain
import WordVM.Input

/-!
# Input in pieces

Text that arrives in pieces leaves the same characters behind as the whole text does, provided no
cut goes between a carriage return and its line feed (`Input.normalize_flatten`).

Standard input comes in lines. They are cut from bytes, but `Input.lines_encode` says that the
bytes of a text give the lines of the text: no byte of another character is a line feed. The cuts
between lines are harmless (`Input.textLines_uncut`).
-/

namespace WordVM.Input

/-! ## Normalizing pieces -/

/-- The cut between two texts does not separate a carriage return from its line feed. -/
def Uncut (a b : List Char) : Prop := ¬ (a.getLast? = some '\r' ∧ b.head? = some '\n')

theorem normalize_ne_nil {text : List Char} (h : text ≠ []) : normalize text ≠ [] := by
  unfold normalize
  split <;> simp_all

/-- A carriage return that no line feed follows stays, as does every other character. -/
theorem normalize_cons {c : Char} {rest : List Char} (h : ¬ (c = '\r' ∧ rest.head? = some '\n')) :
    normalize (c :: rest) = c :: normalize rest := by
  rw [normalize]
  intro rest' hc hrest
  subst hc hrest
  exact h ⟨rfl, rfl⟩

theorem normalize_append {a b : List Char} (h : Uncut a b) :
    normalize (a ++ b) = normalize a ++ normalize b := by
  induction a using normalize.induct with
  | case1 => rfl
  | case2 rest ih =>
    -- The pair is dropped whole, so only what follows it is cut off from `b`.
    have hrest : Uncut rest b := by
      intro hsplit
      exact h ⟨by simp [List.getLast?_cons, hsplit.1], hsplit.2⟩
    simp only [List.cons_append, normalize, ih hrest]
  | case3 c rest hpair ih =>
    have hrest : Uncut rest b := by
      intro hsplit
      exact h ⟨by simp [List.getLast?_cons, hsplit.1], hsplit.2⟩
    -- Neither alone nor with `b` behind it does `c` begin a pair.
    have hc : ¬ (c = '\r' ∧ rest.head? = some '\n') := by
      rintro ⟨rfl, hhead⟩
      obtain ⟨rest', rfl⟩ := List.head?_eq_some_iff.mp hhead
      exact hpair rest' rfl rfl
    have hc' : ¬ (c = '\r' ∧ (rest ++ b).head? = some '\n') := by
      rintro ⟨rfl, hhead⟩
      cases rest with
      | nil => exact h ⟨rfl, hhead⟩
      | cons d more => exact hc ⟨rfl, hhead⟩
    rw [List.cons_append, normalize_cons hc', normalize_cons hc, ih hrest, List.cons_append]

/-- The pieces of a text, normalized one by one, make up the normalized text. -/
theorem normalize_flatten {pieces : List (List Char)} (hne : ∀ piece ∈ pieces, piece ≠ [])
    (hcut : pieces.IsChain Uncut) :
    normalize pieces.flatten = (pieces.map normalize).flatten := by
  induction pieces with
  | nil => rfl
  | cons piece rest ih =>
    have hrest := ih (fun p hp => hne p (List.mem_cons_of_mem _ hp)) hcut.tail
    have hnext : Uncut piece rest.flatten := by
      cases rest with
      | nil => simp [Uncut]
      | cons next more =>
        -- The text after the cut begins with the next piece, which is not empty.
        have hnext : next ≠ [] := hne next (by simp)
        have hhead : (next :: more).flatten.head? = next.head? := by
          obtain ⟨c, cs, rfl⟩ := List.exists_cons_of_ne_nil hnext
          rfl
        rw [Uncut, hhead]
        exact (List.isChain_cons_cons.mp hcut).1
    rw [List.flatten_cons, normalize_append hnext, hrest, List.map_cons, List.flatten_cons]

/-! ## Lines of text -/

/-- Cuts text into lines. Each line ends with its line feed, except possibly the last. -/
def textLines : List Char → List (List Char)
  | [] => []
  | c :: rest =>
    if c = '\n' then
      [c] :: textLines rest
    else
      match textLines rest with
      | [] => [[c]]
      | line :: more => (c :: line) :: more

theorem flatten_textLines (text : List Char) : (textLines text).flatten = text := by
  induction text with
  | nil => rfl
  | cons c rest ih =>
    unfold textLines
    split
    · rw [List.flatten_cons, ih, List.singleton_append]
    · split <;> simp_all

theorem textLines_ne_nil (text : List Char) : ∀ line ∈ textLines text, line ≠ [] := by
  induction text with
  | nil => simp [textLines]
  | cons c rest ih =>
    unfold textLines
    split
    · simpa using ih
    · split <;> simp_all

/-- Only the last line can end in a carriage return. -/
theorem textLines_uncut (text : List Char) : (textLines text).IsChain Uncut := by
  induction text with
  | nil => exact .nil
  | cons c rest ih =>
    have hne := textLines_ne_nil rest
    unfold textLines
    split
    · next hc =>
      subst hc
      cases hlines : textLines rest with
      | nil => exact .singleton _
      | cons line more => exact .cons_cons (by simp [Uncut]) (hlines ▸ ih)
    · cases hlines : textLines rest with
      | nil => exact .singleton _
      | cons line more =>
        rw [hlines] at ih hne
        cases more with
        | nil => exact .singleton _
        | cons next more =>
          obtain ⟨hcut, hrest⟩ := List.isChain_cons_cons.mp ih
          obtain ⟨d, ds, rfl⟩ := List.exists_cons_of_ne_nil (hne line (by simp))
          exact .cons_cons (by simpa [Uncut] using hcut) hrest

/-! ## Bytes of text -/

/-- The UTF-8 bytes of a text. -/
def encode (text : List Char) : List UInt8 := text.flatMap String.utf8EncodeChar

theorem encode_cons (c : Char) (rest : List Char) :
    encode (c :: rest) = String.utf8EncodeChar c ++ encode rest := rfl

theorem toUTF8_toList (text : String) : text.toUTF8.data.toList = encode text.toList := by
  rw [String.toUTF8_eq_toByteArray, ← String.utf8Encode_toList, List.utf8Encode]
  exact List.toList_data_toByteArray

/-- The bytes of a text are understood as this text. -/
theorem fromUTF8?_encode (text : List Char) :
    String.fromUTF8? ⟨(encode text).toArray⟩ = some (.ofList text) := by
  have hbytes : (⟨(encode text).toArray⟩ : ByteArray) = (String.ofList text).toByteArray := by
    rw [String.toByteArray_ofList, List.utf8Encode]
    ext1
    rw [List.data_toByteArray, encode]
  rw [hbytes, String.fromUTF8?, dif_pos (String.ofList text).isValidUTF8]
  rfl

/-- Bytes of a character other than a line feed are not those of a line feed. -/
theorem utf8EncodeChar_ne_lineFeed {c : Char} (h : c ≠ '\n') :
    ∀ b ∈ String.utf8EncodeChar c, b ≠ 10 := by
  have hval : c.val.toNat ≠ 10 := fun hval => h (Char.ext (UInt32.toNat_inj.mp hval))
  intro b hb hten
  subst hten
  revert hb
  -- The one byte of a short form is the code itself, and all bytes of a long form are above 127.
  fun_cases String.utf8EncodeChar c <;> simp [← UInt8.toNat_inj] <;> omega

/-- Bytes without a line feed go to the first line of what follows. -/
theorem lines_append {bytes rest : List UInt8} (h : ∀ b ∈ bytes, b ≠ 10) (hne : bytes ≠ []) :
    lines (bytes ++ rest) =
      match lines rest with
      | [] => [bytes]
      | line :: more => (bytes ++ line) :: more := by
  induction bytes with
  | nil => exact absurd rfl hne
  | cons b bytes ih =>
    rw [List.cons_append, lines, if_neg (h b List.mem_cons_self)]
    by_cases hbytes : bytes = []
    · subst hbytes
      rfl
    · rw [ih (fun b' hb' => h b' (List.mem_cons_of_mem _ hb')) hbytes]
      cases lines rest <;> rfl

/-- The lines of the bytes of a text are the bytes of its lines. -/
theorem lines_encode (text : List Char) :
    lines (encode text) = (textLines text).map encode := by
  induction text with
  | nil => rfl
  | cons c rest ih =>
    rw [encode_cons, textLines]
    split
    · next hc =>
      subst hc
      show lines (10 :: encode rest) = _
      rw [lines, if_pos rfl, ih]
      rfl
    · next hc =>
      rw [lines_append (utf8EncodeChar_ne_lineFeed hc) String.utf8EncodeChar_ne_nil, ih]
      cases textLines rest with
      | nil => simp [encode]
      | cons line more => rfl

end WordVM.Input
