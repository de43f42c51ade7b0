/-!
# Hexadecimal byte offsets

Byte offsets are shown as `0x` and at least four lowercase digits, padded with zeros on the left
and longer where the offset needs it.
-/

namespace WordVM.Text

/-- The lowercase hexadecimal digits of a number, at least four of them. -/
def hexDigits (n : Nat) : List Char := (Nat.toDigits 16 n).leftpad 4 '0'

/-- A byte offset as messages show it. -/
def hexOffset (offset : Nat) : String := "0x" ++ String.ofList (hexDigits offset)

end WordVM.Text
