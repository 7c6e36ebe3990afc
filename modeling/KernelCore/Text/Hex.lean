/-
# Hexadecimal text

Addresses, tags and sizes are shown in lower-case hexadecimal behind `0x`.  `hex` writes the
shortest form; `hexPadded w` fills up with zeros until the whole text, `0x` included, is at least
`w` characters wide.

* `length_hexPadded`: the padded form is never narrower than asked for.
-/

namespace KernelCore

/-- The digits of `n` in base sixteen, most significant first; zero is one digit. -/
def hexDigits (n : Nat) : List Char := Nat.toDigits 16 n

/-- `n` as `0x` and its digits. -/
def hex (n : Nat) : String := String.ofList ('0' :: 'x' :: hexDigits n)

/-- `n` as `0x` and its digits, with zeros after the `0x` up to `width` characters in all. -/
def hexPadded (width n : Nat) : String :=
  let digits := hexDigits n
  String.ofList ('0' :: 'x' :: (List.replicate (width - 2 - digits.length) '0' ++ digits))

/-- Padding widens, and never cuts. -/
theorem length_hexPadded (width n : Nat) :
    (hexPadded width n).length = max width (2 + (hexDigits n).length) := by
  simp only [hexPadded, String.length_ofList, List.length_cons, List.length_append,
    List.length_replicate]
  omega

example : hex 0 = "0x0" := by decide
example : hex 0xd6d0cac2e000 = "0xd6d0cac2e000" := by decide
example : hexPadded 16 0x202 = "0x00000000000202" := by decide

end KernelCore
