import Levos.Library.Writes

namespace Levos
open Library

def bchars : List UInt8 := [48, 49, 50, 51, 52, 53, 54, 55, 56, 57, 65, 66, 67, 68, 69, 70]

/-- The digit loop of `itoa`: the position behind the last digit and `tbuf`. `none` is a
division by zero, or a loop that the fuel does not suffice for. -/
def digitLoop (base : UInt32) : Nat → UInt32 → Nat → (Nat → UInt8) → Option (Nat × (Nat → UInt8))
  | 0, _, _, _ => none
  | fuel + 1, i, pos, tbuf =>
    if i = 0 then some (pos, tbuf)
    else if base = 0 then none
    else digitLoop base fuel (i / base) (pos + 1)
      (Function.update tbuf pos (bchars.getD (i % base).toNat 0))

def reverseLoop (tbuf : Nat → UInt8) : Nat → Nat → (Nat → UInt8) → (Nat → UInt8)
  | 0, _, buf => buf
  | n + 1, opos, buf => reverseLoop tbuf n (opos + 1) (Function.update buf opos (tbuf n))

structure ItoaResult where
  tbuf : Nat → UInt8
  stored : Nat
  buf : Nat → UInt8

/-- `itoa`. No numeral of a 32-bit value has more than 32 digits, unless the base is 0 or 1. -/
def itoa (tbuf : Nat → UInt8) (i base : UInt32) (buf : Nat → UInt8) : Option ItoaResult :=
  if i = 0 ∨ base > 16 then
    some ⟨tbuf, 0, Function.update (Function.update buf 0 48) 1 0⟩
  else match digitLoop base 33 i 0 tbuf with
    | none => none
    | some (top, tbuf') =>
      some ⟨tbuf', top, Function.update (reverseLoop tbuf' top 0 buf) top 0⟩

end Levos
