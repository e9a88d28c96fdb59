import Mathlib

namespace Levos

def copyByte (mem : Nat → UInt8) (dst src : Nat) : Nat → UInt8 :=
  Function.update mem dst (mem src)

def copyPairs : Nat → (Nat → UInt8) → Nat → Nat → Nat → UInt8
  | 0, mem, _, _ => mem
  | count + 1, mem, dst, src =>
    copyPairs count (copyByte (copyByte mem dst src) (dst + 1) (src + 1)) (dst + 2) (src + 2)

def memcpy (mem : Nat → UInt8) (dest src count : Nat) : Nat → UInt8 :=
  if count % 2 = 1 then copyPairs (count / 2) (copyByte mem dest src) (dest + 1) (src + 1)
  else copyPairs (count / 2) mem dest src

def copyPairs32 : Nat → (UInt32 → UInt8) → UInt32 → UInt32 → UInt32 → UInt8
  | 0, mem, _, _ => mem
  | count + 1, mem, dst, src =>
    let mem := Function.update mem dst (mem src)
    copyPairs32 count (Function.update mem (dst + 1) (mem (src + 1))) (dst + 2) (src + 2)

/-- `memcpy` in the address space of the machine. `memcpy` above knows no end of it. -/
def memcpy32 (mem : UInt32 → UInt8) (dest src count : UInt32) : UInt32 → UInt8 :=
  if count &&& 1 ≠ 0 then
    copyPairs32 (count / 2).toNat (Function.update mem dest (mem src)) (dest + 1) (src + 1)
  else copyPairs32 (count / 2).toNat mem dest src

/-- What a block of `size` cells holds after `realloc`: its cells are carried over,
the others are those of the new place. -/
def realloc (cells : Nat → β) (size : Nat) (fresh : Nat → β) : Nat → β :=
  fun i => if i < size then cells i else fresh i

end Levos
