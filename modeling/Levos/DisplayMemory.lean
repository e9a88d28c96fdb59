import Levos.Memcpy
import Levos.Textmode

namespace Levos

def displayBase : Nat := 0xb8000

/-- The word a pointer to `uint16_t` reads, its low byte first. -/
def loadWord (mem : Nat → UInt8) (p : Nat) : UInt16 :=
  (mem p).toUInt16 ||| (mem (p + 1)).toUInt16 <<< 8

def storeWord (mem : Nat → UInt8) (p : Nat) (value : UInt16) : Nat → UInt8 :=
  Function.update (Function.update mem p value.toUInt8) (p + 1) (value >>> 8).toUInt8

def displayWords (mem : Nat → UInt8) : Nat → UInt16 := fun i => loadWord mem (displayBase + 2 * i)

def memset16Loop : Nat → (Nat → UInt8) → Nat → UInt16 → Nat → UInt8
  | 0, mem, _, _ => mem
  | num + 1, mem, p, value => memset16Loop num (storeWord mem p value) (p + 2) value

/-- The loop of `textmode_scrollup`: row `y + 1` is copied to row `y`. -/
def scrollupRows (mem : Nat → UInt8) (rows : Nat) : Nat → UInt8 :=
  (List.range rows).foldl (fun m y =>
    memcpy m (displayBase + y * 80 * 2) (displayBase + (y + 1) * 80 * 2) (80 * 2)) mem

/-- `textmode_scrollup` on the bytes of the display. -/
def scrollupBytes (mem : Nat → UInt8) (blank : UInt16) : Nat → UInt8 :=
  memset16Loop (80 * 2) (scrollupRows mem 25) (displayBase + 25 * 80 * 2) blank

end Levos
