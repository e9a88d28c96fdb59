import Mathlib

namespace Levos

abbrev Bitmap := List UInt8

/-- Bit `i mod 8` of byte `i / 8`, the meaning the three accessors are written for. -/
def bit (b : Bitmap) (i : Nat) : Bool :=
  (b[i / 8]?.getD 0).toBitVec.getLsbD (i % 8)

def setBitmap (b : Bitmap) (i : Nat) : Option Bitmap :=
  match b[i / 8]? with
  | none => none
  | some x => some (b.set (i / 8) (x ||| 1 <<< UInt8.ofNat (i &&& 7)))

def unsetBitmap (b : Bitmap) (i : Nat) : Option Bitmap :=
  match b[i / 8]? with
  | none => none
  | some x => some (b.set (i / 8) (x &&& ~~~(1 <<< UInt8.ofNat (i &&& 7))))

/-- `get_bitmap`. The source masks the byte with the position `i & 7` itself,
not with `1 << (i & 7)`. -/
def getBitmap (b : Bitmap) (i : Nat) : Option Bool :=
  match b[i / 8]? with
  | none => none
  | some x => some (x &&& UInt8.ofNat (i &&& 7) != 0)

def findZeroLoop (b : Bitmap) (nr : Nat) : Nat → Nat → Nat → Option Nat
  | 0, _, _ => none
  | fuel + 1, start, streak =>
    if streak = nr then some start
    else match getBitmap b (start + streak) with
      | none => none
      | some false => findZeroLoop b nr fuel start (streak + 1)
      | some true => findZeroLoop b nr fuel (start + streak + 1) 0

def updateRange (f : Bitmap → Nat → Option Bitmap) (b : Bitmap) (start : Nat) : Nat → Option Bitmap
  | 0 => some b
  | n + 1 => match f b start with
    | none => none
    | some b' => updateRange f b' (start + 1) n

/-- `bitmap_find_zero`: the start of the run found and the bitmap with that run
set. It answers `none` when the search leaves the bytes of the bitmap, where
the source goes on reading whatever memory follows. -/
def bitmapFindZero (b : Bitmap) (nr : Nat) : Option (Nat × Bitmap) :=
  if nr = 0 then some (0, b)
  -- each round moves `start + streak` on by one, so this many are enough
  else match findZeroLoop b nr (8 * b.length + 1) 0 0 with
    | none => none
    | some start => (updateRange setBitmap b start nr).map (fun b' => (start, b'))

end Levos
