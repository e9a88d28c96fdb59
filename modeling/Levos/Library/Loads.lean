import Levos.Library.Words
import Levos.Library.Writes

namespace Levos.Library

/-- The number in `width` cells of a memory. -/
def loadAt (mem : Nat → UInt8) (a width : Nat) : Nat := ofBytes (slice mem a width)

/-- A memory with a number in `width` of its cells. -/
def storeAt (mem : Nat → UInt8) (a width n : Nat) : Nat → UInt8 := blit mem a (toBytes width n)

variable {mem : Nat → UInt8} {a b i n width : Nat}

theorem load_lt (mem : Nat → UInt8) (a width : Nat) : loadAt mem a width < 256 ^ width := by
  have h := ofBytes_lt (slice mem a width)
  rwa [slice_length] at h

/-- Memories that agree on the cells hold the same number there. -/
theorem load_congr {mem' : Nat → UInt8} (h : ∀ i < width, mem (a + i) = mem' (a + i)) :
    loadAt mem a width = loadAt mem' a width := by
  rw [loadAt, slice_congr h, loadAt]

theorem load_blit_apart (mem : Nat → UInt8) {bs : List UInt8}
    (h : a + width ≤ b ∨ b + bs.length ≤ a) :
    loadAt (blit mem b bs) a width = loadAt mem a width := by
  rw [loadAt, slice_blit_apart mem h, loadAt]

theorem load_store (mem : Nat → UInt8) (a width n : Nat) :
    loadAt (storeAt mem a width n) a width = n % 256 ^ width := by
  have h := slice_blit mem a (toBytes width n)
  rw [toBytes_length] at h
  rw [loadAt, storeAt, h, ofBytes_toBytes]

theorem load_store_apart (mem : Nat → UInt8) (n : Nat) (h : a + width ≤ b ∨ b + width ≤ a) :
    loadAt (storeAt mem b width n) a width = loadAt mem a width :=
  load_blit_apart mem (by rwa [toBytes_length])

/-- A number that is loaded and stored is a copy of its cells. -/
theorem store_load_eq_blit (mem : Nat → UInt8) (a b width : Nat) :
    storeAt mem a width (loadAt mem b width) = blit mem a (slice mem b width) := by
  have hbytes := toBytes_ofBytes (slice mem b width)
  rw [slice_length] at hbytes
  rw [storeAt, loadAt, hbytes]

/-- A table whose entries are stored one after the other. -/
def storeTable (mem : Nat → UInt8) (a width : Nat) (entry : Nat → Nat) (n : Nat) : Nat → UInt8 :=
  (List.range n).foldl (fun m k => storeAt m (a + k * width) width (entry k)) mem

theorem load_table (mem : Nat → UInt8) (a width : Nat) (entry : Nat → Nat) (hk : k < n) :
    loadAt (storeTable mem a width entry n) (a + k * width) width = entry k % 256 ^ width := by
  have h := slice_tiled mem a (fun k => toBytes width (entry k))
    (fun k => toBytes_length width (entry k)) hk
  change ofBytes (slice _ _ _) = _
  rw [storeTable]
  simp only [storeAt]
  rw [h, ofBytes_toBytes]

theorem table_outside (mem : Nat → UInt8) (entry : Nat → Nat)
    (hi : i < a ∨ a + n * width ≤ i) : storeTable mem a width entry n i = mem i :=
  tiled_outside mem (fun k => toBytes width (entry k))
    (fun k => toBytes_length width (entry k)) hi

end Levos.Library
