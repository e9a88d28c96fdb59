import Levos.Bitmap

namespace Levos

def kheapVirtualStart : Nat := 0xC0000000

/-- The pages `__kernel_heap_pt` maps. -/
def kheapPages : Nat := 1024

/-- `kheap_bitmap` as `paging_init` leaves it. -/
def kheapBitmap : Bitmap := List.replicate 128 0

/-- The request as `bitmap_find_zero` gets it: its parameter is unsigned. -/
def pageCount (pages : Int) : Nat := (pages % 2 ^ 32).toNat

/-- `mm_alloc_pages`; `none` is a search that leaves the bitmap. -/
def mmAllocPages (b : Bitmap) (pages : Int) : Option (Nat × Bitmap) :=
  (bitmapFindZero b (pageCount pages)).map
    (fun (start, b') => ((kheapVirtualStart + start * 0x1000) % 2 ^ 32, b'))

/-- The bitmap and, as history, what each call has returned for how many pages,
the last call first. `mm_free_pages` returns before it does anything. -/
structure Kheap where
  bitmap : Bitmap
  returned : List (Nat × Nat)
deriving DecidableEq

def Kheap.init : Kheap := ⟨kheapBitmap, []⟩

def Kheap.step (s : Kheap) (pages : Int) : Option Kheap :=
  (mmAllocPages s.bitmap pages).map (fun (p, b) => ⟨b, (p, pageCount pages) :: s.returned⟩)

end Levos
