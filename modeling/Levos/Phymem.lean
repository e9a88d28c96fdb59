import Levos.Bitmap

namespace Levos

inductive PhyState
  | initZer
  | initOne
  | initTwo
deriving DecidableEq, Repr

/-- The statics of `phymem.c`. Addresses are 32-bit words. -/
structure Phymem where
  phyStart : Nat
  phySize : Nat
  phyEnd : Nat
  phyState : PhyState
  phyBitmap : Bitmap
deriving DecidableEq, Repr

/-- The statics before either level of initialization has run. -/
def Phymem.boot : Phymem := ⟨0, 0, 0, .initZer, []⟩

def phymemInitLevelOne (m : Phymem) (start : Nat) : Phymem :=
  { m with phyStart := start, phyState := .initOne }

/-- The pages and the bitmap bytes `phymem_init_level_two` counts for a size. -/
def layoutPages (size : Nat) : Nat := size / 4096 + 1

def layoutBytes (size : Nat) : Nat := layoutPages size / 8 + 1

/-- `phymem_init_level_two`; `none` is a panic. -/
def phymemInitLevelTwo (m : Phymem) (stop : Nat) : Option Phymem :=
  if m.phyState ≠ .initOne then none
  else if stop < m.phyStart then none
  else some
    { m with
      phyEnd := stop
      phySize := stop - m.phyStart
      phyBitmap := List.replicate (layoutBytes (stop - m.phyStart)) 0
      phyState := .initTwo }

/-- The address of page `i`, as `phymem_alloc_pages` computes it. -/
def pagePointer (m : Phymem) (i : Nat) : Nat := (m.phyStart + i * 0x1000) % 2 ^ 32

/-- The page of an address, as `phymem_free_pages` computes it. -/
def pageIndex (m : Phymem) (p : Nat) : Nat := (p + 2 ^ 32 - m.phyStart) % 2 ^ 32 / 0x1000

/-- `phymem_alloc_pages`; `none` is a panic or a search that leaves the bitmap. -/
def phymemAllocPages (m : Phymem) (pages : Nat) : Option (Nat × Phymem) :=
  if m.phyState ≠ .initTwo then none
  else (bitmapFindZero m.phyBitmap pages).map
    (fun (start, b) => (pagePointer m start, { m with phyBitmap := b }))

/-- `phymem_free_pages`; `none` is a panic or a store outside the bitmap. -/
def phymemFreePages (m : Phymem) (start pages : Nat) : Option Phymem :=
  if m.phyState ≠ .initTwo then none
  else (updateRange unsetBitmap m.phyBitmap (pageIndex m start) pages).map
    (fun b => { m with phyBitmap := b })

/-- The number of pages `phymem_alloc` and `phymem_free` compute for a size. -/
def pagesFor (size : Nat) : Nat := size / 0x1000 + 1

/-- `phymem_alloc`, as far as the page frames are concerned. -/
def phymemAlloc (m : Phymem) (size : Nat) : Option (Nat × Phymem) :=
  phymemAllocPages m (pagesFor size)

def phymemFree (m : Phymem) (ptr size : Nat) : Option Phymem :=
  phymemFreePages m ptr (pagesFor size)

end Levos
