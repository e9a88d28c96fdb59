import Levos.Library.Loads
import Levos.Paging

namespace Levos.PageMemory
open Library

/-- The word at an address of the physical memory. -/
def word (mem : Nat → UInt8) (a : Nat) : Nat := loadAt mem a 4

/-- A word stored at any address; addresses have 32 bits. -/
def storeWord (mem : Nat → UInt8) (a x : Nat) : Nat → UInt8 :=
  writes mem (((List.range 4).map (fun k => (a + k) % 2 ^ 32)).zip (toBytes 4 x))

/-- The tables the processor finds from a directory in memory. -/
def directory (mem : Nat → UInt8) (pd : Nat) : PageDirectory := fun i =>
  if word mem (pd + 4 * i) % 2 = 1 then
    some (fun j => word mem (word mem (pd + 4 * i) / 0x1000 * 0x1000 + 4 * j))
  else none

/-- The two-level walk of the processor through the tables in memory. -/
def walk (mem : Nat → UInt8) (pd vaddr : Nat) : Option Nat := translate (directory mem pd) vaddr

def initializePt (mem : Nat → UInt8) (pt startaddr : Nat) : Nat → UInt8 :=
  (List.range 1024).foldl (fun m i =>
    storeWord m (pt + 4 * i) (makePagePte ((startaddr + i * 0x1000) % 2 ^ 32) kernelPage)) mem

/-- Where `paging_init` puts its directory and the two tables behind it. -/
def pageDirectory : Nat := 0x301000

def kernelHeapPt : Nat := 0x302000

def firstPt : Nat := 0x303000

def pagingInit (mem : Nat → UInt8) : Nat → UInt8 :=
  let mem := (List.range 1024).foldl (fun m i => storeWord m (pageDirectory + 4 * i) (0 ||| 2)) mem
  let mem := initializePt mem firstPt 0
  let mem := initializePt mem kernelHeapPt 0x400000
  let mem := storeWord mem (pageDirectory + 4 * 768) (kernelHeapPt ||| 3)
  storeWord mem (pageDirectory + 4 * 0) (firstPt ||| 3)

/-- The loop that moves a pointer to the next page. -/
def pageAlignLoop : Nat → Nat → Nat
  | 0, p => p
  | fuel + 1, p => if p % 0x1000 ≠ 0 then pageAlignLoop fuel ((p + 1) % 2 ^ 32) else p

def pageAlign (p : Nat) : Nat := pageAlignLoop 0x1000 p

/-- Where an address of the heap is in the physical memory. -/
def heapPaddr (v : Nat) : Nat := (v + (2 ^ 32 - 0xC0000000) + 0x400000) % 2 ^ 32

/-- `create_new_page_directory`, with the two blocks `malloc` returns: the memory, and
the address it returns. Its stores go through the heap window. -/
def createNewPageDirectory (mem : Nat → UInt8) (pdBlock ptBlock vaddr paddr : Nat) :
    (Nat → UInt8) × Nat :=
  let pd := heapPaddr (pageAlign pdBlock)
  let mem := storeWord mem (pd + 4 * 768) (kernelHeapPt ||| 3)
  let mem := storeWord mem (pd + 4 * 0) (firstPt ||| 3)
  let pt := pageAlign ptBlock
  let mem := initializePt mem (heapPaddr pt) paddr
  let slot := pd + 4 * (vaddr >>> 22)
  let mem := storeWord mem slot (pt ||| 3)
  let mem := storeWord mem slot ((word mem slot + (2 ^ 32 - 0xC0000000)) % 2 ^ 32)
  let mem := storeWord mem slot ((word mem slot + 0x400000) % 2 ^ 32)
  (mem, pd)

/-- The one store of `replace_page`: its address and the word. The directory entry is
used as a pointer as it is. -/
def replacePage (mem : Nat → UInt8) (pd vaddr page : Nat) : Nat × Nat :=
  let vid := vaddr >>> 22
  let pageid := vaddr % 4194304
  ((word mem (pd + 4 * vid) + 4 * pageid) % 2 ^ 32, page)

end Levos.PageMemory
