import Levos.Ext2
import Levos.Library.Writes
import Levos.Paging
import Levos.Phymem

namespace Levos
open Library

abbrev Memory := Nat → UInt8

def addresses (pd : PageDirectory) (v : Nat) : Nat → Option (List Nat)
  | 0 => some []
  | n + 1 => match translate pd (v % 2 ^ 32), addresses pd (v + 1) n with
    | some a, some as => some (a :: as)
    -- a page fault
    | _, _ => none

/-- The fields of the running process that an image changes. `paged` is the
address of its directory. -/
structure Caller where
  paged : Nat
  palloc : Nat
  pallocLen : Nat
  execLen : Nat
deriving DecidableEq

/-- The frame allocator, physical memory, the running process and the directory
in cr3. The last field is history: the physical addresses stored to. -/
structure World where
  phymem : Phymem
  mem : Memory
  caller : Caller
  directory : PageDirectory
  written : List Nat

namespace World

/-- Stores of bytes at ascending addresses, as `memcpy` and `memset` make them.
What the kernel does after its own memory has been stored to is not followed. -/
def store (w : World) (v : Nat) (bytes : Bytes) : Option World :=
  match addresses w.directory v bytes.length with
  | none => none
  | some as =>
    if as.any kernelOwned then none
    else some { w with mem := writes w.mem (as.zip bytes), written := as ++ w.written }

def fetch (w : World) (v n : Nat) : Option Bytes :=
  match addresses w.directory v n with
  | none => none
  -- what the kernel's own memory holds is not followed
  | some as => if as.any kernelOwned then none else some (as.map w.mem)

/-- `phymem_alloc`. Its `memset` takes the physical address of the frames for a
virtual one. -/
def phymemAlloc (w : World) (size : Nat) : Option (Nat × World) :=
  match Levos.phymemAlloc w.phymem size with
  | none => none
  | some (p, m) =>
    ({ w with phymem := m }.store p (List.replicate size 0)).map (fun w' => (p, w'))

def byteAt (w : World) (v : Nat) : Option UInt8 := (translate w.directory v).map w.mem

end World

end Levos
