import Mathlib

namespace Levos

abbrev PageTable := Nat → Nat

/-- The tables a page directory points to; a directory entry without the
present bit points to none. -/
abbrev PageDirectory := Nat → Option PageTable

def kernelPage : Nat := 3

def makePagePte (addrAligned flags : Nat) : Nat := addrAligned ||| flags

/-- `initialize_pt`: every one of the 1024 entries is filled in. -/
def initializePt (startaddr : Nat) : PageTable :=
  fun i => makePagePte ((startaddr + i * 0x1000) % 2 ^ 32) kernelPage

def firstPt : PageTable := initializePt 0

def kernelHeapPt : PageTable := initializePt 0x400000

/-- The directory `paging_init` builds, with the two kernel tables only. -/
def bootDirectory : PageDirectory :=
  fun i => if i = 768 then some kernelHeapPt else if i = 0 then some firstPt else none

/-- `create_new_page_directory`. The entries it does not write are what the
block returned by `malloc` held, here `rest`. -/
def createNewPageDirectory (rest : PageDirectory) (vaddr paddr : Nat) : PageDirectory :=
  fun i =>
    if i = vaddr >>> 22 then some (initializePt paddr)
    else if i = 0 then some firstPt
    else if i = 768 then some kernelHeapPt
    else rest i

/-- The two-level walk of the processor; `none` is a page fault. -/
def translate (pd : PageDirectory) (vaddr : Nat) : Option Nat :=
  match pd (vaddr >>> 22) with
  | none => none
  | some pt =>
    let pte := pt ((vaddr >>> 12) % 1024)
    if pte % 2 = 1 then some (pte / 0x1000 * 0x1000 + vaddr % 0x1000) else none

/-- Where `paging_init` lets the frame allocator begin: behind the directory
and the two kernel tables. -/
def physStart : Nat := 0x304000

/-- Physical memory below the frames, which holds the kernel and its tables, and
the four megabytes that back the kernel heap. -/
def kernelOwned (a : Nat) : Bool :=
  decide (a < physStart) || (decide (0x400000 ≤ a) && decide (a < 0x800000))

/-- A byte that is read or written, by its virtual address. -/
inductive Touch
  | load (v : Nat)
  | store (v : Nat)
deriving DecidableEq, Repr

namespace Touch

def loads (v n : Nat) : List Touch := (List.range n).map (fun i => .load (v + i))

/-- `memset`. -/
def stores (v n : Nat) : List Touch := (List.range n).map (fun i => .store (v + i))

/-- `memcpy`. -/
def copies (dest src count : Nat) : List Touch :=
  (List.range count).flatMap (fun i => [.load (src + i), .store (dest + i)])

end Touch

inductive Access
  | done
  | fault
  | wild
deriving DecidableEq, Repr

/-- Touch by touch up to the first page fault. What the kernel does after its own
memory has been stored to is not followed. -/
def access (pd : PageDirectory) : List Touch → Access
  | [] => .done
  | .load v :: ts => if (translate pd (v % 2 ^ 32)).isSome then access pd ts else .fault
  | .store v :: ts => match translate pd (v % 2 ^ 32) with
    | none => .fault
    | some a => if kernelOwned a then .wild else access pd ts

/-- The second access is made if the first got through. -/
def Access.andThen : Access → Access → Access
  | .done, b => b
  | a, _ => a

end Levos
