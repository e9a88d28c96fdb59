import Levos.Chunks
import Levos.Library.Loads

namespace Levos
open Library

/-- The memory and the variables of liballoc, with the pointers it follows. -/
structure Pool where
  mem : Nat → UInt8
  memRoot : UInt32
  bestBet : UInt32
  allocated : UInt64
  inuse : UInt64
  warningCount : Nat
  errorCount : Nat
  possibleOverruns : Nat

namespace Pool
open Liballoc (Exit headerSize need align pagesWanted lPageSize)

def init (mem : Nat → UInt8) : Pool := ⟨mem, 0, 0, 0, 0, 0, 0, 0⟩

/-- The words of the two headers: both begin with their links. -/
def prevAt : Fin 6 := ⟨0, by decide⟩
def nextAt : Fin 6 := ⟨1, by decide⟩
def pagesAt : Fin 6 := ⟨2, by decide⟩
def majSizeAt : Fin 6 := ⟨3, by decide⟩
def usageAt : Fin 6 := ⟨4, by decide⟩
def firstAt : Fin 6 := ⟨5, by decide⟩
def blockAt : Fin 6 := ⟨2, by decide⟩
def magicAt : Fin 6 := ⟨3, by decide⟩
def minSizeAt : Fin 6 := ⟨4, by decide⟩
def reqSizeAt : Fin 6 := ⟨5, by decide⟩

def liballocMagic : UInt32 := 0xc001c0de
def liballocDead : UInt32 := 0xdeaddead

/-- One word of a header. A header that reaches over the end of the address space is
not followed round it. -/
def field (mem : Nat → UInt8) (p : UInt32) (k : Fin 6) : UInt32 :=
  UInt32.ofNat (loadAt mem (p.toNat + 4 * k) 4)

def setField (mem : Nat → UInt8) (p : UInt32) (k : Fin 6) (v : UInt32) : Nat → UInt8 :=
  storeAt mem (p.toNat + 4 * k) 4 v.toNat

def get (s : Pool) (p : UInt32) (k : Fin 6) : UInt32 := field s.mem p k

def put (s : Pool) (p : UInt32) (k : Fin 6) (v : UInt32) : Pool :=
  { s with mem := setField s.mem p k v }

/-- `allocate_new_page`, given what `liballoc_alloc` returns. -/
def allocateNewPage (s : Pool) (size page : UInt32) : Pool × UInt32 :=
  if page = 0 then ({ s with warningCount := s.warningCount + 1 }, 0)
  else
    let s := s.put page prevAt 0
    let s := s.put page nextAt 0
    let s := s.put page pagesAt (pagesWanted size)
    let s := s.put page majSizeAt (pagesWanted size * lPageSize)
    let s := s.put page usageAt headerSize
    let s := s.put page firstAt 0
    ({ s with allocated := s.allocated + (s.get page majSizeAt).toUInt64 }, page)

section Request

variable (size reqSize : UInt32)

/-- The end of each case: the block and the whole heap count the new chunk. -/
def charge (s : Pool) (maj : UInt32) : Pool :=
  let s := s.put maj usageAt (s.get maj usageAt + need size)
  { s with inuse := s.inuse + size.toUInt64 }

/-- Case 2: the first chunk of a block. -/
def case2 (s : Pool) (maj : UInt32) : Pool :=
  let s := s.put maj firstAt (maj + headerSize)
  let s := s.put (s.get maj firstAt) magicAt liballocMagic
  let s := s.put (s.get maj firstAt) prevAt 0
  let s := s.put (s.get maj firstAt) nextAt 0
  let s := s.put (s.get maj firstAt) blockAt maj
  let s := s.put (s.get maj firstAt) minSizeAt size
  let s := s.put (s.get maj firstAt) reqSizeAt reqSize
  s.charge size maj

/-- Case 3: a chunk in front of the first one. -/
def case3 (s : Pool) (maj : UInt32) : Pool :=
  let s := s.put (s.get maj firstAt) prevAt (maj + headerSize)
  let s := s.put (s.get (s.get maj firstAt) prevAt) nextAt (s.get maj firstAt)
  let s := s.put maj firstAt (s.get (s.get maj firstAt) prevAt)
  let s := s.put (s.get maj firstAt) magicAt liballocMagic
  let s := s.put (s.get maj firstAt) prevAt 0
  let s := s.put (s.get maj firstAt) blockAt maj
  let s := s.put (s.get maj firstAt) minSizeAt size
  let s := s.put (s.get maj firstAt) reqSizeAt reqSize
  s.charge size maj

/-- Case 4.1: a chunk behind the last one. -/
def case41 (s : Pool) (maj min : UInt32) : Pool :=
  let s := s.put min nextAt (min + headerSize + s.get min minSizeAt)
  let s := s.put (s.get min nextAt) prevAt min
  let min := s.get min nextAt
  let s := s.put min nextAt 0
  let s := s.put min magicAt liballocMagic
  let s := s.put min blockAt maj
  let s := s.put min minSizeAt size
  let s := s.put min reqSizeAt reqSize
  s.charge size maj

/-- Case 4.2: a chunk between two others. -/
def case42 (s : Pool) (maj min : UInt32) : Pool :=
  let newMin := min + headerSize + s.get min minSizeAt
  let s := s.put newMin magicAt liballocMagic
  let s := s.put newMin nextAt (s.get min nextAt)
  let s := s.put newMin prevAt min
  let s := s.put newMin minSizeAt size
  let s := s.put newMin reqSizeAt reqSize
  let s := s.put newMin blockAt maj
  let s := s.put (s.get min nextAt) prevAt newMin
  let s := s.put min nextAt newMin
  s.charge size maj

/-- A chunk that has been made: by which case, where its header is, and the heap. -/
structure Made where
  exit : Exit
  min : UInt32
  heap : Pool

/-- Case 4: the loop over the chunks of a block. `none` is a loop that goes on for
longer than the fuel lasts. -/
def minorLoop (maj : UInt32) : Nat → Pool → UInt32 → Option (Option Made)
  | 0, _, _ => none
  | fuel + 1, s, min =>
    if min = 0 then some none
    else
      let newMin := min + headerSize + s.get min minSizeAt
      if s.get min nextAt = 0 then
        if maj + s.get maj majSizeAt - min - headerSize - s.get min minSizeAt ≥ need size then
          some (some ⟨.behind, newMin, s.case41 size reqSize maj min⟩)
        else minorLoop maj fuel s (s.get min nextAt)
      else if s.get min nextAt - min - headerSize - s.get min minSizeAt ≥ need size then
        some (some ⟨.between, newMin, s.case42 size reqSize maj min⟩)
      else minorLoop maj fuel s (s.get min nextAt)

/-- Cases 2 to 4 on one block. -/
def place (fuel : Nat) (s : Pool) (maj : UInt32) : Option (Option Made) :=
  if s.get maj firstAt = 0 then
    some (some ⟨.fresh, maj + headerSize, s.case2 size reqSize maj⟩)
  else if s.get maj firstAt - maj - headerSize ≥ need size then
    some (some ⟨.front, maj + headerSize, s.case3 size reqSize maj⟩)
  else minorLoop size reqSize maj fuel s (s.get maj firstAt)

/-- The variables of the loop over the blocks. `asked` counts the calls of
`liballoc_alloc`. -/
structure Locals where
  heap : Pool
  maj : UInt32
  startedBet : Bool
  bestSize : UInt32
  asked : Nat

inductive Round
  | again (v : Locals)
  | made (m : Made)
  | noMemory (heap : Pool)

variable (page : Nat → UInt32)

/-- A new block behind the current one; `none` is the `break` when there is no memory. -/
def Locals.newBlock (v : Locals) : Pool × Option Locals :=
  let (s, new) := v.heap.allocateNewPage size (page v.asked)
  let s := s.put v.maj nextAt new
  if s.get v.maj nextAt = 0 then (s, none)
  else
    let s := s.put (s.get v.maj nextAt) prevAt v.maj
    (s, some { v with heap := s, asked := v.asked + 1 })

/-- Back to the first block, now without a bet. -/
def Locals.restart (v : Locals) : Locals :=
  { v with maj := v.heap.memRoot, startedBet := false }

/-- The round from case 2 on. -/
def Locals.serve (fuel : Nat) (v : Locals) : Option Round :=
  match place size reqSize fuel v.heap v.maj with
  | none => none
  | some (some m) => some (.made m)
  | some none =>
    if v.heap.get v.maj nextAt = 0 then
      if v.startedBet then some (.again v.restart)
      else match v.newBlock size page with
        | (s, none) => some (.noMemory s)
        | (_, some v) => some (.again { v with maj := v.heap.get v.maj nextAt })
    else some (.again { v with maj := v.heap.get v.maj nextAt })

def room (s : Pool) (maj : UInt32) : UInt32 := s.get maj majSizeAt - s.get maj usageAt

/-- A block with more free memory than the bet is the new bet. -/
def Locals.bet (v : Locals) : Locals :=
  if v.bestSize < v.heap.room v.maj then
    { v with heap := { v.heap with bestBet := v.maj }, bestSize := v.heap.room v.maj }
  else v

def Locals.round (fuel : Nat) (v : Locals) : Option Round :=
  if v.bet.heap.room v.maj < need size then
    if v.bet.heap.get v.maj nextAt ≠ 0 then
      some (.again { v.bet with maj := v.bet.heap.get v.maj nextAt })
    else if v.bet.startedBet then some (.again v.bet.restart)
    else match v.bet.newBlock size page with
      | (s, none) => some (.noMemory s)
      | (_, some v) => Locals.serve size reqSize page fuel
          { v with maj := v.heap.get v.maj nextAt }
  else Locals.serve size reqSize page fuel v.bet

def majorLoop : Nat → Locals → Option (Pool × Option Made)
  | 0, _ => none
  | fuel + 1, v =>
    if v.maj = 0 then some (v.heap, none)
    else match Locals.round size reqSize page fuel v with
      | none => none
      | some (.again v) => majorLoop fuel v
      | some (.made m) => some (m.heap, some m)
      | some (.noMemory s) => some (s, none)

/-- The variables when the loop begins: at the best bet if that has more than enough
free. -/
def start (s : Pool) : Locals :=
  if s.bestBet = 0 then ⟨s, s.memRoot, false, 0, 1⟩
  else if s.room s.bestBet > need size then ⟨s, s.bestBet, true, s.room s.bestBet, 1⟩
  else ⟨s, s.memRoot, false, s.room s.bestBet, 1⟩

/-- `l_memRoot` before the search: the first request makes the first block. -/
def root (s : Pool) : Pool :=
  if s.memRoot = 0 then
    { (s.allocateNewPage size (page 0)).1 with memRoot := (s.allocateNewPage size (page 0)).2 }
  else s

end Request

/-- What a call of `malloc` returns, the calls of `post_allocation` it makes, and the
heap. -/
structure Result where
  heap : Pool
  p : UInt32
  posted : List (Option Nat × UInt32)

/-- `ALIGN` also notes how far it has moved the pointer, in the byte sixteen below it. -/
def noteAlign (mem : Nat → UInt8) (p : UInt32) : Nat → UInt8 :=
  Function.update mem (align p - 16).toNat (align p - p).toUInt8

/-- The end of each exit of `malloc`. -/
def finish (current : Option Nat) (reqSize : UInt32) (m : Made) : Result :=
  let p := align (m.min + headerSize)
  let mem := noteAlign m.heap.mem (m.min + headerSize)
  if m.exit = .behind then ⟨{ m.heap with mem := mem }, p, []⟩
  else ⟨{ m.heap with mem := blit mem p.toNat (List.replicate reqSize.toNat 0) }, p, [(current, p)]⟩

/-- `malloc` of a request that does not wrap to zero with what alignment takes. -/
def mallocSized (fuel : Nat) (s : Pool) (current : Option Nat) (page : Nat → UInt32)
    (reqSize : UInt32) : Option Result :=
  let size := reqSize + 32
  let s := s.root size page
  if s.memRoot = 0 then some ⟨s, 0, []⟩
  else match majorLoop size reqSize page fuel (s.start size) with
    | none => none
    | some (s, none) => some ⟨s, 0, []⟩
    | some (_, some m) => some (finish current reqSize m)

def malloc (fuel : Nat) (s : Pool) (current : Option Nat) (page : Nat → UInt32)
    (reqSize : UInt32) : Option Result :=
  if reqSize + 32 = 0 then
    mallocSized fuel { s with warningCount := s.warningCount + 1 } current page 1
  else mallocSized fuel s current page reqSize

/-- `UNALIGN`: the byte it reads is a signed `char`. -/
def unalign (mem : Nat → UInt8) (p : UInt32) : UInt32 :=
  let diff := (mem (p - 16).toNat).toInt8.toInt32.toUInt32
  if diff < 32 then p - diff else p

/-- The header `free` and `realloc` take a pointer to belong to. -/
def minorOf (s : Pool) (p : UInt32) : UInt32 := unalign s.mem p - headerSize

/-- What is counted for a pointer whose header does not have the magic word. -/
def refuse (s : Pool) (magic : UInt32) : Pool :=
  { s with
    errorCount := s.errorCount + 1
    possibleOverruns :=
      if magic &&& 0xFFFFFF = liballocMagic &&& 0xFFFFFF ∨
          magic &&& 0xFFFF = liballocMagic &&& 0xFFFF ∨
          magic &&& 0xFF = liballocMagic &&& 0xFF then s.possibleOverruns + 1
      else s.possibleOverruns }

/-- `if ( x->next != NULL ) x->next->prev = x->prev`, for a chunk or for a block. -/
def linkNext (s : Pool) (x : UInt32) : Pool :=
  if s.get x nextAt ≠ 0 then s.put (s.get x nextAt) prevAt (s.get x prevAt) else s

/-- `if ( x->prev != NULL ) x->prev->next = x->next`. -/
def linkPrev (s : Pool) (x : UInt32) : Pool :=
  if s.get x prevAt ≠ 0 then s.put (s.get x prevAt) nextAt (s.get x nextAt) else s

/-- The chunk is no longer counted, and its magic word goes. -/
def discharge (s : Pool) (maj min : UInt32) : Pool :=
  let s := { s with inuse := s.inuse - (s.get min minSizeAt).toUInt64 }
  let s := s.put maj usageAt (s.get maj usageAt - need (s.get min minSizeAt))
  s.put min magicAt liballocDead

/-- The chunk is taken out of its block. -/
def unlink (s : Pool) (maj min : UInt32) : Pool :=
  let s := ((s.discharge maj min).linkNext min).linkPrev min
  if s.get min prevAt = 0 then s.put maj firstAt (s.get min nextAt) else s

/-- No global points to the block any more. -/
def forget (s : Pool) (maj : UInt32) : Pool :=
  { s with
    memRoot := if s.memRoot = maj then s.get maj nextAt else s.memRoot
    bestBet := if s.bestBet = maj then 0 else s.bestBet }

/-- A block that has become empty is taken out and given back. `mm_free_pages`
returns at once. -/
def dropBlock (s : Pool) (maj : UInt32) : Pool :=
  let s := ((s.forget maj).linkPrev maj).linkNext maj
  { s with allocated := s.allocated - (s.get maj majSizeAt).toUInt64 }

/-- The block may be the new best bet; the sizes are compared as `int`. -/
def rebet (s : Pool) (maj : UInt32) : Pool :=
  if s.bestBet ≠ 0 ∧ (s.room maj).toInt32 > (s.room s.bestBet).toInt32 then
    { s with bestBet := maj }
  else s

def free (s : Pool) (p : UInt32) : Pool :=
  if p = 0 then { s with warningCount := s.warningCount + 1 }
  else
    let min := s.minorOf p
    if s.get min magicAt ≠ liballocMagic then s.refuse (s.get min magicAt)
    else
      let maj := s.get min blockAt
      let s := s.unlink maj min
      if s.get maj firstAt = 0 then s.dropBlock maj else s.rebet maj

/-- `calloc`. The memory is cleared twice, and at address 0 if there is none. -/
def calloc (fuel : Nat) (s : Pool) (current : Option Nat) (page : Nat → UInt32)
    (nobj size : UInt32) : Option Result :=
  (malloc fuel s current page (nobj * size)).map fun r =>
    { r with heap := { r.heap with
        mem := blit r.heap.mem r.p.toNat (List.replicate (nobj * size).toNat 0) } }

/-- `liballoc_memcpy`: words, and then the bytes that are left. -/
def copyInts (s1 s2 : Nat) : Nat → Nat → (Nat → UInt8) → Nat → UInt8
  | 0, _, mem => mem
  | n + 1, i, mem =>
    copyInts s1 s2 n (i + 1) (storeAt mem (s1 + 4 * i) 4 (loadAt mem (s2 + 4 * i) 4))

def liballocMemcpy (mem : Nat → UInt8) (s1 s2 n : Nat) : Nat → UInt8 :=
  copyUp (copyInts s1 s2 (n / 4) 0 mem) (s1 + 4 * (n / 4)) (s2 + 4 * (n / 4)) (n % 4)

/-- `realloc`. When there is no memory for a larger chunk the old one is copied to
address 0 and freed. -/
def realloc (fuel : Nat) (s : Pool) (current : Option Nat) (page : Nat → UInt32)
    (p size : UInt32) : Option Result :=
  if size = 0 then some ⟨s.free p, 0, []⟩
  else if p = 0 then malloc fuel s current page size
  else
    let min := s.minorOf p
    if s.get min magicAt ≠ liballocMagic then some ⟨s.refuse (s.get min magicAt), 0, []⟩
    else
      let realSize := s.get min reqSizeAt
      if realSize ≥ size then some ⟨s.put min reqSizeAt size, p, []⟩
      else (malloc fuel s current page size).map fun r =>
        { r with heap := { r.heap with
            mem := liballocMemcpy r.heap.mem r.p.toNat p.toNat realSize.toNat }.free p }

def call (fuel : Nat) (s : Pool) (current : Option Nat) (page : Nat → UInt32) :
    Liballoc.HeapCall → Option Result
  | .malloc size => s.malloc fuel current page size
  | .calloc nobj size => s.calloc fuel current page nobj size
  | .realloc p size => s.realloc fuel current page p size
  | .free p => some ⟨s.free p, 0, []⟩

end Pool

end Levos
