import Levos.Heap

namespace Levos

/-- A chunk in use: the address of its header, and the sizes stored there. -/
structure Minor where
  addr : UInt32
  size : UInt32
  reqSize : UInt32
deriving DecidableEq, Repr

/-- A block acquired from the page allocator, with its chunks in order. -/
structure Major where
  addr : UInt32
  size : UInt32
  usage : UInt32
  minors : List Minor
deriving DecidableEq, Repr

/-- The blocks from `l_memRoot` on, and the address in `l_bestBet`. -/
structure Liballoc where
  majors : List Major
  bestBet : Option UInt32
deriving DecidableEq, Repr

namespace Liballoc

/-- The sizes of `struct liballoc_major` and of `struct liballoc_minor`. -/
def headerSize : UInt32 := 24

/-- What a request needs together with the header of its chunk. -/
def need (size : UInt32) : UInt32 := size + headerSize

/-- The exits of `malloc`: cases 2, 3, 4.1 and 4.2. -/
inductive Exit
  | fresh
  | front
  | behind
  | between
deriving DecidableEq, Repr

/-- A chunk that has been made: by which case, the address of its header, and its
block afterwards. -/
structure Chosen where
  exit : Exit
  min : UInt32
  maj : Major
deriving DecidableEq, Repr

/-- The free memory of a block, as the loop of `malloc` computes it. -/
def free (maj : Major) : UInt32 := maj.size - maj.usage

section Request

variable (size reqSize : UInt32)

/-- Cases 2 and 3: a chunk right behind the header of the block. -/
def first (maj : Major) (exit : Exit) : Chosen :=
  { exit
    min := maj.addr + headerSize
    maj := { maj with
      usage := maj.usage + need size
      minors := ⟨maj.addr + headerSize, size, reqSize⟩ :: maj.minors } }

/-- The loop over the chunks of a block: case 4.1 at the last one and case 4.2 at the
others. The case, the address of the new chunk and the chunks with it. -/
def scanMinors (maj : Major) : List Minor → Option (Exit × UInt32 × List Minor)
  | [] => none
  | [min] =>
    if maj.addr + maj.size - min.addr - headerSize - min.size ≥ need size then
      some (.behind, min.addr + headerSize + min.size,
        [min, ⟨min.addr + headerSize + min.size, size, reqSize⟩])
    else none
  | min :: next :: rest =>
    if next.addr - min.addr - headerSize - min.size ≥ need size then
      some (.between, min.addr + headerSize + min.size,
        min :: ⟨min.addr + headerSize + min.size, size, reqSize⟩ :: next :: rest)
    else (scanMinors maj (next :: rest)).map (fun (exit, addr, minors) =>
      (exit, addr, min :: minors))

/-- One round of the loop over the blocks. `none` goes on to the next one, by case 1
or by case 5. -/
def visit (maj : Major) : Option Chosen :=
  if free maj < need size then none
  else match maj.minors with
    | [] => some (first size reqSize maj .fresh)
    | min :: _ =>
      if min.addr - maj.addr - headerSize ≥ need size then some (first size reqSize maj .front)
      else (scanMinors size reqSize maj maj.minors).map (fun (exit, addr, minors) =>
        ⟨exit, addr, { maj with usage := maj.usage + need size, minors }⟩)

/-- The variables of the loop over the blocks that outlive it. -/
structure Search where
  found : Option (Nat × Chosen)
  bestBet : Option UInt32
  bestSize : UInt32

/-- The loop over the blocks, each with its place in the list. -/
def searchLoop : List (Major × Nat) → Option UInt32 → UInt32 → Search
  | [], bestBet, bestSize => ⟨none, bestBet, bestSize⟩
  | (maj, i) :: rest, bestBet, bestSize =>
    if bestSize < free maj then match visit size reqSize maj with
      | some c => ⟨some (i, c), some maj.addr, free maj⟩
      | none => searchLoop rest (some maj.addr) (free maj)
    else match visit size reqSize maj with
      | some c => ⟨some (i, c), bestBet, bestSize⟩
      | none => searchLoop rest bestBet bestSize

end Request

def lPageSize : UInt32 := 4096
def lPageCount : UInt32 := 16

/-- The pages `allocate_new_page` asks for: the request rounded up, but not less than
a minimum. -/
def pagesWanted (size : UInt32) : UInt32 :=
  let st := size + headerSize + headerSize
  let st := if st % lPageSize = 0 then st / lPageSize else st / lPageSize + 1
  if st < lPageCount then lPageCount else st

/-- `allocate_new_page`, given what `liballoc_alloc` returns. -/
def allocateNewPage (size : UInt32) (page : Option UInt32) : Option Major :=
  page.map (fun addr => ⟨addr, pagesWanted size * lPageSize, headerSize, []⟩)

/-- The blocks in the order `malloc` visits them: if the best bet has more free than
is needed it starts there, and comes to all of them afterwards. `none` is an
`l_bestBet` that points to no block. -/
def searched (h : Liballoc) (size : UInt32) : Option (List (Major × Nat)) :=
  match h.bestBet with
  | none => some h.majors.zipIdx
  | some b => match h.majors.zipIdx.find? (fun x => x.1.addr == b) with
    | none => none
    | some (maj, i) =>
      if free maj > need size then some (h.majors.zipIdx.drop i ++ h.majors.zipIdx)
      else some h.majors.zipIdx

def initialBestSize (h : Liballoc) : UInt32 :=
  match h.majors.find? (fun maj => some maj.addr == h.bestBet) with
  | none => 0
  | some maj => free maj

/-- The last block visited has been left by case 1, which falls through to case 2
with a new block; case 5 goes round the loop with it. -/
def leftByCase1 (size : UInt32) (order : List (Major × Nat)) : Bool :=
  match order.getLast? with
  | none => true
  | some (maj, _) => free maj < need size

/-- What happens when no block has room. `page` answers the calls of `liballoc_alloc`. -/
def extend (h : Liballoc) (size reqSize : UInt32) (case1 : Bool) (s : Search)
    (page : Nat → Option UInt32) : Liballoc × Option Chosen :=
  match allocateNewPage size (page 1) with
  | none => (⟨h.majors, s.bestBet⟩, none)
  | some maj =>
    if case1 then
      (⟨h.majors ++ [(first size reqSize maj .fresh).maj], s.bestBet⟩,
        some (first size reqSize maj .fresh))
    else match searchLoop size reqSize [(maj, h.majors.length)] s.bestBet s.bestSize with
      | ⟨some (_, c), bestBet, _⟩ => (⟨h.majors ++ [c.maj], bestBet⟩, some c)
      | ⟨none, bestBet, _⟩ => match allocateNewPage size (page 2) with
        | none => (⟨h.majors ++ [maj], bestBet⟩, none)
        | some maj' =>
          (⟨h.majors ++ [maj, (first size reqSize maj' .fresh).maj], bestBet⟩,
            some (first size reqSize maj' .fresh))

/-- The search of `malloc` once there is a block: the chunk it makes, or `none` inside
when no memory is left. -/
def search (h : Liballoc) (size reqSize : UInt32) (page : Nat → Option UInt32) :
    Option (Liballoc × Option Chosen) :=
  match h.searched size with
  | none => none
  | some order => match searchLoop size reqSize order h.bestBet h.initialBestSize with
    | ⟨some (i, c), bestBet, _⟩ => some (⟨h.majors.set i c.maj, bestBet⟩, some c)
    | s => some (extend h size reqSize (leftByCase1 size order) s page)

/-- `l_memRoot` before the search: the first request makes the first block. -/
def root (h : Liballoc) (size : UInt32) (page : Option UInt32) : Option Liballoc :=
  if h.majors = [] then (allocateNewPage size page).map (fun maj => ⟨[maj], h.bestBet⟩)
  else some h

/-- The address `ALIGN` makes of the one behind a header. -/
def align (p : UInt32) : UInt32 :=
  if (p + 16) &&& 15 = 0 then p + 16 else p + 16 + (16 - ((p + 16) &&& 15))

def clear (mem : UInt32 → UInt8) (p len : UInt32) : UInt32 → UInt8 :=
  fun a => if a - p < len then 0 else mem a

/-- The pointer `malloc` returns, the calls of `post_allocation` it has made and the
memory afterwards. -/
structure Result where
  heap : Liballoc
  p : Option UInt32
  posted : List (Option Nat × UInt32)
  mem : UInt32 → UInt8

/-- The end of each exit. Case 4.1 returns at once; the others record the chunk for
the running process and clear it. A `memset` past the end of the address space is
not followed. -/
def finish (h : Liballoc) (current : Option Nat) (mem : UInt32 → UInt8) (reqSize : UInt32)
    (c : Chosen) : Option Result :=
  if c.exit = .behind then some ⟨h, some (align (c.min + headerSize)), [], mem⟩
  else if 2 ^ 32 < (align (c.min + headerSize)).toNat + reqSize.toNat then none
  else some ⟨h, some (align (c.min + headerSize)), [(current, align (c.min + headerSize))],
    clear mem (align (c.min + headerSize)) reqSize⟩

/-- `malloc` of a request that does not wrap to zero with what alignment takes. -/
def mallocSized (h : Liballoc) (current : Option Nat) (page : Nat → Option UInt32)
    (mem : UInt32 → UInt8) (reqSize : UInt32) : Option Result :=
  match h.root (reqSize + 32) (page 0) with
  | none => some ⟨h, none, [], mem⟩
  | some h => match h.search (reqSize + 32) reqSize page with
    | none => none
    | some (h, none) => some ⟨h, none, [], mem⟩
    | some (h, some c) => finish h current mem reqSize c

def malloc (h : Liballoc) (current : Option Nat) (page : Nat → Option UInt32)
    (mem : UInt32 → UInt8) (reqSize : UInt32) : Option Result :=
  if reqSize + 32 = 0 then mallocSized h current page mem 1
  else mallocSized h current page mem reqSize

/-- The call as the model of the processes has it: the address, and whether it was
recorded. -/
def Result.placed (r : Result) : Option Placed :=
  r.p.map (fun p => ⟨p.toNat, !r.posted.isEmpty⟩)

end Liballoc

end Levos
