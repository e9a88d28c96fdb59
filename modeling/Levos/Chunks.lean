import Levos.Malloc

namespace Levos.Liballoc

/-- The pointer `malloc` returns for a chunk. -/
def ptr (c : Minor) : UInt32 := align (c.addr + headerSize)

/-- The chunk a pointer belongs to, with its block. -/
def owner (h : Liballoc) (p : UInt32) : Option (Major × Minor) :=
  h.majors.findSome? (fun maj =>
    (maj.minors.find? (fun min => ptr min = p)).map (fun min => (maj, min)))

/-- A block without one of its chunks. -/
def without (maj : Major) (min : Minor) : Major :=
  { maj with usage := maj.usage - need min.size, minors := maj.minors.erase min }

/-- The best bet once a block has more free; the sizes are compared as `int`. -/
def rebet (majors : List Major) (maj : Major) (bestBet : UInt32) : UInt32 :=
  match majors.find? (fun m => m.addr = bestBet) with
  | none => bestBet
  | some best => if (free maj).toInt32 > (free best).toInt32 then maj.addr else bestBet

/-- `free` of a chunk: a block that has become empty is given back. -/
def release (h : Liballoc) (maj : Major) (min : Minor) : Liballoc :=
  if (without maj min).minors = [] then
    ⟨h.majors.erase maj, if h.bestBet = some maj.addr then none else h.bestBet⟩
  else
    ⟨h.majors.replace maj (without maj min),
      h.bestBet.map (rebet (h.majors.replace maj (without maj min)) (without maj min))⟩

/-- What a call returns, the calls of `post_allocation` it makes, and the heap. -/
structure Reply where
  heap : Liballoc
  p : Option UInt32
  posted : List (Option Nat × UInt32)
deriving DecidableEq, Repr

def Result.reply (r : Result) : Reply := ⟨r.heap, r.p, r.posted⟩

inductive HeapCall
  | malloc (size : UInt32)
  | calloc (nobj size : UInt32)
  | realloc (p size : UInt32)
  | free (p : UInt32)

variable (current : Option Nat) (page : Nat → Option UInt32)

/-- `malloc`, without the memory it clears. -/
def take (h : Liballoc) (size : UInt32) : Option Reply :=
  (h.malloc current page (fun _ => 0) size).map Result.reply

/-- `free`. `none` is a pointer that belongs to no chunk: what is then found below it is
not part of the list of the blocks. -/
def give (h : Liballoc) (p : UInt32) : Option Liballoc :=
  if p = 0 then some h else (h.owner p).map (fun (maj, min) => h.release maj min)

/-- A block with another size noted for one of its chunks. -/
def noting (maj : Major) (min : Minor) (size : UInt32) : Major :=
  { maj with minors := maj.minors.replace min { min with reqSize := size } }

/-- `realloc` of a chunk to a size it already has. -/
def shrink (h : Liballoc) (maj : Major) (min : Minor) (size : UInt32) : Liballoc :=
  { h with majors := h.majors.replace maj (noting maj min size) }

def resize (h : Liballoc) (p size : UInt32) : Option Reply :=
  if size = 0 then (h.give p).map (⟨·, none, []⟩)
  else if p = 0 then h.take current page size
  else match h.owner p with
    | none => none
    | some (maj, min) =>
      if min.reqSize ≥ size then some ⟨h.shrink maj min size, some p, []⟩
      else match h.take current page size with
        | none => none
        | some r => (r.heap.give p).map (fun h => { r with heap := h })

def call (h : Liballoc) : HeapCall → Option Reply
  | .malloc size => h.take current page size
  | .calloc nobj size => h.take current page (nobj * size)
  | .realloc p size => h.resize current page p size
  | .free p => (h.give p).map (⟨·, none, []⟩)

end Levos.Liballoc
