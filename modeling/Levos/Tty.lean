import Levos.Errno
import Levos.Ext2
import Levos.Library.Runs
import Levos.Library.Writes

namespace Levos
open Library

def ttyBufferSize : Nat := 4192

/-- The output side of `struct tty`. `buffer` is the memory from the buffer on,
also behind its `buflen` bytes. -/
structure Tty where
  buffer : Nat → UInt8
  buflen : Nat
  bufpos : Nat

namespace Tty

/-- What has been written: `buffer[0..bufpos)`. -/
def contents (m : Tty) : Bytes := slice m.buffer 0 m.bufpos

/-- The test of `tty_generic_write`, in 32-bit words. -/
def full (m : Tty) (len : Nat) : Bool := decide (m.buflen < (m.bufpos + len) % 2 ^ 32)

def put (m : Tty) (pos : Nat) (text : Bytes) : Tty :=
  { m with buffer := blit m.buffer pos text }

def advance (m : Tty) (len : Nat) : Tty := { m with bufpos := (m.bufpos + len) % 2 ^ 32 }

end Tty

/-- `tty_generic_write` when nobody else writes to the tty. -/
def ttyGenericWrite (m : Tty) (text : Bytes) : Int × Tty :=
  if m.full text.length then (-enospc, m)
  else (0, (m.put m.bufpos text).advance text.length)

/-- How far the writer inside the lock has come. The destination of its `memcpy`
is computed once; then bytes are copied one after the other. -/
inductive WriteStage
  | copying (base copied : Nat)
  | moved
deriving DecidableEq, Repr

structure Holder where
  writer : Nat
  text : Bytes
  stage : WriteStage

/-- A tty and the processes that write to it, any number of them. A process that
has passed the test waits with its text until it gets `m_lock`, which at most
one holds. The last two fields are history: the calls that have returned 0 and
those that have returned -ENOSPC, the last one first. -/
structure Writers where
  tty : Tty
  waiting : Nat → Option Bytes
  holder : Option Holder
  succeeded : List (Nat × Bytes)
  refused : List (Nat × Bytes)

/-- The steps of one call between which the timer can switch. A `memcpy` may be
interrupted after any number of bytes. -/
inductive WriteAct
  | call (text : Bytes)
  | lock
  | copy (count : Nat)
  | advance
  | unlock

namespace Writers

def idle (s : Writers) (i : Nat) : Prop :=
  s.waiting i = none ∧ ∀ h, s.holder = some h → h.writer ≠ i

instance (s : Writers) (i : Nat) : Decidable (s.idle i) :=
  match hs : s.holder with
  | none => decidable_of_iff (s.waiting i = none) (by simp [idle, hs])
  | some h => decidable_of_iff (s.waiting i = none ∧ h.writer ≠ i) (by simp [idle, hs])

def step (s : Writers) : Nat × WriteAct → Option Writers
  | (i, .call text) =>
    if s.idle i ∧ text.length < 2 ^ 32 then
      if s.tty.full text.length then some { s with refused := (i, text) :: s.refused }
      else some { s with waiting := Function.update s.waiting i (some text) }
    else none
  | (i, .lock) => match s.waiting i, s.holder with
    | some text, none => some
      { s with
        waiting := Function.update s.waiting i none
        holder := some ⟨i, text, .copying s.tty.bufpos 0⟩ }
    | _, _ => none
  | (i, .copy count) => match s.holder with
    | some ⟨j, text, .copying base copied⟩ =>
      if j = i ∧ copied + count ≤ text.length then some
        { s with
          tty := s.tty.put (base + copied) ((text.drop copied).take count)
          holder := some ⟨j, text, .copying base (copied + count)⟩ }
      else none
    | _ => none
  | (i, .advance) => match s.holder with
    | some ⟨j, text, .copying _ copied⟩ =>
      if j = i ∧ copied = text.length then some
        { s with tty := s.tty.advance text.length, holder := some ⟨j, text, .moved⟩ }
      else none
    | _ => none
  | (i, .unlock) => match s.holder with
    | some ⟨j, text, .moved⟩ =>
      if j = i then some { s with holder := none, succeeded := (j, text) :: s.succeeded }
      else none
    | _ => none

def start (m : Tty) : Writers := ⟨m, fun _ => none, none, [], []⟩

end Writers

/-- The branch of `sys_read` for a backspace, on the output side: the byte at `bufpos`
is cleared, the one before it blanked, and both counters go back by one. -/
def Tty.erase (m : Tty) : Tty :=
  { buffer := Function.update (Function.update m.buffer m.bufpos 0)
      ((m.bufpos + 2 ^ 32 - 1) % 2 ^ 32) 32
    bufpos := (m.bufpos + 2 ^ 32 - 1) % 2 ^ 32
    buflen := (m.buflen + 2 ^ 32 - 1) % 2 ^ 32 }

/-- What a caller can hand to `tty_generic_write`: its length is a 32-bit word. -/
def Request := { text : Bytes // text.length < 2 ^ 32 }

/-- A tty with the history of the stores to its buffer: the first index and the
number of bytes of each. -/
structure Edited where
  tty : Tty
  stored : List (Nat × Nat)

inductive EditAct
  | write (r : Request)
  | backspace

namespace Edited

def step (s : Edited) : EditAct → Option Edited
  | .write r => some
    { tty := (ttyGenericWrite s.tty r.val).2
      stored := if s.tty.full r.val.length then s.stored
        else s.stored ++ [(s.tty.bufpos, r.val.length)] }
  | .backspace => some
    { tty := s.tty.erase
      stored := s.stored ++ [(s.tty.bufpos, 1), ((s.tty.bufpos + 2 ^ 32 - 1) % 2 ^ 32, 1)] }

/-- The output side as `tty_init` leaves it; what stands in the buffer is whatever
`malloc` found there. -/
def init (buffer : Nat → UInt8) : Edited := ⟨⟨buffer, ttyBufferSize, 0⟩, []⟩

end Edited

end Levos
