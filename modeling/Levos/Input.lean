import Levos.Memcpy
import Levos.Tty

namespace Levos
open Library

/-- The input side of `struct tty`. `inbuf` is the memory from the buffer on, also
behind its `TTY_BUFFER_SIZE` bytes. -/
structure Input where
  inbuf : Nat → UInt8
  inbuflen : Nat

def ttyPushByte (m : Input) (c : UInt8) : Input :=
  { inbuf := Function.update m.inbuf m.inbuflen c
    inbuflen := (m.inbuflen + 1) % 2 ^ 32 }

/-- The loop of `tty_generic_read` from index `i` on, with `left` bytes of the
request to go: what it stores in the caller's buffer. -/
def readLoop (m : Input) : Nat → Nat → Bytes
  | 0, _ => []
  | left + 1, i =>
    if m.inbuf i ≠ 0 ∧ i ≤ m.inbuflen then m.inbuf i :: readLoop m left (i + 1) else []

/-- The rest of the call once `copied` bytes have been copied. With more than
`TTY_BUFFER_SIZE` of them the count handed to `memcpy` wraps to almost 4 GiB, which
is not followed. -/
def Input.shift (m : Input) (copied : Nat) : Option Input :=
  if ttyBufferSize < copied then none
  else some
    { inbuf := memcpy m.inbuf 0 copied (ttyBufferSize - copied)
      inbuflen := (m.inbuflen + 2 ^ 32 - copied) % 2 ^ 32 }

/-- `tty_generic_read`: the bytes put into the caller's buffer, whose number is
returned, and the tty afterwards. -/
def ttyGenericRead (m : Input) (len : Nat) : Option (Bytes × Input) :=
  if m.inbuflen = 0 ∨ len = 0 then some ([], m)
  else if readLoop m len 0 = [] then some ([], m)
  else (m.shift (readLoop m len 0).length).map (fun t => (readLoop m len 0, t))

/-- What `inbuflen` is when the call has subtracted what it copied. -/
def Input.left (m : Input) (len : Nat) : Nat :=
  if m.inbuflen = 0 ∨ len = 0 then m.inbuflen
  else (m.inbuflen + 2 ^ 32 - (readLoop m len 0).length) % 2 ^ 32

/-- A tty with the history of its input: the bytes pushed so far and the bytes
the reads have returned. -/
structure Typing where
  input : Input
  pushed : Bytes
  returned : Bytes

inductive InputAct
  | push (c : UInt8)
  | read (len : Nat)
deriving DecidableEq, Repr

namespace Typing

def step (s : Typing) : InputAct → Option Typing
  | .push c => some { s with input := ttyPushByte s.input c, pushed := s.pushed ++ [c] }
  | .read len => (ttyGenericRead s.input len).map fun r =>
    { s with input := r.2, returned := s.returned ++ r.1 }

/-- A zeroed buffer with nothing in it; `behind` is what the heap holds behind it. -/
def start (behind : Nat → UInt8) : Typing :=
  { input := ⟨fun i => if i < ttyBufferSize then 0 else behind i, 0⟩
    pushed := []
    returned := [] }

/-- The input side as `tty_init` leaves it, with whatever `malloc` found in the buffer. -/
def init (inbuf : Nat → UInt8) : Typing := ⟨⟨inbuf, 0⟩, [], []⟩

/-- The number of bytes pushed and not yet read. -/
def pending (s : Typing) : Nat := s.pushed.length - s.returned.length

end Typing

end Levos
