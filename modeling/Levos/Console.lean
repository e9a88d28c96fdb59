import Levos.Errno
import Levos.Ext2
import Levos.Library.Runs
import Levos.Library.Writes
import Levos.Memcpy

namespace Levos
open Library

def kmsgBufSize : Nat := 65536
def maxConsoles : Nat := 4

/-- Which reallocations the heap can serve and what it leaves in the new part.
While its contents are copied the old block is held next to the new one, so a
block only grows if both fit into the 32-bit address space. -/
structure Growth where
  served : Nat → Nat → Bool
  fresh : Nat → Nat → UInt8
  both : ∀ old new, old < new → served old new → old + new ≤ 2 ^ 32

/-- The globals of the kernel log. `size` is the allocated size of `kmsg`, and a
console is the address of its struct. The other fields are history: the
characters appended, the index of each store to `kmsg` with the size at that time,
the successful additions with the value of `kmsg_last_flush`, and what was passed to
the consoles' `write`, in order. -/
structure KernelLog where
  kmsg : Nat → UInt8
  size : Nat
  kmsgPos : Nat
  kmsgLastFlush : Nat
  consoles : List Nat
  appended : Bytes
  stores : List (Nat × Nat)
  added : List (Nat × Nat)
  delivered : List (Nat × Bytes)

/-- The end of `console_init`, before its own message is printed. -/
def consoleInit (kmsg : Nat → UInt8) : KernelLog :=
  { kmsg, size := kmsgBufSize, kmsgPos := 0, kmsgLastFlush := 0, consoles := []
    appended := [], stores := [], added := [], delivered := [] }

/-- `console_add`; a null pointer is `none`. -/
def consoleAdd (s : KernelLog) : Option Nat → Int × KernelLog
  | none => (-einval, s)
  | some c =>
    if s.consoles.length ≥ maxConsoles then (-enospc, s)
    else (0, { s with
      consoles := s.consoles ++ [c]
      added := s.added ++ [(c, s.kmsgLastFlush)] })

/-- `kmsg[kmsg_pos ++] = c`. -/
def KernelLog.store (s : KernelLog) (c : UInt8) : KernelLog :=
  { s with
    kmsg := Function.update s.kmsg s.kmsgPos c
    kmsgPos := s.kmsgPos + 1
    appended := s.appended ++ [c]
    stores := s.stores ++ [(s.kmsgPos, s.size)] }

/-- `console_append`; `none` is its panic. -/
def consoleAppend (heap : Growth) (s : KernelLog) (c : UInt8) : Option KernelLog :=
  if s.kmsgPos ≥ kmsgBufSize then
    if heap.served s.size (s.kmsgPos + kmsgBufSize) then some
      (KernelLog.store
        { s with
          kmsg := realloc s.kmsg s.size (heap.fresh (s.kmsgPos + kmsgBufSize))
          size := s.kmsgPos + kmsgBufSize } c)
    else none
  else some (s.store c)

/-- The text `console_flush` passes on. -/
def KernelLog.unflushed (s : KernelLog) : Bytes :=
  slice s.kmsg s.kmsgLastFlush (s.kmsgPos - s.kmsgLastFlush)

def consoleFlush (s : KernelLog) : KernelLog :=
  { s with
    delivered := s.delivered ++ s.consoles.map (fun c => (c, s.unflushed))
    kmsgLastFlush := if s.consoles.length ≠ 0 then s.kmsgPos else s.kmsgLastFlush }

def appendAll (heap : Growth) : KernelLog → Bytes → Option KernelLog
  | s, [] => some s
  | s, c :: str => match consoleAppend heap s c with
    | none => none
    | some t => appendAll heap t str

def consoleWrite (heap : Growth) (s : KernelLog) (str : Bytes) : Option KernelLog :=
  (appendAll heap s str).map consoleFlush

inductive ConsoleAct
  | add (c : Option Nat)
  | append (c : UInt8)
  | write (str : Bytes)

def KernelLog.step (heap : Growth) (s : KernelLog) : ConsoleAct → Option KernelLog
  | .add c => some (consoleAdd s c).2
  | .append c => consoleAppend heap s c
  | .write str => consoleWrite heap s str

/-- Everything passed to the `write` of one console. -/
def KernelLog.deliveredTo (s : KernelLog) (c : Nat) : Bytes :=
  ((s.delivered.filter (fun d => d.1 == c)).map Prod.snd).flatten

end Levos
