import Levos.Driver

namespace Levos

open Library

structure Initrd where
  memory : Nat → UInt8
  start : Nat
  finish : Nat
  start_le : start ≤ finish
  finish_lt : finish < 2 ^ 32

namespace Initrd

/-- The test of `initrd_read`: it looks at the length only. -/
def refuses (m : Initrd) (len : Nat) : Bool := (m.start + len * 512) % 2 ^ 32 > m.finish

def copied (m : Initrd) (st len : Nat) : List Nat :=
  if m.refuses len then []
  else (List.range (len * 512)).map (fun i => (m.start + st * 512 + i) % 2 ^ 32)

def initrdRead (m : Initrd) (buf : Bytes) (st len : Nat) : Bytes :=
  if m.refuses len then buf else (m.copied st len).map m.memory

def disk (m : Initrd) : Disk := fun a => m.memory ((m.start + a) % 2 ^ 32)

/-- The answer to `ext2_read_block`; `stale` is what the buffer held. -/
def block (m : Initrd) (priv : Ext2Priv) (stale : Bytes) (b : Nat) : Bytes :=
  m.initrdRead stale (b * priv.sectors % 2 ^ 32) priv.sectors

end Initrd

inductive DriverCall
  | lookup (path : Bytes)
  | readdir (fresh : Vector UInt8 dNameSize) (f : File)
  | readfull (path : Bytes)

def DriverCall.Asks (In : Nat → Prop) (answer : Nat → Bytes) (priv : Ext2Priv) (heap : Behind) :
    DriverCall → Prop
  | lookup path => (Driver.findFileInode priv heap path).All In answer
  | readdir fresh f => (Driver.listDirectory priv heap fresh f).All In answer
  | readfull path => (Driver.readFileFull priv heap path).All In answer

end Levos
