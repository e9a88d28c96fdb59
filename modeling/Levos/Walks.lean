import Levos.Ext2
import Levos.Library.Reads
import Levos.Library.Words

namespace Levos
open Library

/-- A load of the byte at an offset from the block buffer. -/
def readByte (off : Nat) : Reads Nat UInt8 UInt8 := .read off .done

def readBytes : Nat → Nat → Reads Nat UInt8 Bytes
  | 0, _ => pure []
  | count + 1, off => do
    let b ← readByte off
    let bs ← readBytes count (off + 1)
    pure (b :: bs)

def readWord (width off : Nat) : Reads Nat UInt8 Nat := do
  let bs ← readBytes width off
  pure (ofBytes bs)

/-- The loop of `ext2_read_directory` with the loads it makes, from the entry at
`off` on. A null `filename` is `none`. The walk may go on for ever, so it gets
fuel. -/
def directoryWalk (filename : Option Bytes) : Nat → Nat → Reads Nat UInt8 Nat
  | 0, _ => .stop
  | fuel + 1, off => do
    let inode ← readWord 4 off
    if inode = 0 then pure 0
    else do
      let namelength ← readByte (off + 6)
      let name ← readBytes namelength.toNat (off + 8)
      if filename = some (cstr name) then pure inode
      else do
        let size ← readWord 2 (off + 4)
        directoryWalk filename fuel (off + size)

/-- How the walk of `ext2_list_directory` leaves a block. -/
inductive ListEnd
  | last
  | entry (name : Bytes)
  | nextBlock (left : Nat)
deriving DecidableEq, Repr

/-- The inner loops of `ext2_list_directory` on one block with the loads they make,
with `left` entries still to be skipped. -/
def listWalk (blocksize : Nat) : Nat → Nat → Reads Nat UInt8 ListEnd
  | 0, off => do
    let namelength ← readByte (off + 6)
    let name ← readBytes namelength.toNat (off + 8)
    pure (.entry name)
  | left + 1, off =>
    if off < blocksize then do
      let size ← readWord 2 (off + 4)
      let namelength ← readByte (off + size + 6)
      if namelength = 0 then pure .last
      else listWalk blocksize left (off + size)
    else pure (.nextBlock (left + 1))

end Levos
