import Levos.Ext2
import Levos.Library.Words
import Levos.Library.Writes

namespace Levos

open Library

abbrev Disk := Nat → UInt8

/-- `dev->read` of a device that returns its sectors faithfully. -/
def Disk.read (dev : Disk) (st len : Nat) : Bytes := slice dev (st * 512) (len * 512)

/-- `dev->write` of a device that stores them faithfully. -/
def Disk.write (dev : Disk) (buf : Bytes) (st len : Nat) : Disk :=
  blit dev (st * 512) (buf.take (len * 512))

/-- The fields of `struct ext2_superblock` the driver reads. -/
structure Superblock where
  inodes : UInt32
  blocks : UInt32
  superblockId : UInt32
  blocksizeHint : UInt32
  blocksInBlockgroup : UInt32
  inodesInBlockgroup : UInt32
deriving DecidableEq, Repr

/-- The processor shifts by the lowest five bits of the hint. -/
def Superblock.blocksize (sb : Superblock) : Nat :=
  1024 <<< (sb.blocksizeHint.toNat % 32) % 2 ^ 32

/-- `struct ext2_priv_data`: the superblock of a probed volume. `ext2_probe`
has divided by the block size and by the blocks of a group. -/
structure Ext2Priv where
  sb : Superblock
  blocksize_pos : 0 < sb.blocksize
  group_pos : 0 < sb.blocksInBlockgroup.toNat

namespace Ext2Priv

def blocksize (priv : Ext2Priv) : Nat := priv.sb.blocksize

def inodesPerBlock (priv : Ext2Priv) : Nat := priv.blocksize / 128

def sectorsPerBlock (priv : Ext2Priv) : Nat := priv.blocksize / 512

def numberOfBgs (priv : Ext2Priv) : Nat :=
  let numberOfBgs0 := priv.sb.blocks.toNat / priv.sb.blocksInBlockgroup.toNat
  if numberOfBgs0 = 0 then 1 else numberOfBgs0

def firstBgd (priv : Ext2Priv) : Nat :=
  (priv.sb.superblockId.toNat + 1024 / priv.blocksize) % 2 ^ 32

/-- The sectors `ext2_read_block` and `ext2_write_block` move. -/
def sectors (priv : Ext2Priv) : Nat :=
  if priv.sectorsPerBlock = 0 then 1 else priv.sectorsPerBlock

end Ext2Priv

def ext2Signature : Nat := 0xEF53

/-- The superblock in the bytes `ext2_probe` reads. -/
def readSuperblock (buf : Bytes) : Superblock :=
  let field (offset : Nat) : UInt32 := UInt32.ofNat (ofBytes ((buf.drop offset).take 4))
  { inodes := field 0
    blocks := field 4
    superblockId := field 20
    blocksizeHint := field 24
    blocksInBlockgroup := field 32
    inodesInBlockgroup := field 40 }

/-- `ext2_probe`: sectors 2 and 3 hold the superblock. `none` is a wrong
signature or a division by zero. -/
def ext2Probe (dev : Disk) : Option Ext2Priv :=
  let buf := dev.read 2 2
  let sb := readSuperblock buf
  if ofBytes ((buf.drop 56).take 2) ≠ ext2Signature then none
  else if h : 0 < sb.blocksize ∧ 0 < sb.blocksInBlockgroup.toNat then some ⟨sb, h.1, h.2⟩
  else none

def ext2ReadBlock (priv : Ext2Priv) (dev : Disk) (block : Nat) : Bytes :=
  dev.read (block * priv.sectors % 2 ^ 32) priv.sectors

def ext2WriteBlock (priv : Ext2Priv) (dev : Disk) (buf : Bytes) (block : Nat) : Disk :=
  dev.write buf (block * priv.sectors % 2 ^ 32) priv.sectors

/-- The block and the index in it that `ext2_read_inode`, `ext2_write_inode`
and `ext2_get_inode_block` compute from the descriptors, each with the same
statements; `none` is a division by zero or a descriptor behind the known bytes. -/
def placeIn (priv : Ext2Priv) (descriptors : Bytes) (inode : Nat) : Option (Nat × Nat) :=
  let ipg := priv.sb.inodesInBlockgroup.toNat
  let number := (inode + (2 ^ 32 - 1)) % 2 ^ 32
  if ipg = 0 then none
  else match le descriptors (32 * (number / ipg) + 8) 4 with
    | none => none
    | some table =>
      let index := number % ipg
      some ((table + index * 128 % 2 ^ 32 / priv.blocksize) % 2 ^ 32, index % priv.inodesPerBlock)

/-- `after` is what the heap holds behind the block buffer. -/
def inodePlace (priv : Ext2Priv) (dev : Disk) (after : Bytes) (inode : Nat) : Option (Nat × Nat) :=
  placeIn priv (ext2ReadBlock priv dev priv.firstBgd ++ after) inode

/-- `ext2_read_inode`: the record it copies to `inode_buf`. -/
def ext2ReadInode (priv : Ext2Priv) (dev : Disk) (after : Bytes) (inode : Nat) : Option Bytes :=
  (inodePlace priv dev after inode).map (fun (block, index) =>
    ((ext2ReadBlock priv dev block).drop (128 * index)).take 128)

def ext2WriteInode (priv : Ext2Priv) (dev : Disk) (after inodeBuf : Bytes) (ii : Nat) :
    Option Disk :=
  (inodePlace priv dev after ii).map (fun (final, index) =>
    ext2WriteBlock priv dev (splice (ext2ReadBlock priv dev final) (128 * index) inodeBuf) final)

def ext2GetInodeBlock (priv : Ext2Priv) (dev : Disk) (after : Bytes) (inode : Nat) :
    Option (Nat × Nat) :=
  inodePlace priv dev after inode

/-- The loop over the descriptors in the buffer: the first group whose counter
`field` is not zero, with that counter. -/
def findGroup (buffer : Bytes) (field : Nat) : Nat → Nat → Option (Option (Nat × Nat))
  | 0, _ => some none
  | left + 1, i => match le buffer (32 * i + field) 2 with
    | none => none
    | some 0 => findGroup buffer field left (i + 1)
    | some n => some (some (i, n))

/-- What a group can have free: the offsets of its counter in the descriptor
and of the counter in the superblock. -/
inductive Resource
  | block
  | inode
deriving DecidableEq, Repr

namespace Resource

def inDescriptor : Resource → Nat
  | block => 12
  | inode => 14

def inSuperblock : Resource → Nat
  | block => 12
  | inode => 16

end Resource

/-- The body `ext2_alloc_block` and `ext2_find_new_inode_id` share: the group it
found and its counter, and the device afterwards. -/
def takeFree (priv : Ext2Priv) (dev : Disk) (after : Bytes) (r : Resource) :
    Option (Option (Nat × Nat) × Disk) :=
  let buffer := ext2ReadBlock priv dev priv.firstBgd ++ after
  match findGroup buffer r.inDescriptor priv.numberOfBgs 0 with
  | none => none
  | some none => some (none, dev)
  | some (some (i, n)) =>
    let counted := splice buffer (32 * i + r.inDescriptor) (toBytes 2 (n - 1))
    let dev := ext2WriteBlock priv dev counted ((priv.firstBgd + i) % 2 ^ 32)
    let sb := ext2ReadBlock priv dev priv.sb.superblockId.toNat
    match le sb r.inSuperblock 4 with
    | none => none
    | some m =>
      let sb := splice sb r.inSuperblock (toBytes 4 (m + (2 ^ 32 - 1)))
      some (some (i, n), ext2WriteBlock priv dev sb priv.sb.superblockId.toNat)

/-- `ext2_alloc_block`: the id stored in `*out`, `none` inside when nothing is
stored, and the device. -/
def ext2AllocBlock (priv : Ext2Priv) (dev : Disk) (after : Bytes) : Option (Option Nat × Disk) :=
  (takeFree priv dev after .block).map (fun (found, dev) =>
    (found.map (fun (_, n) => (priv.sb.blocks.toNat + (2 ^ 32 - n) + 1) % 2 ^ 32), dev))

def ext2FindNewInodeId (priv : Ext2Priv) (dev : Disk) (after : Bytes) :
    Option (Option Nat × Disk) :=
  (takeFree priv dev after .inode).map (fun (found, dev) =>
    (found.map (fun (i, n) =>
      ((i + 1) * priv.sb.inodesInBlockgroup.toNat + (2 ^ 32 - n) + 1) % 2 ^ 32), dev))

end Levos
