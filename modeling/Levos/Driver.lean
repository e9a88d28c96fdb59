import Levos.Disk
import Levos.Library.Reads

namespace Levos

open Library

def inodeOf (record : Bytes) : Inode :=
  let field (offset width : Nat) : Nat := ofBytes ((record.drop offset).take width)
  { type := field 0 2
    size := UInt32.ofNat (field 4 4)
    dbp := Vector.ofFn (fun i => field (40 + 4 * i.val) 4)
    singlyBlock := field 88 4
    doublyBlock := field 92 4 }

/-- A call of the driver as the block numbers it asks the device for. -/
abbrev Driver := Reads Nat Bytes

/-- What the heap holds behind the buffers of a call: the string behind the copy of an
empty path, and the bytes behind the block `ext2_read_inode` has for an inode, behind
`root_buf` of the two lookups and behind `block_buf` of a listing. -/
structure Behind where
  path : Bytes
  inode : Nat → Bytes
  directory : Bytes
  root : Bytes
  listing : Bytes

/-- `filename ++` in a path without a slash. -/
def Behind.name (heap : Behind) : Bytes → Bytes
  | [] => heap.path
  | _ :: filename => filename

namespace Driver

def readBlock (b : Nat) : Driver Bytes := .read b .done

section Calls

variable (priv : Ext2Priv) (heap : Behind)

/-- `ext2_read_inode`; it divides by the inodes of a group before it reads. -/
def readInode (inode : Nat) : Driver Inode :=
  if priv.sb.inodesInBlockgroup.toNat = 0 then .stop
  else do
    let descriptors ← readBlock priv.firstBgd
    match placeIn priv (descriptors ++ heap.inode inode) inode with
    | none => .stop
    | some (block, index) =>
      let blockBuf ← readBlock block
      pure (inodeOf ((blockBuf.drop (128 * index)).take 128))

/-- `ext2_read_directory` reads the inode of the entry it finds. -/
def readDirectory (behind filename dir : Bytes) : Driver Nat :=
  match ext2ReadDirectory filename (dir ++ behind) with
  | none => .stop
  | some 0 => pure 0
  | some inode => do
    let _ ← readInode priv heap inode
    pure inode

/-- The `for` loop of `ext2_find_file_inode`. -/
def searchBlocks (filename : Bytes) : List Nat → Driver DirSearch
  | [] => pure .skipped
  | b :: _ =>
    if b = 0 then pure .skipped
    else do
      let rootBuf ← readBlock b
      let rc ← readDirectory priv heap heap.directory filename rootBuf
      pure (if rc = 0 then .missing else .found rc)

def findLoop (ff : Bytes) : List Bytes → Nat → Inode → Driver (Nat × Inode)
  | [], retnode, inode => pure (retnode, inode)
  | filename :: rest, retnode, inode => do
    match ← searchBlocks priv heap filename inode.dbp.toList with
    | .missing =>
      if filename = [] then pure (if ff = [slash] then 2 else retnode, inode)
      else pure (0, inode)
    | .skipped =>
      let next ← readInode priv heap retnode
      findLoop ff rest retnode next
    | .found rc =>
      let next ← readInode priv heap rc
      findLoop ff rest rc next

/-- The block loop of `ext2_read_root_directory`. -/
def searchRoot (filename : Bytes) : List Nat → Driver Nat
  | [] => pure 0
  | b :: bs =>
    if b = 0 then pure 0
    else do
      let rootBuf ← readBlock b
      let rc ← readDirectory priv heap heap.root filename rootBuf
      if rc = 0 then searchRoot filename bs else pure 1

def readRootDirectory (filename : Bytes) : Driver Nat := do
  let inode ← readInode priv heap 2
  if inode.type &&& 0xF000 ≠ inodeTypeDirectory then pure 0
  else searchRoot priv heap filename inode.dbp.toList

def findFileInode (ff : Bytes) : Driver (Nat × Inode) :=
  let pieces := strsplit ff slash
  if pieces.length > 1 then do
    let inode ← readInode priv heap 2
    findLoop priv heap ff (visited pieces) 0 inode
  else do
    let rc ← readRootDirectory priv heap (heap.name ff)
    let inode ← readInode priv heap rc
    pure (rc, inode)

/-- The loop of `ext2_read_singly_linked`: the copies, with their offsets. -/
def readSinglyLoop (table : Bytes) (buf : Nat) : Nat → Nat → Driver (List (Nat × Bytes))
  | 0, _ => pure []
  | left + 1, i => match le table (4 * i) 4 with
    | none => .stop
    | some 0 => pure []
    | some b => do
      let here ← readBlock b
      let rest ← readSinglyLoop table buf left (i + 1)
      pure ((buf + i * priv.blocksize, here) :: rest)

def readSinglyLinked (blockid buf : Nat) : Driver (List (Nat × Bytes)) := do
  let table ← readBlock blockid
  readSinglyLoop priv table buf (priv.blocksize / 4) 0

def readDoublyLoop (table : Bytes) (buf : Nat) : Nat → Nat → Driver (List (Nat × Bytes))
  | 0, _ => pure []
  | left + 1, i => match le table (4 * i) 4 with
    | none => .stop
    | some 0 => pure []
    | some b => do
      let here ← readSinglyLinked priv b (buf + i * (priv.blocksize * priv.blocksize / 4))
      let rest ← readDoublyLoop table buf left (i + 1)
      pure (here ++ rest)

def readDoublyLinked (blockid buf : Nat) : Driver (List (Nat × Bytes)) := do
  let table ← readBlock blockid
  readDoublyLoop priv table buf (priv.blocksize / 4) 0

def readSinglyPart (inode : Inode) : Driver (List (Nat × Bytes)) :=
  if inode.singlyBlock = 0 then pure []
  else readSinglyLinked priv inode.singlyBlock (12 * priv.blocksize)

def readDoublyPart (inode : Inode) : Driver (List (Nat × Bytes)) :=
  if inode.doublyBlock = 0 then pure []
  else readDoublyLinked priv inode.doublyBlock
    (priv.blocksize * priv.blocksize / 4 + 12 * priv.blocksize)

/-- The copies behind the twelve direct blocks. -/
def readIndirect (inode : Inode) : Driver (List (Nat × Bytes)) := do
  let singly ← readSinglyPart priv inode
  let doubly ← readDoublyPart priv inode
  pure (singly ++ doubly)

/-- The direct blocks of `ext2_read_file_full`; a block number out of range
makes it loop for ever, a missing block makes it return. -/
def readFullLoop (inode : Inode) : List Nat → Nat → Driver (List (Nat × Bytes))
  | [], _ => readIndirect priv inode
  | b :: bs, i =>
    if b = 0 then pure []
    else if b > priv.sb.blocks.toNat then .stop
    else do
      let here ← readBlock b
      let rest ← readFullLoop inode bs (i + 1)
      pure ((i * priv.blocksize, here) :: rest)

def readFileFull (fn : Bytes) : Driver (Option (List (Nat × Bytes))) := do
  let (inodeid, _) ← findFileInode priv heap fn
  if inodeid = 0 then pure none
  else do
    let minode ← readInode priv heap inodeid
    let copies ← readFullLoop priv minode minode.dbp.toList 0
    pure (some copies)

/-- The loop over the direct blocks of `ext2_list_directory`. -/
def listBlocks (dpos : Nat) : List Nat → Nat → Driver (Option Bytes)
  | [], _ => pure none
  | b :: bs, j =>
    if b = 0 then pure none
    else do
      let blockBuf ← readBlock b
      match listLoop priv.blocksize dpos (dpos - j + 1) j 0 (blockBuf ++ heap.listing) with
      | none => .stop
      | some none => pure none
      | some (some (j', dirp)) => if j' = dpos then pure (some dirp) else listBlocks dpos bs j'

/-- `ext2_list_directory`; a position behind the twelve blocks is a panic. -/
def listDirectory (fresh : Vector UInt8 dNameSize) (f : File) : Driver (Option Dirent × File) := do
  let (inodeid, inode) ← findFileInode priv heap f.respath
  if f.dpos < 12 * (priv.blocksize / 8) then do
    match ← listBlocks priv heap f.dpos inode.dbp.toList 0 with
    | none => pure (none, f)
    | some dirp => match dirp[6]? with
      | none => .stop
      | some namelength =>
        if namelength.toNat > dNameSize ∨ dirp.length < 8 + namelength.toNat then .stop
        else pure (some ⟨inodeid % 2 ^ 16,
          (dirp.drop 8).take namelength.toNat ++ fresh.toList.drop namelength.toNat⟩,
          { f with dpos := f.dpos + 1 })
  else .stop

end Calls

end Driver

end Levos
