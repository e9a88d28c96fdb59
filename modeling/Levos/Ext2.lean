import Mathlib

namespace Levos

abbrev Bytes := List UInt8

/-- The fields of `struct ext2_inode` the modelled calls read. -/
structure Inode where
  type : Nat
  size : UInt32
  dbp : Vector Nat 12
  singlyBlock : Nat
  doublyBlock : Nat
deriving DecidableEq, Repr

/-- A mounted volume: two fields of its superblock, what `ext2_read_block`
reads and what `ext2_read_inode` reads. -/
structure Volume where
  blocksizeHint : Nat
  blocks : Nat
  block : Nat → Bytes
  inode : Nat → Inode
  block_length : ∀ b, (block b).length = 1024 <<< blocksizeHint

def Volume.blocksize (v : Volume) : Nat := 1024 <<< v.blocksizeHint

/-- A little-endian number in memory; `none` is a read behind the known bytes. -/
def le (mem : Bytes) (i : Nat) : Nat → Option Nat
  | 0 => some 0
  | width + 1 => match mem[i]?, le mem (i + 1) width with
    | some x, some n => some (x.toNat + 256 * n)
    | _, _ => none

/-- The characters of a string before its terminator. -/
def cstr (b : Bytes) : Bytes := b.takeWhile (· ≠ 0)

def slash : UInt8 := 47

/-- `strsplit`: the pieces between the delimiters. -/
def strsplit (str : Bytes) (delim : UInt8) : List Bytes := str.splitOn delim

/-- The loop of `ext2_read_directory`. It stops at an unused entry or at the
name; nothing stops it at the end of the block. -/
def readDirectoryLoop (filename : Bytes) : Nat → Bytes → Option Nat
  | 0, _ => none
  | fuel + 1, dir => match le dir 0 4 with
    | none => none
    | some 0 => some 0
    | some inode => match le dir 4 2, dir[6]? with
      | some size, some namelength =>
        if dir.length < 8 + namelength.toNat then none
        else if cstr ((dir.drop 8).take namelength.toNat) = filename then some inode
        else readDirectoryLoop filename fuel (dir.drop size)
      | _, _ => none

/-- `ext2_read_directory`. An entry of size zero is read over and over. -/
def ext2ReadDirectory (filename dir : Bytes) : Option Nat :=
  readDirectoryLoop filename (dir.length + 1) dir

/-- How the loop over the direct blocks of one directory is left. -/
inductive DirSearch
  | skipped
  | missing
  | found (inode : Nat)
deriving DecidableEq, Repr

/-- The `for` loop of `ext2_find_file_inode`: both outcomes of the first block
leave it. `after` is what the heap holds behind the block buffer. -/
def searchBlocks (v : Volume) (after filename : Bytes) : List Nat → Option DirSearch
  | [] => some .skipped
  | b :: _ =>
    if b = 0 then some .skipped
    else match ext2ReadDirectory filename (v.block b ++ after) with
      | none => none
      | some 0 => some .missing
      | some rc => some (.found rc)

/-- The `while` loop: the number returned, and the record left in `*inode`. -/
def findLoop (v : Volume) (after ff : Bytes) :
    List Bytes → Nat → Inode → Option (Nat × Inode)
  | [], retnode, inode => some (retnode, inode)
  | filename :: rest, retnode, inode =>
    match searchBlocks v after filename inode.dbp.toList with
    | none => none
    | some .missing =>
      if filename = [] then some (if ff = [slash] then 2 else retnode, inode)
      else some (0, inode)
    | some .skipped => findLoop v after ff rest retnode (v.inode retnode)
    | some (.found rc) => findLoop v after ff rest rc (v.inode rc)

def inodeTypeDirectory : Nat := 0x4000

/-- The block loop of `ext2_read_root_directory`. -/
def searchRoot (v : Volume) (after filename : Bytes) : List Nat → Option Nat
  | [] => some 0
  | b :: bs =>
    if b = 0 then some 0
    else match ext2ReadDirectory filename (v.block b ++ after) with
      | none => none
      | some 0 => searchRoot v after filename bs
      | some _ => some 1

def ext2ReadRootDirectory (v : Volume) (after filename : Bytes) : Option Nat :=
  if (v.inode 2).type &&& 0xF000 ≠ inodeTypeDirectory then some 0
  else searchRoot v after filename (v.inode 2).dbp.toList

/-- The components the `while` loop visits: `filename` starts one character
into the path, and there is one round less than there are pieces. -/
def visited : List Bytes → List Bytes
  | [] => []
  | [] :: rest => rest
  | piece :: rest => (piece.drop 1 :: rest).dropLast

def ext2FindFileInode (v : Volume) (after ff : Bytes) : Option (Nat × Inode) :=
  let pieces := strsplit ff slash
  if pieces.length > 1 then findLoop v after ff (visited pieces) 0 (v.inode 2)
  else match ff with
    | [] => none
    | _ :: filename => (ext2ReadRootDirectory v after filename).map (fun rc => (rc, v.inode rc))

/-- The fields of `struct file` the modelled calls read or write. -/
structure File where
  respath : Bytes
  inode : Nat
  lpos : UInt32
  dpos : Nat
deriving DecidableEq, Repr

/-- `vfs_open` on this volume, which calls `ext2_findinode`: `some none` is its
error return. -/
def vfsOpen (v : Volume) (after respath : Bytes) : Option (Option File) :=
  (ext2FindFileInode v after respath).map (fun (node, _) =>
    if node = 0 then none else some ⟨respath, node, 0, 0⟩)

/-- The size `ext2_stat` stores; a path it does not find leaves the caller's
struct as it was. -/
def ext2Stat (v : Volume) (after file : Bytes) : Option (Option UInt32) :=
  (ext2FindFileInode v after file).map (fun (node, inode) =>
    if node = 0 then none else some inode.size)

def vfsStat (v : Volume) (after : Bytes) (fl : File) : Option (Option UInt32) :=
  ext2Stat v after fl.respath

/-- `ext2_read_file`: the count returned, the bytes stored in the buffer and
the file. `none` is a panic, a read behind the known bytes or a read of a size
that was never stored. -/
def ext2ReadFile (v : Volume) (after : Bytes) (fl : File) (len : UInt32) :
    Option (UInt32 × Bytes × File) :=
  if len = 0 then some (0, [], fl)
  else match vfsStat v after fl with
    | some (some size) =>
      if size = 0 then some (0, [], fl)
      else if fl.lpos > size then none
      else
        let finalpos := if fl.lpos + len > size then size else fl.lpos + len
        let bpos := finalpos.toNat / v.blocksize
        if bpos < 12 then
          let blockBuf := v.block (v.inode fl.inode).dbp[bpos % 12] ++ after
          if blockBuf.length < fl.lpos.toNat + len.toNat then none
          else some (len, (blockBuf.drop fl.lpos.toNat).take len.toNat,
            { fl with lpos := fl.lpos + len })
        else some (0, [], fl)
    | _ => none

def vfsRead (v : Volume) (after : Bytes) (fl : File) (len : UInt32) :
    Option (UInt32 × Bytes × File) :=
  ext2ReadFile v after fl len

/-- The copies `ext2_read_singly_linked` makes into its buffer, with their
offsets. -/
def readSinglyLoop (v : Volume) (table : Bytes) (buf : Nat) :
    Nat → Nat → Option (List (Nat × Bytes))
  | 0, _ => some []
  | left + 1, i => match le table (4 * i) 4 with
    | none => none
    | some 0 => some []
    | some b => (readSinglyLoop v table buf left (i + 1)).map
      ((buf + i * v.blocksize, v.block b) :: ·)

def ext2ReadSinglyLinked (v : Volume) (blockid buf : Nat) : Option (List (Nat × Bytes)) :=
  readSinglyLoop v (v.block blockid) buf (v.blocksize / 4) 0

def sizeOfSingly (v : Volume) : Nat := v.blocksize * v.blocksize / 4

def readDoublyLoop (v : Volume) (table : Bytes) (buf : Nat) :
    Nat → Nat → Option (List (Nat × Bytes))
  | 0, _ => some []
  | left + 1, i => match le table (4 * i) 4 with
    | none => none
    | some 0 => some []
    | some b => match ext2ReadSinglyLinked v b (buf + i * sizeOfSingly v),
        readDoublyLoop v table buf left (i + 1) with
      | some here, some rest => some (here ++ rest)
      | _, _ => none

def ext2ReadDoublyLinked (v : Volume) (blockid buf : Nat) : Option (List (Nat × Bytes)) :=
  readDoublyLoop v (v.block blockid) buf (v.blocksize / 4) 0

/-- The copies behind the twelve direct blocks. -/
def readIndirect (v : Volume) (inode : Inode) : Option (List (Nat × Bytes)) :=
  let singly := if inode.singlyBlock = 0 then some []
    else ext2ReadSinglyLinked v inode.singlyBlock (12 * v.blocksize)
  let doubly := if inode.doublyBlock = 0 then some []
    else ext2ReadDoublyLinked v inode.doublyBlock (sizeOfSingly v + 12 * v.blocksize)
  match singly, doubly with
  | some s, some d => some (s ++ d)
  | _, _ => none

/-- The direct blocks of `ext2_read_file_full`; a block number out of range
makes it loop for ever, a missing block makes it return. -/
def readFullLoop (v : Volume) (inode : Inode) : List Nat → Nat → Option (List (Nat × Bytes))
  | [], _ => readIndirect v inode
  | b :: bs, i =>
    if b = 0 then some []
    else if b > v.blocks then none
    else (readFullLoop v inode bs (i + 1)).map ((i * v.blocksize, v.block b) :: ·)

/-- `ext2_read_file_full`: the copies it makes into the buffer, with their
offsets; `some none` is its error return. -/
def ext2ReadFileFull (v : Volume) (after fn : Bytes) :
    Option (Option (List (Nat × Bytes))) :=
  match ext2FindFileInode v after fn with
  | none => none
  | some (0, _) => some none
  | some (inodeid, _) =>
    (readFullLoop v (v.inode inodeid) (v.inode inodeid).dbp.toList 0).map some

structure Dirent where
  dIno : Nat
  dName : Bytes
deriving DecidableEq, Repr

def dNameSize : Nat := 124

/-- The inner `while` loop of `ext2_list_directory`: `none` inside is its
`return 0`, otherwise the entry count and the cursor it stops with. -/
def listLoop (blocksize dpos : Nat) : Nat → Nat → Nat → Bytes → Option (Option (Nat × Bytes))
  | 0, _, _, _ => none
  | fuel + 1, j, read, dirp =>
    if j < dpos ∧ read < blocksize then match le dirp 4 2 with
      | none => none
      | some size => match (dirp.drop size)[6]? with
        | none => none
        | some namelength =>
          if namelength = 0 then some none
          else listLoop blocksize dpos fuel (j + 1) (read + size) (dirp.drop size)
    else some (some (j, dirp))

/-- The loop over the direct blocks: the cursor of the entry to return. The
inner loop ends with `j = dpos` or with the block. -/
def listBlocks (v : Volume) (after : Bytes) (dpos : Nat) : List Nat → Nat → Option (Option Bytes)
  | [], _ => some none
  | b :: bs, j =>
    if b = 0 then some none
    else match listLoop v.blocksize dpos (dpos - j + 1) j 0 (v.block b ++ after) with
      | none => none
      | some none => some none
      | some (some (j', dirp)) =>
        if j' = dpos then some (some dirp) else listBlocks v after dpos bs j'

/-- `ext2_list_directory`; `fresh` is what `malloc` left in `d_name`. The entry
gets the inode number of the directory. -/
def ext2ListDirectory (v : Volume) (after : Bytes) (fresh : Vector UInt8 dNameSize) (f : File) :
    Option (Option Dirent × File) :=
  match ext2FindFileInode v after f.respath with
  | none => none
  | some (inodeid, inode) =>
    if f.dpos < 12 * (v.blocksize / 8) then
      match listBlocks v after f.dpos inode.dbp.toList 0 with
      | none => none
      | some none => some (none, f)
      | some (some dirp) => match dirp[6]? with
        | none => none
        | some namelength =>
          if namelength.toNat > dNameSize ∨ dirp.length < 8 + namelength.toNat then none
          else some (some ⟨inodeid % 2 ^ 16,
            (dirp.drop 8).take namelength.toNat ++ fresh.toList.drop namelength.toNat⟩,
            { f with dpos := f.dpos + 1 })
    else none

end Levos
