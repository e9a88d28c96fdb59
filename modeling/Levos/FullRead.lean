import Levos.Ext2
import Levos.Library.Words
import Levos.Library.Writes

namespace Levos.FullRead
open Library

/-- A block that is copied into the buffer: its offset there, and its number. -/
structure Copy where
  offset : Nat
  block : Nat
deriving DecidableEq, Repr

section Loops

variable (v : Volume)

/-- `block[i]` in a block of pointers. -/
def pointer (table i : Nat) : Nat := ofBytes (((v.block table).drop (4 * i)).take 4)

/-- `SIZE_OF_SINGLY`. This product, like the others here, has 32 bits; a sum with a
pointer is an offset in the buffer. -/
def sizeOfSingly : Nat := v.blocksize * v.blocksize % 2 ^ 32 / 4

def readSinglyLoop (blockid buf : Nat) : Nat → Nat → List Copy
  | 0, _ => []
  | left + 1, i =>
    if pointer v blockid i = 0 then []
    else ⟨buf + i * v.blocksize % 2 ^ 32, pointer v blockid i⟩ ::
      readSinglyLoop blockid buf left (i + 1)

def ext2ReadSinglyLinked (blockid buf : Nat) : List Copy :=
  readSinglyLoop v blockid buf (v.blocksize / 4) 0

def readDoublyLoop (blockid buf : Nat) : Nat → Nat → List Copy
  | 0, _ => []
  | left + 1, i =>
    if pointer v blockid i = 0 then []
    else ext2ReadSinglyLinked v (pointer v blockid i) (buf + i * sizeOfSingly v % 2 ^ 32) ++
      readDoublyLoop blockid buf left (i + 1)

def ext2ReadDoublyLinked (blockid buf : Nat) : List Copy :=
  readDoublyLoop v blockid buf (v.blocksize / 4) 0

/-- The copies behind the twelve direct blocks. -/
def readIndirect (inode : Inode) : List Copy :=
  (if inode.singlyBlock = 0 then []
    else ext2ReadSinglyLinked v inode.singlyBlock (12 * v.blocksize % 2 ^ 32)) ++
  (if inode.doublyBlock = 0 then []
    else ext2ReadDoublyLinked v inode.doublyBlock ((sizeOfSingly v + 12 * v.blocksize) % 2 ^ 32))

/-- The direct blocks of `ext2_read_file_full`: all copies that are made, and whether
the call returns. At a block number out of range it loops for ever. -/
def readFullLoop (inode : Inode) : List Nat → Nat → List Copy × Bool
  | [], _ => (readIndirect v inode, true)
  | b :: bs, i =>
    if b = 0 then ([], true)
    else if b > v.blocks then ([], false)
    else (⟨i * v.blocksize % 2 ^ 32, b⟩ :: (readFullLoop inode bs (i + 1)).1,
      (readFullLoop inode bs (i + 1)).2)

def readInode (inode : Inode) : List Copy × Bool := readFullLoop v inode inode.dbp.toList 0

/-- `ext2_read_file_full`; `some none` is its error return. -/
def ext2ReadFileFull (after fn : Bytes) : Option (Option (List Copy × Bool)) :=
  (ext2FindFileInode v after fn).map (fun (inodeid, _) =>
    if inodeid = 0 then none else some (readInode v (v.inode inodeid)))

/-- The memory from the buffer on after the copies. -/
def stored (mem : Nat → UInt8) (copies : List Copy) : Nat → UInt8 :=
  copies.foldl (fun m c => blit m c.offset (v.block c.block)) mem

/-- How `sys_execve` and `start_shell` load a file: the size of the buffer they
allocate and the copies into it, or `none` inside when they give up before. The stat
struct is zero where `ext2_stat` stores nothing. -/
def loadImage (after path : Bytes) : Option (Option (UInt32 × List Copy)) :=
  match vfsOpen v after path with
  | none => none
  | some none => some none
  | some (some fl) => match vfsStat v after fl with
    | none => none
    | some st =>
      if st.getD 0 = 0 then some none
      else (ext2ReadFileFull v after fl.respath).map (fun r =>
        some (st.getD 0, (r.map Prod.fst).getD []))

end Loops

end Levos.FullRead
