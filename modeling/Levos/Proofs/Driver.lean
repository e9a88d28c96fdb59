import Levos.Driver
import Levos.Proofs.Disk

namespace Levos.Proofs.Driver

open Levos Library Reads Disk

/-- The inode a probed volume has under a number. -/
def inodeAt (priv : Ext2Priv) (dev : Levos.Disk) (after : Bytes) (n : Nat) : Option Inode :=
  (ext2ReadInode priv dev after n).map inodeOf

/-- The volume the calls above the block layer see. -/
def volumeOf (priv : Ext2Priv) (dev : Levos.Disk) (after : Bytes) : Volume where
  blocksizeHint := priv.sb.blocksizeHint.toNat % 32
  blocks := priv.sb.blocks.toNat
  block := ext2ReadBlock priv dev
  inode n := (inodeAt priv dev after n).getD (inodeOf [])
  block_length b := by rw [read_block_eq, slice_length, blocksize_shift, Nat.shiftLeft_eq]

@[simp] theorem eval_read_block (answer : Nat → Bytes) (b : Nat) :
    (Levos.Driver.readBlock b).eval answer = some (answer b) := rfl

@[simp] theorem all_read_block (In : Nat → Prop) (answer : Nat → Bytes) (b : Nat) :
    (Levos.Driver.readBlock b).All In answer ↔ In b := and_iff_left trivial

section Refinement

variable {priv : Ext2Priv} {dev : Levos.Disk} {heap : Behind} {after path : Bytes}

/-- A heap with the same bytes behind every block. -/
def same (after path : Bytes) : Behind := ⟨path, fun _ => after, after, after, after⟩

theorem same_inode (n : Nat) : (same after path).inode n = after := rfl
theorem same_directory : (same after path).directory = after := rfl
theorem same_root : (same after path).root = after := rfl
theorem same_listing : (same after path).listing = after := rfl

theorem volume_blocksize : (volumeOf priv dev after).blocksize = priv.blocksize := by
  rw [Volume.blocksize, blocksize_shift, volumeOf, Nat.shiftLeft_eq]

theorem eval_read_inode (n : Nat) :
    (Levos.Driver.readInode priv heap n).eval (ext2ReadBlock priv dev) =
      inodeAt priv dev (heap.inode n) n := by
  rw [Levos.Driver.readInode, inodeAt, ext2ReadInode, inodePlace]
  by_cases hz : priv.sb.inodesInBlockgroup.toNat = 0
  · simp [hz, placeIn]
  · simp only [hz, if_false, eval_bind, eval_read_block, Option.bind_some]
    cases placeIn priv (ext2ReadBlock priv dev priv.firstBgd ++ heap.inode n) n <;> rfl

theorem eval_singly_loop (after table : Bytes) (buf left i : Nat) :
    (Levos.Driver.readSinglyLoop priv table buf left i).eval (ext2ReadBlock priv dev) =
      readSinglyLoop (volumeOf priv dev after) table buf left i := by
  induction left generalizing i with
  | zero => rfl
  | succ left ih =>
    rw [Levos.Driver.readSinglyLoop, readSinglyLoop]
    cases le table (4 * i) 4 with
    | none => rfl
    | some b =>
      cases b with
      | zero => rfl
      | succ b =>
        simp only [eval_bind, eval_read_block, Option.bind_some, ih, volume_blocksize]
        cases readSinglyLoop (volumeOf priv dev after) table buf left (i + 1) <;> rfl

theorem eval_singly (after : Bytes) (blockid buf : Nat) :
    (Levos.Driver.readSinglyLinked priv blockid buf).eval (ext2ReadBlock priv dev) =
      ext2ReadSinglyLinked (volumeOf priv dev after) blockid buf := by
  rw [Levos.Driver.readSinglyLinked, ext2ReadSinglyLinked, eval_bind, eval_read_block,
    Option.bind_some, volume_blocksize]
  exact eval_singly_loop after _ buf _ 0

theorem eval_doubly_loop (after table : Bytes) (buf left i : Nat) :
    (Levos.Driver.readDoublyLoop priv table buf left i).eval (ext2ReadBlock priv dev) =
      readDoublyLoop (volumeOf priv dev after) table buf left i := by
  induction left generalizing i with
  | zero => rfl
  | succ left ih =>
    rw [Levos.Driver.readDoublyLoop, readDoublyLoop]
    cases le table (4 * i) 4 with
    | none => rfl
    | some b =>
      cases b with
      | zero => rfl
      | succ b =>
        simp only [eval_bind, eval_singly after, ih, sizeOfSingly, volume_blocksize]
        cases ext2ReadSinglyLinked (volumeOf priv dev after) (b + 1)
            (buf + i * (priv.blocksize * priv.blocksize / 4)) with
        | none => rfl
        | some here =>
          cases readDoublyLoop (volumeOf priv dev after) table buf left (i + 1) <;> rfl

theorem eval_doubly (after : Bytes) (blockid buf : Nat) :
    (Levos.Driver.readDoublyLinked priv blockid buf).eval (ext2ReadBlock priv dev) =
      ext2ReadDoublyLinked (volumeOf priv dev after) blockid buf := by
  rw [Levos.Driver.readDoublyLinked, ext2ReadDoublyLinked, eval_bind, eval_read_block,
    Option.bind_some, volume_blocksize]
  exact eval_doubly_loop after _ buf _ 0

theorem eval_indirect (after : Bytes) (inode : Inode) :
    (Levos.Driver.readIndirect priv inode).eval (ext2ReadBlock priv dev) =
      readIndirect (volumeOf priv dev after) inode := by
  have hsingly : (Levos.Driver.readSinglyPart priv inode).eval (ext2ReadBlock priv dev) =
      if inode.singlyBlock = 0 then some [] else ext2ReadSinglyLinked (volumeOf priv dev after)
        inode.singlyBlock (12 * priv.blocksize) := by
    rw [Levos.Driver.readSinglyPart]
    split
    · rfl
    · exact eval_singly after _ _
  have hdoubly : (Levos.Driver.readDoublyPart priv inode).eval (ext2ReadBlock priv dev) =
      if inode.doublyBlock = 0 then some [] else ext2ReadDoublyLinked (volumeOf priv dev after)
        inode.doublyBlock (priv.blocksize * priv.blocksize / 4 + 12 * priv.blocksize) := by
    rw [Levos.Driver.readDoublyPart]
    split
    · rfl
    · exact eval_doubly after _ _
  simp only [Levos.Driver.readIndirect, readIndirect, eval_bind, hsingly, hdoubly, sizeOfSingly,
    volume_blocksize, eval_pure]
  cases (if inode.singlyBlock = 0 then some [] else _) with
  | none => rfl
  | some here => cases (if inode.doublyBlock = 0 then some [] else _) <;> rfl

theorem eval_full_loop (after : Bytes) (inode : Inode) (bs : List Nat) (i : Nat) :
    (Levos.Driver.readFullLoop priv inode bs i).eval (ext2ReadBlock priv dev) =
      readFullLoop (volumeOf priv dev after) inode bs i := by
  induction bs generalizing i with
  | nil => exact eval_indirect after inode
  | cons b bs ih =>
    rw [Levos.Driver.readFullLoop, readFullLoop]
    split
    · rfl
    · rw [show (volumeOf priv dev after).blocks = priv.sb.blocks.toNat from rfl]
      split
      · rfl
      · simp only [eval_bind, eval_read_block, Option.bind_some, ih, volume_blocksize]
        cases readFullLoop (volumeOf priv dev after) inode bs (i + 1) <;> rfl

theorem eval_list_blocks (after path : Bytes) (dpos : Nat) (bs : List Nat) (j : Nat) :
    (Levos.Driver.listBlocks priv (same after path) dpos bs j).eval (ext2ReadBlock priv dev) =
      listBlocks (volumeOf priv dev after) after dpos bs j := by
  induction bs generalizing j with
  | nil => rfl
  | cons b bs ih =>
    rw [Levos.Driver.listBlocks, listBlocks]
    split
    · rfl
    · simp only [eval_bind, eval_read_block, Option.bind_some, volume_blocksize]
      rw [show (volumeOf priv dev after).block b = ext2ReadBlock priv dev b from rfl]
      rw [same_listing]
      cases listLoop priv.blocksize dpos (dpos - j + 1) j 0 (ext2ReadBlock priv dev b ++ after) with
      | none => rfl
      | some result =>
        cases result with
        | none => rfl
        | some cursor =>
          obtain ⟨j', dirp⟩ := cursor
          by_cases hj : j' = dpos
          · simp [hj]
          · simp [hj, ih]

variable (hread : ∀ n, ∃ i, inodeAt priv dev after n = some i)
include hread

theorem eval_inode (n : Nat) :
    (Levos.Driver.readInode priv (same after path) n).eval (ext2ReadBlock priv dev) =
      some ((volumeOf priv dev after).inode n) := by
  obtain ⟨i, hi⟩ := hread n
  rw [eval_read_inode, same_inode, hi]
  simp [volumeOf, hi]

theorem eval_read_directory (filename dir : Bytes) :
    (Levos.Driver.readDirectory priv (same after path) after filename dir).eval
        (ext2ReadBlock priv dev) =
      ext2ReadDirectory filename (dir ++ after) := by
  rw [Levos.Driver.readDirectory]
  split
  · rename_i h
    exact h.symm
  · rename_i h
    exact h.symm
  · rename_i n _ h
    rw [eval_bind, eval_inode hread, h]
    rfl

theorem eval_search_blocks (filename : Bytes) (bs : List Nat) :
    (Levos.Driver.searchBlocks priv (same after path) filename bs).eval (ext2ReadBlock priv dev) =
      searchBlocks (volumeOf priv dev after) after filename bs := by
  cases bs with
  | nil => rfl
  | cons b bs =>
    rw [Levos.Driver.searchBlocks, searchBlocks]
    split
    · rfl
    · simp only [eval_bind, eval_read_block, Option.bind_some, same_directory,
        eval_read_directory hread, eval_pure]
      rw [show (volumeOf priv dev after).block b = ext2ReadBlock priv dev b from rfl]
      cases ext2ReadDirectory filename (ext2ReadBlock priv dev b ++ after) with
      | none => rfl
      | some rc => cases rc <;> rfl

theorem eval_find_loop (ff : Bytes) (names : List Bytes) (retnode : Nat) (inode : Inode) :
    (Levos.Driver.findLoop priv (same after path) ff names retnode inode).eval
        (ext2ReadBlock priv dev) =
      findLoop (volumeOf priv dev after) after ff names retnode inode := by
  induction names generalizing retnode inode with
  | nil => rfl
  | cons filename rest ih =>
    rw [Levos.Driver.findLoop, findLoop, eval_bind, eval_search_blocks hread]
    cases searchBlocks (volumeOf priv dev after) after filename inode.dbp.toList with
    | none => rfl
    | some result =>
      cases result with
      | skipped => simp [eval_inode hread, ih]
      | missing =>
        by_cases hf : filename = [] <;> simp [hf]
      | found rc => simp [eval_inode hread, ih]

theorem eval_search_root (filename : Bytes) (bs : List Nat) :
    (Levos.Driver.searchRoot priv (same after path) filename bs).eval (ext2ReadBlock priv dev) =
      searchRoot (volumeOf priv dev after) after filename bs := by
  induction bs with
  | nil => rfl
  | cons b bs ih =>
    rw [Levos.Driver.searchRoot, searchRoot]
    split
    · rfl
    · simp only [eval_bind, eval_read_block, Option.bind_some, same_root,
        eval_read_directory hread]
      rw [show (volumeOf priv dev after).block b = ext2ReadBlock priv dev b from rfl]
      cases ext2ReadDirectory filename (ext2ReadBlock priv dev b ++ after) with
      | none => rfl
      | some rc =>
        cases rc with
        | zero => simp [ih]
        | succ rc => rfl

theorem eval_read_root_directory (filename : Bytes) :
    (Levos.Driver.readRootDirectory priv (same after path) filename).eval (ext2ReadBlock priv dev) =
      ext2ReadRootDirectory (volumeOf priv dev after) after filename := by
  rw [Levos.Driver.readRootDirectory, ext2ReadRootDirectory, eval_bind, eval_inode hread,
    Option.bind_some]
  split
  · rfl
  · exact eval_search_root hread filename _

/-- The program for `ext2_find_file_inode` returns what the function returns. -/
theorem eval_find_file_inode {ff : Bytes} (hff : ff ≠ []) :
    (Levos.Driver.findFileInode priv (same after path) ff).eval (ext2ReadBlock priv dev) =
      ext2FindFileInode (volumeOf priv dev after) after ff := by
  unfold Levos.Driver.findFileInode ext2FindFileInode
  simp only
  split
  · rw [eval_bind, eval_inode hread, Option.bind_some, eval_find_loop hread]
  · cases ff with
    | nil => exact absurd rfl hff
    | cons c filename =>
      simp only [Behind.name, eval_bind, eval_read_root_directory hread, eval_inode hread,
        Option.bind_some, eval_pure]
      cases ext2ReadRootDirectory (volumeOf priv dev after) after filename <;> rfl

/-- The program for `ext2_read_file_full` returns what the function returns. -/
theorem eval_read_file_full {fn : Bytes} (hfn : fn ≠ []) :
    (Levos.Driver.readFileFull priv (same after path) fn).eval (ext2ReadBlock priv dev) =
      ext2ReadFileFull (volumeOf priv dev after) after fn := by
  rw [Levos.Driver.readFileFull, ext2ReadFileFull, eval_bind, eval_find_file_inode hread hfn]
  cases ext2FindFileInode (volumeOf priv dev after) after fn with
  | none => rfl
  | some found =>
    obtain ⟨inodeid, inode⟩ := found
    cases inodeid with
    | zero => rfl
    | succ n =>
      simp only [Option.bind_some, Nat.add_eq_zero_iff, one_ne_zero, and_false, if_false, eval_bind,
        eval_inode hread, eval_full_loop after, eval_pure]
      cases readFullLoop (volumeOf priv dev after) ((volumeOf priv dev after).inode (n + 1))
        ((volumeOf priv dev after).inode (n + 1)).dbp.toList 0 <;> rfl

/-- The program for `ext2_list_directory` returns what the function returns. -/
theorem eval_list_directory (fresh : Vector UInt8 dNameSize) {f : File} (hf : f.respath ≠ []) :
    (Levos.Driver.listDirectory priv (same after path) fresh f).eval (ext2ReadBlock priv dev) =
      ext2ListDirectory (volumeOf priv dev after) after fresh f := by
  rw [Levos.Driver.listDirectory, ext2ListDirectory, eval_bind, eval_find_file_inode hread hf,
    volume_blocksize]
  cases ext2FindFileInode (volumeOf priv dev after) after f.respath with
  | none => rfl
  | some found =>
    obtain ⟨inodeid, inode⟩ := found
    by_cases hpos : f.dpos < 12 * (priv.blocksize / 8)
    · simp only [Option.bind_some, if_pos hpos, eval_bind, eval_list_blocks]
      cases listBlocks (volumeOf priv dev after) after f.dpos inode.dbp.toList 0 with
      | none => rfl
      | some cursor =>
        cases cursor with
        | none => rfl
        | some dirp =>
          simp only [Option.bind_some]
          cases dirp[6]? with
          | none => rfl
          | some namelength =>
            simp only
            split <;> rfl
    · simp only [Option.bind_some, if_neg hpos, eval_stop]

end Refinement

end Levos.Proofs.Driver
