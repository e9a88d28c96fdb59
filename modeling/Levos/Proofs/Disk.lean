import Levos.Disk
import Levos.Library.Loads
import Levos.Proofs.Entries

namespace Levos.Proofs.Disk

open Levos Library Entries

/-- A number read inside the known bytes. -/
theorem le_eq (mem : Bytes) (h : i + w ≤ mem.length) :
    le mem i w = some (ofBytes ((mem.drop i).take w)) := by
  induction w generalizing i with
  | zero => rfl
  | succ w ih =>
    have hi : i < mem.length := by omega
    rw [le, List.getElem?_eq_getElem hi, ih (by omega), List.drop_eq_getElem_cons hi,
      List.take_succ_cons, ofBytes_cons]

theorem le_none (mem : Bytes) (h : mem.length < i + w) (hw : 0 < w) : le mem i w = none := by
  induction w generalizing i with
  | zero => omega
  | succ w ih =>
    by_cases hi : i < mem.length
    · cases w with
      | zero => omega
      | succ w =>
        rw [le, ih (by omega) (by omega)]
        cases mem[i]? <;> rfl
    · rw [le, List.getElem?_eq_none (by omega)]

/-- The number in `width` bytes of the device. -/
def numberAt (dev : Disk) (pos width : Nat) : Nat := ofBytes (slice dev pos width)

theorem numberAt_lt (dev : Disk) (pos width : Nat) : numberAt dev pos width < 256 ^ width :=
  load_lt dev pos width

theorem numberAt_add (dev : Disk) (pos n k : Nat) :
    numberAt dev pos (n + k) = numberAt dev pos n + 256 ^ n * numberAt dev (pos + n) k := by
  rw [numberAt, slice_append, ofBytes_append, slice_length, numberAt, numberAt]

theorem le_slice (dev : Disk) (a : Nat) (after : Bytes) (h : i + w ≤ n) :
    le (slice dev a n ++ after) i w = some (numberAt dev (a + i) w) := by
  refine le_append after ?_
  rw [le_eq _ (by rwa [slice_length]), slice_drop_take dev a h, numberAt]

theorem numberAt_blit (dev : Disk) (pos width n : Nat) :
    numberAt (blit dev pos (toBytes width n)) pos width = n % 256 ^ width :=
  load_store dev pos width n

theorem numberAt_blit_apart (dev : Disk) {bs : Bytes} (h : a + w ≤ k ∨ k + bs.length ≤ a) :
    numberAt (blit dev k bs) a w = numberAt dev a w :=
  load_blit_apart dev h

variable {priv : Ext2Priv} {dev : Disk}

theorem superblock_blocksize {sb : Superblock} (h : sb.blocksizeHint.toNat % 32 ≤ 21) :
    sb.blocksize = 1024 * 2 ^ (sb.blocksizeHint.toNat % 32) := by
  rw [Superblock.blocksize, Nat.shiftLeft_eq]
  refine Nat.mod_eq_of_lt ?_
  calc 1024 * 2 ^ (sb.blocksizeHint.toNat % 32) ≤ 1024 * 2 ^ 21 :=
        Nat.mul_le_mul_left _ (Nat.pow_le_pow_right (by omega) h)
    _ < 2 ^ 32 := by norm_num

/-- A larger hint shifts the block size to zero. -/
theorem superblock_blocksize_pos (sb : Superblock) :
    0 < sb.blocksize ↔ sb.blocksizeHint.toNat % 32 ≤ 21 := by
  constructor
  · intro hpos
    by_contra hlarge
    obtain ⟨j, hj⟩ := Nat.exists_eq_add_of_le (Nat.lt_of_not_le hlarge)
    rw [Superblock.blocksize, Nat.shiftLeft_eq, hj,
      show 1024 * 2 ^ (21 + 1 + j) = 2 ^ 32 * 2 ^ j by ring, Nat.mul_mod_right] at hpos
    exact Nat.lt_irrefl 0 hpos
  · intro h
    rw [superblock_blocksize h]
    exact Nat.mul_pos (by decide) (Nat.two_pow_pos _)

theorem hint_le (priv : Ext2Priv) : priv.sb.blocksizeHint.toNat % 32 ≤ 21 :=
  (superblock_blocksize_pos priv.sb).mp priv.blocksize_pos

theorem blocksize_shift (priv : Ext2Priv) :
    priv.blocksize = 1024 * 2 ^ (priv.sb.blocksizeHint.toNat % 32) :=
  superblock_blocksize (hint_le priv)

/-- The block sizes a probed volume can have. -/
theorem blocksize_eq (priv : Ext2Priv) : ∃ k ≤ 21, priv.blocksize = 1024 * 2 ^ k :=
  ⟨_, hint_le priv, blocksize_shift priv⟩

theorem blocksize_le (priv : Ext2Priv) : 1024 ≤ priv.blocksize := by
  obtain ⟨k, -, h⟩ := blocksize_eq priv
  have := Nat.two_pow_pos k
  omega

theorem inodesPerBlock_mul (priv : Ext2Priv) : priv.inodesPerBlock * 128 = priv.blocksize := by
  obtain ⟨k, -, h⟩ := blocksize_eq priv
  rw [Ext2Priv.inodesPerBlock]
  omega

theorem sectors_mul (priv : Ext2Priv) : priv.sectors * 512 = priv.blocksize := by
  obtain ⟨k, -, h⟩ := blocksize_eq priv
  have := Nat.two_pow_pos k
  rw [Ext2Priv.sectors, Ext2Priv.sectorsPerBlock, if_neg (by omega)]
  omega

/-- The first byte of a block on the device. -/
def place (priv : Ext2Priv) (block : Nat) : Nat := block * priv.sectors % 2 ^ 32 * 512

theorem read_block_eq (priv : Ext2Priv) (dev : Disk) (block : Nat) :
    ext2ReadBlock priv dev block = slice dev (place priv block) priv.blocksize := by
  rw [ext2ReadBlock, Levos.Disk.read, sectors_mul, place]

/-- Up to the last sector a block starts where its number says. -/
theorem place_eq (h : (block + 1) * priv.sectors ≤ 2 ^ 32) :
    place priv block = block * priv.blocksize := by
  have hpos : 0 < priv.sectors := by
    have := sectors_mul priv
    have := blocksize_le priv
    omega
  have hlt : block * priv.sectors < 2 ^ 32 := by
    rw [Nat.succ_mul] at h
    omega
  rw [place, Nat.mod_eq_of_lt hlt, Nat.mul_assoc, sectors_mul]

/-- A block that is read, changed in part and written changes in that part. -/
theorem write_block_splice (dev : Disk) (after : Bytes) (block : Nat) {xs : Bytes}
    (h : pos + xs.length ≤ priv.blocksize) :
    ext2WriteBlock priv dev (splice (ext2ReadBlock priv dev block ++ after) pos xs) block =
      blit dev (place priv block + pos) xs := by
  have hlen : (ext2ReadBlock priv dev block).length = priv.blocksize := by
    rw [read_block_eq, slice_length]
  have hfits : pos + xs.length ≤ (ext2ReadBlock priv dev block).length := by rwa [hlen]
  rw [ext2WriteBlock, Levos.Disk.write, splice_append after hfits, sectors_mul,
    List.take_left' (by rw [splice_length hfits, hlen]), read_block_eq]
  exact blit_splice dev (place priv block) h

end Levos.Proofs.Disk
