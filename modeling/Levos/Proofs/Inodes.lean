import Levos.Proofs.Disk

namespace Levos.Proofs.Inodes

open Levos Library Disk

variable {priv : Ext2Priv} {dev : Levos.Disk} {i j : Nat}

def groupOf (priv : Ext2Priv) (i : Nat) : Nat := (i - 1) / priv.sb.inodesInBlockgroup.toNat

def indexOf (priv : Ext2Priv) (i : Nat) : Nat := (i - 1) % priv.sb.inodesInBlockgroup.toNat

/-- An inode of the volume whose group has its descriptor in the first block of
the descriptor table. -/
structure Described (priv : Ext2Priv) (i : Nat) : Prop where
  first : 1 ≤ i
  last : i ≤ priv.sb.inodes.toNat
  descriptor : 32 * (groupOf priv i + 1) ≤ priv.blocksize

/-- The first block of the inode table of a group, from its descriptor. -/
def inodeTable (priv : Ext2Priv) (dev : Levos.Disk) (g : Nat) : Nat :=
  numberAt dev (place priv priv.firstBgd + (32 * g + 8)) 4

/-- The blocks of one inode table. -/
def tableBlocks (priv : Ext2Priv) : Nat :=
  (priv.sb.inodesInBlockgroup.toNat * 128 + (priv.blocksize - 1)) / priv.blocksize

/-- The geometry of a volume. The inode bitmap of a group is one block of at
most 64 KiB, so an inode table is far smaller than `table_bytes` asks for; the
device numbers its sectors with 32 bits. -/
structure Laid (priv : Ext2Priv) (dev : Levos.Disk) : Prop where
  inodes : 0 < priv.sb.inodesInBlockgroup.toNat
  table_bytes : priv.sb.inodesInBlockgroup.toNat * 128 ≤ 2 ^ 32
  descriptors_on_device : (priv.firstBgd + 1) * priv.sectors ≤ 2 ^ 32
  tables_on_device : ∀ i, Described priv i →
    (inodeTable priv dev (groupOf priv i) + tableBlocks priv) * priv.sectors ≤ 2 ^ 32
  tables_apart : ∀ i j, Described priv i → Described priv j → groupOf priv i ≠ groupOf priv j →
    inodeTable priv dev (groupOf priv i) + tableBlocks priv ≤ inodeTable priv dev (groupOf priv j) ∨
    inodeTable priv dev (groupOf priv j) + tableBlocks priv ≤ inodeTable priv dev (groupOf priv i)
  descriptors_apart : ∀ i, Described priv i →
    priv.firstBgd < inodeTable priv dev (groupOf priv i) ∨
    inodeTable priv dev (groupOf priv i) + tableBlocks priv ≤ priv.firstBgd

/-- The first byte of an inode's record. -/
def slot (priv : Ext2Priv) (dev : Levos.Disk) (i : Nat) : Nat :=
  inodeTable priv dev (groupOf priv i) * priv.blocksize + 128 * indexOf priv i

theorem sectors_pos (priv : Ext2Priv) : 0 < priv.sectors := by
  have := sectors_mul priv
  have := blocksize_le priv
  omega

theorem index_div (priv : Ext2Priv) (index : Nat) :
    index * 128 / priv.blocksize = index / priv.inodesPerBlock := by
  rw [← inodesPerBlock_mul, Nat.mul_div_mul_right _ _ (by omega)]

theorem table_bytes_le (priv : Ext2Priv) :
    priv.sb.inodesInBlockgroup.toNat * 128 ≤ tableBlocks priv * priv.blocksize := by
  have hpos : 0 < priv.blocksize := priv.blocksize_pos
  have hmod := Nat.mod_lt (priv.sb.inodesInBlockgroup.toNat * 128 + (priv.blocksize - 1)) hpos
  have hdiv := Nat.div_add_mod' (priv.sb.inodesInBlockgroup.toNat * 128 + (priv.blocksize - 1))
    priv.blocksize
  rw [tableBlocks]
  omega

theorem slot_in_table (h : Laid priv dev) (i : Nat) :
    128 * indexOf priv i + 128 ≤ tableBlocks priv * priv.blocksize := by
  have hindex : indexOf priv i < priv.sb.inodesInBlockgroup.toNat := Nat.mod_lt _ h.inodes
  have := table_bytes_le priv
  omega

theorem index_block_lt (h : Laid priv dev) (i : Nat) :
    indexOf priv i / priv.inodesPerBlock < tableBlocks priv := by
  have hpos : 0 < priv.blocksize := priv.blocksize_pos
  have := slot_in_table h i
  rw [← index_div, Nat.div_lt_iff_lt_mul hpos]
  omega

theorem record_fits (priv : Ext2Priv) (index : Nat) :
    128 * (index % priv.inodesPerBlock) + 128 ≤ priv.blocksize := by
  have hmul := inodesPerBlock_mul priv
  have hlarge := blocksize_le priv
  have hmod : index % priv.inodesPerBlock < priv.inodesPerBlock := Nat.mod_lt _ (by omega)
  omega

theorem record_block_on_device (h : Laid priv dev) (hi : Described priv i) :
    (inodeTable priv dev (groupOf priv i) + indexOf priv i / priv.inodesPerBlock + 1) *
      priv.sectors ≤ 2 ^ 32 := by
  have hlt := index_block_lt h i
  exact (Nat.mul_le_mul_right _ (by omega)).trans (h.tables_on_device i hi)

/-- Where the record of an inode is when its group's table starts with this block. -/
def recordPlace (priv : Ext2Priv) (table i : Nat) : Nat × Nat :=
  ((table + indexOf priv i * 128 % 2 ^ 32 / priv.blocksize) % 2 ^ 32,
    indexOf priv i % priv.inodesPerBlock)

/-- The lookup of a valid inode, before it is known where its descriptor is. -/
theorem inode_place_of (hipg : 0 < priv.sb.inodesInBlockgroup.toNat) (hfirst : 1 ≤ i)
    (hlast : i ≤ priv.sb.inodes.toNat) (after : Bytes) :
    inodePlace priv dev after i =
      (le (ext2ReadBlock priv dev priv.firstBgd ++ after) (32 * groupOf priv i + 8) 4).map
        (fun table => recordPlace priv table i) := by
  have hsmall := priv.sb.inodes.toNat_lt
  have hnumber : (i + (2 ^ 32 - 1)) % 2 ^ 32 = i - 1 := by omega
  simp only [inodePlace, placeIn, hnumber, if_neg (Nat.ne_of_gt hipg)]
  rw [show (i - 1) / priv.sb.inodesInBlockgroup.toNat = groupOf priv i from rfl]
  cases le (ext2ReadBlock priv dev priv.firstBgd ++ after) (32 * groupOf priv i + 8) 4 with
  | none => rfl
  | some table => rfl

/-- The place the three functions compute. -/
theorem inode_place_eq (h : Laid priv dev) (hi : Described priv i) (after : Bytes) :
    inodePlace priv dev after i = some (inodeTable priv dev (groupOf priv i) +
      indexOf priv i / priv.inodesPerBlock, indexOf priv i % priv.inodesPerBlock) := by
  have hdesc := hi.descriptor
  have hindex : indexOf priv i < priv.sb.inodesInBlockgroup.toNat := Nat.mod_lt _ h.inodes
  have hwrap : indexOf priv i * 128 % 2 ^ 32 = indexOf priv i * 128 :=
    Nat.mod_eq_of_lt (by have := h.table_bytes; omega)
  have hblock : inodeTable priv dev (groupOf priv i) + indexOf priv i / priv.inodesPerBlock <
      2 ^ 32 := by
    have hlt := index_block_lt h i
    have hreach := h.tables_on_device i hi
    have := Nat.le_mul_of_pos_right (inodeTable priv dev (groupOf priv i) + tableBlocks priv)
      (sectors_pos priv)
    omega
  have hread := le_slice dev (place priv priv.firstBgd) after
    (show 32 * groupOf priv i + 8 + 4 ≤ priv.blocksize by omega)
  rw [inode_place_of h.inodes hi.first hi.last, read_block_eq, hread, Option.map_some, recordPlace,
    hwrap, index_div]
  rw [show numberAt dev (place priv priv.firstBgd + (32 * groupOf priv i + 8)) 4 =
    inodeTable priv dev (groupOf priv i) from rfl, Nat.mod_eq_of_lt hblock]

/-- Block and index name the record's first byte. -/
theorem slot_eq (h : Laid priv dev) (hi : Described priv i) :
    place priv (inodeTable priv dev (groupOf priv i) + indexOf priv i / priv.inodesPerBlock) +
      128 * (indexOf priv i % priv.inodesPerBlock) = slot priv dev i := by
  have hsplit := Nat.div_add_mod (indexOf priv i) priv.inodesPerBlock
  rw [place_eq (record_block_on_device h hi), slot, Nat.add_mul, Nat.add_assoc]
  congr 1
  calc indexOf priv i / priv.inodesPerBlock * priv.blocksize +
        128 * (indexOf priv i % priv.inodesPerBlock)
      = 128 * (priv.inodesPerBlock * (indexOf priv i / priv.inodesPerBlock) +
        indexOf priv i % priv.inodesPerBlock) := by rw [← inodesPerBlock_mul]; ring
    _ = 128 * indexOf priv i := by rw [hsplit]

/-- Two inodes have two records. -/
theorem slots_apart (h : Laid priv dev) (hi : Described priv i) (hj : Described priv j)
    (hne : j ≠ i) : slot priv dev j + 128 ≤ slot priv dev i ∨
      slot priv dev i + 128 ≤ slot priv dev j := by
  by_cases hg : groupOf priv i = groupOf priv j
  · have hindex : indexOf priv i ≠ indexOf priv j := by
      intro heq
      have hdi := Nat.div_add_mod (i - 1) priv.sb.inodesInBlockgroup.toNat
      have hdj := Nat.div_add_mod (j - 1) priv.sb.inodesInBlockgroup.toNat
      rw [show (i - 1) / _ = groupOf priv i from rfl, show (i - 1) % _ = indexOf priv i from rfl,
        hg, heq] at hdi
      have hsame : i - 1 = j - 1 := hdi.symm.trans hdj
      have := hi.first
      have := hj.first
      omega
    rw [slot, slot, hg]
    omega
  · have hsi := slot_in_table h i
    have hsj := slot_in_table h j
    rcases h.tables_apart i j hi hj hg with hle | hle
    · have := Nat.mul_le_mul_right priv.blocksize hle
      rw [Nat.add_mul] at this
      exact .inr (by rw [slot, slot]; omega)
    · have := Nat.mul_le_mul_right priv.blocksize hle
      rw [Nat.add_mul] at this
      exact .inl (by rw [slot, slot]; omega)

/-- A record is not in the block of descriptors. -/
theorem slot_descriptors_apart (h : Laid priv dev) (hi : Described priv i) :
    place priv priv.firstBgd + priv.blocksize ≤ slot priv dev i ∨
      slot priv dev i + 128 ≤ place priv priv.firstBgd := by
  have hslot := slot_in_table h i
  rw [place_eq h.descriptors_on_device, slot]
  rcases h.descriptors_apart i hi with hlt | hle
  · have := Nat.mul_le_mul_right priv.blocksize (Nat.succ_le_of_lt hlt)
    rw [Nat.succ_mul] at this
    omega
  · have := Nat.mul_le_mul_right priv.blocksize hle
    rw [Nat.add_mul] at this
    omega

/-- A record stored in its slot leaves the descriptors alone. -/
theorem table_kept (h : Laid priv dev) (hi : Described priv i) (v : Vector UInt8 128)
    (hg : 32 * (g + 1) ≤ priv.blocksize) :
    inodeTable priv (blit dev (slot priv dev i) v.toList) g = inodeTable priv dev g := by
  refine numberAt_blit_apart dev ?_
  have := slot_descriptors_apart h hi
  rw [Vector.length_toList]
  omega

theorem Laid.write (h : Laid priv dev) (hi : Described priv i) (v : Vector UInt8 128) :
    Laid priv (blit dev (slot priv dev i) v.toList) := by
  refine ⟨h.inodes, h.table_bytes, h.descriptors_on_device, ?_, ?_, ?_⟩
  · intro j hj
    rw [table_kept h hi v hj.descriptor]
    exact h.tables_on_device j hj
  · intro j k hj hk hne
    rw [table_kept h hi v hj.descriptor, table_kept h hi v hk.descriptor]
    exact h.tables_apart j k hj hk hne
  · intro j hj
    rw [table_kept h hi v hj.descriptor]
    exact h.descriptors_apart j hj

theorem slot_kept (h : Laid priv dev) (hi : Described priv i) (hj : Described priv j)
    (v : Vector UInt8 128) :
    slot priv (blit dev (slot priv dev i) v.toList) j = slot priv dev j := by
  rw [slot, table_kept h hi v hj.descriptor, slot]

/-- Reading an inode reads its record. -/
theorem read_inode_eq (h : Laid priv dev) (hi : Described priv i) (after : Bytes) :
    ext2ReadInode priv dev after i = some (slice dev (slot priv dev i) 128) := by
  have hread := slice_drop_take dev (place priv (inodeTable priv dev (groupOf priv i) +
    indexOf priv i / priv.inodesPerBlock)) (record_fits priv (indexOf priv i))
  rw [slot_eq h hi, ← read_block_eq] at hread
  rw [ext2ReadInode, inode_place_eq h hi after]
  exact congrArg some hread

/-- Writing an inode replaces its record. -/
theorem write_inode_eq (h : Laid priv dev) (hi : Described priv i) (after : Bytes)
    (v : Vector UInt8 128) : ext2WriteInode priv dev after v.toList i =
      some (blit dev (slot priv dev i) v.toList) := by
  have hfits : 128 * (indexOf priv i % priv.inodesPerBlock) + v.toList.length ≤ priv.blocksize := by
    rw [Vector.length_toList]
    exact record_fits priv (indexOf priv i)
  have hwrite := write_block_splice dev [] (inodeTable priv dev (groupOf priv i) +
    indexOf priv i / priv.inodesPerBlock) hfits
  rw [List.append_nil, slot_eq h hi] at hwrite
  rw [ext2WriteInode, inode_place_eq h hi after]
  exact congrArg some hwrite

/-- A written inode reads back; every other inode, and every byte of the device
outside the place `ext2_get_inode_block` reports, stays as it was. -/
theorem inode_write_read (h : Laid priv dev) (hi : Described priv i) (after : Bytes)
    (v : Vector UInt8 128) : ∃ dev' block offset,
      ext2GetInodeBlock priv dev after i = some (block, offset) ∧
      ext2WriteInode priv dev after v.toList i = some dev' ∧
      ext2ReadInode priv dev' after i = some v.toList ∧
      (∀ j, Described priv j → j ≠ i →
        ext2ReadInode priv dev' after j = ext2ReadInode priv dev after j) ∧
      ∀ a, a < block * priv.blocksize + 128 * offset ∨
        block * priv.blocksize + 128 * offset + 128 ≤ a → dev' a = dev a := by
  have hafter := h.write hi v
  refine ⟨_, _, _, inode_place_eq h hi after, write_inode_eq h hi after v, ?_, ?_, ?_⟩
  · have hback := slice_blit dev (slot priv dev i) v.toList
    rw [Vector.length_toList] at hback
    rw [read_inode_eq hafter hi after, slot_kept h hi hi v, hback]
  · intro j hj hne
    rw [read_inode_eq hafter hj after, slot_kept h hi hj v, read_inode_eq h hj after,
      slice_blit_apart]
    rw [Vector.length_toList]
    exact slots_apart h hi hj hne
  · intro a ha
    rw [← place_eq (record_block_on_device h hi), slot_eq h hi] at ha
    refine blit_outside dev ?_
    rw [Vector.length_toList]
    exact ha

/-- Wherever a block number leads, a block starts there. -/
theorem place_aligned (priv : Ext2Priv) (block : Nat) :
    ∃ m, place priv block = m * priv.blocksize := by
  obtain ⟨k, hk, hsize⟩ := blocksize_eq priv
  have hsectors : priv.sectors = 2 ^ (k + 1) := by
    have := sectors_mul priv
    rw [Nat.pow_succ]
    omega
  have hwrap : 2 ^ 32 = 2 ^ (31 - k) * priv.sectors := by
    rw [hsectors, ← Nat.pow_add]
    congr 1
    omega
  refine ⟨block % 2 ^ (31 - k), ?_⟩
  rw [place, hwrap, Nat.mul_mod_mul_right, Nat.mul_assoc, sectors_mul]

/-- Records of different indices are apart, in whatever blocks they are. -/
theorem records_apart (priv : Ext2Priv) (b c : Nat) (hm : m < priv.inodesPerBlock)
    (hn : n < priv.inodesPerBlock) (hne : m ≠ n) :
    place priv b + 128 * m + 128 ≤ place priv c + 128 * n ∨
      place priv c + 128 * n + 128 ≤ place priv b + 128 * m := by
  obtain ⟨x, hx⟩ := place_aligned priv b
  obtain ⟨y, hy⟩ := place_aligned priv c
  have hsize := inodesPerBlock_mul priv
  have hxm : place priv b + 128 * m = 128 * (m + x * priv.inodesPerBlock) := by
    rw [hx, ← hsize]
    ring
  have hyn : place priv c + 128 * n = 128 * (n + y * priv.inodesPerBlock) := by
    rw [hy, ← hsize]
    ring
  have hdiff : m + x * priv.inodesPerBlock ≠ n + y * priv.inodesPerBlock := by
    intro heq
    have hmod := congrArg (· % priv.inodesPerBlock) heq
    simp only [Nat.add_mul_mod_self_right, Nat.mod_eq_of_lt hm, Nat.mod_eq_of_lt hn] at hmod
    exact hne hmod
  omega

/-- The record that is read when the descriptor names this table. -/
theorem read_inode_table (hipg : 0 < priv.sb.inodesInBlockgroup.toNat) (hfirst : 1 ≤ i)
    (hlast : i ≤ priv.sb.inodes.toNat) (after : Bytes) :
    ext2ReadInode priv dev after i =
      (le (ext2ReadBlock priv dev priv.firstBgd ++ after) (32 * groupOf priv i + 8) 4).map
        (fun table => slice dev (place priv (recordPlace priv table i).1 +
          128 * (indexOf priv i % priv.inodesPerBlock)) 128) := by
  rw [ext2ReadInode, inode_place_of hipg hfirst hlast]
  cases le (ext2ReadBlock priv dev priv.firstBgd ++ after) (32 * groupOf priv i + 8) 4 with
  | none => rfl
  | some table =>
    have hread := slice_drop_take dev (place priv (recordPlace priv table i).1)
      (record_fits priv (indexOf priv i))
    rw [← read_block_eq] at hread
    exact congrArg some hread

/-- An inode at another index in its block reads as before, even if its descriptor is
not in the loaded block. -/
theorem read_other_index (h : Laid priv dev) (hi : Described priv i) (after : Bytes)
    (v : Vector UInt8 128) (hfirst : 1 ≤ j) (hlast : j ≤ priv.sb.inodes.toNat)
    (hne : indexOf priv j % priv.inodesPerBlock ≠ indexOf priv i % priv.inodesPerBlock) :
    ext2ReadInode priv (blit dev (slot priv dev i) v.toList) after j =
      ext2ReadInode priv dev after j := by
  have hpos : 0 < priv.inodesPerBlock := by
    have := record_fits priv 0
    have := inodesPerBlock_mul priv
    omega
  have hblock : ext2ReadBlock priv (blit dev (slot priv dev i) v.toList) priv.firstBgd =
      ext2ReadBlock priv dev priv.firstBgd := by
    rw [read_block_eq, read_block_eq]
    refine slice_blit_apart dev ?_
    rw [Vector.length_toList]
    exact slot_descriptors_apart h hi
  rw [read_inode_table h.inodes hfirst hlast, read_inode_table h.inodes hfirst hlast, hblock]
  congr 1
  funext table
  refine slice_blit_apart dev ?_
  rw [Vector.length_toList, ← slot_eq h hi]
  exact records_apart priv _ _ (Nat.mod_lt _ hpos) (Nat.mod_lt _ hpos) hne

/-- A written inode reads back, and every other valid inode and every byte of the
device outside its place stays as it was. -/
def WritesAlone (priv : Ext2Priv) (dev : Levos.Disk) (i : Nat) (after : Bytes)
    (v : Vector UInt8 128) : Prop :=
  ∃ dev' block offset,
    ext2GetInodeBlock priv dev after i = some (block, offset) ∧
    ext2WriteInode priv dev after v.toList i = some dev' ∧
    ext2ReadInode priv dev' after i = some v.toList ∧
    (∀ j, 1 ≤ j → j ≤ priv.sb.inodes.toNat → j ≠ i →
      ext2ReadInode priv dev' after j = ext2ReadInode priv dev after j) ∧
    ∀ a, a < block * priv.blocksize + 128 * offset ∨
      block * priv.blocksize + 128 * offset + 128 ≤ a → dev' a = dev a

/-- Behind the loaded block any number may stand. -/
theorem le_behind (b : Bytes) (h : b.length ≤ pos) (hn : n < 2 ^ 32) :
    le (b ++ (List.replicate (pos - b.length) 0 ++ toBytes 4 n)) pos 4 = some n := by
  rw [le_eq _ (by simp; omega), ← List.append_assoc, List.drop_left' (by simp; omega),
    List.take_of_length_le (by simp), ofBytes_toBytes, Nat.mod_eq_of_lt (by omega)]

/-- The heap may lead the lookup of an inode whose descriptor is not in the loaded block to
the record of any other with its index. -/
theorem misled (h : Laid priv dev) (hi : Described priv i) (hfirst : 1 ≤ j)
    (hlast : j ≤ priv.sb.inodes.toNat) (hout : ¬ Described priv j)
    (hsame : indexOf priv j % priv.inodesPerBlock = indexOf priv i % priv.inodesPerBlock) :
    ∃ after, ∀ dev' : Levos.Disk,
      ext2ReadInode priv dev' after j = some (slice dev' (slot priv dev i) 128) := by
  obtain ⟨k, -, hk⟩ := blocksize_eq priv
  have hbehind : priv.blocksize ≤ 32 * groupOf priv j + 8 := by
    by_contra hlt
    exact hout ⟨hfirst, hlast, by omega⟩
  obtain ⟨target, htarget⟩ : ∃ t, t = inodeTable priv dev (groupOf priv i) +
      indexOf priv i / priv.inodesPerBlock := ⟨_, rfl⟩
  obtain ⟨skip, hskip⟩ : ∃ n, n = indexOf priv j * 128 % 2 ^ 32 / priv.blocksize := ⟨_, rfl⟩
  have htarget_lt : target < 2 ^ 32 := by
    have hreach := record_block_on_device h hi
    rw [← htarget] at hreach
    have := Nat.le_mul_of_pos_right (target + 1) (sectors_pos priv)
    omega
  have hskip_lt : skip < 2 ^ 32 := by
    rw [hskip]
    exact (Nat.div_le_self _ _).trans_lt (Nat.mod_lt _ (by norm_num))
  -- the number that brings the lookup to the block of `i`
  obtain ⟨table, htable⟩ : ∃ n, n = (target + (2 ^ 32 - skip)) % 2 ^ 32 := ⟨_, rfl⟩
  refine ⟨List.replicate (32 * groupOf priv j + 8 - priv.blocksize) 0 ++ toBytes 4 table, ?_⟩
  intro dev'
  have hlen : (ext2ReadBlock priv dev' priv.firstBgd).length = priv.blocksize := by
    rw [read_block_eq, slice_length]
  have hread := le_behind (n := table) (ext2ReadBlock priv dev' priv.firstBgd)
    (hlen.trans_le hbehind) (by omega)
  rw [hlen] at hread
  have hplace : (recordPlace priv table j).1 = target := by
    change (table + indexOf priv j * 128 % 2 ^ 32 / priv.blocksize) % 2 ^ 32 = target
    rw [← hskip]
    omega
  rw [read_inode_table h.inodes hfirst hlast, hread, Option.map_some, hplace, hsame, htarget,
    slot_eq h hi]

/-- Then a write of the one changes what is read for the other. -/
theorem misled_changed (h : Laid priv dev) (hi : Described priv i) (hfirst : 1 ≤ j)
    (hlast : j ≤ priv.sb.inodes.toNat) (hout : ¬ Described priv j)
    (hsame : indexOf priv j % priv.inodesPerBlock = indexOf priv i % priv.inodesPerBlock) :
    ∃ after v, ¬ WritesAlone priv dev i after v := by
  obtain ⟨after, hmisled⟩ := misled h hi hfirst hlast hout hsame
  -- a record whose first byte is not the one on the device
  let v : Vector UInt8 128 := Vector.replicate 128 (dev (slot priv dev i) + 1)
  refine ⟨after, v, ?_⟩
  rintro ⟨dev', -, -, -, hwrite, -, hothers, -⟩
  rw [write_inode_eq h hi after v] at hwrite
  cases hwrite
  have hback := slice_blit dev (slot priv dev i) v.toList
  rw [Vector.length_toList] at hback
  have hkept := hothers j hfirst hlast (fun he => hout (he ▸ hi))
  rw [hmisled, hmisled, hback] at hkept
  have hbyte := congrArg (·[0]?) (Option.some.inj hkept)
  rw [slice_get dev _ (by decide)] at hbyte
  simp [v] at hbyte

/-- Whatever is in memory behind the loaded descriptors, a write changes no other inode,
exactly if every valid inode at the same index in its block has its descriptor there. -/
theorem inode_write_read_iff (h : Laid priv dev) (hi : Described priv i) :
    (∀ after v, WritesAlone priv dev i after v) ↔
      ∀ j, 1 ≤ j → j ≤ priv.sb.inodes.toNat →
        indexOf priv j % priv.inodesPerBlock = indexOf priv i % priv.inodesPerBlock →
        Described priv j := by
  constructor
  · intro hwrites j hfirst hlast hsame
    by_contra hout
    obtain ⟨after, v, hchanged⟩ := misled_changed h hi hfirst hlast hout hsame
    exact hchanged (hwrites after v)
  · intro hall after v
    obtain ⟨dev', block, offset, hplace, hwrite, hread, hothers, houtside⟩ :=
      inode_write_read h hi after v
    refine ⟨dev', block, offset, hplace, hwrite, hread, ?_, houtside⟩
    intro j hfirst hlast hne
    by_cases hsame : indexOf priv j % priv.inodesPerBlock = indexOf priv i % priv.inodesPerBlock
    · exact hothers j (hall j hfirst hlast hsame) hne
    · rw [write_inode_eq h hi after v] at hwrite
      cases hwrite
      exact read_other_index h hi after v hfirst hlast hsame

/-- A volume of two groups with eight blocks of 1024 bytes and eight inodes each. -/
def smallPriv : Ext2Priv := ⟨⟨16, 17, 1, 0, 8, 8⟩, by decide, by decide⟩

/-- Its superblock, its two descriptors and its four bitmaps: block 8, the
blocks from 12 on and the inodes from 12 on are free. -/
def smallBytes : List (Nat × UInt8) :=
  [(1024, 16), (1028, 17), (1036, 6), (1040, 5), (1044, 1), (1056, 8), (1064, 8),
    (1080, 0x53), (1081, 0xEF),
    (2048, 3), (2052, 4), (2056, 5), (2060, 1),
    (2080, 9), (2084, 10), (2088, 11), (2092, 5), (2094, 5),
    (3072, 0x7F), (4096, 0xFF), (9216, 0x07), (10240, 0x07)]

def smallDisk : Levos.Disk := fun a => (smallBytes.lookup a).getD 0

theorem small_probed : (ext2Probe smallDisk).map Ext2Priv.sb = some smallPriv.sb := by
  decide

theorem small_group (h : Described smallPriv i) :
    groupOf smallPriv i = 0 ∨ groupOf smallPriv i = 1 := by
  have hlast : i ≤ 16 := h.last
  have hgroup : groupOf smallPriv i = (i - 1) / 8 := rfl
  omega

theorem small_laid : Laid smallPriv smallDisk := by
  have h0 : inodeTable smallPriv smallDisk 0 = 5 := by decide
  have h1 : inodeTable smallPriv smallDisk 1 = 11 := by decide
  have hblocks : tableBlocks smallPriv = 1 := by decide
  have hsectors : smallPriv.sectors = 2 := by decide
  have hfirst : smallPriv.firstBgd = 2 := by decide
  refine ⟨by decide, by decide, by rw [hfirst, hsectors]; decide, ?_, ?_, ?_⟩
  · intro i hi
    rw [hblocks, hsectors]
    rcases small_group hi with hg | hg
    · rw [hg, h0]
      decide
    · rw [hg, h1]
      decide
  · intro i j hi hj hne
    rw [hblocks]
    rcases small_group hi with hg | hg
    · rcases small_group hj with hg' | hg'
      · exact absurd (hg.trans hg'.symm) hne
      · rw [hg, hg', h0, h1]
        decide
    · rcases small_group hj with hg' | hg'
      · rw [hg, hg', h0, h1]
        decide
      · exact absurd (hg.trans hg'.symm) hne
  · intro i hi
    rw [hblocks, hfirst]
    rcases small_group hi with hg | hg
    · rw [hg, h0]
      decide
    · rw [hg, h1]
      decide

theorem inode_write_read_small :
    WritesAlone smallPriv smallDisk 9 [] (Vector.replicate 128 1) := by
  have hsize : smallPriv.blocksize = 1024 := by decide
  have hall : ∀ j, 1 ≤ j → j ≤ smallPriv.sb.inodes.toNat → Described smallPriv j := by
    intro j hfirst hlast
    refine ⟨hfirst, hlast, ?_⟩
    have hsmall : j ≤ 16 := hlast
    have hgroup : groupOf smallPriv j = (j - 1) / 8 := rfl
    omega
  exact (inode_write_read_iff small_laid (hall 9 (by decide) (by decide))).mpr
    (fun j hfirst hlast _ => hall j hfirst hlast) [] (Vector.replicate 128 1)

/-- The first block of the inode table of a group, from the block of the descriptor table
its descriptor is in. -/
def descriptorTable (priv : Ext2Priv) (dev : Levos.Disk) (g : Nat) : Nat :=
  numberAt dev (place priv (priv.firstBgd + 32 * g / priv.blocksize) +
    (32 * g % priv.blocksize + 8)) 4

/-- `ext2_read_inode` uses the descriptor of the inode's group, whatever is in memory
behind the block it has loaded, exactly when that block has the descriptor. -/
theorem read_inode_descriptor_iff (priv : Ext2Priv) (dev : Levos.Disk) (i : Nat)
    (hipg : 0 < priv.sb.inodesInBlockgroup.toNat) (hfirst : 1 ≤ i)
    (hlast : i ≤ priv.sb.inodes.toNat) :
    (∀ after, ∃ block index,
      recordPlace priv (descriptorTable priv dev (groupOf priv i)) i = (block, index) ∧
      inodePlace priv dev after i = some (block, index) ∧
      ext2ReadInode priv dev after i =
        some (((ext2ReadBlock priv dev block).drop (128 * index)).take 128)) ↔
      32 * (groupOf priv i + 1) ≤ priv.blocksize := by
  obtain ⟨k, -, hk⟩ := blocksize_eq priv
  constructor
  · intro h
    obtain ⟨block, index, -, hplace, -⟩ := h []
    by_contra hout
    rw [inode_place_of hipg hfirst hlast, le_none _ (by
      rw [List.append_nil, read_block_eq, slice_length]
      omega) (by decide)] at hplace
    cases hplace
  · intro hin after
    have hread := le_slice dev (place priv priv.firstBgd) after
      (show 32 * groupOf priv i + 8 + 4 ≤ priv.blocksize by omega)
    have htable : descriptorTable priv dev (groupOf priv i) =
        numberAt dev (place priv priv.firstBgd + (32 * groupOf priv i + 8)) 4 := by
      rw [descriptorTable, Nat.div_eq_of_lt (by omega), Nat.mod_eq_of_lt (by omega), Nat.add_zero]
    have hplace : inodePlace priv dev after i =
        some (recordPlace priv (descriptorTable priv dev (groupOf priv i)) i) := by
      rw [inode_place_of hipg hfirst hlast, read_block_eq, hread, htable, Option.map_some]
    refine ⟨_, _, rfl, hplace, ?_⟩
    rw [ext2ReadInode, hplace]
    rfl

theorem read_inode_descriptor_small :
    32 * (groupOf smallPriv 9 + 1) ≤ smallPriv.blocksize ∧ ∀ after, ∃ block index,
      recordPlace smallPriv (descriptorTable smallPriv smallDisk (groupOf smallPriv 9)) 9 =
        (block, index) ∧
      inodePlace smallPriv smallDisk after 9 = some (block, index) ∧
      ext2ReadInode smallPriv smallDisk after 9 =
        some (((ext2ReadBlock smallPriv smallDisk block).drop (128 * index)).take 128) := by
  have hfirst : 32 * (groupOf smallPriv 9 + 1) ≤ smallPriv.blocksize := by decide
  exact ⟨hfirst, (read_inode_descriptor_iff smallPriv smallDisk 9 (by decide) (by decide)
    (by decide)).mpr hfirst⟩

/-- A volume of 33 groups with eight blocks of 1024 bytes and eight inodes each; one
block has room for 32 descriptors. -/
def manyGroups : Ext2Priv := ⟨⟨264, 265, 1, 0, 8, 8⟩, by decide, by decide⟩

theorem read_inode_descriptor_outside :
    ¬ ∀ (priv : Ext2Priv) (dev : Levos.Disk) (i : Nat),
      0 < priv.sb.inodesInBlockgroup.toNat → 1 ≤ i → i ≤ priv.sb.inodes.toNat →
      ∀ after, ∃ block index,
        recordPlace priv (descriptorTable priv dev (groupOf priv i)) i = (block, index) ∧
        inodePlace priv dev after i = some (block, index) ∧
        ext2ReadInode priv dev after i =
          some (((ext2ReadBlock priv dev block).drop (128 * index)).take 128) := by
  intro h
  obtain ⟨block, index, -, hplace, -⟩ :=
    h manyGroups smallDisk 257 (by decide) (by decide) (by decide) []
  have hbehind : inodePlace manyGroups smallDisk [] 257 = none := by decide +kernel
  rw [hbehind] at hplace
  cases hplace

/-- Its descriptors, in the blocks 2 and 3: the inode table of group `g` is block `8g + 6`. -/
def manyDisk : Levos.Disk := fun a =>
  let g := (a - 2048) / 32
  if a < 2048 ∨ 33 ≤ g then 0
  else if a % 32 = 8 then UInt8.ofNat (8 * g + 6)
  else if a % 32 = 9 then UInt8.ofNat ((8 * g + 6) / 256)
  else 0

theorem many_group (hi : i ≤ manyGroups.sb.inodes.toNat) : groupOf manyGroups i < 33 := by
  have hlast : i ≤ 264 := hi
  have hgroup : groupOf manyGroups i = (i - 1) / 8 := rfl
  omega

theorem many_tables (hg : g < 33) : descriptorTable manyGroups manyDisk g = 8 * g + 6 := by
  have hall : ∀ g < 33, descriptorTable manyGroups manyDisk g = 8 * g + 6 := by decide
  exact hall g hg

theorem many_blocks : tableBlocks manyGroups = 1 := by decide

theorem many_laid : Laid manyGroups manyDisk := by
  have hall : ∀ g < 32, inodeTable manyGroups manyDisk g = 8 * g + 6 := by decide
  have hsize : manyGroups.blocksize = 1024 := by decide
  have hsectors : manyGroups.sectors = 2 := by decide
  have hfirst : manyGroups.firstBgd = 2 := by decide
  have htable : ∀ i, Described manyGroups i →
      groupOf manyGroups i < 32 ∧ inodeTable manyGroups manyDisk (groupOf manyGroups i) =
        8 * groupOf manyGroups i + 6 := by
    intro i hi
    have hlt : groupOf manyGroups i < 32 := by
      have := hi.descriptor
      omega
    exact ⟨hlt, hall _ hlt⟩
  refine ⟨by decide, by decide, by rw [hfirst, hsectors]; decide, ?_, ?_, ?_⟩
  · intro i hi
    obtain ⟨hlt, ht⟩ := htable i hi
    rw [ht, many_blocks, hsectors]
    omega
  · intro i j hi hj hne
    rw [(htable i hi).2, (htable j hj).2, many_blocks]
    omega
  · intro i hi
    rw [(htable i hi).2, hfirst]
    omega

/-- Inode 257 has its descriptor in the second block of the table: a write of inode 1 can
change what is read for it, though all inode tables are apart. -/
theorem write_changes_undescribed :
    ¬ ∀ (priv : Ext2Priv) (dev : Levos.Disk) (i : Nat), Laid priv dev → Described priv i →
      (∀ j k, j ≤ priv.sb.inodes.toNat → k ≤ priv.sb.inodes.toNat →
        groupOf priv j < groupOf priv k →
        descriptorTable priv dev (groupOf priv j) + tableBlocks priv ≤
          descriptorTable priv dev (groupOf priv k)) →
      ∀ after v, WritesAlone priv dev i after v := by
  intro h
  have hone : Described manyGroups 1 := ⟨by decide, by decide, by decide⟩
  have hout : ¬ Described manyGroups 257 := fun hd => absurd hd.descriptor (by decide)
  obtain ⟨after, v, hchanged⟩ := misled_changed many_laid hone (j := 257) (by decide) (by decide)
    hout (by decide)
  refine hchanged (h manyGroups manyDisk 1 many_laid hone ?_ after v)
  intro j k hj hk hlt
  rw [many_tables (many_group hj), many_tables (many_group hk), many_blocks]
  omega

end Levos.Proofs.Inodes
