import Levos.Probe
import Levos.Proofs.Inodes

namespace Levos.Proofs.Probe
open Library Levos.Proofs.Disk
open Levos.Probe (Fault PrivData geometry divide modulo)

/-- The data of a probed volume as the model without faults has them. -/
@[simps]
def data (priv : Ext2Priv) : PrivData where
  sb := priv.sb
  firstBgd := priv.firstBgd
  numberOfBgs := priv.numberOfBgs
  blocksize := priv.blocksize
  sectorsPerBlock := priv.sectorsPerBlock
  inodesPerBlock := priv.inodesPerBlock

theorem divide_pos (hb : b ≠ 0) (a : Nat) : divide a b = .ok (a / b) := if_neg hb

theorem modulo_pos (hb : b ≠ 0) (a : Nat) : modulo a b = .ok (a % b) := if_neg hb

/-- Where nothing is divided by zero the data are those of the other model. -/
theorem geometry_eq (priv : Ext2Priv) : geometry priv.sb = .ok (data priv) := by
  have hgroup := Nat.ne_of_gt priv.group_pos
  have hblock : priv.sb.blocksize ≠ 0 := Nat.ne_of_gt priv.blocksize_pos
  rw [geometry, divide_pos hgroup, divide_pos hblock]
  rfl

theorem geometry_fault (sb : Superblock)
    (h : sb.blocksInBlockgroup.toNat = 0 ∨ sb.blocksize = 0) :
    geometry sb = .error .divisionByZero := by
  by_cases hgroup : sb.blocksInBlockgroup.toNat = 0
  · rw [geometry, divide, if_pos hgroup]
    rfl
  · rw [geometry, divide_pos hgroup, divide, if_pos (h.resolve_left hgroup)]
    rfl

/-- A superblock leads to a division by zero, or its volume is one of the other model. -/
theorem geometry_cases (sb : Superblock) :
    (geometry sb = .error .divisionByZero ∧ (sb.blocksInBlockgroup.toNat = 0 ∨ sb.blocksize = 0)) ∨
      ∃ priv : Ext2Priv, priv.sb = sb ∧ geometry sb = .ok (data priv) := by
  by_cases hfault : sb.blocksInBlockgroup.toNat = 0 ∨ sb.blocksize = 0
  · exact .inl ⟨geometry_fault sb hfault, hfault⟩
  · obtain ⟨hgroup, hblock⟩ := not_or.mp hfault
    let priv : Ext2Priv := ⟨sb, Nat.pos_of_ne_zero hblock, Nat.pos_of_ne_zero hgroup⟩
    exact .inr ⟨priv, rfl, geometry_eq priv⟩

/-- The superblock on a device. -/
def superblock (dev : Levos.Disk) : Superblock := readSuperblock (dev.read 2 2)

def Signed (dev : Levos.Disk) : Prop :=
  ofBytes (((dev.read 2 2).drop 56).take 2) = ext2Signature

instance (dev : Levos.Disk) : Decidable (Signed dev) :=
  inferInstanceAs (Decidable (ofBytes (((dev.read 2 2).drop 56).take 2) = ext2Signature))

theorem probe_signed (h : Signed dev) :
    Levos.Probe.ext2Probe (some dev) = (geometry (superblock dev)).map some := by
  have hsig : ofBytes (((dev.read 2 2).drop 56).take 2) = ext2Signature := h
  rw [Levos.Probe.ext2Probe]
  simp only [hsig, ne_eq, not_true_eq_false, ↓reduceIte]
  rfl

/-- The two models of `ext2_probe` agree. -/
theorem probe_eq (dev : Levos.Disk) :
    (Levos.Probe.ext2Probe (some dev)).toOption.join = (ext2Probe dev).map data := by
  by_cases hsig : Signed dev
  · have hsame : ofBytes (((dev.read 2 2).drop 56).take 2) = ext2Signature := hsig
    rw [probe_signed hsig]
    simp only [ext2Probe, hsame, ne_eq, not_true_eq_false, ↓reduceIte]
    change _ = Option.map data (if h : 0 < (superblock dev).blocksize ∧
      0 < (superblock dev).blocksInBlockgroup.toNat then some ⟨superblock dev, h.1, h.2⟩ else none)
    by_cases hpos : 0 < (superblock dev).blocksize ∧ 0 < (superblock dev).blocksInBlockgroup.toNat
    · rw [dif_pos hpos, geometry_eq ⟨superblock dev, hpos.1, hpos.2⟩]
      rfl
    · rw [dif_neg hpos, geometry_fault (superblock dev) (by omega)]
      rfl
  · have hother : ofBytes (((dev.read 2 2).drop 56).take 2) ≠ ext2Signature := hsig
    simp only [Levos.Probe.ext2Probe, ext2Probe, if_pos hother]
    rfl

/-- The two models of `ext2_read_inode` agree. -/
theorem read_inode_faults (priv : Ext2Priv) (dev : Levos.Disk) (after : Bytes) (inode : Nat) :
    Levos.Probe.ext2ReadInode (data priv) dev after inode =
      if priv.sb.inodesInBlockgroup.toNat = 0 then .error .divisionByZero
      else match ext2ReadInode priv dev after inode with
        | none => .error .unknownBytes
        | some record => .ok record := by
  have hblock : priv.blocksize ≠ 0 := Nat.ne_of_gt priv.blocksize_pos
  have hper : priv.inodesPerBlock ≠ 0 := by
    have hmul := inodesPerBlock_mul priv
    have hle := blocksize_le priv
    omega
  have hread : Levos.Probe.ext2ReadBlock (data priv) = ext2ReadBlock priv := rfl
  simp only [Levos.Probe.ext2ReadInode, ext2ReadInode, inodePlace, placeIn, data_sb, data_blocksize,
    data_inodesPerBlock, data_firstBgd, hread]
  by_cases hipg : priv.sb.inodesInBlockgroup.toNat = 0
  · rw [if_pos hipg, divide, if_pos hipg]
    rfl
  · rw [if_neg hipg, if_neg hipg, divide_pos hipg, modulo_pos hipg]
    simp only [bind, Except.bind, divide_pos hblock, modulo_pos hper]
    cases le (ext2ReadBlock priv dev priv.firstBgd ++ after)
      (32 * ((inode + (2 ^ 32 - 1)) % 2 ^ 32 / priv.sb.inodesInBlockgroup.toNat) + 8) 4 with
    | none => rfl
    | some table => rfl

/-- Nothing is divided by zero, at mount time or in a later lookup, and the divisors a
mounted volume keeps are not zero. -/
def Divides (dev : Levos.Disk) : Prop :=
  Levos.Probe.ext2Probe (some dev) ≠ .error .divisionByZero ∧
    ∀ priv, Levos.Probe.ext2Probe (some dev) = .ok (some priv) →
      (priv.blocksize ≠ 0 ∧ priv.inodesPerBlock ≠ 0 ∧ priv.sectorsPerBlock ≠ 0 ∧
        priv.sb.inodesInBlockgroup ≠ 0) ∧
      ∀ later after inode,
        Levos.Probe.ext2ReadInode priv later after inode ≠ .error .divisionByZero

theorem probe_divides_iff (dev : Levos.Disk) (hsig : Signed dev) :
    Divides dev ↔ (superblock dev).blocksizeHint.toNat % 32 ≤ 21 ∧
      (superblock dev).blocksInBlockgroup ≠ 0 ∧ (superblock dev).inodesInBlockgroup ≠ 0 := by
  have hzero : ∀ n : UInt32, n.toNat = 0 ↔ n = 0 := fun n => UInt32.toNat_inj (b := 0)
  rw [← superblock_blocksize_pos, Divides, probe_signed hsig]
  rcases geometry_cases (superblock dev) with ⟨hgeometry, hfault⟩ | ⟨priv, hsb, hgeometry⟩
  · rw [hgeometry]
    constructor
    · rintro ⟨hno, -⟩
      exact absurd rfl hno
    · rintro ⟨hpos, hgroup, -⟩
      rw [hzero] at hfault
      exact absurd (hfault.resolve_left hgroup) (Nat.ne_of_gt hpos)
  · have hmul := inodesPerBlock_mul priv
    have hle := blocksize_le priv
    rw [hgeometry, ← hsb]
    constructor
    · rintro ⟨-, hdata⟩
      exact ⟨priv.blocksize_pos, mt (hzero _).mpr (Nat.ne_of_gt priv.group_pos),
        (hdata (data priv) rfl).1.2.2.2⟩
    · rintro ⟨-, -, hipg⟩
      refine ⟨by rintro ⟨⟩, ?_⟩
      rintro d ⟨⟩
      refine ⟨⟨Nat.ne_of_gt priv.blocksize_pos, ?_, ?_, hipg⟩, ?_⟩
      · change priv.inodesPerBlock ≠ 0
        omega
      · change priv.blocksize / 512 ≠ 0
        omega
      · intro later after inode
        rw [read_inode_faults, if_neg (mt (hzero _).mp hipg)]
        split
        · rintro ⟨⟩
        · rintro ⟨⟩

theorem probe_divides_small : Signed Inodes.smallDisk ∧ Divides Inodes.smallDisk :=
  ⟨by decide, (probe_divides_iff Inodes.smallDisk (by decide)).mpr
    (by decide)⟩

/-- A superblock with nothing but the signature. -/
def bareDisk : Levos.Disk := fun a => ([(1080, 0x53), (1081, 0xEF)].lookup a).getD 0

theorem probe_bare_faults : ¬ ∀ dev, Signed dev → Divides dev := by
  intro h
  have hsig : Signed bareDisk := by decide
  refine (h bareDisk hsig).1 ?_
  rw [probe_signed hsig, geometry_fault _ (.inl (by decide))]
  rfl

/-- What the format asks of the fields the geometry comes from: the superblock is in the
first data block, and a group has one block for the bitmap of its blocks. -/
structure Valid (sb : Superblock) : Prop where
  block_bits : sb.blocksizeHint.toNat ≤ 21
  first : sb.superblockId.toNat = if sb.blocksizeHint = 0 then 1 else 0
  group : 0 < sb.blocksInBlockgroup.toNat
  bitmap : sb.blocksInBlockgroup.toNat ≤ 8 * (1024 * 2 ^ sb.blocksizeHint.toNat)
  blocks : sb.superblockId.toNat < sb.blocks.toNat

/-- The geometry of the volume: the descriptors are right behind the block with byte
1024, and the groups hold all blocks from the first data block on. -/
structure Geometry (sb : Superblock) (priv : PrivData) : Prop where
  descriptors : priv.firstBgd = 1024 / (1024 * 2 ^ sb.blocksizeHint.toNat) + 1
  covered : ∀ b, sb.superblockId.toNat ≤ b → b < sb.blocks.toNat →
    ∃ g < priv.numberOfBgs, sb.superblockId.toNat + g * sb.blocksInBlockgroup.toNat ≤ b ∧
      b < sb.superblockId.toNat + (g + 1) * sb.blocksInBlockgroup.toNat

/-- Groups of one size cover a range when together they are as long. -/
theorem groups_cover_iff (hsize : 0 < size) (hne : first < last) :
    (∀ b, first ≤ b → b < last → ∃ g < n, first + g * size ≤ b ∧ b < first + (g + 1) * size) ↔
      last ≤ first + n * size := by
  constructor
  · intro h
    obtain ⟨g, hg, -, hlt⟩ := h (last - 1) (by omega) (by omega)
    have hle := Nat.mul_le_mul_right size (Nat.succ_le_of_lt hg)
    rw [Nat.succ_eq_add_one] at hle
    omega
  · intro h b hfirst hlast
    have hdiv := Nat.div_add_mod' (b - first) size
    have hmod := Nat.mod_lt (b - first) hsize
    refine ⟨(b - first) / size, ?_, by omega, by rw [Nat.succ_mul]; omega⟩
    rw [Nat.div_lt_iff_lt_mul hsize]
    omega

/-- The groups that are counted are as long as the volume behind its first block, when
the division leaves at most that block. -/
theorem groups_long_iff (blocks : Nat) (hsize : 0 < size) :
    blocks ≤ 1 + (if blocks / size = 0 then 1 else blocks / size) * size ↔
      blocks < size ∨ blocks % size ≤ 1 := by
  have hdiv := Nat.div_add_mod' blocks size
  by_cases hlt : blocks < size
  · rw [Nat.div_eq_of_lt hlt, if_pos rfl]
    omega
  · have hpos := Nat.div_pos (Nat.le_of_not_lt hlt) hsize
    rw [if_neg (Nat.ne_of_gt hpos)]
    omega

/-- Blocks of more than 1024 bytes hold the superblock and the bytes in front of it. -/
theorem data_geometry_iff (priv : Ext2Priv) (hv : Valid priv.sb) :
    Geometry priv.sb (data priv) ↔ priv.sb.blocksizeHint = 0 ∧
      (priv.sb.blocks.toNat < priv.sb.blocksInBlockgroup.toNat ∨
        priv.sb.blocks.toNat % priv.sb.blocksInBlockgroup.toNat ≤ 1) := by
  have hbits := hv.block_bits
  have hfirst := hv.first
  have hsize : priv.blocksize = 1024 * 2 ^ priv.sb.blocksizeHint.toNat := by
    rw [blocksize_shift, Nat.mod_eq_of_lt (by omega)]
  have hbgd : (data priv).firstBgd =
      (priv.sb.superblockId.toNat + 1024 / (1024 * 2 ^ priv.sb.blocksizeHint.toNat)) % 2 ^ 32 := by
    rw [← hsize]
    rfl
  by_cases hhint : priv.sb.blocksizeHint = 0
  · rw [if_pos hhint] at hfirst
    have hdescriptors : (data priv).firstBgd =
        1024 / (1024 * 2 ^ priv.sb.blocksizeHint.toNat) + 1 := by
      rw [hbgd, hfirst, hhint]
      rfl
    have hcover := groups_cover_iff (n := (data priv).numberOfBgs) hv.group hv.blocks
    rw [hfirst] at hcover
    refine ⟨fun h => ⟨hhint, ?_⟩, fun h => ⟨hdescriptors, ?_⟩⟩
    · have hcovered := h.covered
      rw [hfirst, hcover] at hcovered
      exact (groups_long_iff _ hv.group).mp hcovered
    · rw [hfirst, hcover]
      exact (groups_long_iff _ hv.group).mpr h.2
  · rw [if_neg hhint] at hfirst
    have hlarge : 2 ≤ 2 ^ priv.sb.blocksizeHint.toNat := by
      have hpos : priv.sb.blocksizeHint.toNat ≠ 0 := fun h => hhint (UInt32.toNat_inj.mp h)
      exact Nat.le_self_pow hpos 2
    rw [hfirst, Nat.div_eq_of_lt (by omega)] at hbgd
    refine ⟨fun h => ?_, fun h => absurd h.1 hhint⟩
    have hbehind := h.descriptors
    rw [hbgd, Nat.div_eq_of_lt (by omega)] at hbehind
    cases hbehind

/-- `ext2_probe` stores the geometry of a valid volume exactly when its blocks have 1024
bytes and its last group is full, or has the one block in front of the first group too
many, or there is less than one group. -/
theorem probe_geometry_iff (dev : Levos.Disk) (hsig : Signed dev) (hv : Valid (superblock dev)) :
    (∃ priv, Levos.Probe.ext2Probe (some dev) = .ok (some priv) ∧
      Geometry (superblock dev) priv) ↔
      (superblock dev).blocksizeHint = 0 ∧
        ((superblock dev).blocks.toNat < (superblock dev).blocksInBlockgroup.toNat ∨
          (superblock dev).blocks.toNat % (superblock dev).blocksInBlockgroup.toNat ≤ 1) := by
  have hbits := hv.block_bits
  have hgroup := hv.group
  have hpos := (superblock_blocksize_pos (superblock dev)).mpr (by omega)
  rw [probe_signed hsig]
  rcases geometry_cases (superblock dev) with ⟨-, hfault⟩ | ⟨priv, hsb, hgeometry⟩
  · omega
  · rw [← hsb] at hv
    rw [hgeometry, ← hsb, ← data_geometry_iff priv hv]
    constructor
    · rintro ⟨d, ⟨⟩, h⟩
      exact h
    · exact fun h => ⟨_, rfl, h⟩

theorem small_valid : Valid (superblock Inodes.smallDisk) where
  block_bits := by decide
  first := by decide
  group := by decide
  bitmap := by decide
  blocks := by decide

theorem probe_geometry_small : Valid (superblock Inodes.smallDisk) ∧
    ∃ priv, Levos.Probe.ext2Probe (some Inodes.smallDisk) = .ok (some priv) ∧
      Geometry (superblock Inodes.smallDisk) priv :=
  ⟨small_valid, (probe_geometry_iff Inodes.smallDisk (by decide) small_valid).mpr
    (by decide)⟩

/-- A volume of 32 blocks of 4096 bytes in one group. -/
def largeBlocksDisk : Levos.Disk := fun a =>
  ([(1024, 32), (1028, 32), (1048, 2), (1056, 32), (1064, 32), (1080, 0x53), (1081, 0xEF)].lookup
    a).getD 0

/-- Its descriptors are in block 1, and are looked for in block 0. -/
theorem probe_geometry_wrong :
    ¬ ∀ dev, Signed dev → Valid (superblock dev) →
      ∃ priv, Levos.Probe.ext2Probe (some dev) = .ok (some priv) ∧
        Geometry (superblock dev) priv := by
  intro h
  have hvalid : Valid (superblock largeBlocksDisk) :=
    ⟨by decide, by decide, by decide, by decide,
      by decide⟩
  obtain ⟨priv, hprobe, hgeometry⟩ := h largeBlocksDisk (by decide) hvalid
  have hstored : ((Levos.Probe.ext2Probe (some largeBlocksDisk)).toOption.join.map
      PrivData.firstBgd) = some 0 := by decide
  have hbehind : 1024 / (1024 * 2 ^ (superblock largeBlocksDisk).blocksizeHint.toNat) + 1 = 1 := by
    decide
  rw [hprobe] at hstored
  have hfirst := hgeometry.descriptors
  rw [hbehind] at hfirst
  cases hfirst.symm.trans (Option.some.inj hstored)

end Levos.Proofs.Probe
