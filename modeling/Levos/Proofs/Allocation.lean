import Levos.Library.Runs
import Levos.Proofs.Inodes

namespace Levos.Proofs.Allocation

open Levos Library Disk Inodes

variable {priv : Ext2Priv} {dev : Levos.Disk} {r : Resource} {g i n : Nat}

/-- `ext2_alloc_block` or `ext2_find_new_inode_id`. -/
def newId : Resource → Ext2Priv → Levos.Disk → Bytes → Option (Option Nat × Levos.Disk)
  | .block => ext2AllocBlock
  | .inode => ext2FindNewInodeId

/-- The first byte of the descriptor table: it starts with the block behind the
superblock's. -/
def tableByte (priv : Ext2Priv) : Nat := (1024 / priv.blocksize + 1) * priv.blocksize

/-- The free counter of a group on the device. -/
def counterAt (priv : Ext2Priv) (r : Resource) (g : Nat) : Nat :=
  tableByte priv + (32 * g + r.inDescriptor)

def superCounterAt (r : Resource) : Nat := 1024 + r.inSuperblock

def groupFree (priv : Ext2Priv) (dev : Levos.Disk) (r : Resource) (g : Nat) : Nat :=
  numberAt dev (counterAt priv r g) 2

def superFree (dev : Levos.Disk) (r : Resource) : Nat := numberAt dev (superCounterAt r) 4

/-- The device with both counters decremented. -/
def countedDown (priv : Ext2Priv) (dev : Levos.Disk) (r : Resource) (g : Nat) : Levos.Disk :=
  blit (blit dev (counterAt priv r g) (toBytes 2 (groupFree priv dev r g - 1)))
    (superCounterAt r) (toBytes 4 (superFree dev r + (2 ^ 32 - 1)))

def Balanced (priv : Ext2Priv) (dev : Levos.Disk) (r : Resource) : Prop :=
  superFree dev r = ∑ g ∈ Finset.range priv.numberOfBgs, groupFree priv dev r g

/-- What a call may change, whatever the heap holds: `found` is the group it
chose, with its counter. -/
def ChangesCounters (priv : Ext2Priv) (dev : Levos.Disk) (r : Resource) : Prop :=
  ∀ after, ∃ found id dev', takeFree priv dev after r = some (found, dev') ∧
    newId r priv dev after = some (id, dev') ∧ id.isSome = found.isSome ∧
    (∀ g n, found = some (g, n) → n = groupFree priv dev r g ∧ 0 < n ∧
      dev' = countedDown priv dev r g ∧ (Balanced priv dev r → Balanced priv dev' r)) ∧
    ((∀ g < priv.numberOfBgs, groupFree priv dev r g = 0) → dev' = dev)

/-- The counters the code reads as those of the groups are in the block it
reads, and zero. -/
def ReadsNothing (priv : Ext2Priv) (dev : Levos.Disk) (r : Resource) : Prop :=
  ∀ g < priv.numberOfBgs, 32 * (g + 1) ≤ priv.blocksize ∧
    numberAt dev (place priv priv.firstBgd + (32 * g + r.inDescriptor)) 2 = 0

section Search

variable {buffer : Bytes} {field left : Nat}

theorem find_group_none (h : ∀ g, i ≤ g → g < i + left → le buffer (32 * g + field) 2 = some 0) :
    findGroup buffer field left i = some none := by
  induction left generalizing i with
  | zero => rfl
  | succ left ih =>
    rw [findGroup, h i (Nat.le_refl i) (by omega)]
    exact ih (fun g hle hlt => h g (by omega) (by omega))

theorem find_group_first (hn : le buffer (32 * i + field) 2 = some n) (hpos : n ≠ 0)
    (hleft : 0 < left) : findGroup buffer field left i = some (some (i, n)) := by
  obtain ⟨k, rfl⟩ := Nat.exists_eq_succ_of_ne_zero (Nat.ne_of_gt hleft)
  cases n with
  | zero => exact absurd rfl hpos
  | succ m => simp only [findGroup, hn]

/-- Either every counter is zero or the search stops at one that is not. -/
theorem find_group_cases (h : findGroup buffer field left i = some found) :
    (found = none ∧ ∀ g, i ≤ g → g < i + left → le buffer (32 * g + field) 2 = some 0) ∨
      ∃ g n, found = some (g, n) ∧ i ≤ g ∧ g < i + left ∧
        le buffer (32 * g + field) 2 = some n ∧ n ≠ 0 := by
  induction left generalizing i with
  | zero =>
    cases h
    exact .inl ⟨rfl, fun g hle hlt => absurd hlt (by omega)⟩
  | succ left ih =>
    unfold findGroup at h
    split at h
    · cases h
    · rename_i hzero
      rcases ih h with ⟨hf, hall⟩ | ⟨g, n, hf, hle, hlt, hg⟩
      · refine .inl ⟨hf, ?_⟩
        intro g hle hlt
        rcases Nat.eq_or_lt_of_le hle with rfl | hlt'
        · exact hzero
        · exact hall g hlt' (by omega)
      · exact .inr ⟨g, n, hf, by omega, by omega, hg⟩
    · rename_i n hn hread
      cases h
      exact .inr ⟨i, n, rfl, Nat.le_refl i, by omega, hread, hn⟩

end Search

theorem number_of_bgs_pos (priv : Ext2Priv) : 0 < priv.numberOfBgs := by
  rw [Ext2Priv.numberOfBgs]
  split
  · decide
  · rename_i h
    exact Nat.pos_of_ne_zero h

theorem in_descriptor_le (r : Resource) : r.inDescriptor + 2 ≤ 16 := by
  cases r <;> decide

theorem in_superblock_le (r : Resource) : r.inSuperblock + 4 ≤ 20 := by
  cases r <;> decide

/-- A call that finds a group: two blocks are written, the second one with the
counter of the superblock decremented. -/
theorem take_free_found {after : Bytes}
    (hf : findGroup (ext2ReadBlock priv dev priv.firstBgd ++ after) r.inDescriptor
      priv.numberOfBgs 0 = some (some (i, n)))
    (hdev : dev' = ext2WriteBlock priv dev (splice (ext2ReadBlock priv dev priv.firstBgd ++ after)
      (32 * i + r.inDescriptor) (toBytes 2 (n - 1))) ((priv.firstBgd + i) % 2 ^ 32)) :
    takeFree priv dev after r = some (some (i, n),
      blit dev' (place priv priv.sb.superblockId.toNat + r.inSuperblock) (toBytes 4
        (numberAt dev' (place priv priv.sb.superblockId.toNat + r.inSuperblock) 4 +
          (2 ^ 32 - 1)))) := by
  have hsuper : r.inSuperblock + 4 ≤ priv.blocksize := by
    have := in_superblock_le r
    have := blocksize_le priv
    omega
  have hread := le_slice dev' (place priv priv.sb.superblockId.toNat) [] hsuper
  rw [← read_block_eq, List.append_nil] at hread
  have hwrite := write_block_splice dev' [] priv.sb.superblockId.toNat
    (show r.inSuperblock + (toBytes 4 (numberAt dev' (place priv priv.sb.superblockId.toNat +
      r.inSuperblock) 4 + (2 ^ 32 - 1))).length ≤ priv.blocksize by rwa [toBytes_length])
  rw [List.append_nil] at hwrite
  simp only [takeFree, hf, ← hdev, hread, hwrite]

theorem new_id_eq (h : takeFree priv dev after r = some (found, dev')) :
    ∃ id, newId r priv dev after = some (id, dev') ∧ id.isSome = found.isSome := by
  cases r with
  | block => exact ⟨_, by rw [newId, ext2AllocBlock, h, Option.map_some], by simp⟩
  | inode => exact ⟨_, by rw [newId, ext2FindNewInodeId, h, Option.map_some], by simp⟩

/-- Superblock and first descriptor block of an ext2 volume: the superblock is
in block 1 of a volume with blocks of 1024 bytes and in block 0 of the others. -/
theorem first_bgd_small (h : priv.sb.superblockId.toNat = 1024 / priv.blocksize)
    (hsize : priv.blocksize = 1024) : priv.sb.superblockId.toNat = 1 ∧ priv.firstBgd = 2 := by
  rw [hsize] at h
  refine ⟨h, ?_⟩
  simp [Ext2Priv.firstBgd, h, hsize]

theorem first_bgd_large (h : priv.sb.superblockId.toNat = 1024 / priv.blocksize)
    (hsize : priv.blocksize ≠ 1024) : priv.sb.superblockId.toNat = 0 ∧ priv.firstBgd = 0 := by
  have hzero : 1024 / priv.blocksize = 0 := by
    have := blocksize_le priv
    exact Nat.div_eq_of_lt (by omega)
  rw [hzero] at h
  refine ⟨h, ?_⟩
  simp [Ext2Priv.firstBgd, h, hzero]

theorem table_byte_small (hsize : priv.blocksize = 1024) : tableByte priv = 2048 := by
  rw [tableByte, hsize]

theorem table_byte_le (priv : Ext2Priv) : 2048 ≤ tableByte priv := by
  by_cases hsize : priv.blocksize = 1024
  · rw [table_byte_small hsize]
  · obtain ⟨k, -, hk⟩ := blocksize_eq priv
    have hzero : 1024 / priv.blocksize = 0 := by
      have := blocksize_le priv
      exact Nat.div_eq_of_lt (by omega)
    rw [tableByte, hzero]
    have := blocksize_le priv
    cases k with
    | zero => omega
    | succ k =>
      have := Nat.two_pow_pos k
      rw [Nat.pow_succ] at hk
      omega

theorem place_small (hsize : priv.blocksize = 1024) (hb : b < 2 ^ 31) :
    place priv b = b * 1024 := by
  have hsectors := sectors_mul priv
  rw [place_eq (by have : priv.sectors = 2 := by omega
                   rw [this]; omega), hsize]

theorem counted_down_group (priv : Ext2Priv) (dev : Levos.Disk) (r : Resource) (g : Nat) :
    groupFree priv (countedDown priv dev r g) r g = groupFree priv dev r g - 1 := by
  have htable := table_byte_le priv
  have hsuper := in_superblock_le r
  have hlt : groupFree priv dev r g < 256 ^ 2 := numberAt_lt dev _ 2
  rw [groupFree, countedDown, numberAt_blit_apart _ (by
    rw [toBytes_length, superCounterAt, counterAt]; omega), numberAt_blit]
  exact Nat.mod_eq_of_lt (by omega)

/-- Nothing in front of the superblock changes. -/
theorem counted_down_low (priv : Ext2Priv) (dev : Levos.Disk) (r : Resource) (g : Nat)
    (h : a + w ≤ 1024) : numberAt (countedDown priv dev r g) a w = numberAt dev a w := by
  have htable := table_byte_le priv
  rw [countedDown, numberAt_blit_apart _ (.inl (by rw [superCounterAt]; omega)),
    numberAt_blit_apart _ (.inl (by rw [counterAt]; omega))]

/-- Decrementing one counter of the group and the one of the superblock keeps
their sum equal. -/
theorem counted_down_balanced (hg : g < priv.numberOfBgs) (hpos : 0 < groupFree priv dev r g)
    (h : Balanced priv dev r) : Balanced priv (countedDown priv dev r g) r := by
  have htable := table_byte_le priv
  have hsuper := in_superblock_le r
  have hself := counted_down_group priv dev r g
  have hother : ∑ k ∈ (Finset.range priv.numberOfBgs).erase g,
      groupFree priv (countedDown priv dev r g) r k =
      ∑ k ∈ (Finset.range priv.numberOfBgs).erase g, groupFree priv dev r k := by
    refine Finset.sum_congr rfl ?_
    intro k hk
    have hne := (Finset.mem_erase.mp hk).1
    rw [groupFree, countedDown, numberAt_blit_apart _ (by
      rw [toBytes_length, superCounterAt, counterAt]; omega), numberAt_blit_apart _ (by
      rw [toBytes_length, counterAt, counterAt]; omega), groupFree]
  have hcount : superFree (countedDown priv dev r g) r =
      (superFree dev r + (2 ^ 32 - 1)) % 256 ^ 4 := numberAt_blit _ _ 4 _
  have hmem := Finset.mem_range.mpr hg
  have hlt : superFree dev r < 256 ^ 4 := numberAt_lt dev _ 4
  rw [Balanced, ← Finset.add_sum_erase _ _ hmem] at h ⊢
  rw [hcount, hself, hother]
  omega

/-- The device a call leaves that finds something in group 0, with blocks of
1024 bytes. -/
theorem take_free_group_zero (h : priv.sb.superblockId.toNat = 1024 / priv.blocksize)
    (hsize : priv.blocksize = 1024) (hpos : groupFree priv dev r 0 ≠ 0) (after : Bytes) :
    takeFree priv dev after r =
      some (some (0, groupFree priv dev r 0), countedDown priv dev r 0) := by
  obtain ⟨hid, hfirst⟩ := first_bgd_small h hsize
  have hfield := in_descriptor_le r
  have hplace : place priv priv.firstBgd = 2048 := by rw [hfirst, place_small hsize (by decide)]
  have hcounter : counterAt priv r 0 = place priv priv.firstBgd + (32 * 0 + r.inDescriptor) := by
    rw [counterAt, table_byte_small hsize, hplace]
  have hread := le_slice dev (place priv priv.firstBgd) after
    (show 32 * 0 + r.inDescriptor + 2 ≤ priv.blocksize by omega)
  rw [← hcounter, ← read_block_eq, ← groupFree] at hread
  have hwrite := write_block_splice dev after priv.firstBgd
    (show 32 * 0 + r.inDescriptor + (toBytes 2 (groupFree priv dev r 0 - 1)).length ≤
      priv.blocksize by rw [toBytes_length]; omega)
  rw [← hcounter] at hwrite
  have hblock : (priv.firstBgd + 0) % 2 ^ 32 = priv.firstBgd := by simp [hfirst]
  have hsuper : place priv priv.sb.superblockId.toNat + r.inSuperblock = superCounterAt r := by
    rw [hid, place_small hsize (by decide), superCounterAt]
  have hkept : numberAt (blit dev (counterAt priv r 0) (toBytes 2 (groupFree priv dev r 0 - 1)))
      (superCounterAt r) 4 = superFree dev r := by
    refine numberAt_blit_apart dev (.inl ?_)
    have := in_superblock_le r
    have := table_byte_le priv
    rw [superCounterAt, counterAt]
    omega
  have hfound := find_group_first hread hpos (number_of_bgs_pos priv)
  rw [take_free_found hfound (by rw [hblock, hwrite]), hsuper, hkept, countedDown]

theorem changes_counters_zero (h : priv.sb.superblockId.toNat = 1024 / priv.blocksize)
    (hsize : priv.blocksize = 1024) (hpos : groupFree priv dev r 0 ≠ 0) :
    ChangesCounters priv dev r := by
  intro after
  have htake := take_free_group_zero h hsize hpos after
  obtain ⟨id, hid, hsome⟩ := new_id_eq htake
  refine ⟨_, id, _, htake, hid, hsome, ?_, ?_⟩
  · intro g n hf
    cases hf
    exact ⟨rfl, Nat.pos_of_ne_zero hpos, rfl,
      counted_down_balanced (number_of_bgs_pos priv) (Nat.pos_of_ne_zero hpos)⟩
  · intro hnone
    exact absurd (hnone 0 (number_of_bgs_pos priv)) hpos

theorem changes_counters_none (h : ReadsNothing priv dev r) : ChangesCounters priv dev r := by
  intro after
  have htake : takeFree priv dev after r = some (none, dev) := by
    have hfound : findGroup (ext2ReadBlock priv dev priv.firstBgd ++ after) r.inDescriptor
        priv.numberOfBgs 0 = some none := by
      refine find_group_none ?_
      intro g _ hlt
      obtain ⟨hin, hzero⟩ := h g (by omega)
      have := in_descriptor_le r
      rw [read_block_eq, le_slice dev _ after (by omega), hzero]
    rw [takeFree, hfound]
  obtain ⟨id, hid, hsome⟩ := new_id_eq htake
  exact ⟨none, id, dev, htake, hid, hsome, fun g n hf => (by cases hf), fun _ => rfl⟩

theorem write_block_eq (priv : Ext2Priv) (dev : Levos.Disk) (buf : Bytes) (block : Nat) :
    ext2WriteBlock priv dev buf block = blit dev (place priv block) (buf.take priv.blocksize) := by
  rw [ext2WriteBlock, Levos.Disk.write, sectors_mul, place]

theorem counter_read (h : le (ext2ReadBlock priv dev b) (32 * g + r.inDescriptor) 2 = some n) :
    32 * (g + 1) ≤ priv.blocksize ∧
      n = numberAt dev (place priv b + (32 * g + r.inDescriptor)) 2 := by
  have hlen : (ext2ReadBlock priv dev b).length = priv.blocksize := by
    rw [read_block_eq, slice_length]
  have hin : 32 * g + r.inDescriptor + 2 ≤ priv.blocksize := by
    by_contra hout
    rw [le_none _ (by omega) (by decide)] at h
    cases h
  have hread := le_slice dev (place priv b) [] hin
  rw [← read_block_eq, List.append_nil, h] at hread
  refine ⟨?_, Option.some.inj hread⟩
  obtain ⟨k, -, hk⟩ := blocksize_eq priv
  omega

/-- With blocks of 1024 bytes the descriptor block of a later group is written
somewhere else. -/
theorem later_group_kept (dev : Levos.Disk) (r : Resource) (hsize : priv.blocksize = 1024)
    (hfirst : priv.firstBgd = 2) (hg : g ≠ 0) (hin : 32 * (g + 1) ≤ priv.blocksize)
    (buf bs : Bytes) (hlen : bs.length = 4) :
    groupFree priv (blit (ext2WriteBlock priv dev buf ((priv.firstBgd + g) % 2 ^ 32))
      (1024 + r.inSuperblock) bs) r g = groupFree priv dev r g := by
  have hfield := in_descriptor_le r
  have hsuper := in_superblock_le r
  have hcounter : counterAt priv r g = 2048 + (32 * g + r.inDescriptor) := by
    rw [counterAt, table_byte_small hsize]
  have hblock : place priv ((priv.firstBgd + g) % 2 ^ 32) = (2 + g) * 1024 := by
    rw [hfirst, Nat.mod_eq_of_lt (by omega), place_small hsize (by omega)]
  rw [groupFree, numberAt_blit_apart _ (.inr (by omega)), write_block_eq,
    numberAt_blit_apart _ (.inl (by omega)), groupFree]

/-- The counter of the first descriptor is the low half of the number the
superblock has at the same offset. -/
theorem low_half_decremented (hn : n = numberAt dev 12 2)
    (hdev : dev' = blit dev 12 (toBytes 2 (n - 1))) :
    (numberAt dev' 12 4 + (2 ^ 32 - 1)) % 256 ^ 4 ≠ numberAt dev 12 4 := by
  have hlt := numberAt_lt dev 12 2
  have hhigh := numberAt_lt dev 14 2
  have hbefore := numberAt_add dev 12 2 2
  have hafter := numberAt_add dev' 12 2 2
  have hlow : numberAt dev' 12 2 = n - 1 := by
    rw [hdev, numberAt_blit]
    exact Nat.mod_eq_of_lt (by omega)
  have hkept : numberAt dev' (12 + 2) 2 = numberAt dev (12 + 2) 2 := by
    rw [hdev]
    exact numberAt_blit_apart dev (.inr (by rw [toBytes_length]))
  rw [hafter, hlow, hkept, hbefore]
  omega

/-- With larger blocks the code takes block 0 for the descriptors and for the
superblock; the counter it decrements second was not restored by the first
write. -/
theorem super_bytes_changed (hin : 32 * (g + 1) ≤ priv.blocksize)
    (hn : n = numberAt dev (32 * g + r.inDescriptor) 2)
    (hdev : dev' = ext2WriteBlock priv dev (splice (ext2ReadBlock priv dev 0)
      (32 * g + r.inDescriptor) (toBytes 2 (n - 1))) (g % 2 ^ 32)) :
    (numberAt dev' r.inSuperblock 4 + (2 ^ 32 - 1)) % 256 ^ 4 ≠ numberAt dev r.inSuperblock 4 := by
  have hfield := in_descriptor_le r
  have hsuper := in_superblock_le r
  have hlarge := blocksize_le priv
  have hlt := numberAt_lt dev r.inSuperblock 4
  have hzero : place priv 0 = 0 := by simp [place]
  have hfits : 32 * g + r.inDescriptor + (toBytes 2 (n - 1)).length ≤ priv.blocksize := by
    rw [toBytes_length]
    omega
  by_cases hhere : place priv (g % 2 ^ 32) = 0
  · have hblit : dev' = blit dev (32 * g + r.inDescriptor) (toBytes 2 (n - 1)) := by
      have hsame := blit_splice dev 0 hfits
      have hlen : (splice (slice dev 0 priv.blocksize) (32 * g + r.inDescriptor)
          (toBytes 2 (n - 1))).length = priv.blocksize := by
        rw [splice_length (by rwa [slice_length]), slice_length]
      rw [hdev, write_block_eq, hhere, read_block_eq, hzero, List.take_of_length_le (by omega),
        hsame, Nat.zero_add]
    by_cases hmeet : g = 0 ∧ r = .block
    · obtain ⟨rfl, rfl⟩ := hmeet
      exact low_half_decremented hn hblit
    · have hkept : numberAt dev' r.inSuperblock 4 = numberAt dev r.inSuperblock 4 := by
        rw [hblit]
        refine numberAt_blit_apart dev ?_
        rw [toBytes_length]
        cases r with
        | block => exact .inl (by have : g ≠ 0 := fun hg => hmeet ⟨hg, rfl⟩
                                  simp only [Resource.inSuperblock]; omega)
        | inode => simp only [Resource.inSuperblock, Resource.inDescriptor]; omega
      omega
  · have hkept : numberAt dev' r.inSuperblock 4 = numberAt dev r.inSuperblock 4 := by
      rw [hdev, write_block_eq]
      refine numberAt_blit_apart dev (.inl ?_)
      rw [place] at hhere ⊢
      omega
    omega

theorem changes_counters_only (h : priv.sb.superblockId.toNat = 1024 / priv.blocksize)
    (hc : ChangesCounters priv dev r) :
    ReadsNothing priv dev r ∨ priv.blocksize = 1024 ∧ groupFree priv dev r 0 ≠ 0 := by
  obtain ⟨found, id, dev', htake, -, -, hframe, -⟩ := hc []
  cases hfind : findGroup (ext2ReadBlock priv dev priv.firstBgd ++ []) r.inDescriptor
      priv.numberOfBgs 0 with
  | none =>
    rw [takeFree, hfind] at htake
    cases htake
  | some result =>
    rcases find_group_cases hfind with ⟨-, hall⟩ | ⟨g, n, rfl, -, -, hread, hpos⟩
    · refine .inl ?_
      intro g hg
      have hzero := hall g (Nat.zero_le g) (by omega)
      rw [List.append_nil] at hzero
      obtain ⟨hin, hn⟩ := counter_read hzero
      exact ⟨hin, hn.symm⟩
    · have hfound := take_free_found hfind rfl
      rw [htake] at hfound
      obtain ⟨rfl, rfl⟩ := Prod.mk.inj (Option.some.inj hfound)
      obtain ⟨hn, -, hdev, -⟩ := hframe g n rfl
      rw [List.append_nil] at hread hdev
      obtain ⟨hin, hnumber⟩ := counter_read hread
      by_cases hsize : priv.blocksize = 1024
      · obtain ⟨hid, hfirst⟩ := first_bgd_small h hsize
        by_cases hg : g = 0
        · subst hg
          exact .inr ⟨hsize, hn ▸ hpos⟩
        · have hless := counted_down_group priv dev r g
          rw [← hdev, hid, place_small hsize (by decide),
            later_group_kept dev r hsize hfirst hg hin _ _ (toBytes_length 4 _)] at hless
          omega
      · obtain ⟨hid, hfirst⟩ := first_bgd_large h hsize
        have hzero : place priv 0 = 0 := by simp [place]
        have hlow := counted_down_low priv dev r g
          (show r.inSuperblock + 4 ≤ 1024 by have := in_superblock_le r; omega)
        simp only [hid, hfirst, hzero, Nat.zero_add] at hdev hnumber
        rw [← hdev, numberAt_blit] at hlow
        exact absurd hlow (super_bytes_changed hin hnumber rfl)

/-- A call changes the two counters and nothing else exactly when it finds
nothing to take or takes it from group 0 of a volume with blocks of 1024 bytes. -/
theorem changes_counters_iff (h : priv.sb.superblockId.toNat = 1024 / priv.blocksize) :
    ChangesCounters priv dev r ↔
      ReadsNothing priv dev r ∨ priv.blocksize = 1024 ∧ groupFree priv dev r 0 ≠ 0 := by
  constructor
  · exact changes_counters_only h
  · intro hc
    rcases hc with hnone | ⟨hsize, hpos⟩
    · exact changes_counters_none hnone
    · exact changes_counters_zero h hsize hpos

theorem changes_counters_small : ChangesCounters smallPriv smallDisk .block :=
  (changes_counters_iff (by decide)).mpr (.inr ⟨by decide, by decide⟩)

/-- The small volume has its free inodes in group 1: the descriptors are written
over the block bitmap of group 0. -/
theorem bitmap_overwritten :
    ¬ ∀ (priv : Ext2Priv) (dev : Levos.Disk) (r : Resource),
      (ext2Probe dev).map Ext2Priv.sb = some priv.sb →
      priv.sb.superblockId.toNat = 1024 / priv.blocksize → ChangesCounters priv dev r := by
  intro h
  have hsmall := h smallPriv smallDisk .inode small_probed (by decide)
  rcases changes_counters_only (by decide) hsmall with hz | hz
  · have hone := (hz 1 (by decide)).2
    revert hone
    decide
  · have hzero := hz.2
    revert hzero
    decide

end Levos.Proofs.Allocation
