import Levos.Proofs.Allocation

namespace Levos.Proofs.Ids

open Levos Library Disk Inodes Allocation

variable {priv : Ext2Priv} {dev : Levos.Disk} {r : Resource} {g n id : Nat}

/-- The groups the blocks behind the boot block fall into. -/
def groups (priv : Ext2Priv) : Nat :=
  (priv.sb.blocks.toNat - priv.sb.superblockId.toNat + (priv.sb.blocksInBlockgroup.toNat - 1)) /
    priv.sb.blocksInBlockgroup.toNat

/-- The number of items a group has; the last one may have fewer blocks. -/
def groupSize (priv : Ext2Priv) (g : Nat) : Resource → Nat
  | .block => min priv.sb.blocksInBlockgroup.toNat (priv.sb.blocks.toNat -
      (priv.sb.superblockId.toNat + g * priv.sb.blocksInBlockgroup.toNat))
  | .inode => priv.sb.inodesInBlockgroup.toNat

/-- The block of a group's usage bitmap, from its descriptor. -/
def bitmapBlock (priv : Ext2Priv) (dev : Levos.Disk) (g : Nat) : Resource → Nat
  | .block => numberAt dev (tableByte priv + 32 * g) 4
  | .inode => numberAt dev (tableByte priv + (32 * g + 4)) 4

/-- One bit of a usage bitmap. -/
def used (priv : Ext2Priv) (dev : Levos.Disk) (r : Resource) (g k : Nat) : Bool :=
  (dev (bitmapBlock priv dev g r * priv.blocksize + k / 8)).toNat.testBit (k % 8)

/-- A volume of several groups whose counters say what its bitmaps say. -/
structure Consistent (priv : Ext2Priv) (dev : Levos.Disk) : Prop where
  format : priv.sb.superblockId.toNat = 1024 / priv.blocksize
  several : 1 < groups priv
  inodes : priv.sb.inodes.toNat = groups priv * priv.sb.inodesInBlockgroup.toNat
  counters : ∀ g < groups priv, ∀ r, groupFree priv dev r g =
    (List.range (groupSize priv g r)).countP (fun k => !used priv dev r g k)
  totals : ∀ r, superFree dev r = ∑ g ∈ Finset.range (groups priv), groupFree priv dev r g

/-- An id that may be given out. -/
def InRange (priv : Ext2Priv) : Resource → Nat → Prop
  | .block, id => id < priv.sb.blocks.toNat
  | .inode, id => 1 ≤ id ∧ id ≤ priv.sb.inodes.toNat

/-- An id that its group's bitmap has as unused. -/
def Free (priv : Ext2Priv) (dev : Levos.Disk) : Resource → Nat → Prop
  | .block, id => priv.sb.superblockId.toNat ≤ id ∧
      used priv dev .block ((id - priv.sb.superblockId.toNat) / priv.sb.blocksInBlockgroup.toNat)
        ((id - priv.sb.superblockId.toNat) % priv.sb.blocksInBlockgroup.toNat) = false
  | .inode, id => used priv dev .inode ((id - 1) / priv.sb.inodesInBlockgroup.toNat)
      ((id - 1) % priv.sb.inodesInBlockgroup.toNat) = false

/-- An id that was given out, and the device before the call. -/
structure Grant where
  kind : Resource
  id : Nat
  before : Levos.Disk

/-- A device and what the calls so far gave out. -/
structure Granting where
  disk : Levos.Disk
  given : List Grant

/-- One call; `after` is what the heap holds behind its buffer. A call that
finds nothing gives out nothing. -/
def call (priv : Ext2Priv) (s : Granting) (a : Resource × Bytes) : Option Granting :=
  match newId a.1 priv s.disk a.2 with
  | none => none
  | some (none, disk) => some { s with disk := disk }
  | some (some id, disk) => some ⟨disk, ⟨a.1, id, s.disk⟩ :: s.given⟩

def idsOf (s : Granting) (r : Resource) : List Nat :=
  (s.given.filter (·.kind = r)).map (·.id)

/-- The ids given out are distinct, in range and were free. -/
def GoodIds (priv : Ext2Priv) (s : Granting) : Prop :=
  (∀ r, (idsOf s r).Nodup) ∧
    ∀ x ∈ s.given, InRange priv x.kind x.id ∧ Free priv x.before x.kind x.id

/-- The ids the formulas count on: the last ones of the volume, and the last
ones of group 0. -/
def CountedOn (priv : Ext2Priv) : Resource → Nat → Nat → Prop
  | .block, n, id => priv.sb.blocks.toNat < id + n ∧ id < priv.sb.blocks.toNat
  | .inode, n, id => priv.sb.inodesInBlockgroup.toNat < id + n ∧
      id ≤ priv.sb.inodesInBlockgroup.toNat

/-- A call that is served as it should be: blocks of 1024 bytes, something left
in group 0, and the ids counted on are free. -/
def Served (priv : Ext2Priv) (s : Granting) (a : Resource × Bytes) : Prop :=
  priv.blocksize = 1024 ∧
    (match a.1 with
      | .block => 2 ≤ groupFree priv s.disk .block 0
      | .inode => 1 ≤ groupFree priv s.disk .inode 0) ∧
    ∀ id, CountedOn priv a.1 (groupFree priv s.disk a.1 0) id → Free priv s.disk a.1 id

/-- The end of the ids a formula counts down to. -/
def limit (priv : Ext2Priv) : Resource → Nat
  | .block => priv.sb.blocks.toNat
  | .inode => priv.sb.inodesInBlockgroup.toNat

/-- What was given out lies before what the counter of group 0 still counts on. -/
structure CountingDown (priv : Ext2Priv) (s : Granting) : Prop where
  good : GoodIds priv s
  room : ∀ r, groupFree priv s.disk r 0 ≤ limit priv r
  below : ∀ r, ∀ id ∈ idsOf s r, id + groupFree priv s.disk r 0 ≤ limit priv r

theorem group_size_le (priv : Ext2Priv) (r : Resource) : groupSize priv 0 r ≤ limit priv r := by
  cases r with
  | block => simp only [groupSize, limit]; omega
  | inode => exact Nat.le_refl _

theorem Consistent.start (h : Consistent priv dev) : CountingDown priv ⟨dev, []⟩ := by
  refine ⟨⟨fun r => List.nodup_nil, fun x hx => by cases hx⟩, ?_, fun r id hid => by cases hid⟩
  intro r
  have hsize := group_size_le priv r
  have hle := List.countP_le_length (p := fun k => !used priv dev r 0 k)
    (l := List.range (groupSize priv 0 r))
  rw [List.length_range, ← h.counters 0 (by have := h.several; omega) r] at hle
  exact hle.trans hsize

theorem group_zero_le (h : Consistent priv dev) :
    priv.sb.inodesInBlockgroup.toNat ≤ priv.sb.inodes.toNat := by
  rw [h.inodes]
  exact Nat.le_mul_of_pos_left _ (by have := h.several; omega)

/-- The other counter of group 0 is left alone. -/
theorem counted_down_other (priv : Ext2Priv) (dev : Levos.Disk) (hne : r' ≠ r) :
    groupFree priv (countedDown priv dev r 0) r' 0 = groupFree priv dev r' 0 := by
  have htable := table_byte_le priv
  have hsuper := in_superblock_le r
  rw [groupFree, countedDown, numberAt_blit_apart _ (by
    rw [toBytes_length, superCounterAt, counterAt]; omega), numberAt_blit_apart _ ?_, groupFree]
  rw [toBytes_length, counterAt, counterAt]
  cases r <;> cases r' <;> first | exact absurd rfl hne | simp only [Resource.inDescriptor]; omega

/-- The id a served call gives out. -/
theorem new_id_group_zero (h : priv.sb.superblockId.toNat = 1024 / priv.blocksize)
    (hsize : priv.blocksize = 1024) (hroom : groupFree priv dev r 0 ≤ limit priv r)
    (hpos : 1 ≤ groupFree priv dev r 0) (hblock : r = .block → 2 ≤ groupFree priv dev r 0)
    (after : Bytes) : newId r priv dev after =
      some (some (limit priv r - groupFree priv dev r 0 + 1), countedDown priv dev r 0) := by
  have htake := take_free_group_zero h hsize (Nat.ne_of_gt hpos) after
  have hsmall : groupFree priv dev r 0 < 256 ^ 2 := numberAt_lt dev _ 2
  have hid : ∀ l < 2 ^ 32, groupFree priv dev r 0 ≤ l → l - groupFree priv dev r 0 + 1 < 2 ^ 32 →
      (l + (2 ^ 32 - groupFree priv dev r 0) + 1) % 2 ^ 32 = l - groupFree priv dev r 0 + 1 := by
    intro l hl hle hlt
    omega
  cases r with
  | block =>
    have hl := priv.sb.blocks.toNat_lt
    have htwo := hblock rfl
    rw [newId, ext2AllocBlock, htake]
    simp only [Option.map_some]
    rw [hid _ hl hroom (by omega), limit]
  | inode =>
    have hl := priv.sb.inodesInBlockgroup.toNat_lt
    rw [newId, ext2FindNewInodeId, htake]
    simp only [Option.map_some, Nat.zero_add, Nat.one_mul]
    rw [hid _ hl hroom (by omega), limit]

theorem ids_cons (x : Grant) (d : Levos.Disk) (xs : List Grant) (r : Resource) :
    idsOf ⟨d, x :: xs⟩ r = if x.kind = r then x.id :: idsOf ⟨d, xs⟩ r else idsOf ⟨d, xs⟩ r := by
  by_cases h : x.kind = r <;> simp [idsOf, h]

theorem Served.counted_on (h : Consistent priv dev) (hc : CountingDown priv s)
    (hs : Served priv s (r, after)) :
    CountedOn priv r (groupFree priv s.disk r 0)
        (limit priv r - groupFree priv s.disk r 0 + 1) ∧
      InRange priv r (limit priv r - groupFree priv s.disk r 0 + 1) := by
  have hroom := hc.room r
  have hserved := hs.2.1
  have hgroup := group_zero_le h
  cases r with
  | block =>
    simp only [limit, CountedOn, InRange] at hroom hserved ⊢
    omega
  | inode =>
    simp only [limit, CountedOn, InRange] at hroom hserved ⊢
    omega

theorem Served.pos (hs : Served priv s (r, after)) : 1 ≤ groupFree priv s.disk r 0 := by
  have hserved := hs.2.1
  cases r with
  | block =>
    simp only at hserved
    omega
  | inode => exact hserved

theorem Served.call_eq (h : Consistent priv dev) (hc : CountingDown priv s)
    (hs : Served priv s (r, after)) : call priv s (r, after) =
      some ⟨countedDown priv s.disk r 0,
        ⟨r, limit priv r - groupFree priv s.disk r 0 + 1, s.disk⟩ :: s.given⟩ := by
  have hblock : r = .block → 2 ≤ groupFree priv s.disk r 0 := by
    rintro rfl
    exact hs.2.1
  rw [call, new_id_group_zero h.format hs.1 (hc.room r) hs.pos hblock after]

/-- One more grant keeps the ids good, when its id is new, in range and was free. -/
theorem GoodIds.cons (hg : GoodIds priv s) (disk : Levos.Disk) (x : Grant)
    (hnew : x.id ∉ idsOf s x.kind) (hrange : InRange priv x.kind x.id)
    (hfree : Free priv x.before x.kind x.id) : GoodIds priv ⟨disk, x :: s.given⟩ := by
  constructor
  · intro r
    rw [ids_cons]
    split
    case isTrue heq =>
      subst heq
      exact List.nodup_cons.mpr ⟨hnew, hg.1 x.kind⟩
    case isFalse => exact hg.1 r
  · intro y hy
    rcases List.mem_cons.mp hy with rfl | hy
    · exact ⟨hrange, hfree⟩
    · exact hg.2 y hy

/-- A served call gives out the next id. -/
theorem CountingDown.call (h : Consistent priv dev) (hc : CountingDown priv s)
    (hs : Served priv s (r, after)) :
    CountingDown priv ⟨countedDown priv s.disk r 0,
      ⟨r, limit priv r - groupFree priv s.disk r 0 + 1, s.disk⟩ :: s.given⟩ := by
  obtain ⟨hcounted, hrange⟩ := hs.counted_on h hc
  have hpos := hs.pos
  have hself := counted_down_group priv s.disk r 0
  have hnew : limit priv r - groupFree priv s.disk r 0 + 1 ∉ idsOf s r := by
    intro hm
    have hbelow := hc.below r _ hm
    omega
  refine ⟨hc.good.cons _ _ hnew hrange (hs.2.2 _ hcounted), ?_, ?_⟩
  · intro r'
    by_cases heq : r' = r
    · subst heq
      have := hc.room r'
      simp only [hself]
      omega
    · simp only [counted_down_other priv s.disk heq]
      exact hc.room r'
  · intro r' id hid
    rw [ids_cons] at hid
    by_cases heq : r = r'
    · subst heq
      rw [if_pos rfl] at hid
      simp only [hself]
      have hroom := hc.room r
      rcases List.mem_cons.mp hid with rfl | hid
      · simp only
        omega
      · have := hc.below r id hid
        omega
    · rw [if_neg heq] at hid
      simp only [counted_down_other priv s.disk (Ne.symm heq)]
      exact hc.below r' id hid

/-- As long as every call is served from group 0, with blocks of 1024 bytes and
the ids counted on free, the ids are distinct, in range and free. -/
theorem ids_good (h : Consistent priv dev) (calls : List (Resource × Bytes))
    (hg : Guarded (call priv) (Served priv) ⟨dev, []⟩ calls) :
    (run (call priv) ⟨dev, []⟩ calls).isSome ∧
      Throughout (call priv) (GoodIds priv) ⟨dev, []⟩ calls := by
  have keep : ∀ s a, CountingDown priv s → Served priv s a →
      ∃ t, call priv s a = some t ∧ CountingDown priv t := by
    intro s a hc hs
    exact ⟨_, hs.call_eq h hc, hc.call h hs⟩
  refine ⟨run_of_guarded h.start keep hg, ?_⟩
  refine (throughout_of_guarded h.start ?_ hg).mono (fun _ hc => hc.good)
  intro s a t hc hs ht
  obtain ⟨u, hu, hcu⟩ := keep s a hc hs
  rw [ht] at hu
  cases hu
  exact hcu

/-- The small volume with two free blocks and a free inode in group 0. -/
def roomyDisk : Levos.Disk := fun a =>
  (([(1036, 7), (1040, 6), (2060, 2), (2062, 1), (3072, 0x3F), (4096, 0x7F)] ++
    smallBytes).lookup a).getD 0

theorem roomy_consistent : Consistent smallPriv roomyDisk := by
  refine ⟨by decide, by decide, by decide, ?_, ?_⟩
  · intro g hg r
    have hg : g < 2 := hg
    cases r <;> interval_cases g <;> decide
  · intro r
    cases r <;> decide

theorem ids_good_roomy : Throughout (call smallPriv) (GoodIds smallPriv) ⟨roomyDisk, []⟩
    [(.block, []), (.inode, [])] := by
  have hblock : Served smallPriv ⟨roomyDisk, []⟩ (.block, []) := by
    refine ⟨by decide, by decide, ?_⟩
    intro id hid
    have hfree : groupFree smallPriv roomyDisk .block 0 = 2 := by decide
    have hblocks : smallPriv.sb.blocks.toNat = 17 := rfl
    simp only [CountedOn, hfree, hblocks] at hid
    obtain rfl : id = 16 := by omega
    exact ⟨by decide, by decide⟩
  refine (ids_good roomy_consistent _ (.cons (hblock.call_eq roomy_consistent
    roomy_consistent.start) hblock (.single ?_))).2
  have hkept := counted_down_other smallPriv roomyDisk (show Resource.inode ≠ .block by decide)
  have hfree : groupFree smallPriv roomyDisk .inode 0 = 1 := by decide
  refine ⟨by decide, ?_, ?_⟩
  · simp only [hkept, hfree]
    decide
  · intro id hid
    have hinodes : smallPriv.sb.inodesInBlockgroup.toNat = 8 := rfl
    simp only [CountedOn, hkept, hfree, hinodes] at hid
    obtain rfl : id = 8 := by omega
    show used _ _ _ _ _ = false
    decide

theorem small_consistent : Consistent smallPriv smallDisk := by
  refine ⟨by decide, by decide, by decide, ?_, ?_⟩
  · intro g hg r
    have hg : g < 2 := hg
    cases r <;> interval_cases g <;> decide
  · intro r
    cases r <;> decide

/-- The one free block of group 0 of the small volume is block 8; the call gives
out block 17 of a volume whose last block is 16. -/
theorem block_past_end : ¬ ∀ (priv : Ext2Priv) (dev : Levos.Disk) (calls : List (Resource × Bytes)),
    (ext2Probe dev).map Ext2Priv.sb = some priv.sb → Consistent priv dev →
      Throughout (call priv) (GoodIds priv) ⟨dev, []⟩ calls := by
  intro h
  have hnew : newId .block smallPriv smallDisk [] =
      some (some 17, countedDown smallPriv smallDisk .block 0) := by
    have hfree : groupFree smallPriv smallDisk .block 0 = 1 := by decide
    rw [newId, ext2AllocBlock, take_free_group_zero (by decide) (by decide)
      (by rw [hfree]; decide) []]
    simp only [Option.map_some, hfree]
    rfl
  have hcall : call smallPriv ⟨smallDisk, []⟩ (.block, []) =
      some ⟨countedDown smallPriv smallDisk .block 0, [⟨.block, 17, smallDisk⟩]⟩ := by
    simp only [call, hnew]
  have hgood := (h smallPriv smallDisk [(.block, [])] small_probed small_consistent).2
  rw [hcall] at hgood
  have hrange : 17 < smallPriv.sb.blocks.toNat :=
    (hgood.2 ⟨.block, 17, smallDisk⟩ List.mem_cons_self).1
  revert hrange
  decide

end Levos.Proofs.Ids
