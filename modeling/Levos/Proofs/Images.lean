import Levos.FullRead
import Levos.Library.Lists
import Levos.Proofs.Disk
import Levos.Proofs.Reading

namespace Levos.Proofs.Images
open Library Lookup Reading
open FullRead (Copy pointer stored loadImage)

variable {v : Volume} {inode : Inode} {n : Nat}

/-- How many pointers a block holds. -/
def perBlock (v : Volume) : Nat := v.blocksize / 4

/-- The number of the block that holds block `k` of the file; 0 if there is none. -/
def logical (v : Volume) (inode : Inode) (k : Nat) : Nat :=
  if h : k < 12 then inode.dbp[k]
  else if k - 12 < perBlock v then
    if inode.singlyBlock = 0 then 0 else pointer v inode.singlyBlock (k - 12)
  else if inode.doublyBlock = 0 then 0
  else if pointer v inode.doublyBlock ((k - 12 - perBlock v) / perBlock v) = 0 then 0
  else pointer v (pointer v inode.doublyBlock ((k - 12 - perBlock v) / perBlock v))
    ((k - 12 - perBlock v) % perBlock v)

/-- How many blocks a file can have without triply indirect ones. -/
def capacity (v : Volume) : Nat := 12 + perBlock v + perBlock v * perBlock v

/-- A file of `n` blocks without holes. -/
structure HoleFree (v : Volume) (inode : Inode) (n : Nat) : Prop where
  fits : n ≤ capacity v
  mapped : ∀ k < n, logical v inode k ≠ 0 ∧ logical v inode k < v.blocks
  ended : ∀ k, n ≤ k → k < capacity v → logical v inode k = 0

/-- The copies of the first `n` blocks to their places. -/
def tiles (v : Volume) (inode : Inode) (n : Nat) : List Copy :=
  (List.range n).map (fun k => ⟨k * v.blocksize, logical v inode k⟩)

theorem singly_loop_eq (t buf left i : Nat) :
    FullRead.readSinglyLoop v t buf left i =
      ((List.range' i left).takeWhile (fun j => decide (pointer v t j ≠ 0))).map
        (fun j => (⟨buf + j * v.blocksize % 2 ^ 32, pointer v t j⟩ : Copy)) := by
  induction left generalizing i with
  | zero => rfl
  | succ left ih =>
    rw [FullRead.readSinglyLoop, List.range'_succ]
    by_cases hz : pointer v t i = 0
    · simp [hz]
    · simp [hz, ih]

theorem doubly_loop_eq (t buf left i : Nat) :
    FullRead.readDoublyLoop v t buf left i =
      ((List.range' i left).takeWhile (fun j => decide (pointer v t j ≠ 0))).flatMap
        (fun j => FullRead.ext2ReadSinglyLinked v (pointer v t j)
          (buf + j * FullRead.sizeOfSingly v % 2 ^ 32)) := by
  induction left generalizing i with
  | zero => rfl
  | succ left ih =>
    rw [FullRead.readDoublyLoop, List.range'_succ]
    by_cases hz : pointer v t i = 0
    · simp [hz]
    · simp [hz, ih]

/-- The loop over the direct blocks copies those in front of it and goes on. -/
theorem full_loop_append (inode : Inode) (front back : List Nat) (i : Nat)
    (h : ∀ b ∈ front, b ≠ 0 ∧ b ≤ v.blocks) :
    FullRead.readFullLoop v inode (front ++ back) i =
      (front.mapIdx (fun j b => ⟨(i + j) * v.blocksize % 2 ^ 32, b⟩) ++
        (FullRead.readFullLoop v inode back (i + front.length)).1,
        (FullRead.readFullLoop v inode back (i + front.length)).2) := by
  induction front generalizing i with
  | nil => rfl
  | cons b front ih =>
    obtain ⟨⟨hne, hle⟩, hrest⟩ := List.forall_mem_cons.mp h
    rw [List.cons_append, FullRead.readFullLoop, if_neg hne, if_neg (Nat.not_lt.mpr hle),
      ih _ hrest, List.mapIdx_cons, List.length_cons]
    have hplace : ∀ j, i + 1 + j = i + (j + 1) := fun j => by omega
    simp only [hplace, Nat.add_zero, List.cons_append]

theorem per_block_mul (v : Volume) : perBlock v * 4 = v.blocksize := by
  rw [perBlock, Volume.blocksize, Nat.shiftLeft_eq]
  omega

theorem per_block_pos (v : Volume) : 0 < perBlock v := by
  have hmul := per_block_mul v
  have hpos := blocksize_pos v
  omega

theorem block_square (v : Volume) : v.blocksize * v.blocksize / 4 = perBlock v * v.blocksize := by
  have hsplit : v.blocksize * v.blocksize = perBlock v * v.blocksize * 4 := by
    rw [Nat.mul_right_comm, per_block_mul]
  rw [hsplit, Nat.mul_div_cancel _ (by decide)]

theorem logical_singly (inode : Inode) (hj : j < perBlock v) :
    logical v inode (12 + j) =
      if inode.singlyBlock = 0 then 0 else pointer v inode.singlyBlock j := by
  rw [logical, dif_neg (by omega), Nat.add_sub_cancel_left, if_pos hj]

theorem logical_doubly (v : Volume) (inode : Inode) (q : Nat) :
    logical v inode (12 + perBlock v + q) =
      if inode.doublyBlock = 0 then 0
      else if pointer v inode.doublyBlock (q / perBlock v) = 0 then 0
      else pointer v (pointer v inode.doublyBlock (q / perBlock v)) (q % perBlock v) := by
  rw [logical, dif_neg (by omega), if_neg (by omega),
    show 12 + perBlock v + q - 12 - perBlock v = q by omega]

/-- A block in the doubly indirect block is a hole if its row is, or its place there. -/
theorem logical_doubly_zero (hz : inode.doublyBlock ≠ 0) (q : Nat) :
    logical v inode (12 + perBlock v + q) = 0 ↔
      pointer v inode.doublyBlock (q / perBlock v) = 0 ∨
        pointer v (pointer v inode.doublyBlock (q / perBlock v)) (q % perBlock v) = 0 := by
  rw [logical_doubly, if_neg hz]
  by_cases hrow : pointer v inode.doublyBlock (q / perBlock v) = 0
  · simp [hrow]
  · simp [hrow]

/-- Pointer `j` of the block of pointers with number `i`. -/
theorem row_place (i : Nat) (hj : j < perBlock v) :
    (i * perBlock v + j) / perBlock v = i ∧ (i * perBlock v + j) % perBlock v = j := by
  rw [Nat.mul_comm, Nat.mul_add_div (per_block_pos v), Nat.mul_add_mod, Nat.div_eq_of_lt hj,
    Nat.mod_eq_of_lt hj]
  exact ⟨Nat.add_zero i, rfl⟩

section Small

variable (hbs : v.blocksize ≤ 4096)
include hbs

/-- A block of pointers spans less than the products can hold. -/
theorem singly_product (hj : j < perBlock v) : j * v.blocksize % 2 ^ 32 = j * v.blocksize := by
  have hmul := per_block_mul v
  have hle : j * v.blocksize ≤ 1024 * 4096 := Nat.mul_le_mul (by omega) hbs
  exact Nat.mod_eq_of_lt (by omega)

theorem size_of_singly_eq : FullRead.sizeOfSingly v = perBlock v * v.blocksize := by
  have hle : v.blocksize * v.blocksize ≤ 4096 * 4096 := Nat.mul_le_mul hbs hbs
  rw [FullRead.sizeOfSingly, Nat.mod_eq_of_lt (by omega), block_square]

theorem doubly_product (hi : i < perBlock v) :
    i * FullRead.sizeOfSingly v % 2 ^ 32 = i * (perBlock v * v.blocksize) := by
  have hmul := per_block_mul v
  have hone : perBlock v * v.blocksize ≤ 1024 * 4096 := Nat.mul_le_mul (by omega) hbs
  have hle : i * (perBlock v * v.blocksize) ≤ 1023 * (1024 * 4096) := Nat.mul_le_mul (by omega) hone
  rw [size_of_singly_eq hbs]
  exact Nat.mod_eq_of_lt (by omega)

/-- A block of pointers of which the first `m` are used. -/
theorem singly_tiles (t buf : Nat) (hm : m ≤ perBlock v) (hin : ∀ j < m, pointer v t j ≠ 0)
    (hout : m < perBlock v → pointer v t m = 0) :
    FullRead.ext2ReadSinglyLinked v t buf =
      (List.range m).map (fun j => ⟨buf + j * v.blocksize, pointer v t j⟩) := by
  have hused : (List.range' 0 (perBlock v)).takeWhile (fun j => decide (pointer v t j ≠ 0)) =
      List.range' 0 m := by
    refine takeWhile_range'_eq ?_ ?_ hm
    · intro j _ hj
      exact decide_eq_true (hin j (by omega))
    · intro hlt
      rw [Nat.zero_add, hout hlt]
      rfl
  rw [FullRead.ext2ReadSinglyLinked, singly_loop_eq, show v.blocksize / 4 = perBlock v from rfl,
    hused, List.range_eq_range']
  refine List.map_congr_left ?_
  intro j hj
  obtain ⟨-, hlt⟩ := List.mem_range'_1.mp hj
  rw [singly_product hbs (by omega)]

/-- One block of pointers, at its place among all of them. -/
theorem row_tiles (t buf : Nat) (hi : i < perBlock v) (hm : m ≤ perBlock v) :
    (List.range m).map (fun j => (⟨buf + i * FullRead.sizeOfSingly v % 2 ^ 32 +
        j * v.blocksize, pointer v (pointer v t i) j⟩ : Copy)) =
      (List.range' (i * perBlock v) m).map (fun q => ⟨buf + q * v.blocksize,
        pointer v (pointer v t (q / perBlock v)) (q % perBlock v)⟩) := by
  rw [List.range'_eq_map_range, List.map_map]
  refine List.map_congr_left ?_
  intro j hj
  obtain ⟨hrow, hcolumn⟩ := row_place i (Nat.lt_of_lt_of_le (List.mem_range.mp hj) hm)
  rw [Function.comp_apply, hrow, hcolumn, doubly_product hbs hi, Nat.add_mul, Nat.mul_assoc,
    Nat.add_assoc]

/-- The blocks of pointers from the one with number `i` on, when the first `count` of
all their pointers are used. -/
theorem doubly_loop_tiles (t buf : Nat)
    (hin : ∀ q < count, pointer v t (q / perBlock v) ≠ 0 ∧
      pointer v (pointer v t (q / perBlock v)) (q % perBlock v) ≠ 0)
    (hout : ∀ q, count ≤ q → q < perBlock v * perBlock v →
      pointer v t (q / perBlock v) = 0 ∨
        pointer v (pointer v t (q / perBlock v)) (q % perBlock v) = 0)
    (left i : Nat) (hi : i + left = perBlock v) (hcount : count ≤ perBlock v * perBlock v) :
    FullRead.readDoublyLoop v t buf left i =
      (List.range' (i * perBlock v) (count - i * perBlock v)).map (fun q =>
        ⟨buf + q * v.blocksize, pointer v (pointer v t (q / perBlock v)) (q % perBlock v)⟩) := by
  have hp := per_block_pos v
  induction left generalizing i with
  | zero =>
    rw [show i = perBlock v by omega, Nat.sub_eq_zero_of_le hcount]
    rfl
  | succ left ih =>
    have hnext : (i + 1) * perBlock v = i * perBlock v + perBlock v := Nat.succ_mul i _
    have hrow : i * perBlock v + perBlock v ≤ perBlock v * perBlock v := by
      rw [← hnext]
      exact Nat.mul_le_mul_right _ (by omega)
    rw [FullRead.readDoublyLoop]
    by_cases hz : pointer v t i = 0
    · have hend : count ≤ i * perBlock v := by
        by_contra hlt
        have hfirst := (hin (i * perBlock v) (by omega)).1
        rw [Nat.mul_div_cancel _ hp] at hfirst
        exact hfirst hz
      rw [if_pos hz, Nat.sub_eq_zero_of_le hend]
      rfl
    · -- of this block of pointers those below `count` are used
      obtain ⟨m, hm⟩ : ∃ m, m = min (perBlock v) (count - i * perBlock v) := ⟨_, rfl⟩
      have hused : ∀ j < m, pointer v (pointer v t i) j ≠ 0 := by
        intro j hj
        obtain ⟨hdiv, hmod⟩ := row_place (v := v) (j := j) i (by omega)
        have hq := (hin (i * perBlock v + j) (by omega)).2
        rwa [hdiv, hmod] at hq
      have hfree : m < perBlock v → pointer v (pointer v t i) m = 0 := by
        intro hlt
        obtain ⟨hdiv, hmod⟩ := row_place (v := v) i hlt
        have hq := hout (i * perBlock v + m) (by omega) (by omega)
        rw [hdiv, hmod] at hq
        exact hq.resolve_left hz
      have hrest : count - (i + 1) * perBlock v = count - i * perBlock v - perBlock v := by omega
      rw [if_neg hz, singly_tiles hbs _ _ (by omega) hused hfree, ih (i + 1) (by omega),
        row_tiles hbs t buf (by omega) (by omega), ← List.map_append, hrest, hnext, hm,
        range'_min_append]

/-- A file without holes uses the pointers of its singly indirect block first. -/
theorem indirect_singly (h : HoleFree v inode n) :
    (if inode.singlyBlock = 0 then []
      else FullRead.ext2ReadSinglyLinked v inode.singlyBlock (12 * v.blocksize % 2 ^ 32)) =
      (List.range' 12 (min (n - 12) (perBlock v))).map
        (fun k => (⟨k * v.blocksize, logical v inode k⟩ : Copy)) := by
  have hp := per_block_pos v
  have hcap : 12 + perBlock v ≤ capacity v := Nat.le_add_right _ _
  by_cases hz : inode.singlyBlock = 0
  · have hend : n ≤ 12 := by
      by_contra hlt
      refine (h.mapped 12 (by omega)).1 ?_
      rw [show 12 = 12 + 0 from rfl, logical_singly inode hp, if_pos hz]
    rw [if_pos hz, Nat.sub_eq_zero_of_le hend, Nat.zero_min]
    rfl
  · have hplace : ∀ j < perBlock v, logical v inode (12 + j) = pointer v inode.singlyBlock j := by
      intro j hj
      rw [logical_singly inode hj, if_neg hz]
    have hused : ∀ j < min (n - 12) (perBlock v), pointer v inode.singlyBlock j ≠ 0 := by
      intro j hj
      rw [← hplace j (by omega)]
      exact (h.mapped (12 + j) (by omega)).1
    have hfree : min (n - 12) (perBlock v) < perBlock v →
        pointer v inode.singlyBlock (min (n - 12) (perBlock v)) = 0 := by
      intro hlt
      rw [← hplace _ hlt]
      exact h.ended _ (by omega) (by omega)
    rw [if_neg hz, singly_tiles hbs _ _ (Nat.min_le_right _ _) hused hfree,
      List.range'_eq_map_range, List.map_map]
    refine List.map_congr_left ?_
    intro j hj
    have hlt : j < perBlock v := by have := List.mem_range.mp hj; omega
    rw [Function.comp_apply, hplace j hlt, Nat.mod_eq_of_lt (by omega), Nat.add_mul]

theorem doubly_start :
    (FullRead.sizeOfSingly v + 12 * v.blocksize) % 2 ^ 32 = (12 + perBlock v) * v.blocksize := by
  have hmul := per_block_mul v
  have hle : perBlock v * v.blocksize ≤ 1024 * 4096 := Nat.mul_le_mul (by omega) hbs
  rw [size_of_singly_eq hbs, Nat.mod_eq_of_lt (by omega), Nat.add_mul, Nat.add_comm]

/-- The pointers of the blocks in its doubly indirect block come after them. -/
theorem indirect_doubly (h : HoleFree v inode n) :
    (if inode.doublyBlock = 0 then []
      else FullRead.ext2ReadDoublyLinked v inode.doublyBlock
        ((FullRead.sizeOfSingly v + 12 * v.blocksize) % 2 ^ 32)) =
      (List.range' (12 + perBlock v) (n - (12 + perBlock v))).map
        (fun k => (⟨k * v.blocksize, logical v inode k⟩ : Copy)) := by
  have hp := per_block_pos v
  have hfits : n - (12 + perBlock v) ≤ perBlock v * perBlock v := by
    have := h.fits
    simp only [capacity] at this
    omega
  by_cases hz : inode.doublyBlock = 0
  · have hend : n ≤ 12 + perBlock v := by
      by_contra hlt
      refine (h.mapped (12 + perBlock v + 0) (by omega)).1 ?_
      rw [logical_doubly, if_pos hz]
    rw [if_pos hz, Nat.sub_eq_zero_of_le hend]
    rfl
  · have hin : ∀ q < n - (12 + perBlock v),
        pointer v inode.doublyBlock (q / perBlock v) ≠ 0 ∧
          pointer v (pointer v inode.doublyBlock (q / perBlock v)) (q % perBlock v) ≠ 0 := by
      intro q hq
      have hne := mt (logical_doubly_zero hz q).mpr (h.mapped (12 + perBlock v + q) (by omega)).1
      exact not_or.mp hne
    have hout : ∀ q, n - (12 + perBlock v) ≤ q → q < perBlock v * perBlock v →
        pointer v inode.doublyBlock (q / perBlock v) = 0 ∨
          pointer v (pointer v inode.doublyBlock (q / perBlock v)) (q % perBlock v) = 0 := by
      intro q hle hlt
      exact (logical_doubly_zero hz q).mp (h.ended _ (by omega) (by rw [capacity]; omega))
    have hread := doubly_loop_tiles hbs inode.doublyBlock ((12 + perBlock v) * v.blocksize) hin
      hout (perBlock v) 0 (Nat.zero_add _) hfits
    rw [if_neg hz, doubly_start hbs, FullRead.ext2ReadDoublyLinked,
      show v.blocksize / 4 = perBlock v from rfl, hread, Nat.zero_mul, Nat.sub_zero,
      ← List.range_eq_range', List.range'_eq_map_range, List.map_map]
    refine List.map_congr_left ?_
    intro q hq
    have hrow := (hin q (List.mem_range.mp hq)).1
    rw [Function.comp_apply, logical_doubly, if_neg hz, if_neg hrow, Nat.add_mul (12 + perBlock v)]

/-- The direct blocks of a file, copied from the first one on. -/
theorem direct_tiles (inode : Inode) (hm : m ≤ 12) :
    (inode.dbp.toList.take m).mapIdx (fun j b => (⟨(0 + j) * v.blocksize % 2 ^ 32, b⟩ : Copy)) =
      tiles v inode m := by
  refine List.ext_getElem (by simp [tiles, hm]) ?_
  intro j hj _
  rw [List.length_mapIdx, List.length_take] at hj
  have hlt : j < 12 := by omega
  have hproduct : j * v.blocksize ≤ 11 * 4096 := Nat.mul_le_mul (by omega) hbs
  have hsmall : j * v.blocksize < 4294967296 := by omega
  simp [tiles, logical, hlt, hsmall]

/-- A file without holes is copied block after block, and the call returns. -/
theorem read_inode_tiles (h : HoleFree v inode n) :
    FullRead.readInode v inode = (tiles v inode n, true) := by
  have hdirect : ∀ (k : Nat) (hk : k < 12), logical v inode k = inode.dbp[k] := by
    intro k hk
    rw [logical, dif_pos hk]
  have hfront : ∀ b ∈ inode.dbp.toList.take n, b ≠ 0 ∧ b ≤ v.blocks := by
    intro b hb
    obtain ⟨k, hk, rfl⟩ := List.mem_take_iff_getElem.mp hb
    have hlt : k < 12 := by simp at hk; omega
    have hmapped := h.mapped k (by omega)
    rw [hdirect k hlt] at hmapped
    exact ⟨hmapped.1, Nat.le_of_lt hmapped.2⟩
  have hread := full_loop_append inode (inode.dbp.toList.take n)
    (inode.dbp.toList.drop n) 0 hfront
  rw [List.take_append_drop] at hread
  rw [FullRead.readInode, hread]
  rcases Nat.lt_or_ge n 12 with hlt | hge
  · -- the loop stops at the first pointer behind the file
    have hlast : inode.dbp[n] = 0 := by
      rw [← hdirect n hlt]
      exact h.ended n (Nat.le_refl n) (by rw [capacity]; omega)
    have hcons : inode.dbp.toList.drop n = 0 :: inode.dbp.toList.drop (n + 1) := by
      rw [List.drop_eq_getElem_cons (by simpa using hlt), Vector.getElem_toList, hlast]
    rw [direct_tiles hbs inode (Nat.le_of_lt hlt), hcons, FullRead.readFullLoop, if_pos rfl,
      List.append_nil]
  · have hall : inode.dbp.toList.take n = inode.dbp.toList.take 12 := by
      rw [List.take_of_length_le (by simpa using hge), List.take_of_length_le (by simp)]
    have hnone : inode.dbp.toList.drop n = [] := List.drop_of_length_le (by simpa using hge)
    rw [hall, direct_tiles hbs inode (Nat.le_refl 12), hnone, FullRead.readFullLoop,
      FullRead.readIndirect, indirect_singly hbs h, indirect_doubly hbs h, ← List.map_append,
      Nat.min_comm, Nat.sub_add_eq, range'_min_append, tiles, tiles, List.range_eq_range',
      ← List.map_append, List.range'_append_1, Nat.add_sub_cancel' hge, List.range_eq_range']

end Small

theorem tiles_within (hc : c ∈ tiles v inode n) : c.offset + v.blocksize ≤ n * v.blocksize := by
  obtain ⟨k, hk, rfl⟩ := List.mem_map.mp hc
  rw [← Nat.succ_mul]
  exact Nat.mul_le_mul_right _ (List.mem_range.mp hk)

theorem stored_tiles (mem : Nat → UInt8) (hk : k < n) :
    slice (stored v mem (tiles v inode n)) (k * v.blocksize) v.blocksize =
      v.block (logical v inode k) := by
  have hplaced := slice_tiled mem 0 (fun k => v.block (logical v inode k))
    (fun k => block_size v _) hk
  simp only [Nat.zero_add] at hplaced
  rw [stored, tiles, List.foldl_map]
  exact hplaced

theorem read_full_found (hfind : ext2FindFileInode v after fn = some (inodeid, record))
    (hid : inodeid ≠ 0) : FullRead.ext2ReadFileFull v after fn =
      some (some (FullRead.readInode v (v.inode inodeid))) := by
  simp only [FullRead.ext2ReadFileFull, hfind, Option.map_some, if_neg hid]

/-- `ext2_read_file_full` on a file without holes: block `k` of the file ends up at its
place, and no block is stored behind them. -/
theorem read_full_placed (v : Volume) (after fn : Bytes) (inodeid : Nat) (record : Inode) (n : Nat)
    (hbs : v.blocksize ≤ 4096) (hfind : ext2FindFileInode v after fn = some (inodeid, record))
    (hid : inodeid ≠ 0) (h : HoleFree v (v.inode inodeid) n) :
    ∃ copies, FullRead.ext2ReadFileFull v after fn = some (some (copies, true)) ∧
      (∀ mem, ∀ k < n, slice (stored v mem copies) (k * v.blocksize) v.blocksize =
        v.block (logical v (v.inode inodeid) k)) ∧
      ∀ c ∈ copies, c.offset + v.blocksize ≤ n * v.blocksize := by
  refine ⟨tiles v (v.inode inodeid) n, ?_, fun mem k hk => stored_tiles mem hk,
    fun c hc => tiles_within hc⟩
  rw [read_full_found hfind hid, read_inode_tiles hbs h]

/-- The root directory has the file "a" of thirteen blocks, all of them block 2. -/
def thirteenBlocks : Volume :=
  volumeOf [[], entryBytes 2 12 [46] ++ entryBytes 2 12 [46, 46] ++ entryBytes 11 12 [97] ++
      entryBytes 0 988 [], [104], [2]]
    [(2, ⟨0x4000, 1024, directs [1], 0, 0⟩),
      (11, ⟨0x8000, 13312, directs (List.replicate 12 2), 3, 0⟩)]

theorem thirteen_hole_free : HoleFree thirteenBlocks (thirteenBlocks.inode 11) 13 := by
  have hper : perBlock thirteenBlocks = 256 := rfl
  refine ⟨by decide, by decide, ?_⟩
  intro k hk hcap
  have hblock : thirteenBlocks.block 3 = 2 :: List.replicate 1023 0 := by decide +kernel
  have hfree : ∀ j, pointer thirteenBlocks 3 (j + 1) = 0 := by
    intro j
    rw [pointer, hblock, Nat.mul_succ, List.drop_succ_cons, List.drop_replicate,
      List.take_replicate, ofBytes_zeros]
  by_cases hlt : k - 12 < 256
  · obtain ⟨j, rfl⟩ : ∃ j, k = 12 + (j + 1) := ⟨k - 13, by omega⟩
    rw [logical_singly _ (by rw [hper]; omega)]
    exact hfree j
  · obtain ⟨q, rfl⟩ : ∃ q, k = 12 + perBlock thirteenBlocks + q := ⟨k - 268, by rw [hper]; omega⟩
    rw [logical_doubly]
    rfl

theorem read_full_placed_thirteen :
    HoleFree thirteenBlocks (thirteenBlocks.inode 11) 13 ∧
      ∃ copies, FullRead.ext2ReadFileFull thirteenBlocks [] [slash, 97] =
          some (some (copies, true)) ∧
        (∀ mem, ∀ k < 13, slice (stored thirteenBlocks mem copies)
          (k * thirteenBlocks.blocksize) thirteenBlocks.blocksize =
            thirteenBlocks.block (logical thirteenBlocks (thirteenBlocks.inode 11) k)) ∧
        ∀ c ∈ copies, c.offset + thirteenBlocks.blocksize ≤ 13 * thirteenBlocks.blocksize :=
  ⟨thirteen_hole_free, read_full_placed thirteenBlocks [] [slash, 97] 11
    (thirteenBlocks.inode 11) 13 (by decide) (by decide +kernel) (by decide) thirteen_hole_free⟩

/-- The first `m` direct pointers are used, and none of them is out of range. -/
def DirectUsed (v : Volume) (inode : Inode) (m : Nat) : Prop :=
  ∀ b ∈ inode.dbp.toList.take m, b ≠ 0 ∧ b ≤ v.blocks

/-- The places in the buffer of the blocks an inode points to. At each level only the
pointers before the first unused one count, and the indirect ones only behind twelve
direct blocks. The products have 32 bits. -/
inductive Reached (v : Volume) (inode : Inode) : Nat → Prop
  | direct (i : Nat) (hi : i < 12) (used : DirectUsed v inode (i + 1)) :
      Reached v inode (i * v.blocksize % 2 ^ 32)
  | singly (i : Nat) (hi : i < perBlock v) (full : DirectUsed v inode 12)
      (table : inode.singlyBlock ≠ 0) (used : ∀ j ≤ i, pointer v inode.singlyBlock j ≠ 0) :
      Reached v inode (12 * v.blocksize % 2 ^ 32 + i * v.blocksize % 2 ^ 32)
  | doubly (i j : Nat) (hi : i < perBlock v) (hj : j < perBlock v) (full : DirectUsed v inode 12)
      (table : inode.doublyBlock ≠ 0) (rows : ∀ k ≤ i, pointer v inode.doublyBlock k ≠ 0)
      (used : ∀ k ≤ j, pointer v (pointer v inode.doublyBlock i) k ≠ 0) :
      Reached v inode ((FullRead.sizeOfSingly v + 12 * v.blocksize) % 2 ^ 32 +
        i * FullRead.sizeOfSingly v % 2 ^ 32 + j * v.blocksize % 2 ^ 32)

/-- Every block the inode points to lies within the size of the file. -/
def Fits (v : Volume) (inode : Inode) : Prop :=
  ∀ off, Reached v inode off → off + v.blocksize ≤ inode.size.toNat

theorem mem_singly (v : Volume) (t buf off : Nat) :
    off ∈ (FullRead.ext2ReadSinglyLinked v t buf).map Copy.offset ↔
      ∃ i < perBlock v, (∀ j ≤ i, pointer v t j ≠ 0) ∧ off = buf + i * v.blocksize % 2 ^ 32 := by
  rw [FullRead.ext2ReadSinglyLinked, singly_loop_eq, List.map_map, List.mem_map]
  simp only [mem_takeWhile_range', decide_eq_true_eq, Nat.zero_le, true_and, Nat.zero_add,
    forall_const, Function.comp_apply]
  constructor
  · rintro ⟨i, ⟨hi, hused⟩, rfl⟩
    exact ⟨i, hi, hused, rfl⟩
  · rintro ⟨i, hi, hused, rfl⟩
    exact ⟨i, ⟨hi, hused⟩, rfl⟩

theorem mem_doubly (v : Volume) (t buf off : Nat) :
    off ∈ (FullRead.ext2ReadDoublyLinked v t buf).map Copy.offset ↔
      ∃ i < perBlock v, (∀ k ≤ i, pointer v t k ≠ 0) ∧
        ∃ j < perBlock v, (∀ k ≤ j, pointer v (pointer v t i) k ≠ 0) ∧
          off = buf + i * FullRead.sizeOfSingly v % 2 ^ 32 + j * v.blocksize % 2 ^ 32 := by
  rw [FullRead.ext2ReadDoublyLinked, doubly_loop_eq, List.map_flatMap, List.mem_flatMap]
  simp only [mem_singly, mem_takeWhile_range', decide_eq_true_eq, Nat.zero_le, true_and,
    Nat.zero_add, forall_const]
  constructor
  · rintro ⟨i, ⟨hi, hrows⟩, hrow⟩
    exact ⟨i, hi, hrows, hrow⟩
  · rintro ⟨i, hi, hrows, hrow⟩
    exact ⟨i, ⟨hi, hrows⟩, hrow⟩

theorem mem_indirect (v : Volume) (inode : Inode) (off : Nat) :
    off ∈ (FullRead.readIndirect v inode).map Copy.offset ↔
      (inode.singlyBlock ≠ 0 ∧ off ∈ (FullRead.ext2ReadSinglyLinked v inode.singlyBlock
        (12 * v.blocksize % 2 ^ 32)).map Copy.offset) ∨
      (inode.doublyBlock ≠ 0 ∧ off ∈ (FullRead.ext2ReadDoublyLinked v inode.doublyBlock
        ((FullRead.sizeOfSingly v + 12 * v.blocksize) % 2 ^ 32)).map Copy.offset) := by
  rw [FullRead.readIndirect, List.map_append, List.mem_append]
  by_cases hs : inode.singlyBlock = 0 <;> by_cases hd : inode.doublyBlock = 0 <;> simp [hs, hd]

theorem mem_full_loop (v : Volume) (inode : Inode) (bs : List Nat) (i off : Nat) :
    off ∈ (FullRead.readFullLoop v inode bs i).1.map Copy.offset ↔
      (∃ j < bs.length, (∀ b ∈ bs.take (j + 1), b ≠ 0 ∧ b ≤ v.blocks) ∧
        off = (i + j) * v.blocksize % 2 ^ 32) ∨
      ((∀ b ∈ bs, b ≠ 0 ∧ b ≤ v.blocks) ∧
        off ∈ (FullRead.readIndirect v inode).map Copy.offset) := by
  induction bs generalizing i with
  | nil => simp [FullRead.readFullLoop]
  | cons b bs ih =>
    rw [FullRead.readFullLoop]
    by_cases hb : b ≠ 0 ∧ b ≤ v.blocks
    · rw [if_neg hb.1, if_neg (Nat.not_lt.mpr hb.2), List.map_cons, List.mem_cons, ih]
      simp only [List.take_succ_cons, List.forall_mem_cons, hb, true_and, List.length_cons,
        not_false_eq_true, ne_eq]
      constructor
      · rintro (rfl | ⟨j, hj, hused, rfl⟩ | hind)
        · exact .inl ⟨0, by omega, by simp, rfl⟩
        · exact .inl ⟨j + 1, by omega, hused, by rw [Nat.add_assoc, Nat.add_comm 1 j]⟩
        · exact .inr hind
      · rintro (⟨j, hj, hused, rfl⟩ | hind)
        · cases j with
          | zero => exact .inl rfl
          | succ j =>
            exact .inr (.inl ⟨j, by omega, hused, by rw [Nat.add_assoc, Nat.add_comm 1 j]⟩)
        · exact .inr (.inr hind)
    · have hnone : (if b = 0 then ([], true) else if b > v.blocks then ([], false)
          else (⟨i * v.blocksize % 2 ^ 32, b⟩ :: (FullRead.readFullLoop v inode bs (i + 1)).1,
            (FullRead.readFullLoop v inode bs (i + 1)).2)).1 = ([] : List Copy) := by
        by_cases hz : b = 0
        · rw [if_pos hz]
        · rw [if_neg hz, if_pos (Nat.lt_of_not_le (fun hle => hb ⟨hz, hle⟩))]
      rw [hnone]
      simp only [List.map_nil, List.not_mem_nil, List.take_succ_cons, List.forall_mem_cons, hb,
        false_and, and_false, exists_false, or_false]

/-- The copies are those the pointers of the inode say. -/
theorem mem_read_inode (v : Volume) (inode : Inode) (off : Nat) :
    off ∈ (FullRead.readInode v inode).1.map Copy.offset ↔ Reached v inode off := by
  have hall : inode.dbp.toList.take 12 = inode.dbp.toList :=
    List.take_of_length_le (by simp)
  rw [FullRead.readInode, mem_full_loop, mem_indirect, mem_singly, mem_doubly]
  constructor
  · rintro (⟨i, hi, hused, rfl⟩ | ⟨hfull, ⟨ht, i, hi, hused, rfl⟩ |
      ⟨ht, i, hi, hrows, j, hj, hused, rfl⟩⟩)
    · rw [Nat.zero_add]
      exact .direct i (by simpa using hi) hused
    · rw [← hall] at hfull
      exact .singly i hi hfull ht hused
    · rw [← hall] at hfull
      exact .doubly i j hi hj hfull ht hrows hused
  · intro h
    cases h with
    | direct i hi hused =>
      refine .inl ⟨i, by simpa using hi, hused, ?_⟩
      rw [Nat.zero_add]
    | singly i hi hfull ht hused =>
      rw [DirectUsed, hall] at hfull
      exact .inr ⟨hfull, .inl ⟨ht, i, hi, hused, rfl⟩⟩
    | doubly i j hi hj hfull ht hrows hused =>
      rw [DirectUsed, hall] at hfull
      exact .inr ⟨hfull, .inr ⟨ht, i, hi, hrows, j, hj, hused, rfl⟩⟩

/-- What `sys_execve` and `start_shell` do with a file that is not empty. -/
theorem load_image_opened (hopen : vfsOpen v after path = some (some f))
    (hsize : (v.inode f.inode).size ≠ 0) :
    loadImage v after path =
      some (some ((v.inode f.inode).size, (FullRead.readInode v (v.inode f.inode)).1)) := by
  obtain ⟨hf, hid, hfind⟩ := open_found hopen
  have hpath : f.respath = path := by rw [hf]
  have hstat : vfsStat v after f = some (some (v.inode f.inode).size) := by
    rw [vfsStat, hpath]
    simp only [ext2Stat, hfind, Option.map_some, if_neg hid]
  simp only [loadImage, hopen, hstat, Option.getD_some, if_neg hsize, hpath,
    read_full_found hfind hid, Option.map_some]

/-- The buffer for an image is large enough for what is copied into it exactly when all
blocks the inode points to lie within the size of the file. -/
theorem load_image_fits_iff (v : Volume) (after path : Bytes) (f : File)
    (hopen : vfsOpen v after path = some (some f)) (hsize : (v.inode f.inode).size ≠ 0) :
    ∃ copies, loadImage v after path = some (some ((v.inode f.inode).size, copies)) ∧
      ((∀ c ∈ copies, c.offset + v.blocksize ≤ (v.inode f.inode).size.toNat) ↔
        Fits v (v.inode f.inode)) := by
  refine ⟨(FullRead.readInode v (v.inode f.inode)).1, load_image_opened hopen hsize, ?_⟩
  simp only [Fits, ← mem_read_inode, List.mem_map, forall_exists_index, and_imp,
    forall_apply_eq_imp_iff₂]

/-- A file without holes fits when its size is that of its blocks, and not when the last
block is used in part. -/
theorem fits_hole_free (hbs : v.blocksize ≤ 4096) (h : HoleFree v inode n) (hn : 0 < n) :
    Fits v inode ↔ n * v.blocksize ≤ inode.size.toNat := by
  simp only [Fits, ← mem_read_inode, read_inode_tiles hbs h, List.mem_map, forall_exists_index,
    and_imp, forall_apply_eq_imp_iff₂]
  constructor
  · intro hfits
    have hlast : (⟨(n - 1) * v.blocksize, logical v inode (n - 1)⟩ : Copy) ∈ tiles v inode n :=
      List.mem_map.mpr ⟨n - 1, List.mem_range.mpr (by omega), rfl⟩
    have hend := hfits _ hlast
    rwa [← Nat.succ_mul, Nat.succ_eq_add_one, Nat.sub_add_cancel hn] at hend
  · intro hle c hc
    exact Nat.le_trans (tiles_within hc) hle

theorem load_image_fits_thirteen :
    Fits thirteenBlocks (thirteenBlocks.inode 11) ∧
      ∃ copies, loadImage thirteenBlocks [] [slash, 97] = some (some (13312, copies)) ∧
        ∀ c ∈ copies, c.offset + thirteenBlocks.blocksize ≤ 13312 := by
  have hfits : Fits thirteenBlocks (thirteenBlocks.inode 11) :=
    (fits_hole_free (by decide) thirteen_hole_free (by decide)).mpr (by decide)
  obtain ⟨copies, hload, hiff⟩ := load_image_fits_iff thirteenBlocks [] [slash, 97]
    ⟨[slash, 97], 11, 0, 0⟩ (by decide +kernel) (by decide)
  exact ⟨hfits, copies, hload, hiff.mpr hfits⟩

/-- A file of five bytes is copied as a whole block into a buffer of five bytes. -/
theorem load_image_overruns :
    ¬ ∀ v after path f, vfsOpen v after path = some (some f) → (v.inode f.inode).size ≠ 0 →
      ∃ copies, loadImage v after path = some (some ((v.inode f.inode).size, copies)) ∧
        ∀ c ∈ copies, c.offset + v.blocksize ≤ (v.inode f.inode).size.toNat := by
  intro h
  have hsize : (fiveBytes.inode openedFive.inode).size ≠ 0 := by decide
  obtain ⟨copies, hload, hwithin⟩ := h fiveBytes [] [slash, 97] openedFive (open_five []) hsize
  rw [load_image_opened (open_five []) hsize] at hload
  cases hload
  have hfirst : (⟨0, 2⟩ : Copy) ∈
      (FullRead.readInode fiveBytes (fiveBytes.inode openedFive.inode)).1 := by decide
  have hend := hwithin _ hfirst
  exact absurd hend (by decide)

/-- A copy as the model without machine integers has it. -/
def copied (v : Volume) (c : Copy) : Nat × Bytes := (c.offset, v.block c.block)

section Plain

theorem pointer_read (v : Volume) (t : Nat) (hi : i < perBlock v) :
    le (v.block t) (4 * i) 4 = some (pointer v t i) := by
  have hmul := per_block_mul v
  exact Disk.le_eq _ (by rw [block_size]; omega)

variable (hbs : v.blocksize ≤ 4096)
include hbs

theorem singly_plain (t buf left i : Nat) (hi : i + left ≤ perBlock v) :
    readSinglyLoop v (v.block t) buf left i =
      some ((FullRead.readSinglyLoop v t buf left i).map (copied v)) := by
  induction left generalizing i with
  | zero => rfl
  | succ left ih =>
    rw [readSinglyLoop, FullRead.readSinglyLoop, pointer_read v t (by omega)]
    by_cases hz : pointer v t i = 0
    · simp [hz]
    · rw [if_neg hz, singly_product hbs (by omega)]
      simp only [ih (i + 1) (by omega), Option.map_some, List.map_cons, copied]

theorem read_singly_plain (t buf : Nat) : ext2ReadSinglyLinked v t buf =
    some ((FullRead.ext2ReadSinglyLinked v t buf).map (copied v)) :=
  singly_plain hbs t buf (perBlock v) 0 (by omega)

theorem doubly_plain (t buf left i : Nat) (hi : i + left ≤ perBlock v) :
    readDoublyLoop v (v.block t) buf left i =
      some ((FullRead.readDoublyLoop v t buf left i).map (copied v)) := by
  induction left generalizing i with
  | zero => rfl
  | succ left ih =>
    rw [readDoublyLoop, FullRead.readDoublyLoop, pointer_read v t (by omega)]
    by_cases hz : pointer v t i = 0
    · simp [hz]
    · rw [if_neg hz, doubly_product hbs (by omega)]
      simp only [sizeOfSingly, block_square, read_singly_plain hbs, ih (i + 1) (by omega),
        List.map_append]

theorem read_doubly_plain (t buf : Nat) : ext2ReadDoublyLinked v t buf =
    some ((FullRead.ext2ReadDoublyLinked v t buf).map (copied v)) :=
  doubly_plain hbs t buf (perBlock v) 0 (by omega)

theorem indirect_plain (inode : Inode) :
    readIndirect v inode = some ((FullRead.readIndirect v inode).map (copied v)) := by
  have hmul := per_block_mul v
  have hle : perBlock v * v.blocksize ≤ 1024 * 4096 := Nat.mul_le_mul (by omega) hbs
  rw [readIndirect, FullRead.readIndirect, size_of_singly_eq hbs, sizeOfSingly, block_square,
    Nat.mod_eq_of_lt (show 12 * v.blocksize < 2 ^ 32 by omega),
    Nat.mod_eq_of_lt (show perBlock v * v.blocksize + 12 * v.blocksize < 2 ^ 32 by omega),
    read_singly_plain hbs, read_doubly_plain hbs]
  by_cases hs : inode.singlyBlock = 0 <;> by_cases hd : inode.doublyBlock = 0 <;> simp [hs, hd]

theorem full_loop_plain (inode : Inode) (bs : List Nat) (i : Nat) (hi : i + bs.length ≤ 12) :
    readFullLoop v inode bs i =
      if (FullRead.readFullLoop v inode bs i).2 then
        some ((FullRead.readFullLoop v inode bs i).1.map (copied v)) else none := by
  induction bs generalizing i with
  | nil => simp [readFullLoop, FullRead.readFullLoop, indirect_plain hbs]
  | cons b bs ih =>
    rw [List.length_cons] at hi
    have hproduct : i * v.blocksize ≤ 12 * 4096 := Nat.mul_le_mul (by omega) hbs
    rw [readFullLoop, FullRead.readFullLoop, ih (i + 1) (by omega),
      Nat.mod_eq_of_lt (show i * v.blocksize < 2 ^ 32 by omega)]
    by_cases hz : b = 0
    · simp [hz]
    · by_cases hr : b > v.blocks
      · simp [hz, hr]
      · cases (FullRead.readFullLoop v inode bs (i + 1)).2 <;> simp [hz, hr, copied]

/-- For these block sizes the 32-bit products are exact: a call that returns has made the
copies of the model with plain numbers. -/
theorem read_full_plain (after fn : Bytes) :
    ext2ReadFileFull v after fn =
      (FullRead.ext2ReadFileFull v after fn).bind (fun
        | none => some none
        | some (copies, returns) =>
          if returns then some (some (copies.map (copied v))) else none) := by
  rw [ext2ReadFileFull, FullRead.ext2ReadFileFull]
  cases hfind : ext2FindFileInode v after fn with
  | none => rfl
  | some x =>
    obtain ⟨inodeid, record⟩ := x
    cases inodeid with
    | zero => rfl
    | succ k =>
      have hread := full_loop_plain hbs (v.inode (k + 1)) (v.inode (k + 1)).dbp.toList 0 (by simp)
      simp only [hread, Option.map_some, Option.bind_some, Nat.succ_ne_zero, ↓reduceIte,
        FullRead.readInode]
      cases (FullRead.readFullLoop v (v.inode (k + 1)) (v.inode (k + 1)).dbp.toList 0).2 <;> rfl

end Plain

end Levos.Proofs.Images
