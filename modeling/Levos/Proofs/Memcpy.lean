import Levos.Library.Writes
import Levos.Memcpy

namespace Levos.Proofs.Memcpy
open Library

variable {mem : Nat → UInt8} {dest src count : Nat}

theorem copy_pairs_up (mem : Nat → UInt8) (dest src n count : Nat) :
    copyPairs count (copyUp mem dest src n) (dest + n) (src + n) =
      copyUp mem dest src (n + 2 * count) := by
  induction count generalizing n with
  | zero => rfl
  | succ count ih =>
    have hpair : copyByte (copyByte (copyUp mem dest src n) (dest + n) (src + n))
        (dest + n + 1) (src + n + 1) = copyUp mem dest src (n + 2) := rfl
    rw [copyPairs, hpair, Nat.add_assoc, Nat.add_assoc, ih, show n + 2 + 2 * count =
      n + 2 * (count + 1) by omega]

/-- The odd byte and the pairs are one copy upwards. -/
theorem memcpy_up (mem : Nat → UInt8) (dest src count : Nat) :
    memcpy mem dest src count = copyUp mem dest src count := by
  have hparts : count = count % 2 + 2 * (count / 2) := by omega
  have hpairs := copy_pairs_up mem dest src (count % 2) (count / 2)
  rw [← hparts] at hpairs
  unfold memcpy
  split
  case isTrue hodd =>
    rw [hodd] at hpairs
    exact hpairs
  case isFalse heven =>
    have hzero : count % 2 = 0 := by omega
    rw [hzero] at hpairs
    exact hpairs

theorem memcpy_blit (h : dest ≤ src ∨ src + count ≤ dest) :
    memcpy mem dest src count = blit mem dest (slice mem src count) := by
  rw [memcpy_up, copyUp_eq_blit mem h]

theorem memcpy_moved (mem : Nat → UInt8) (h : dest ≤ src ∨ Apart dest src count) :
    Moved mem dest src count (memcpy mem dest src count) := by
  rw [memcpy_blit (below_or_behind h)]
  exact moved_blit mem dest src count

section Machine

variable (mem : UInt32 → UInt8) (dest src : UInt32)

/-- The bytes in the order of their copies. -/
def copyFrom (n : Nat) : UInt32 → UInt8 :=
  copyEach mem (fun i => dest + UInt32.ofNat i) (fun i => src + UInt32.ofNat i) n

theorem next_place (a : UInt32) (n k : Nat) :
    a + UInt32.ofNat (n + k) = a + UInt32.ofNat n + UInt32.ofNat k := by
  rw [UInt32.ofNat_add, UInt32.add_assoc]

theorem copy_pairs_from (n count : Nat) :
    copyPairs32 count (copyFrom mem dest src n) (dest + UInt32.ofNat n) (src + UInt32.ofNat n) =
      copyFrom mem dest src (n + 2 * count) := by
  induction count generalizing n with
  | zero => rfl
  | succ count ih =>
    have hpair : copyFrom mem dest src (n + 2) =
        Function.update (copyFrom mem dest src (n + 1)) (dest + UInt32.ofNat n + 1)
          (copyFrom mem dest src (n + 1) (src + UInt32.ofNat n + 1)) := by
      have hd : dest + UInt32.ofNat (n + 1) = dest + UInt32.ofNat n + 1 := next_place dest n 1
      have hs : src + UInt32.ofNat (n + 1) = src + UInt32.ofNat n + 1 := next_place src n 1
      rw [← hd, ← hs]
      rfl
    have hd : dest + UInt32.ofNat (n + 2) = dest + UInt32.ofNat n + 2 := next_place dest n 2
    have hs : src + UInt32.ofNat (n + 2) = src + UInt32.ofNat n + 2 := next_place src n 2
    have hrest := ih (n + 2)
    rw [hpair, hd, hs, show n + 2 + 2 * count = n + 2 * (count + 1) by omega] at hrest
    exact hrest

theorem memcpy32_from (count : UInt32) :
    memcpy32 mem dest src count = copyFrom mem dest src count.toNat := by
  have hhalf : (count / 2).toNat = count.toNat / 2 := UInt32.toNat_div ..
  have hodd : count &&& 1 ≠ 0 ↔ count.toNat % 2 = 1 := by
    rw [ne_eq, ← UInt32.toNat_inj, UInt32.toNat_and]
    show ¬ count.toNat &&& 1 = 0 ↔ _
    rw [Nat.and_one_is_mod]
    omega
  have hpairs := copy_pairs_from mem dest src (count.toNat % 2) (count.toNat / 2)
  rw [show count.toNat % 2 + 2 * (count.toNat / 2) = count.toNat by omega] at hpairs
  unfold memcpy32
  rw [hhalf]
  split
  case isTrue h =>
    rw [hodd.mp h] at hpairs
    have hone : copyFrom mem dest src 1 = Function.update mem dest (mem src) := by
      simp [copyFrom, copyEach]
    rw [hone] at hpairs
    exact hpairs
  case isFalse h =>
    have hzero : count.toNat % 2 = 0 := by
      have := mt hodd.mpr h
      omega
    rw [hzero] at hpairs
    have hnone (a : UInt32) : a + UInt32.ofNat 0 = a := UInt32.add_zero a
    rw [hnone, hnone] at hpairs
    exact hpairs

variable {mem dest src} {count : UInt32}

theorem offset_toNat (hi : i < count.toNat) : (UInt32.ofNat i).toNat = i :=
  UInt32.toNat_ofNat_of_lt' (Nat.lt_trans hi count.toNat_lt)

/-- A byte is not stored to before it is read, if the source lies above and does not go
round the end of the address space, or if the ranges share no byte. -/
theorem intact_source
    (h : dest ≤ src ∧ src.toNat + count.toNat ≤ 2 ^ 32 ∨ Apart dest src count) :
    ∀ i < count.toNat, ∀ j < i, src + UInt32.ofNat i ≠ dest + UInt32.ofNat j := by
  intro i hi j hj heq
  have hcount := count.toNat_lt
  have hi' := offset_toNat hi
  have hj' := offset_toNat (Nat.lt_trans hj hi)
  rcases h with ⟨hle, hend⟩ | hapart
  · have hle := UInt32.le_iff_toNat_le.mp hle
    have hsum := congrArg UInt32.toNat heq
    rw [UInt32.toNat_add, UInt32.toNat_add, hi', hj', Nat.mod_eq_of_lt (by omega),
      Nat.mod_eq_of_lt (by omega)] at hsum
    omega
  · refine hapart (UInt32.ofNat j) ?_ (UInt32.ofNat i) ?_ heq.symm
    · rw [UInt32.lt_iff_toNat_lt, hj']
      omega
    · rw [UInt32.lt_iff_toNat_lt, hi']
      exact hi

theorem memcpy32_moved
    (h : dest ≤ src ∧ src.toNat + count.toNat ≤ 2 ^ 32 ∨ Apart dest src count) :
    Moved mem dest src count (memcpy32 mem dest src count) := by
  have hdistinct : ∀ i < count.toNat, ∀ j < i,
      dest + UInt32.ofNat i ≠ dest + UInt32.ofNat j := by
    intro i hi j hj heq
    have hsame := congrArg UInt32.toNat ((UInt32.add_right_inj dest).mp heq)
    rw [offset_toNat hi, offset_toNat (Nat.lt_trans hj hi)] at hsame
    omega
  rw [memcpy32_from]
  refine ⟨?_, ?_⟩
  · intro i hi
    have hcopied : copyFrom mem dest src count.toNat (dest + UInt32.ofNat i.toNat) =
        mem (src + UInt32.ofNat i.toNat) :=
      copyEach_inside hdistinct (intact_source h) (UInt32.lt_iff_toNat_lt.mp hi)
    rwa [UInt32.ofNat_toNat] at hcopied
  · intro a ha
    refine copyEach_outside ?_
    intro i hi
    refine ha (UInt32.ofNat i) ?_
    rw [UInt32.lt_iff_toNat_lt, offset_toNat hi]
    exact hi

end Machine

end Levos.Proofs.Memcpy
