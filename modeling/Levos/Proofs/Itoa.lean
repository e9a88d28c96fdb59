import Levos.Itoa

namespace Levos.Proofs.Itoa
open Library

/-- The character of a digit. -/
def digitChar (d : Nat) : UInt8 := bchars.getD d 0

/-- The positional numeral of a number, the highest digit first. -/
def numeral (base n : Nat) : List UInt8 :=
  if n = 0 then [48] else ((Nat.digits base n).map digitChar).reverse

variable {base i : UInt32}

/-- The digit loop stores the digits from the lowest on. -/
theorem digit_loop (hb : 1 < base.toNat) (fuel : Nat) (i : UInt32) (pos : Nat) (tbuf : Nat → UInt8)
    (hf : (Nat.digits base.toNat i.toNat).length < fuel) :
    digitLoop base fuel i pos tbuf = some (pos + (Nat.digits base.toNat i.toNat).length,
      blit tbuf pos ((Nat.digits base.toNat i.toNat).map digitChar)) := by
  induction fuel generalizing i pos tbuf with
  | zero => omega
  | succ fuel ih =>
    unfold digitLoop
    by_cases hi : i = 0
    · subst hi
      simp [blit, writes]
    · have hpos : 0 < i.toNat := Nat.pos_of_ne_zero fun h => hi (UInt32.toNat_inj.mp h)
      have hbase : base ≠ 0 := by
        rintro rfl
        simp at hb
      have hdigits := Nat.digits_def' hb hpos
      have hquot : (i / base).toNat = i.toNat / base.toNat := UInt32.toNat_div ..
      rw [hdigits, List.length_cons, ← hquot] at hf
      rw [if_neg hi, if_neg hbase, ih (i / base) _ _ (by omega), hdigits, hquot,
        List.map_cons, blit_cons, List.length_cons, UInt32.toNat_mod]
      simp only [digitChar, Option.some.injEq, Prod.mk.injEq, and_true]
      omega

/-- The second loop turns them round. -/
theorem reverse_loop (tbuf : Nat → UInt8) (n opos : Nat) (buf : Nat → UInt8) :
    reverseLoop tbuf n opos buf = blit buf opos (slice tbuf 0 n).reverse := by
  induction n generalizing opos buf with
  | zero => rfl
  | succ n ih =>
    rw [reverseLoop, ih, slice_append tbuf 0 n 1, List.reverse_append, Nat.zero_add]
    rfl

/-- A 32-bit value has at most 32 digits in any base. -/
theorem digits_le (hb : 1 < base.toNat) (i : UInt32) :
    (Nat.digits base.toNat i.toNat).length ≤ 32 := by
  rw [Nat.digits_length_le_iff hb]
  calc i.toNat < 2 ^ 32 := i.toNat_lt
    _ ≤ base.toNat ^ 32 := Nat.pow_le_pow_left hb 32

/-- What `itoa` leaves: the digits in its own buffer, and the numeral in the caller's. -/
theorem itoa_eq (hb : 1 < base.toNat) (hb' : base.toNat ≤ 16) (tbuf : Nat → UInt8)
    (i : UInt32) (buf : Nat → UInt8) :
    itoa tbuf i base buf = some
      { tbuf := blit tbuf 0 ((Nat.digits base.toNat i.toNat).map digitChar)
        stored := (Nat.digits base.toNat i.toNat).length
        buf := blit buf 0 (numeral base.toNat i.toNat ++ [0]) } := by
  have hle : ¬ base > 16 := by
    rw [gt_iff_lt, UInt32.lt_iff_toNat_lt]
    exact Nat.not_lt.mpr hb'
  unfold itoa numeral
  by_cases hi : i = 0
  · subst hi
    rw [if_pos (.inl rfl), UInt32.toNat_zero, Nat.digits_zero, if_pos rfl]
    rfl
  · have hnz : i.toNat ≠ 0 := fun h => hi (UInt32.toNat_inj.mp h)
    have hdigits := digits_le hb i
    have hread : slice (blit tbuf 0 ((Nat.digits base.toNat i.toNat).map digitChar)) 0
        (Nat.digits base.toNat i.toNat).length =
          (Nat.digits base.toNat i.toNat).map digitChar := by
      have h := slice_blit tbuf 0 ((Nat.digits base.toNat i.toNat).map digitChar)
      rwa [List.length_map] at h
    rw [if_neg (fun h => h.elim hi hle), digit_loop hb 33 i 0 tbuf (by omega), if_neg hnz]
    simp only [Nat.zero_add]
    rw [reverse_loop, hread, blit_concat, List.length_reverse, List.length_map, Nat.zero_add]

/-- `itoa` writes the numeral and a zero. -/
theorem itoa_writes (hb : 1 < base.toNat) (hb' : base.toNat ≤ 16) (tbuf : Nat → UInt8)
    (i : UInt32) (buf : Nat → UInt8) :
    ∃ r, itoa tbuf i base buf = some r ∧ r.stored ≤ 32 ∧
      r.buf = blit buf 0 (numeral base.toNat i.toNat ++ [0]) :=
  ⟨_, itoa_eq hb hb' tbuf i buf, digits_le hb i, rfl⟩

/-- The number a row of digits stands for, the highest digit first. -/
def readNumeral (base : Nat) (ds : List UInt8) : Nat :=
  ds.foldl (fun v c => v * base + bchars.idxOf c) 0

/-- The numeral of a number in a base: it reads as the number, and it has no leading
zero unless it is the one of zero. -/
structure IsNumeral (base n : Nat) (ds : List UInt8) : Prop where
  digits : ∀ c ∈ ds, c ∈ bchars.take base
  zero : n = 0 → ds = [48]
  leading : n ≠ 0 → ∃ c cs, ds = c :: cs ∧ c ≠ 48
  value : readNumeral base ds = n

theorem digit_index : ∀ d < 16, bchars.idxOf (digitChar d) = d := by decide

theorem digit_mem {base d : Nat} (hb' : base ≤ 16) (hd : d < base) :
    digitChar d ∈ bchars.take base := by
  have hlt : d < bchars.length := Nat.lt_of_lt_of_le hd hb'
  have hin : d < (bchars.take base).length := by simpa [hlt] using hd
  rw [digitChar, List.getD_eq_getElem bchars 0 hlt, ← List.getElem_take (h := hin)]
  exact List.getElem_mem hin

theorem numeral_ne_nil (base n : Nat) : numeral base n ≠ [] := by
  unfold numeral
  split
  · exact List.cons_ne_nil _ _
  · rename_i hn
    simpa using Nat.digits_ne_nil_iff_ne_zero.mpr hn

theorem numeral_length {base n k : Nat} (hb : 1 < base) (hk : 0 < k) (h : n < base ^ k) :
    (numeral base n).length ≤ k := by
  unfold numeral
  split
  · exact hk
  · rw [List.length_reverse, List.length_map]
    exact (Nat.digits_length_le_iff hb n).mpr h

theorem digit_unsigned : ∀ c ∈ bchars, c ≠ 0 ∧ c ≠ 45 := by
  simp [bchars]

section Numeral

variable {base n : Nat} (hb : 1 < base) (hb' : base ≤ 16)
include hb hb'

theorem numeral_digits : ∀ c ∈ numeral base n, c ∈ bchars.take base := by
  intro c hc
  unfold numeral at hc
  split at hc
  · rw [List.mem_singleton.mp hc]
    exact digit_mem hb' (Nat.lt_of_succ_lt hb)
  · obtain ⟨d, hd, rfl⟩ := List.mem_map.mp (List.mem_reverse.mp hc)
    exact digit_mem hb' (Nat.digits_lt_base hb hd)

/-- A numeral has neither a zero byte nor a sign in it. -/
theorem mem_numeral (h : c ∈ numeral base n) : c ≠ 0 ∧ c ≠ 45 :=
  digit_unsigned c (List.mem_of_mem_take (numeral_digits hb hb' c h))

/-- The highest digit of a number other than zero is not zero. -/
theorem numeral_leading (hn : n ≠ 0) : ∃ c cs, numeral base n = c :: cs ∧ c ≠ 48 := by
  have hdigits : Nat.digits base n ≠ [] := Nat.digits_ne_nil_iff_ne_zero.mpr hn
  have hlast := Nat.getLast_digit_ne_zero base hn
  have hlt := Nat.digits_lt_base hb (List.getLast_mem hdigits)
  refine ⟨digitChar ((Nat.digits base n).getLast hdigits),
    ((Nat.digits base n).dropLast.map digitChar).reverse, ?_, ?_⟩
  · rw [numeral, if_neg hn]
    nth_rewrite 1 [← List.dropLast_append_getLast hdigits]
    simp
  · intro h48
    have hindex := digit_index _ (Nat.lt_of_lt_of_le hlt hb')
    rw [h48] at hindex
    exact hlast hindex.symm

theorem numeral_value : readNumeral base (numeral base n) = n := by
  unfold readNumeral numeral
  split
  · rename_i hn
    rw [hn]
    simp [bchars]
  · have hindices : ∀ d ∈ Nat.digits base n, bchars.idxOf (digitChar d) = d := fun d hd =>
      digit_index d (Nat.lt_of_lt_of_le (Nat.digits_lt_base hb hd) hb')
    calc ((Nat.digits base n).map digitChar).reverse.foldl
          (fun v c => v * base + bchars.idxOf c) 0
        = (Nat.digits base n).foldr (fun d v => v * base + bchars.idxOf (digitChar d)) 0 := by
          rw [List.foldl_reverse, List.foldr_map]
      _ = (Nat.digits base n).foldr (fun d v => d + base * v) 0 := by
          refine List.foldr_ext _ _ _ ?_
          intro d hd v
          rw [hindices d hd, Nat.mul_comm, Nat.add_comm]
      _ = Nat.ofDigits base (Nat.digits base n) := (Nat.ofDigits_eq_foldr base _).symm
      _ = n := Nat.ofDigits_digits base n

theorem numeral_is : IsNumeral base n (numeral base n) where
  digits := numeral_digits hb hb'
  zero hn := if_pos hn
  leading := numeral_leading hb hb'
  value := numeral_value hb hb'

end Numeral

/-- `itoa` writes the numeral behind which a zero stands, and its digits fit into `tbuf`. -/
theorem itoa_numeral (i base : UInt32) (hb : 2 ≤ base) (hb' : base ≤ 16)
    (tbuf buf : Nat → UInt8) :
    ∃ r ds, itoa tbuf i base buf = some r ∧ IsNumeral base.toNat i.toNat ds ∧
      r.buf = blit buf 0 (ds ++ [0]) ∧ r.stored ≤ 32 ∧ ∀ k, 32 ≤ k → r.tbuf k = tbuf k := by
  have hmin : 1 < base.toNat := UInt32.le_iff_toNat_le.mp hb
  have hmax : base.toNat ≤ 16 := UInt32.le_iff_toNat_le.mp hb'
  have hlen := digits_le hmin i
  refine ⟨_, _, itoa_eq hmin hmax tbuf i buf, numeral_is hmin hmax, rfl, hlen, ?_⟩
  intro k hk
  exact blit_outside tbuf (.inr (by rw [List.length_map]; omega))

/-- The longest numeral there is. -/
theorem itoa_numeral_all_ones :
    ∃ r ds, itoa (fun _ => 0) 0xFFFFFFFF 2 (fun _ => 0) = some r ∧ IsNumeral 2 0xFFFFFFFF ds ∧
      r.buf = blit (fun _ => 0) 0 (ds ++ [0]) ∧ r.stored ≤ 32 ∧ ∀ k, 32 ≤ k → r.tbuf k = 0 :=
  itoa_numeral 0xFFFFFFFF 2 (by decide) (by decide) _ _

end Levos.Proofs.Itoa
