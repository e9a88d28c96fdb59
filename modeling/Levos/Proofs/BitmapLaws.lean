import Levos.Proofs.Bitmap

namespace Levos.Proofs.BitmapLaws

open Levos.Proofs.Bitmap

/-- The byte of position `j` and the number `j mod 8` have a bit in common. -/
def Overlaps (b : Bitmap) (j : Nat) : Prop :=
  ∃ k, (j % 8).testBit k = true ∧ bit b (8 * (j / 8) + k) = true

/-- A number below eight has no bits from the third on. -/
theorem small_bit {m k : Nat} (hm : m < 8) (hk : m.testBit k = true) : k < 3 := by
  by_contra hge
  have hpow : 2 ^ 3 ≤ 2 ^ k := Nat.pow_le_pow_right (by omega) (by omega)
  rw [Nat.testBit_lt_two_pow (by omega)] at hk
  cases hk

theorem and_mask_ne_zero (x : UInt8) (m : Nat) (hm : m < 8) :
    (x &&& UInt8.ofNat m) ≠ 0 ↔ ∃ k, m.testBit k = true ∧ x.toBitVec.getLsbD k = true := by
  have hbit : ∀ k, (x &&& UInt8.ofNat m).toBitVec.getLsbD k = true ↔
      m.testBit k = true ∧ x.toBitVec.getLsbD k = true := by
    intro k
    have hmask : (UInt8.ofNat m).toBitVec.getLsbD k = (decide (k < 8) && m.testBit k) :=
      BitVec.getLsbD_ofNat ..
    rw [UInt8.toBitVec_and, BitVec.getLsbD_and, hmask, Bool.and_eq_true, Bool.and_eq_true,
      decide_eq_true_eq]
    refine ⟨fun h => ⟨h.2.2, h.1⟩, fun h => ⟨h.2, ?_, h.1⟩⟩
    have := small_bit hm h.1
    omega
  constructor
  · intro hne
    by_contra hnone
    refine hne (UInt8.toBitVec_inj.mp (BitVec.eq_of_getLsbD_eq fun k hk => ?_))
    rw [Bool.eq_false_iff.mpr fun hk => hnone ⟨k, (hbit k).mp hk⟩]
    simp
  · rintro ⟨k, hk⟩ hzero
    have := (hbit k).mpr hk
    rw [hzero] at this
    simp at this

/-- What `get_bitmap` answers: whether the byte overlaps the position's own number. -/
theorem get_iff {b : Bitmap} {j : Nat} (hj : j < 8 * b.length) (r : Bool) :
    getBitmap b j = some r ↔ (r = true ↔ Overlaps b j) := by
  have hx : b[j / 8]? = some (b.get ⟨j / 8, by omega⟩) := List.getElem?_eq_getElem (by omega)
  have hread : Overlaps b j ↔ (b.get ⟨j / 8, by omega⟩ &&& UInt8.ofNat (j % 8)) ≠ 0 := by
    rw [and_mask_ne_zero _ _ (Nat.mod_lt j (by omega))]
    refine exists_congr fun k => and_congr_right fun hk => ?_
    have hk := small_bit (Nat.mod_lt j (by omega)) hk
    rw [bit_of_byte (i := 8 * (j / 8) + k) (by rw [← hx]; congr 1; omega)]
    have : (8 * (j / 8) + k) % 8 = k := by omega
    rw [this]
  unfold getBitmap
  rw [hx, hread, mask_seven, Option.some.injEq]
  cases r <;> simp

theorem get_true_iff {b : Bitmap} {j : Nat} (hj : j < 8 * b.length) :
    getBitmap b j = some true ↔ Overlaps b j := by
  rw [get_iff hj]
  exact ⟨fun h => h.mp rfl, fun h => ⟨fun _ => h, fun _ => rfl⟩⟩

theorem get_false_iff {b : Bitmap} {j : Nat} (hj : j < 8 * b.length) :
    getBitmap b j = some false ↔ ¬ Overlaps b j := by
  rw [get_iff hj]
  exact ⟨fun h ho => Bool.noConfusion (h.mpr ho), fun h => ⟨fun hf => Bool.noConfusion hf,
    fun ho => absurd ho h⟩⟩

/-- A number is smaller than the power of two it is the exponent of. -/
theorem own_bit (m : Nat) : m.testBit m = false := Nat.testBit_lt_two_pow Nat.lt_two_pow_self

/-- Setting bit `i` adds an overlap exactly in its own byte, for the numbers that have
the bit `i mod 8`. -/
theorem overlaps_set {b c : Bitmap} {i : Nat} (h : setBitmap b i = some c) (j : Nat) :
    Overlaps c j ↔ Overlaps b j ∨ i / 8 = j / 8 ∧ (j % 8).testBit (i % 8) = true := by
  constructor
  · rintro ⟨k, hk, hb⟩
    rw [bit_set h, Bool.or_eq_true, decide_eq_true_eq] at hb
    have hlt := small_bit (Nat.mod_lt j (by omega)) hk
    rcases hb with hb | he
    · exact .inl ⟨k, hk, hb⟩
    · refine .inr ⟨by omega, ?_⟩
      have : i % 8 = k := by omega
      rw [this]
      exact hk
  · rintro (⟨k, hk, hb⟩ | ⟨hbyte, hk⟩)
    · exact ⟨k, hk, by rw [bit_set h, hb]; rfl⟩
    · refine ⟨i % 8, hk, ?_⟩
      rw [bit_set h, Bool.or_eq_true, decide_eq_true_eq]
      exact .inr (by omega)

/-- Clearing bit `i` leaves the overlaps in other places. -/
theorem overlaps_unset {b c : Bitmap} {i : Nat} (h : unsetBitmap b i = some c) (j : Nat) :
    Overlaps c j ↔ ∃ k, (j % 8).testBit k = true ∧ bit b (8 * (j / 8) + k) = true ∧
      8 * (j / 8) + k ≠ i := by
  refine exists_congr fun k => and_congr_right fun _ => ?_
  rw [bit_unset h, Bool.and_eq_true, Bool.not_eq_true', decide_eq_false_iff_not]

/-- Reading position `j` after bit `i` was set, and after it was cleared. -/
def ReadsBack (b : Bitmap) (i j : Nat) : Prop :=
  (setBitmap b i).bind (getBitmap · j) = (if i = j then some true else getBitmap b j) ∧
    (unsetBitmap b i).bind (getBitmap · j) = (if i = j then some false else getBitmap b j)

theorem reads_back_same {b : Bitmap} {i : Nat} (hi : i < 8 * b.length) : ¬ ReadsBack b i i := by
  rintro ⟨hset, hunset⟩
  obtain ⟨c, hc, hlc⟩ := set_some b i hi
  obtain ⟨d, hd, hld⟩ := unset_some b i hi
  rw [hc, if_pos rfl, Option.bind_some, get_true_iff (hlc ▸ hi), overlaps_set hc] at hset
  rw [hd, if_pos rfl, Option.bind_some, get_false_iff (hld ▸ hi), overlaps_unset hd] at hunset
  -- The written bit is not in the mask, so both calls are read through the other bits.
  rcases hset with ⟨k, hk, hb⟩ | ⟨_, hown⟩
  · refine hunset ⟨k, hk, hb, ?_⟩
    intro he
    have hkk : k = i % 8 := by omega
    rw [hkk, own_bit] at hk
    cases hk
  · rw [own_bit] at hown
    cases hown

/-- Where the position read is another one, only the overlaps count. -/
theorem reads_back_ne {b : Bitmap} {i j : Nat} (hi : i < 8 * b.length) (hj : j < 8 * b.length)
    (hne : i ≠ j) :
    ReadsBack b i j ↔
      (i / 8 = j / 8 ∧ (j % 8).testBit (i % 8) = true → Overlaps b j) ∧
      (Overlaps b j → ∃ k, (j % 8).testBit k = true ∧ bit b (8 * (j / 8) + k) = true ∧
        8 * (j / 8) + k ≠ i) := by
  obtain ⟨c, hc, hlc⟩ := set_some b i hi
  obtain ⟨d, hd, hld⟩ := unset_some b i hi
  obtain ⟨r, hr⟩ := (get_some_iff b j).mpr hj
  unfold ReadsBack
  rw [hc, hd, if_neg hne, if_neg hne, hr, Option.bind_some, Option.bind_some,
    get_iff (hlc ▸ hj), get_iff (hld ▸ hj), overlaps_set hc, overlaps_unset hd,
    (get_iff hj r).mp hr]
  constructor
  · rintro ⟨hset, hunset⟩
    exact ⟨fun hm => hset.mpr (.inr hm), hunset.mp⟩
  · rintro ⟨hset, hunset⟩
    refine ⟨⟨.inl, fun h => h.elim id hset⟩, ⟨hunset, ?_⟩⟩
    rintro ⟨k, hk, hb, _⟩
    exact ⟨k, hk, hb⟩

/-- `get_bitmap` reads what was written exactly at another position that lies in another
byte, or whose number has no bit `i mod 8`, or whose number overlaps the byte in another bit. -/
theorem get_after_write_iff (b : Bitmap) (i j : Nat) (hi : i < 8 * b.length)
    (hj : j < 8 * b.length) :
    ReadsBack b i j ↔ i ≠ j ∧ (i / 8 ≠ j / 8 ∨ (j % 8).testBit (i % 8) = false ∨
      ∃ k, k ≠ i % 8 ∧ (j % 8).testBit k = true ∧ bit b (8 * (j / 8) + k) = true) := by
  by_cases hne : i = j
  · subst hne
    exact iff_of_false (reads_back_same hi) (fun h => h.1 rfl)
  rw [reads_back_ne hi hj hne]
  constructor
  · rintro ⟨hset, hunset⟩
    refine ⟨hne, ?_⟩
    by_cases hbyte : i / 8 = j / 8
    · cases hm : (j % 8).testBit (i % 8) with
      | false => exact .inr (.inl rfl)
      | true =>
        obtain ⟨k, hk, hb, hki⟩ := hunset (hset ⟨hbyte, hm⟩)
        exact .inr (.inr ⟨k, by omega, hk, hb⟩)
    · exact .inl hbyte
  · rintro ⟨_, hcase⟩
    refine ⟨fun hm => ?_, fun ho => ?_⟩
    · rcases hcase with hbyte | hbit | ⟨k, _, hk, hb⟩
      · exact absurd hm.1 hbyte
      · rw [hm.2] at hbit
        cases hbit
      · exact ⟨k, hk, hb⟩
    · obtain ⟨k, hk, hb⟩ := ho
      have hlt := small_bit (Nat.mod_lt j (by omega)) hk
      rcases hcase with hbyte | hbit | ⟨k', hk', hm, hb'⟩
      · exact ⟨k, hk, hb, by omega⟩
      · refine ⟨k, hk, hb, ?_⟩
        intro he
        have : i % 8 = k := by omega
        rw [this, hk] at hbit
        cases hbit
      · have hlt' := small_bit (Nat.mod_lt j (by omega)) hm
        exact ⟨k', hm, hb', by omega⟩

theorem get_after_write_other_byte : ReadsBack [0, 0] 3 9 :=
  (get_after_write_iff [0, 0] 3 9 (by decide) (by decide)).mpr ⟨by decide, .inl (by decide)⟩

/-- Bit 0 is set and read as clear. -/
theorem set_not_read : ¬ ReadsBack [0] 0 0 := by
  rintro ⟨hset, _⟩
  exact absurd hset (by decide)

/-- `nr` clear bits from `s` on, inside the bitmap. -/
def ClearRun (b : Bitmap) (nr s : Nat) : Prop :=
  s + nr ≤ 8 * b.length ∧ ∀ j, s ≤ j → j < s + nr → bit b j = false

/-- The first of the clear runs. -/
def FirstRun (b : Bitmap) (nr s : Nat) : Prop :=
  ClearRun b nr s ∧ ∀ t < s, ¬ ClearRun b nr t

/-- `bitmap_find_zero` returns, with the start of the first clear run, and sets its bits. -/
def FindsFirst (b : Bitmap) (nr : Nat) : Prop :=
  ∃ s b', bitmapFindZero b nr = some (s, b') ∧ FirstRun b nr s ∧
    ∀ j, bit b' j = true ↔ bit b j = true ∨ (s ≤ j ∧ j < s + nr)

/-- The first run of `nr` positions that are read as clear. -/
structure FirstRead (b : Bitmap) (nr s : Nat) : Prop where
  inside : s + nr ≤ 8 * b.length
  clear : ∀ j, s ≤ j → j < s + nr → ¬ Overlaps b j
  blocked : ∀ t < s, ∃ p, t ≤ p ∧ p < t + nr ∧ Overlaps b p

theorem FirstRead.unique (h : FirstRead b nr s) (h' : FirstRead b nr t) : s = t := by
  have not_lt {s t : Nat} (h : FirstRead b nr s) (h' : FirstRead b nr t) : ¬ s < t := by
    intro hlt
    obtain ⟨p, hlo, hhi, hp⟩ := h'.blocked s hlt
    exact h.clear p hlo hhi hp
  exact Nat.le_antisymm (Nat.not_lt.mp (not_lt h' h)) (Nat.not_lt.mp (not_lt h h'))

/-- What the search returns is the first run it reads as clear. -/
theorem find_zero_first_read (hn : 1 ≤ nr) (h : bitmapFindZero b nr = some (s, b')) :
    FirstRead b nr s := by
  obtain ⟨hscan, hin, _, _⟩ := bitmap_find_zero_spec hn h
  refine ⟨hin, ?_, ?_⟩
  · intro j hlo hhi
    have hc := hscan.clear (j - s) (by omega)
    have he : s + (j - s) = j := by omega
    rw [he] at hc
    exact (get_false_iff (by omega)).mp hc
  · intro t ht
    obtain ⟨p, hlo, hhi, hp⟩ := hscan.blocked t ht
    exact ⟨p, hlo, hhi, (get_true_iff (by omega)).mp hp⟩

theorem FirstRead.found (hn : 1 ≤ nr) (h : FirstRead b nr r) :
    ∃ b', bitmapFindZero b nr = some (r, b') := by
  have hin := h.inside
  cases hfind : bitmapFindZero b nr with
  | none =>
    obtain ⟨p, hlo, hhi, hp⟩ := bitmap_find_zero_none hfind r hin
    exact absurd ((get_true_iff (by omega)).mp hp) (h.clear p hlo hhi)
  | some found => exact ⟨found.2, by rw [h.unique (find_zero_first_read hn hfind)]⟩

/-- The search finds the first clear run exactly when no position of that run, and some
position of every earlier one, is read through an overlap. -/
theorem find_zero_first_iff (b : Bitmap) (nr : Nat) (hn : 1 ≤ nr) :
    FindsFirst b nr ↔ ∃ r, FirstRun b nr r ∧ (∀ j, r ≤ j → j < r + nr → ¬ Overlaps b j) ∧
      ∀ t < r, ∃ p, t ≤ p ∧ p < t + nr ∧ Overlaps b p := by
  constructor
  · rintro ⟨s, b', hfind, hfirst, _⟩
    have hread := find_zero_first_read hn hfind
    exact ⟨s, hfirst, hread.clear, hread.blocked⟩
  · rintro ⟨r, hfirst, hclear, hblocked⟩
    obtain ⟨b', hfind⟩ := FirstRead.found hn ⟨hfirst.1.1, hclear, hblocked⟩
    obtain ⟨_, _, _, hbits⟩ := bitmap_find_zero_spec hn hfind
    exact ⟨r, b', hfind, hfirst, hbits⟩

theorem find_zero_behind_full_byte : FindsFirst [255, 0] 2 := by
  refine (find_zero_first_iff [255, 0] 2 (by decide)).mpr ⟨8, ⟨⟨by decide, ?_⟩, ?_⟩, ?_, ?_⟩
  · intro j hlo hhi
    interval_cases j <;> rfl
  · intro t ht hrun
    have := hrun.2 t (Nat.le_refl t) (by omega)
    interval_cases t <;> cases this
  · intro j hlo hhi
    rw [← get_false_iff (by simp; omega)]
    interval_cases j <;> rfl
  · intro t ht
    -- In the full byte only position 0, whose number has no bits, is read as clear.
    refine ⟨max t 1, by omega, by omega, ?_⟩
    rw [← get_true_iff (by simp; omega)]
    interval_cases t <;> rfl

/-- Bit 0 is set, and the run of one found for it is bit 0 again. -/
theorem find_zero_used_bit : (∃ t, ClearRun [1] 1 t) ∧ ¬ FindsFirst [1] 1 := by
  refine ⟨⟨1, by decide, ?_⟩, ?_⟩
  · intro j hlo hhi
    interval_cases j
    rfl
  · rintro ⟨s, b', hfind, hfirst, _⟩
    have hs : bitmapFindZero [1] 1 = some (0, [1]) := by decide
    rw [hs] at hfind
    cases hfind
    exact Bool.noConfusion (hfirst.1.2 0 (by omega) (by omega))

end Levos.Proofs.BitmapLaws
