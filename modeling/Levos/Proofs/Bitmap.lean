import Levos.Bitmap

namespace Levos.Proofs.Bitmap

theorem mask_seven (i : Nat) : i &&& 7 = i % 8 := Nat.and_two_pow_sub_one_eq_mod i 3

theorem one_shift (k : Nat) (hk : k < 8) :
    ((1 : UInt8) <<< UInt8.ofNat k).toBitVec = 1#8 <<< k := by
  interval_cases k <;> rfl

theorem one_shift_bit (k j : Nat) (hk : k < 8) (hj : j < 8) :
    ((1 : UInt8) <<< UInt8.ofNat k).toBitVec.getLsbD j = decide (j = k) := by
  rw [one_shift k hk]
  interval_cases k <;> interval_cases j <;> rfl

theorem byte_set_bit (x : UInt8) (k j : Nat) (hk : k < 8) (hj : j < 8) :
    (x ||| 1 <<< UInt8.ofNat k).toBitVec.getLsbD j = (x.toBitVec.getLsbD j || decide (j = k)) := by
  rw [UInt8.toBitVec_or, BitVec.getLsbD_or, one_shift_bit k j hk hj]

theorem byte_unset_bit (x : UInt8) (k j : Nat) (hk : k < 8) (hj : j < 8) :
    (x &&& ~~~(1 <<< UInt8.ofNat k)).toBitVec.getLsbD j =
      (x.toBitVec.getLsbD j && !decide (j = k)) := by
  rw [UInt8.toBitVec_and, BitVec.getLsbD_and, UInt8.toBitVec_not, BitVec.getLsbD_not,
    one_shift_bit k j hk hj]
  simp [hj]

theorem index_lt {b : Bitmap} {i : Nat} {x : UInt8} (h : b[i / 8]? = some x) :
    i < 8 * b.length := by
  have := (List.getElem?_eq_some_iff.mp h).1
  omega

theorem bit_of_byte {b : Bitmap} {i : Nat} {x : UInt8} (h : b[i / 8]? = some x) :
    bit b i = x.toBitVec.getLsbD (i % 8) := by
  simp [bit, h]

/-- A position is its byte and its place in that byte. -/
theorem position_eq (i j : Nat) : j / 8 = i / 8 ∧ j % 8 = i % 8 ↔ j = i := by omega

/-- Replacing one byte changes the bits of that byte and no other. -/
theorem bit_replace {b : Bitmap} {i : Nat} (h : i / 8 < b.length) (y : UInt8) (j : Nat) :
    bit (b.set (i / 8) y) j =
      if j / 8 = i / 8 then y.toBitVec.getLsbD (j % 8) else bit b j := by
  unfold bit
  split
  · rename_i he
    rw [he, List.getElem?_set_self h]
    rfl
  · rename_i hne
    rw [List.getElem?_set_ne (Ne.symm hne)]

/-- An update of one place of a byte is one of that place of the bitmap. -/
theorem bit_update {b : Bitmap} {i : Nat} {x y : UInt8} (g : Bool → Bool → Bool)
    (hg : ∀ c, g c false = c) (hx : b[i / 8]? = some x) (j : Nat)
    (hy : y.toBitVec.getLsbD (j % 8) = g (x.toBitVec.getLsbD (j % 8)) (decide (j % 8 = i % 8))) :
    bit (b.set (i / 8) y) j = g (bit b j) (decide (j = i)) := by
  rw [bit_replace (List.getElem?_eq_some_iff.mp hx).1]
  by_cases he : j / 8 = i / 8
  · have hplace : j % 8 = i % 8 ↔ j = i :=
      ⟨fun hm => (position_eq i j).mp ⟨he, hm⟩, fun hm => hm ▸ rfl⟩
    rw [if_pos he, hy, ← bit_of_byte (he ▸ hx), decide_eq_decide.mpr hplace]
  · have hne : j ≠ i := fun hji => he (hji ▸ rfl)
    rw [if_neg he, decide_eq_false hne, hg]

theorem bit_set {b b' : Bitmap} {i : Nat} (h : setBitmap b i = some b') (j : Nat) :
    bit b' j = (bit b j || decide (j = i)) := by
  unfold setBitmap at h
  split at h
  · cases h
  · rename_i x hx
    cases h
    refine bit_update (· || ·) (by simp) hx j ?_
    rw [mask_seven, byte_set_bit x _ _ (by omega) (by omega)]

theorem bit_unset {b b' : Bitmap} {i : Nat} (h : unsetBitmap b i = some b') (j : Nat) :
    bit b' j = (bit b j && !decide (j = i)) := by
  unfold unsetBitmap at h
  split at h
  · cases h
  · rename_i x hx
    cases h
    refine bit_update (fun c d => c && !d) (by simp) hx j ?_
    rw [mask_seven, byte_unset_bit x _ _ (by omega) (by omega)]

theorem set_length {b b' : Bitmap} {i : Nat} (h : setBitmap b i = some b') :
    b'.length = b.length ∧ i < 8 * b.length := by
  unfold setBitmap at h
  split at h
  · cases h
  · rename_i x hx
    cases h
    exact ⟨List.length_set .., index_lt hx⟩

theorem unset_length {b b' : Bitmap} {i : Nat} (h : unsetBitmap b i = some b') :
    b'.length = b.length ∧ i < 8 * b.length := by
  unfold unsetBitmap at h
  split at h
  · cases h
  · rename_i x hx
    cases h
    exact ⟨List.length_set .., index_lt hx⟩

/-- An update loop keeps the size and stays inside the bitmap. -/
theorem range_length {f : Bitmap → Nat → Option Bitmap}
    (hf : ∀ b i b', f b i = some b' → b'.length = b.length ∧ i < 8 * b.length)
    {b b' : Bitmap} {start n : Nat} (h : updateRange f b start n = some b') :
    b'.length = b.length ∧ (0 < n → start + n ≤ 8 * b.length) := by
  induction n generalizing b start with
  | zero =>
    cases h
    exact ⟨rfl, fun h => absurd h (Nat.lt_irrefl 0)⟩
  | succ n ih =>
    unfold updateRange at h
    split at h
    · cases h
    · rename_i c hc
      obtain ⟨hl, hi⟩ := hf b start c hc
      obtain ⟨hl', hr⟩ := ih h
      refine ⟨hl'.trans hl, fun _ => ?_⟩
      rcases Nat.eq_zero_or_pos n with rfl | hn
      · omega
      · have := hr hn
        omega

/-- An update loop runs to its end when its range lies inside the bitmap. -/
theorem range_some {f : Bitmap → Nat → Option Bitmap}
    (hf : ∀ b i, i < 8 * b.length → ∃ b', f b i = some b' ∧ b'.length = b.length)
    (b : Bitmap) (start n : Nat) (h : start + n ≤ 8 * b.length) :
    ∃ b', updateRange f b start n = some b' := by
  induction n generalizing b start with
  | zero => exact ⟨b, rfl⟩
  | succ n ih =>
    obtain ⟨c, hc, hl⟩ := hf b start (by omega)
    obtain ⟨b', hb⟩ := ih c (start + 1) (by omega)
    exact ⟨b', by simp only [updateRange, hc, hb]⟩

theorem set_some (b : Bitmap) (i : Nat) (h : i < 8 * b.length) :
    ∃ b', setBitmap b i = some b' ∧ b'.length = b.length := by
  obtain ⟨x, hx⟩ : ∃ x, b[i / 8]? = some x := ⟨_, List.getElem?_eq_getElem (by omega)⟩
  exact ⟨_, by simp only [setBitmap, hx]; rfl, List.length_set ..⟩

theorem unset_some (b : Bitmap) (i : Nat) (h : i < 8 * b.length) :
    ∃ b', unsetBitmap b i = some b' ∧ b'.length = b.length := by
  obtain ⟨x, hx⟩ : ∃ x, b[i / 8]? = some x := ⟨_, List.getElem?_eq_getElem (by omega)⟩
  exact ⟨_, by simp only [unsetBitmap, hx]; rfl, List.length_set ..⟩

/-- After the multi-bit set exactly the bits of the range have become set. -/
theorem bit_set_range {b b' : Bitmap} {start n : Nat}
    (h : updateRange setBitmap b start n = some b') (j : Nat) :
    bit b' j = true ↔ bit b j = true ∨ (start ≤ j ∧ j < start + n) := by
  induction n generalizing b start with
  | zero =>
    cases h
    simp only [Nat.add_zero]
    constructor
    · exact Or.inl
    · rintro (hb | ⟨h1, h2⟩)
      · exact hb
      · omega
  | succ n ih =>
    unfold updateRange at h
    split at h
    · cases h
    · rename_i c hc
      rw [ih h, bit_set hc j, Bool.or_eq_true, decide_eq_true_eq, or_assoc]
      refine or_congr_right ?_
      omega

/-- After the multi-bit clear exactly the bits of the range have become clear. -/
theorem bit_unset_range {b b' : Bitmap} {start n : Nat}
    (h : updateRange unsetBitmap b start n = some b') (j : Nat) :
    bit b' j = true ↔ bit b j = true ∧ ¬ (start ≤ j ∧ j < start + n) := by
  induction n generalizing b start with
  | zero =>
    cases h
    simp only [Nat.add_zero]
    refine ⟨fun hb => ⟨hb, by omega⟩, fun hb => hb.1⟩
  | succ n ih =>
    unfold updateRange at h
    split at h
    · cases h
    · rename_i c hc
      rw [ih h, bit_unset hc j, Bool.and_eq_true, Bool.not_eq_true', decide_eq_false_iff_not,
        and_assoc]
      refine and_congr_right ?_
      intro _
      omega

/-- A position is read exactly when it lies inside the bitmap. -/
theorem get_some_iff (b : Bitmap) (i : Nat) :
    (∃ r, getBitmap b i = some r) ↔ i < 8 * b.length := by
  constructor
  · rintro ⟨r, h⟩
    unfold getBitmap at h
    split at h
    · cases h
    · rename_i x hx
      exact index_lt hx
  · intro h
    obtain ⟨x, hx⟩ : ∃ x, b[i / 8]? = some x := ⟨_, List.getElem?_eq_getElem (by omega)⟩
    exact ⟨_, by simp only [getBitmap, hx]; rfl⟩

/-- The first position of a byte is always read as clear: its mask is zero. -/
theorem get_first {b : Bitmap} {i : Nat} (h8 : i % 8 = 0) (h : i < 8 * b.length) :
    getBitmap b i = some false := by
  obtain ⟨r, hr⟩ := (get_some_iff b i).mpr h
  unfold getBitmap at hr ⊢
  split at hr
  · cases hr
  · rw [mask_seven, h8]
    simp

theorem and_odd_mask (x : UInt8) (k : Nat) (hk : k < 8) (hodd : k % 2 = 1)
    (hx : x.toBitVec.getLsbD 0 = true) : (x &&& UInt8.ofNat k) ≠ 0 := by
  intro h
  have h0 : (x &&& UInt8.ofNat k).toBitVec.getLsbD 0 = true := by
    rw [UInt8.toBitVec_and, BitVec.getLsbD_and, hx]
    interval_cases k <;> first | omega | rfl
  rw [h] at h0
  cases h0

/-- An odd position is read as set whenever the first bit of its byte is set. -/
theorem get_odd {b : Bitmap} {i : Nat} (hodd : i % 2 = 1) (h : i < 8 * b.length)
    (hb : bit b (8 * (i / 8)) = true) : getBitmap b i = some true := by
  obtain ⟨r, hr⟩ := (get_some_iff b i).mpr h
  unfold getBitmap at hr ⊢
  split at hr
  · cases hr
  · rename_i x hx
    rw [bit_of_byte (i := 8 * (i / 8))
      (by rw [Nat.mul_div_cancel_left _ (by omega)]; exact hx)] at hb
    have hz : 8 * (i / 8) % 8 = 0 := by omega
    rw [hz] at hb
    have := and_odd_mask x (i % 8) (by omega) (by omega) hb
    simp only [mask_seven, Option.some.injEq, bne_iff_ne, ne_eq]
    exact this

/-- What is read as set lies in a byte that has some bit set. -/
theorem get_true {b : Bitmap} {i : Nat} (h : getBitmap b i = some true) :
    ∃ j, j / 8 = i / 8 ∧ bit b j = true := by
  unfold getBitmap at h
  split at h
  · cases h
  · rename_i x hx
    by_contra hn
    have hzero : x = 0 := by
      apply UInt8.toBitVec_inj.mp
      apply BitVec.eq_of_getLsbD_eq
      intro k hk
      by_contra hb
      refine hn ⟨8 * (i / 8) + k, by omega, ?_⟩
      have hdiv : (8 * (i / 8) + k) / 8 = i / 8 := by omega
      rw [bit_of_byte (i := 8 * (i / 8) + k) (by rw [hdiv]; exact hx)]
      have hmod : (8 * (i / 8) + k) % 8 = k := by omega
      rw [hmod]
      cases hc : x.toBitVec.getLsbD k with
      | true => rfl
      | false => exact absurd (by rw [hc]; simp) hb
    rw [hzero] at h
    simp at h

/-- What the scan has established when it stands at `start` with `streak` positions read. -/
structure Scanned (b : Bitmap) (nr start streak : Nat) : Prop where
  clear : ∀ k < streak, getBitmap b (start + k) = some false
  blocked : ∀ t < start, ∃ p, t ≤ p ∧ p < t + nr ∧ getBitmap b p = some true
  before : start = 0 ∨ getBitmap b (start - 1) = some true

theorem Scanned.initial (b : Bitmap) (nr : Nat) : Scanned b nr 0 0 :=
  ⟨fun k hk => absurd hk (Nat.not_lt_zero k), fun t ht => absurd ht (Nat.not_lt_zero t), .inl rfl⟩

theorem Scanned.extend (h : Scanned b nr start streak)
    (hg : getBitmap b (start + streak) = some false) : Scanned b nr start (streak + 1) := by
  refine ⟨?_, h.blocked, h.before⟩
  intro k hk
  rcases Nat.lt_succ_iff_lt_or_eq.mp hk with hk | rfl
  · exact h.clear k hk
  · exact hg

theorem Scanned.restart (h : Scanned b nr start streak) (hlt : streak < nr)
    (hg : getBitmap b (start + streak) = some true) :
    Scanned b nr (start + streak + 1) 0 := by
  refine ⟨fun k hk => absurd hk (Nat.not_lt_zero k), ?_, .inr hg⟩
  intro t ht
  by_cases hs : t < start
  · exact h.blocked t hs
  · exact ⟨start + streak, by omega, by omega, hg⟩

/-- The scan stops at the first start from which `nr` positions are read as clear. -/
theorem find_zero_loop_spec {b : Bitmap} {nr fuel start streak s : Nat}
    (hs : Scanned b nr start streak) (hle : streak ≤ nr)
    (h : findZeroLoop b nr fuel start streak = some s) : Scanned b nr s nr := by
  induction fuel generalizing start streak with
  | zero => cases h
  | succ fuel ih =>
    unfold findZeroLoop at h
    split at h
    · rename_i he
      cases h
      exact he ▸ hs
    · rename_i hne
      split at h
      · cases h
      · rename_i hg
        exact ih (hs.extend hg) (by omega) h
      · rename_i hg
        exact ih (hs.restart (by omega) hg) (by omega) h

/-- The fuel is never what stops the scan: it gives up only past the last bit. -/
theorem find_zero_loop_none {b : Bitmap} {nr fuel start streak : Nat}
    (hs : Scanned b nr start streak) (hle : streak ≤ nr)
    (hfuel : 8 * b.length + 1 ≤ fuel + (start + streak))
    (h : findZeroLoop b nr fuel start streak = none) :
    ∀ t, t + nr ≤ 8 * b.length → ∃ p, t ≤ p ∧ p < t + nr ∧ getBitmap b p = some true := by
  induction fuel generalizing start streak with
  | zero =>
    intro t ht
    exact hs.blocked t (by omega)
  | succ fuel ih =>
    unfold findZeroLoop at h
    split at h
    · cases h
    · rename_i hne
      split at h
      · rename_i hg
        have hout : 8 * b.length ≤ start + streak := by
          by_contra hlt
          obtain ⟨r, hr⟩ := (get_some_iff b (start + streak)).mpr (by omega)
          rw [hg] at hr
          cases hr
        intro t ht
        exact hs.blocked t (by omega)
      · rename_i hg
        exact ih (hs.extend hg) (by omega) (by omega) h
      · rename_i hg
        exact ih (hs.restart (by omega) hg) (by omega) (by omega) h

/-- `bitmap_find_zero` as a whole: the run it takes is the first one that
`get_bitmap` reads as clear, and exactly its bits become set. -/
theorem bitmap_find_zero_spec {b b' : Bitmap} {nr s : Nat} (hn : 0 < nr)
    (h : bitmapFindZero b nr = some (s, b')) :
    Scanned b nr s nr ∧ s + nr ≤ 8 * b.length ∧ b'.length = b.length ∧
      ∀ j, bit b' j = true ↔ bit b j = true ∨ (s ≤ j ∧ j < s + nr) := by
  unfold bitmapFindZero at h
  split at h
  · omega
  · split at h
    · cases h
    · rename_i start hs
      obtain ⟨c, hc, he⟩ := Option.map_eq_some_iff.mp h
      cases he
      obtain ⟨hl, hr⟩ := range_length (fun _ _ _ => set_length) hc
      exact ⟨find_zero_loop_spec (.initial b nr) (Nat.zero_le nr) hs, hr hn, hl, bit_set_range hc⟩

/-- It leaves the bitmap only when no run of clear readings fits inside. -/
theorem bitmap_find_zero_none {b : Bitmap} {nr : Nat} (h : bitmapFindZero b nr = none) :
    ∀ t, t + nr ≤ 8 * b.length → ∃ p, t ≤ p ∧ p < t + nr ∧ getBitmap b p = some true := by
  unfold bitmapFindZero at h
  split at h
  · cases h
  · split at h
    · rename_i hl
      exact find_zero_loop_none (.initial b nr) (Nat.zero_le nr) (by omega) hl
    · rename_i hne start hs
      have hscan := find_zero_loop_spec (.initial b nr) (Nat.zero_le nr) hs
      have hin := (get_some_iff b (start + (nr - 1))).mp ⟨_, hscan.clear (nr - 1) (by omega)⟩
      obtain ⟨c, hc⟩ := range_some set_some b start nr (by omega)
      rw [hc] at h
      cases h

end Levos.Proofs.Bitmap
