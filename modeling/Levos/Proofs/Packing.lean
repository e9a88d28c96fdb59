import Levos.Proofs.Bitmap

namespace Levos.Proofs.Packing
open Levos.Proofs.Bitmap

/-- The bytes of a bitmap that a run of `n` positions from the first bit of a
byte on reaches into. -/
def bytesFor (n : Nat) : Nat := (n + 7) / 8

/-- A bitmap from which nothing has been given back: its first `u` bytes have
their first bit set, the others are zero. -/
structure Packed (b : Bitmap) (u : Nat) : Prop where
  room : u ≤ b.length
  used : ∀ k < u, bit b (8 * k) = true
  clear : ∀ j, u ≤ j / 8 → bit b j = false

/-- Where a packed bitmap answers a request. One position is always found at the
very first place, which reads as clear whatever it holds. -/
def firstPage (u n : Nat) : Nat := if n ≤ 1 then 0 else 8 * u

/-- The bytes in use after a request. -/
def grow (u n : Nat) : Nat :=
  if n = 0 then u else if n = 1 then max u 1 else u + bytesFor n

/-- The bytes in use after the requests of a history, the last one first. Each
comes with the address it was given. -/
def taken (returned : List (Nat × Nat)) : Nat := returned.foldr (fun r u => grow u r.2) 0

theorem grow_le (u n : Nat) : u ≤ grow u n := by
  unfold grow
  split
  · exact Nat.le_refl u
  · split <;> omega

theorem page_end_le (u n : Nat) : firstPage u n + n ≤ 8 * grow u n := by
  unfold firstPage grow bytesFor
  split <;> split <;> try split
  all_goals omega

theorem packed_zero (n : Nat) : Packed (List.replicate n 0) 0 := by
  refine ⟨Nat.zero_le _, fun k hk => absurd hk (Nat.not_lt_zero k), ?_⟩
  intro j _
  simp only [bit, List.getElem?_replicate]
  split <;> simp

variable {b b' : Bitmap} {u n s : Nat}

theorem Packed.not_set (h : Packed b u) (hp : u ≤ p / 8) : getBitmap b p ≠ some true := by
  intro hg
  obtain ⟨j, hj, hb⟩ := get_true hg
  simp [h.clear j (by omega)] at hb

/-- Two positions from anywhere in the used bytes on meet an odd one, which
reads as set. -/
theorem Packed.no_window (h : Packed b u) (hn : 2 ≤ n) (ht : t < 8 * u) :
    ∃ p, t ≤ p ∧ p < t + n ∧ getBitmap b p = some true := by
  have hroom := h.room
  have hodd : ∀ p, p % 2 = 1 → p / 8 = t / 8 → getBitmap b p = some true := by
    intro p hp hd
    exact get_odd hp (by omega) (h.used (p / 8) (by omega))
  rcases Nat.mod_two_eq_zero_or_one t with he | ho
  · exact ⟨t + 1, by omega, by omega, hodd (t + 1) (by omega) (by omega)⟩
  · exact ⟨t, by omega, by omega, hodd t ho rfl⟩

theorem Packed.window (h : Packed b u) (hn : 2 ≤ n) (hs : Scanned b n s n) : s = 8 * u := by
  apply Nat.le_antisymm
  · by_contra hlt
    obtain ⟨p, hp, _, hg⟩ := hs.blocked (8 * u) (by omega)
    exact h.not_set (by omega) hg
  · by_contra hlt
    obtain ⟨p, hp1, hp2, hg⟩ := h.no_window hn (t := s) (by omega)
    have hc := hs.clear (p - s) (by omega)
    rw [Nat.add_sub_cancel' hp1, hg] at hc
    cases hc

theorem first_window (hs : Scanned b 1 s 1) : s = 0 := by
  by_contra hne
  obtain ⟨p, _, hp, hg⟩ := hs.blocked 0 (by omega)
  obtain rfl : p = 0 := by omega
  have hin := (get_some_iff b 0).mp ⟨_, hg⟩
  rw [get_first rfl hin] at hg
  cases hg

/-- A run from the first bit of a byte on, taken without a gap behind the bytes
in use. -/
theorem Packed.take (h : Packed b u) (hv : v ≤ u) (hl : b'.length = b.length)
    (hin : 8 * v + n ≤ 8 * b.length)
    (hbits : ∀ j, bit b' j = true ↔ bit b j = true ∨ (8 * v ≤ j ∧ j < 8 * v + n)) :
    Packed b' (max u (v + bytesFor n)) := by
  have hroom := h.room
  unfold bytesFor
  refine ⟨by omega, ?_, ?_⟩
  · intro k hk
    rw [hbits]
    by_cases hku : k < u
    · exact .inl (h.used k hku)
    · exact .inr ⟨by omega, by omega⟩
  · intro j hj
    have hnew := hbits j
    rw [h.clear j (by omega)] at hnew
    by_contra hb
    rcases hnew.mp (by simpa using hb) with hf | ⟨_, hlt⟩
    · cases hf
    · omega

/-- What `bitmap_find_zero` answers on a packed bitmap. -/
theorem Packed.find_zero (h : Packed b u) (hf : bitmapFindZero b n = some (s, b')) :
    s = firstPage u n ∧ s + n ≤ 8 * b.length ∧ b'.length = b.length ∧ Packed b' (grow u n) := by
  match n, hf with
  | 0, hf =>
    cases hf
    exact ⟨rfl, Nat.zero_le _, rfl, h⟩
  | 1, hf =>
    obtain ⟨hs, hin, hl, hbits⟩ := bitmap_find_zero_spec Nat.one_pos hf
    obtain rfl := first_window hs
    exact ⟨rfl, hin, hl, h.take (v := 0) (Nat.zero_le u) hl hin hbits⟩
  | n + 2, hf =>
    obtain ⟨hs, hin, hl, hbits⟩ := bitmap_find_zero_spec (Nat.succ_pos _) hf
    obtain rfl := h.window (by omega) hs
    refine ⟨by simp [firstPage], hin, hl, ?_⟩
    simpa [grow] using h.take (Nat.le_refl u) hl hin hbits

/-- It answers as long as the request fits behind the bytes in use. -/
theorem Packed.find_zero_some (h : Packed b u) (hb : 0 < b.length)
    (hfit : 2 ≤ n → 8 * u + n ≤ 8 * b.length) : ∃ r, bitmapFindZero b n = some r := by
  cases hf : bitmapFindZero b n with
  | some r => exact ⟨r, rfl⟩
  | none =>
    exfalso
    have hnone := bitmap_find_zero_none hf
    match n, hf, hfit, hnone with
    | 0, hf, _, _ => cases hf
    | 1, _, _, hnone =>
      obtain ⟨p, _, hp, hg⟩ := hnone 0 (by omega)
      obtain rfl : p = 0 := by omega
      rw [get_first rfl (by omega)] at hg
      cases hg
    | n + 2, _, hfit, hnone =>
      obtain ⟨p, hp, _, hg⟩ := hnone (8 * u) (hfit (by omega))
      exact h.not_set (by omega) hg

end Levos.Proofs.Packing
