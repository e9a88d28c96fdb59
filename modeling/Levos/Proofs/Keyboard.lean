import Levos.Keyboard

namespace Levos.Proofs.Keyboard
open Library

variable {beyond : Nat → Nat} {s t : Keystrokes} {k : Keycap} {m : Modifier}

/-- The flags say which modifiers are held and how often caps lock was pressed. -/
structure Matches (s : Keystrokes) : Prop where
  modifiers : ∀ m, s.flags.flag m ≠ 0 ↔ ∃ k ∈ s.held, k.modifier = some m
  capslock : s.flags.capslock = UInt8.ofNat (s.capsPresses % 2)

/-- The code is not taken for a modifier or caps lock that is not meant, and a
modifier is released only as the last of its pair. -/
def Meant (beyond : Nat → Nat) (s : Keystrokes) : Scancode → Prop
  | .escape => True
  | .make k =>
    (∀ m, modifierOf (keyAt beyond k.code) = some m →
      k.modifier = some m ∨ ∃ h ∈ s.held, h.modifier = some m) ∧
    (keyAt beyond k.code = keyCapslock → k = capsLock)
  | .release k => ∀ m, modifierOf (keyAt beyond k.code) = some m →
      ∀ h ∈ s.held, h.modifier = some m → h = k

instance (beyond : Nat → Nat) (s : Keystrokes) : (c : Scancode) → Decidable (Meant beyond s c)
  | .escape => inferInstanceAs (Decidable True)
  | .make k => inferInstanceAs (Decidable
      ((∀ m, modifierOf (keyAt beyond k.code) = some m →
        k.modifier = some m ∨ ∃ h ∈ s.held, h.modifier = some m) ∧
      (keyAt beyond k.code = keyCapslock → k = capsLock)))
  | .release k => inferInstanceAs (Decidable (∀ m, modifierOf (keyAt beyond k.code) = some m →
      ∀ h ∈ s.held, h.modifier = some m → h = k))

@[simp] theorem flag_store (f : KeyFlags) (v : UInt8) (m n : Modifier) :
    (f.store v m).flag n = if n = m then v else f.flag n := by
  cases m <;> cases n <;> rfl

@[simp] theorem flag_extended (f : KeyFlags) (v : UInt8) (n : Modifier) :
    { f with extended := v }.flag n = f.flag n := by
  cases n <;> rfl

@[simp] theorem capslock_store (f : KeyFlags) (v : UInt8) (m : Modifier) :
    (f.store v m).capslock = f.capslock := by
  cases m <;> rfl

/-- The break code of a make code, and what tells them apart. -/
theorem code_table : ∀ i : Fin 128,
    UInt8.ofNat i &&& 0x80 = 0 ∧ UInt8.ofNat i ≠ 0xE0 ∧ UInt8.ofNat i ≠ 0xE1 ∧
      (UInt8.ofNat i + 0x80) &&& 0x80 ≠ 0 ∧ UInt8.ofNat i + 0x80 - 0x80 = UInt8.ofNat i ∧
      (UInt8.ofNat i + 0x80 = 0xE0 → UInt8.ofNat i = 0x60) ∧
      (UInt8.ofNat i + 0x80 = 0xE1 → UInt8.ofNat i = 0x61) := by
  decide

theorem code_facts (k : Keycap) :
    k.code &&& 0x80 = 0 ∧ ¬ (k.code = 0xE0 ∨ k.code = 0xE1) ∧
      (k.code + 0x80) &&& 0x80 ≠ 0 ∧ k.code + 0x80 - 0x80 = k.code ∧
      ¬ (k.code + 0x80 = 0xE0 ∨ k.code + 0x80 = 0xE1) := by
  have hlt : k.code.toNat < 128 := UInt8.lt_iff_toNat_lt.mp k.inRange.1
  have htable := code_table ⟨k.code.toNat, hlt⟩
  simp only [UInt8.ofNat_toNat] at htable
  obtain ⟨hlow, hne, hne', hhigh, hback, h60, h61⟩ := htable
  refine ⟨hlow, ?_, hhigh, hback, ?_⟩
  · rintro (h | h)
    · exact hne h
    · exact hne' h
  · rintro (h | h)
    · exact k.inRange.2.1 (h60 h)
    · exact k.inRange.2.2 (h61 h)

/-- The keys of the three pairs have the entries of their modifiers. -/
theorem modifier_lookup (hk : k.modifier = some m) :
    modifierOf (keyAt beyond k.code) = some m := by
  unfold Keycap.modifier at hk
  split at hk
  · rename_i hc
    cases hk
    rw [hc]
    rfl
  · split at hk
    · rename_i hc
      cases hk
      rcases hc.2 with hc | hc <;> rw [hc] <;> rfl
    · split at hk
      · rename_i hc
        cases hk
        rw [hc]
        rfl
      · cases hk

theorem caps_lookup : keyAt beyond capsLock.code = keyCapslock := rfl

theorem make_flag (f : KeyFlags) (k : Keycap) (n : Modifier) :
    (parseKeycode beyond f k.code).1.flag n =
      if modifierOf (keyAt beyond k.code) = some n then 1 else f.flag n := by
  obtain ⟨hlow, hescape, -⟩ := code_facts k
  rw [parseKeycode, if_neg hescape, if_neg (fun h => h hlow)]
  cases hm : modifierOf (keyAt beyond k.code) with
  | some m => simp only [flag_store, flag_extended, Option.some.injEq, eq_comm (a := n)]
  | none =>
    simp only [reduceCtorEq, if_false]
    split <;> cases n <;> rfl

/-- Caps lock is not among the modifiers, so its branch is reached. -/
theorem make_capslock (f : KeyFlags) (k : Keycap) :
    (parseKeycode beyond f k.code).1.capslock =
      if keyAt beyond k.code = keyCapslock then (if f.capslock ≠ 0 then 0 else 1)
      else f.capslock := by
  obtain ⟨hlow, hescape, -⟩ := code_facts k
  rw [parseKeycode, if_neg hescape, if_neg (fun h => h hlow)]
  cases hm : modifierOf (keyAt beyond k.code) with
  | some m =>
    have hne : keyAt beyond k.code ≠ keyCapslock := by
      intro he
      rw [he] at hm
      cases hm
    simp only [hne, if_false, capslock_store]
  | none =>
    dsimp only
    split <;> rfl

theorem release_flag (f : KeyFlags) (k : Keycap) (n : Modifier) :
    (parseKeycode beyond f (k.code + 0x80)).1.flag n =
      if modifierOf (keyAt beyond k.code) = some n then 0 else f.flag n := by
  obtain ⟨-, -, hhigh, hback, hescape⟩ := code_facts k
  rw [parseKeycode, if_neg hescape, if_pos hhigh, hback]
  cases hm : modifierOf (keyAt beyond k.code) with
  | some m => simp only [flag_store, flag_extended, Option.some.injEq, eq_comm (a := n)]
  | none => simp only [reduceCtorEq, if_false, flag_extended]

theorem release_capslock (f : KeyFlags) (k : Keycap) :
    (parseKeycode beyond f (k.code + 0x80)).1.capslock = f.capslock := by
  obtain ⟨-, -, hhigh, hback, hescape⟩ := code_facts k
  rw [parseKeycode, if_neg hescape, if_pos hhigh, hback]
  cases hm : modifierOf (keyAt beyond k.code) with
  | some m => exact capslock_store ..
  | none => rfl

/-- The toggle keeps the parity in step with the presses counted. -/
theorem toggle_parity (n : Nat) :
    (if UInt8.ofNat (n % 2) ≠ 0 then (0 : UInt8) else 1) = UInt8.ofNat ((n + 1) % 2) := by
  rcases Nat.mod_two_eq_zero_or_one n with h | h
  · rw [h, show (n + 1) % 2 = 1 by omega]
    rfl
  · rw [h, show (n + 1) % 2 = 0 by omega]
    rfl

theorem parity_changes (n : Nat) : UInt8.ofNat ((n + 1) % 2) ≠ UInt8.ofNat (n % 2) := by
  rcases Nat.mod_two_eq_zero_or_one n with h | h
  · rw [h, show (n + 1) % 2 = 1 by omega]
    decide
  · rw [h, show (n + 1) % 2 = 0 by omega]
    decide

theorem escape_step (hs : Matches s) (ht : Keystrokes.step beyond s .escape = some t) :
    Matches t := by
  simp only [Keystrokes.step] at ht
  split at ht
  · cases ht
  · cases ht
    refine ⟨fun m => ?_, hs.capslock⟩
    rw [← hs.modifiers m]
    cases m <;> exact Iff.rfl

theorem make_step (hs : Matches s) (ht : Keystrokes.step beyond s (.make k) = some t) :
    Matches t ↔ Meant beyond s (.make k) := by
  simp only [Keystrokes.step, Scancode.byte] at ht
  split at ht
  · cases ht
    have hheld : ∀ m, (∃ h ∈ k :: s.held, h.modifier = some m) ↔
        k.modifier = some m ∨ ∃ h ∈ s.held, h.modifier = some m := by
      intro m
      simp only [List.mem_cons, exists_eq_or_imp]
    constructor
    · rintro ⟨hmod, hcaps⟩
      refine ⟨fun m hm => ?_, fun hkey => ?_⟩
      · rw [← hheld, ← hmod m, make_flag, if_pos hm]
        decide
      · by_contra hne
        rw [make_capslock, if_pos hkey, if_neg hne, hs.capslock, toggle_parity] at hcaps
        exact parity_changes _ hcaps
    · rintro ⟨hmod, hcaps⟩
      refine ⟨fun m => ?_, ?_⟩
      · rw [hheld, make_flag]
        split
        · rename_i hm
          exact iff_of_true (by decide) (hmod m hm)
        · rename_i hm
          rw [hs.modifiers m]
          exact ⟨.inr, fun h => h.elim (fun hk => absurd (modifier_lookup hk) hm) id⟩
      · rw [make_capslock]
        by_cases hkey : keyAt beyond k.code = keyCapslock
        · rw [if_pos hkey, hcaps hkey, if_pos rfl, hs.capslock, toggle_parity]
        · have hne : k ≠ capsLock := fun he => hkey (he ▸ caps_lookup)
          rw [if_neg hkey, if_neg hne]
          exact hs.capslock
  · cases ht

theorem release_step (hs : Matches s) (ht : Keystrokes.step beyond s (.release k) = some t) :
    Matches t ↔ Meant beyond s (.release k) := by
  simp only [Keystrokes.step, Scancode.byte] at ht
  split at ht
  · cases ht
    have hheld : ∀ m, (∃ h ∈ s.held.filter (· ≠ k), h.modifier = some m) ↔
        ∃ h ∈ s.held, h ≠ k ∧ h.modifier = some m := by
      intro m
      simp only [List.mem_filter, decide_eq_true_eq, and_assoc]
    constructor
    · rintro ⟨hmod, -⟩ m hm h hh hhm
      by_contra hne
      have hflag := (hmod m).mpr ((hheld m).mpr ⟨h, hh, hne, hhm⟩)
      rw [release_flag, if_pos hm] at hflag
      exact hflag rfl
    · intro hmeant
      refine ⟨fun m => ?_, ?_⟩
      · rw [hheld, release_flag]
        split
        · rename_i hm
          refine iff_of_false (fun h => h rfl) ?_
          rintro ⟨h, hh, hne, hhm⟩
          exact hne (hmeant m hm h hh hhm)
        · rename_i hm
          rw [hs.modifiers m]
          constructor
          · rintro ⟨h, hh, hhm⟩
            exact ⟨h, hh, fun he => hm (modifier_lookup (he ▸ hhm)), hhm⟩
          · rintro ⟨h, hh, -, hhm⟩
            exact ⟨h, hh, hhm⟩
      · rw [release_capslock]
        exact hs.capslock
  · cases ht

/-- Each code keeps the flags right exactly when it is meant. -/
theorem step_matches_iff {c : Scancode} (hs : Matches s)
    (ht : Keystrokes.step beyond s c = some t) : Matches t ↔ Meant beyond s c := by
  cases c with
  | escape => exact iff_of_true (escape_step hs ht) trivial
  | make k => exact make_step hs ht
  | release k => exact release_step hs ht

theorem start_matches : Matches .start := by
  refine ⟨fun m => ?_, rfl⟩
  cases m <;> simp [Keystrokes.start, KeyFlags.flag]

/-- The flags are right after every code exactly when every code was meant. -/
theorem flags_match_iff (beyond : Nat → Nat) (codes : List Scancode)
    (hr : (run (Keystrokes.step beyond) .start codes).isSome) :
    Throughout (Keystrokes.step beyond) Matches .start codes ↔
      Guarded (Keystrokes.step beyond) (Meant beyond) .start codes :=
  throughout_iff_guarded start_matches (fun _ hs => hs)
    (fun _ _ _ hs hg ht => (step_matches_iff hs ht).mpr hg)
    (fun _ _ _ hs hg ht hp => hg ((step_matches_iff hs ht).mp hp)) hr

def leftShift : Keycap := ⟨false, 0x2a, by decide⟩
def rightShift : Keycap := ⟨false, 0x36, by decide⟩
def rightCtrl : Keycap := ⟨true, 0x1d, by decide⟩

theorem flags_match_one_at_a_time :
    Throughout (Keystrokes.step fun _ => 0) Matches .start
      [.make leftShift, .escape, .make rightCtrl, .release leftShift, .escape,
        .release rightCtrl] := by
  refine (flags_match_iff (fun _ => 0) _ (by decide)).mpr ?_
  exact .cons rfl (by decide) <| .cons rfl (by decide) <| .cons rfl (by decide) <|
    .cons rfl (by decide) <| .cons rfl (by decide) <| .single (by decide)

/-- Of two shift keys held one is released: `_shift` is clear. -/
theorem shift_still_held :
    ¬ Throughout (Keystrokes.step fun _ => 0) Matches .start
      [.make leftShift, .make rightShift, .release rightShift] := by
  intro h
  have hlast := h.last (t := ⟨⟨0, 0, 0, 0, 0⟩, false, [leftShift], 0⟩) (by decide)
  exact (hlast.modifiers .shift).mpr ⟨leftShift, by decide, by decide⟩ rfl

end Levos.Proofs.Keyboard
