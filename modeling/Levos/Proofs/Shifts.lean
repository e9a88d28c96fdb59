import Levos.DisplayMemory
import Levos.Input
import Levos.Library.Words
import Levos.Proofs.Grid
import Levos.Proofs.Memcpy

namespace Levos.Proofs.Shifts
open Library Levos.Proofs.Memcpy

/-- The rows go up one after the other as if all of them had been moved at once. -/
theorem rows_moved (mem : Nat → UInt8) (rows : Nat) :
    Moved mem displayBase (displayBase + 80 * 2) (rows * (80 * 2)) (scrollupRows mem rows) := by
  induction rows with
  | zero =>
    rw [Nat.zero_mul]
    exact Moved.none mem _ _
  | succ rows ih =>
    have hrow : Moved (scrollupRows mem rows) (displayBase + rows * (80 * 2))
        (displayBase + 80 * 2 + rows * (80 * 2)) (80 * 2) (scrollupRows mem (rows + 1)) := by
      unfold scrollupRows
      rw [List.range_succ, List.foldl_append, List.foldl_cons, List.foldl_nil,
        show displayBase + rows * (80 * 2) = displayBase + rows * 80 * 2 by omega,
        show displayBase + 80 * 2 + rows * (80 * 2) = displayBase + (rows + 1) * 80 * 2 by omega]
      exact memcpy_moved _ (.inl (by omega))
    have hall := Moved.extend (Nat.le_add_right displayBase (80 * 2)) ih hrow
    rwa [← Nat.succ_mul] at hall

/-- What a read copies out of the input buffer. -/
def copiedBytes (m : Input) (len : Nat) : Bytes := if m.inbuflen = 0 then [] else readLoop m len 0

/-- What is left in the input buffer is moved to its beginning. -/
theorem read_moved (m : Input) (len : Nat) (hfits : (copiedBytes m len).length ≤ ttyBufferSize) :
    ∃ t, ttyGenericRead m len = some (copiedBytes m len, t) ∧
      Moved m.inbuf 0 (copiedBytes m len).length (ttyBufferSize - (copiedBytes m len).length)
        t.inbuf := by
  have hnone (count : Nat) : Moved m.inbuf 0 ([] : Bytes).length count m.inbuf :=
    ⟨fun _ _ => rfl, fun _ _ => rfl⟩
  by_cases hempty : m.inbuflen = 0
  · rw [copiedBytes, if_pos hempty, ttyGenericRead, if_pos (.inl hempty)]
    exact ⟨m, rfl, hnone _⟩
  · rw [copiedBytes, if_neg hempty] at hfits ⊢
    by_cases hnil : readLoop m len 0 = []
    · rw [ttyGenericRead, hnil, if_pos rfl, ite_self]
      exact ⟨m, rfl, hnone _⟩
    · have hlen : len ≠ 0 := by
        rintro rfl
        exact hnil rfl
      rw [ttyGenericRead, if_neg (not_or.mpr ⟨hempty, hlen⟩), if_neg hnil, Input.shift,
        if_neg (Nat.not_lt.mpr hfits), Option.map_some]
      exact ⟨_, rfl, memcpy_moved m.inbuf (.inl (Nat.zero_le _))⟩

/-- Every move downwards is right: that of `memcpy`, with pointers that never wrap and in
the address space of the machine, and the two that overlap. A read moves what it has not
copied, unless it has copied more than the buffer holds and the count wraps. -/
theorem downward_moves :
    (∀ (mem : Nat → UInt8) (dest src count : Nat), dest ≤ src ∨ Apart dest src count →
      Moved mem dest src count (memcpy mem dest src count)) ∧
    (∀ (mem : UInt32 → UInt8) (dest src count : UInt32),
      dest ≤ src ∧ src.toNat + count.toNat ≤ 2 ^ 32 ∨ Apart dest src count →
      Moved mem dest src count (memcpy32 mem dest src count)) ∧
    (∀ (m : Input) (len : Nat), (copiedBytes m len).length ≤ ttyBufferSize →
      ∃ t, ttyGenericRead m len = some (copiedBytes m len, t) ∧
        Moved m.inbuf 0 (copiedBytes m len).length (ttyBufferSize - (copiedBytes m len).length)
          t.inbuf) ∧
    ∀ mem : Nat → UInt8, Moved mem displayBase (displayBase + 80 * 2) (25 * (80 * 2))
      (scrollupRows mem 25) :=
  ⟨fun mem _ _ _ h => memcpy_moved mem h, fun _ _ _ _ h => memcpy32_moved h, read_moved,
    fun mem => rows_moved mem 25⟩

/-- Three bytes have been typed. -/
def typedInput : Input := ⟨fun i => if i < 3 then 97 else 0, 3⟩

/-- A move by one byte, where every byte but the last is stored to right after it has been
read, and the move of a read of two bytes. -/
theorem downward_moves_by_one :
    Moved (fun a => UInt8.ofNat a) 0 1 3 (memcpy (fun a => UInt8.ofNat a) 0 1 3) ∧
      Moved (fun a => a.toUInt8) 0 1 3 (memcpy32 (fun a => a.toUInt8) 0 1 3) ∧
      ∃ t, ttyGenericRead typedInput 2 = some ([97, 97], t) ∧
        Moved typedInput.inbuf 0 2 (ttyBufferSize - 2) t.inbuf :=
  ⟨downward_moves.1 _ 0 1 3 (.inl (by decide)),
    downward_moves.2.1 _ 0 1 3 (.inl ⟨by decide, by decide⟩),
    downward_moves.2.2.1 typedInput 2 (by decide)⟩

theorem words_store (mem : Nat → UInt8) (i : Nat) (value : UInt16) :
    displayWords (storeWord mem (displayBase + 2 * i) value) =
      Function.update (displayWords mem) i value := by
  funext k
  unfold displayWords loadWord storeWord
  by_cases hk : k = i
  · subst hk
    rw [Function.update_of_ne (by omega), Function.update_self, Function.update_self,
      Function.update_self]
    exact join_bytes value
  · rw [Function.update_of_ne (by omega), Function.update_of_ne (by omega),
      Function.update_of_ne (by omega), Function.update_of_ne (by omega),
      Function.update_of_ne hk]

theorem words_memset (num : Nat) (mem : Nat → UInt8) (start : Nat) (value : UInt16) :
    displayWords (memset16Loop num mem (displayBase + 2 * start) value) =
      memset16 (displayWords mem) start value num := by
  induction num generalizing mem start with
  | zero =>
    funext k
    rw [memset16, if_neg (by omega)]
    rfl
  | succ num ih =>
    rw [memset16Loop, show displayBase + 2 * start + 2 = displayBase + 2 * (start + 1) by omega,
      ih, words_store]
    funext k
    unfold memset16
    by_cases hk : k = start
    · subst hk
      rw [if_neg (by omega), if_pos (by omega), Function.update_self]
    · rw [Function.update_of_ne hk]
      have hsame : start + 1 ≤ k ∧ k < start + 1 + num ↔ start ≤ k ∧ k < start + (num + 1) := by
        omega
      simp only [hsame]

/-- Two bytes that have been moved are the word they were. -/
theorem words_rows (mem : Nat → UInt8) (rows : Nat) :
    displayWords (scrollupRows mem rows) = (List.range rows).foldl copyRow (displayWords mem) := by
  have hmoved := rows_moved mem rows
  funext i
  unfold displayWords loadWord
  by_cases hi : i < 80 * rows
  · have hlow := hmoved.copied (2 * i) (by omega)
    have hhigh := hmoved.copied (2 * i + 1) (by omega)
    rw [Grid.copy_rows _ rows hi, Nat.add_assoc, hlow, hhigh]
    rw [show displayBase + 80 * 2 + 2 * i = displayBase + 2 * (i + 80) by omega,
      show displayBase + 80 * 2 + (2 * i + 1) = displayBase + 2 * (i + 80) + 1 by omega]
  · have hrest := Nat.le_of_not_lt hi
    rw [Grid.copy_rows_outside _ rows hrest, hmoved.frame _ (fun j hj => by omega),
      hmoved.frame _ (fun j hj => by omega)]

/-- The bytes of the display are scrolled as its words are in the model of the display. -/
theorem scrollup_refines (mem : Nat → UInt8) (d : Levos.Textmode) (h : d.cells = displayWords mem) :
    displayWords (scrollupBytes mem d.blank) = (textmodeScrollup d).cells := by
  unfold scrollupBytes textmodeScrollup
  rw [show displayBase + 25 * 80 * 2 = displayBase + 2 * (25 * 80) by omega, words_memset,
    words_rows, h]

end Levos.Proofs.Shifts
