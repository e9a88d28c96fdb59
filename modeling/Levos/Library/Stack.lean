import Mathlib

namespace Levos.Library

/-- A stack that grows downward in a memory of words. -/
structure Stack (β : Type u) where
  mem : Nat → β
  sp : Nat

/-- The words at an address and above it. -/
def Holds (mem : Nat → β) (a : Nat) (ws : List β) : Prop :=
  ∀ i w, ws[i]? = some w → mem (a + i) = w

/-- Two memories differ at most in the `n` words below an address. -/
def SameExcept (mem mem' : Nat → β) (top n : Nat) : Prop :=
  ∀ a, top ≤ a ∨ a + n < top → mem' a = mem a

namespace Stack

variable {β : Type u}

def push (s : Stack β) (w : β) : Stack β := ⟨Function.update s.mem (s.sp - 1) w, s.sp - 1⟩

def top (s : Stack β) : β := s.mem s.sp

def drop (s : Stack β) : Stack β := ⟨s.mem, s.sp + 1⟩

def pushAll (s : Stack β) (ws : List β) : Stack β := ws.foldl push s

@[simp] theorem push_sp (s : Stack β) (w : β) : (s.push w).sp = s.sp - 1 := rfl

theorem push_all_append (s : Stack β) (ws ws' : List β) :
    s.pushAll (ws ++ ws') = (s.pushAll ws).pushAll ws' := List.foldl_append

theorem push_all_concat (s : Stack β) (ws : List β) (w : β) :
    s.pushAll (ws ++ [w]) = (s.pushAll ws).push w := s.push_all_append ws [w]

theorem push_all_sp (s : Stack β) (ws : List β) : (s.pushAll ws).sp = s.sp - ws.length := by
  induction ws using List.reverseRecOn with
  | nil => rfl
  | append_singleton ws w ih =>
    rw [push_all_concat, push_sp, ih, List.length_append, List.length_singleton]
    omega

end Stack

variable {β : Type u} {mem mem' mem'' : Nat → β}

theorem SameExcept.refl (mem : Nat → β) (top n : Nat) : SameExcept mem mem top n := fun _ _ => rfl

theorem SameExcept.trans (h : SameExcept mem mem' top n) (h' : SameExcept mem' mem'' top n) :
    SameExcept mem mem'' top n := fun a ha => (h' a ha).trans (h a ha)

/-- Words below a lower address are among more words below a higher one. -/
theorem SameExcept.widen (h : SameExcept mem mem' (top - k) n) (hk : k ≤ top) :
    SameExcept mem mem' top (n + k) := fun a ha => h a (by omega)

theorem SameExcept.mono (h : SameExcept mem mem' top n) (hn : n ≤ n') :
    SameExcept mem mem' top n' := fun a ha => h a (by omega)

theorem Holds.nil (mem : Nat → β) (a : Nat) : Holds mem a [] := fun i w h => by simp at h

theorem Holds.cons (h : mem a = w) (hs : Holds mem (a + 1) ws) : Holds mem a (w :: ws) := by
  intro i x hx
  cases i with
  | zero =>
    cases hx
    exact h
  | succ i => simpa [Nat.add_assoc, Nat.add_comm 1] using hs i x hx

theorem Holds.head (h : Holds mem a (w :: ws)) : mem a = w := h 0 w rfl

theorem Holds.tail (h : Holds mem a (w :: ws)) : Holds mem (a + 1) ws := by
  intro i x hx
  simpa [Nat.add_assoc, Nat.add_comm 1] using h (i + 1) x hx

theorem Holds.append (h : Holds mem a ws) (h' : Holds mem (a + ws.length) vs) :
    Holds mem a (ws ++ vs) := by
  intro i w hw
  rw [List.getElem?_append] at hw
  split at hw
  · exact h i w hw
  · rename_i hi
    have := h' (i - ws.length) w hw
    rwa [show a + ws.length + (i - ws.length) = a + i by omega] at this

theorem Holds.congr (h : Holds mem a ws)
    (hsame : ∀ b, a ≤ b → b < a + ws.length → mem' b = mem b) : Holds mem' a ws := by
  intro i w hw
  have hi := (List.getElem?_eq_some_iff.mp hw).1
  rw [hsame (a + i) (by omega) (by omega)]
  exact h i w hw

namespace Stack

theorem push_same (s : Stack β) (w : β) (h : 1 ≤ s.sp) :
    SameExcept s.mem (s.push w).mem s.sp 1 := by
  intro a ha
  exact Function.update_of_ne (show a ≠ s.sp - 1 by omega) w s.mem

theorem push_all_same (s : Stack β) (ws : List β) (h : ws.length ≤ s.sp) :
    SameExcept s.mem (s.pushAll ws).mem s.sp ws.length := by
  induction ws using List.reverseRecOn with
  | nil => exact .refl s.mem s.sp 0
  | append_singleton ws w ih =>
    rw [List.length_append, List.length_singleton] at h ⊢
    have hfirst := ih (by omega)
    have hlast := (s.pushAll ws).push_same w (by rw [push_all_sp]; omega)
    rw [push_all_sp] at hlast
    rw [push_all_concat]
    exact (hfirst.mono (Nat.le_add_right _ 1)).trans
      ((hlast.widen (by omega)).mono (by omega))

/-- The words pushed stand in memory, the last one lowest. -/
theorem push_all_holds (s : Stack β) (ws : List β) (h : ws.length ≤ s.sp) :
    Holds (s.pushAll ws).mem (s.pushAll ws).sp ws.reverse := by
  induction ws using List.reverseRecOn with
  | nil => exact .nil _ _
  | append_singleton ws w ih =>
    rw [List.length_append, List.length_singleton] at h
    have hsp := s.push_all_sp ws
    rw [push_all_concat, List.reverse_append, List.reverse_singleton, List.singleton_append]
    refine .cons (Function.update_self _ _ _) ?_
    rw [push_sp, Nat.sub_add_cancel (by omega)]
    refine (ih (by omega)).congr ?_
    intro b hb _
    exact (s.pushAll ws).push_same w (by omega) b (.inl hb)

end Stack

end Levos.Library
