import Mathlib

namespace Levos.Library

variable {α : Type u} {lo hi : α → Nat} {a b : Nat} {x y : α} {xs as bs : List α}

/-- Items that lie between two bounds, each one behind the one before. -/
def Spaced (lo hi : α → Nat) : Nat → Nat → List α → Prop
  | a, b, [] => a ≤ b
  | a, b, x :: xs => a ≤ lo x ∧ lo x ≤ hi x ∧ Spaced lo hi (hi x) b xs

/-- Where the last item ends. -/
def endOf (hi : α → Nat) (a : Nat) (xs : List α) : Nat := (xs.getLast?.map hi).getD a

/-- Where the first item begins. -/
def startOf (lo : α → Nat) (b : Nat) (xs : List α) : Nat := (xs.head?.map lo).getD b

/-- What the items take. -/
def covered (lo hi : α → Nat) (xs : List α) : Nat := (xs.map (fun x => hi x - lo x)).sum

theorem endOf_cons (x : α) (xs : List α) : endOf hi a (x :: xs) = endOf hi (hi x) xs := by
  cases hl : xs.getLast? with
  | none =>
    rw [List.getLast?_eq_none_iff.mp hl]
    rfl
  | some y => simp [endOf, List.getLast?_cons, hl]

theorem Spaced.bounds (h : Spaced lo hi a b xs) : a ≤ b := by
  induction xs generalizing a with
  | nil => exact h
  | cons x xs ih =>
    have := ih h.2.2
    have := h.1
    have := h.2.1
    omega

theorem spaced_append :
    Spaced lo hi a b (as ++ bs) ↔
      Spaced lo hi a (endOf hi a as) as ∧ Spaced lo hi (endOf hi a as) b bs := by
  induction as generalizing a with
  | nil => exact (and_iff_right (Nat.le_refl a)).symm
  | cons x as ih =>
    rw [List.cons_append, endOf_cons]
    simp only [Spaced, ih]
    tauto

theorem Spaced.start_le (h : Spaced lo hi a b xs) : a ≤ startOf lo b xs := by
  cases xs with
  | nil => exact h
  | cons x xs => exact h.1

theorem spaced_from (h : Spaced lo hi a b xs) (ha : c ≤ startOf lo b xs) : Spaced lo hi c b xs := by
  cases xs with
  | nil => exact ha
  | cons x xs => exact ⟨ha, h.2⟩

/-- An item is put into the gap between two others. -/
theorem Spaced.insert (h : Spaced lo hi a b (as ++ bs)) (hlo : endOf hi a as ≤ lo x)
    (hx : lo x ≤ hi x) (hhi : hi x ≤ startOf lo b bs) : Spaced lo hi a b (as ++ x :: bs) := by
  obtain ⟨has, hbs⟩ := spaced_append.mp h
  exact spaced_append.mpr ⟨has, hlo, hx, spaced_from hbs hhi⟩

theorem Spaced.remove (h : Spaced lo hi a b (as ++ x :: bs)) : Spaced lo hi a b (as ++ bs) := by
  obtain ⟨has, hlo, hx, hbs⟩ := spaced_append.mp h
  refine spaced_append.mpr ⟨has, spaced_from hbs ?_⟩
  have := hbs.start_le
  omega

theorem Spaced.mem (h : Spaced lo hi a b xs) (hx : x ∈ xs) :
    a ≤ lo x ∧ lo x ≤ hi x ∧ hi x ≤ b := by
  obtain ⟨as, bs, rfl⟩ := List.append_of_mem hx
  obtain ⟨has, hlo, hle, hbs⟩ := spaced_append.mp h
  have := has.bounds
  have := hbs.bounds
  exact ⟨by omega, hle, by omega⟩

/-- The items do not overlap. -/
theorem Spaced.pairwise (h : Spaced lo hi a b xs) : xs.Pairwise (fun x y => hi x ≤ lo y) := by
  induction xs generalizing a with
  | nil => exact .nil
  | cons x xs ih => exact .cons (fun y hy => (h.2.2.mem hy).1) (ih h.2.2)

theorem Spaced.covered_le (h : Spaced lo hi a b xs) : a + covered lo hi xs ≤ b := by
  induction xs generalizing a with
  | nil => exact h
  | cons x xs ih =>
    have hrest := ih h.2.2
    have := h.1
    have := h.2.1
    simp only [covered, List.map_cons, List.sum_cons] at hrest ⊢
    omega

@[simp] theorem covered_append (as bs : List α) :
    covered lo hi (as ++ bs) = covered lo hi as + covered lo hi bs := by
  simp [covered]

@[simp] theorem covered_cons (x : α) (xs : List α) :
    covered lo hi (x :: xs) = hi x - lo x + covered lo hi xs := by
  simp [covered]

/-- No gap is larger than what the items leave free. -/
theorem Spaced.gap_le (h : Spaced lo hi a b (as ++ bs)) :
    startOf lo b bs - endOf hi a as + covered lo hi (as ++ bs) ≤ b - a := by
  obtain ⟨has, hbs⟩ := spaced_append.mp h
  have hfront := has.covered_le
  have hstart := hbs.start_le
  have hrest := (spaced_from hbs (Nat.le_refl _)).covered_le
  rw [covered_append]
  omega

/-- A range no item reaches into lies in a gap. -/
theorem Spaced.split (h : Spaced lo hi a b xs) (ha : a ≤ p) (hb : q ≤ b)
    (hx : ∀ x ∈ xs, hi x ≤ p ∨ q ≤ lo x) :
    ∃ as bs, xs = as ++ bs ∧ endOf hi a as ≤ p ∧ q ≤ startOf lo b bs := by
  induction xs generalizing a with
  | nil => exact ⟨[], [], rfl, ha, hb⟩
  | cons x xs ih =>
    rcases hx x List.mem_cons_self with hbefore | hbehind
    · obtain ⟨as, bs, rfl, hend, hstart⟩ :=
        ih h.2.2 hbefore (fun y hy => hx y (List.mem_cons_of_mem _ hy))
      exact ⟨x :: as, bs, rfl, by rwa [endOf_cons], hstart⟩
    · exact ⟨[], x :: xs, rfl, ha, hbehind⟩

end Levos.Library
