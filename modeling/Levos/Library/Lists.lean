import Mathlib

namespace Levos.Library

variable {α : Type u} {β : Type v} {l : List α} {i : Nat} {x y : α}

theorem drop_eq_cons (h : l[i]? = some y) : l.drop i = y :: l.drop (i + 1) := by
  obtain ⟨hlt, rfl⟩ := List.getElem?_eq_some_iff.mp h
  exact List.drop_eq_getElem_cons hlt

/-- An element of a list with one more is an old one or the new one. -/
theorem getElem?_concat_cases (h : (l ++ [x])[i]? = some y) :
    l[i]? = some y ∨ (i = l.length ∧ y = x) := by
  rw [List.getElem?_append] at h
  split at h
  · exact .inl h
  · obtain ⟨hi, rfl⟩ := List.getElem?_eq_some_iff.mp h
    simp only [List.length_singleton] at hi
    exact .inr ⟨by omega, by simp⟩

/-- What stands behind elements without a property stands before the first that has it. -/
theorem mem_before_of_split {P : α → Prop} {as bs before after : List α}
    (he : before ++ y :: after = as ++ x :: bs) (has : ∀ a ∈ as, ¬ P a) (hx : ¬ P x) (hy : P y) :
    x ∈ before := by
  rcases List.append_eq_append_iff.mp he with ⟨c, rfl, hc⟩ | ⟨c, rfl, hc⟩
  · cases c with
    | nil =>
      cases hc
      exact absurd hy hx
    | cons a c =>
      cases hc
      exact absurd hy (has y (by simp))
  · cases c with
    | nil =>
      cases hc
      exact absurd hy hx
    | cons a c =>
      cases hc
      simp

/-- Replacing one element changes a count by what the two elements count for. -/
theorem countP_set_add (p : α → Bool) (h : l[i]? = some y) (x : α) :
    (l.set i x).countP p + (if p y then 1 else 0) = l.countP p + (if p x then 1 else 0) := by
  induction l generalizing i with
  | nil => cases h
  | cons a l ih =>
    cases i with
    | zero =>
      cases h
      simp only [List.set_cons_zero, List.countP_cons]
      omega
    | succ i =>
      have hi := ih h
      simp only [List.set_cons_succ, List.countP_cons]
      omega

/-- An element replaced by one with the same image leaves the images alone. -/
theorem filterMap_set_eq {f : α → Option β} (h : l[i]? = some y) (hf : f x = f y) :
    (l.set i x).filterMap f = l.filterMap f := by
  induction l generalizing i with
  | nil => cases h
  | cons a l ih =>
    cases i with
    | zero =>
      cases h
      simp only [List.set_cons_zero, List.filterMap_cons, hf]
    | succ i => simp only [List.set_cons_succ, List.filterMap_cons, ih h]

theorem filterMap_drop_set {f : α → Option β} (h : l[i]? = some y) (hf : f x = f y) (k : Nat) :
    ((l.set i x).drop k).filterMap f = (l.drop k).filterMap f := by
  rw [List.drop_set]
  split
  · rfl
  · rename_i hk
    refine filterMap_set_eq (y := y) ?_ hf
    rw [List.getElem?_drop, Nat.add_sub_cancel' (Nat.not_lt.mp hk)]
    exact h

/-- An element replaced by one without an image takes its own image away. -/
theorem count_filterMap_set [BEq β] [LawfulBEq β] {f : α → Option β} (h : l[i]? = some y)
    (hy : f y = some c) (hx : f x = none) (e : β) :
    (l.filterMap f).count e = ((l.set i x).filterMap f).count e + (if c == e then 1 else 0) := by
  induction l generalizing i with
  | nil => cases h
  | cons a l ih =>
    cases i with
    | zero =>
      cases h
      simp only [List.set_cons_zero, List.filterMap_cons, hx, hy, List.count_cons]
    | succ i =>
      simp only [List.set_cons_succ, List.filterMap_cons]
      cases f a with
      | none => exact ih h
      | some b =>
        simp only [List.count_cons]
        rw [ih h]
        omega

/-- What is found before the first element without `p` is found first among all
elements with `p`, also when more follow. -/
theorem find_filter_append {p q : α → Bool} (m : List α) (h : (l.takeWhile p).find? q = some x) :
    ((l ++ m).filter p).find? q = some x := by
  induction l with
  | nil => cases h
  | cons a l ih =>
    by_cases hp : p a
    · rw [List.takeWhile_cons, if_pos hp] at h
      rw [List.cons_append, List.filter_cons, if_pos hp]
      by_cases hq : q a
      · rw [List.find?_cons_of_pos hq] at h ⊢
        exact h
      · rw [List.find?_cons_of_neg hq] at h ⊢
        exact ih h
    · rw [List.takeWhile_cons, if_neg hp] at h
      cases h

/-- The numbers from `i` on before the first one without `p`. -/
theorem takeWhile_range'_eq {p : Nat → Bool} (h : ∀ j, i ≤ j → j < i + m → p j)
    (hend : m < n → p (i + m) = false) (hm : m ≤ n) :
    (List.range' i n).takeWhile p = List.range' i m := by
  induction m generalizing i n with
  | zero =>
    cases n with
    | zero => rfl
    | succ n => simpa [List.range'_succ] using hend (Nat.succ_pos n)
  | succ m ih =>
    obtain ⟨n, rfl⟩ : ∃ k, n = k + 1 := ⟨n - 1, by omega⟩
    have hfirst := h i (Nat.le_refl i) (by omega)
    have hlast : m < n → p (i + 1 + m) = false := by
      intro hlt
      rw [Nat.add_right_comm, Nat.add_assoc]
      exact hend (by omega)
    rw [List.range'_succ, List.range'_succ, List.takeWhile_cons_of_pos hfirst,
      ih (fun j hj hlt => h j (by omega) (by omega)) hlast (by omega)]

theorem mem_takeWhile_range' {p : Nat → Bool} :
    j ∈ (List.range' i n).takeWhile p ↔ i ≤ j ∧ j < i + n ∧ ∀ k, i ≤ k → k ≤ j → p k := by
  induction n generalizing i with
  | zero =>
    simp only [List.range'_zero, List.takeWhile_nil, List.not_mem_nil, false_iff]
    omega
  | succ n ih =>
    rw [List.range'_succ]
    by_cases hfirst : p i
    · rw [List.takeWhile_cons_of_pos hfirst, List.mem_cons, ih]
      constructor
      · rintro (rfl | ⟨hij, hjn, hall⟩)
        · refine ⟨Nat.le_refl _, by omega, ?_⟩
          intro k hjk hkj
          rwa [Nat.le_antisymm hkj hjk]
        · refine ⟨by omega, by omega, ?_⟩
          intro k hik hkj
          rcases Nat.eq_or_lt_of_le hik with rfl | hlt
          · exact hfirst
          · exact hall k hlt hkj
      · rintro ⟨hij, hjn, hall⟩
        rcases Nat.eq_or_lt_of_le hij with rfl | hlt
        · exact .inl rfl
        · exact .inr ⟨hlt, by omega, fun k hk => hall k (by omega)⟩
    · rw [List.takeWhile_cons_of_neg hfirst]
      simp only [List.not_mem_nil, false_iff]
      rintro ⟨hij, -, hall⟩
      exact hfirst (hall i (Nat.le_refl i) hij)

/-- A row of `p` numbers, of which there may be fewer, and what is behind it. -/
theorem range'_min_append (i p n : Nat) :
    List.range' i (min p n) ++ List.range' (i + p) (n - p) = List.range' i n := by
  rcases Nat.le_total n p with hle | hle
  · rw [Nat.min_eq_right hle, Nat.sub_eq_zero_of_le hle, List.range'_zero, List.append_nil]
  · rw [Nat.min_eq_left hle, List.range'_append_1, Nat.add_sub_cancel' hle]

end Levos.Library
