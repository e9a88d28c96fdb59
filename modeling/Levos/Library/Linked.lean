import Mathlib

namespace Levos.Library

variable {α : Type u} {next prev next' prev' : α → α} {null x y : α} {xs as bs : List α}

/-- Nodes linked both ways in the order of a list, with `null` at both ends. -/
def Linked (next prev : α → α) (null : α) (xs : List α) : Prop :=
  ∀ as x bs, xs = as ++ x :: bs →
    next x = bs.head?.getD null ∧ prev x = as.getLast?.getD null

theorem Linked.nil (next prev : α → α) (null : α) : Linked next prev null [] := by
  intro as x bs h
  simp at h

/-- Only the links of the nodes themselves matter. -/
theorem Linked.congr (h : Linked next prev null xs) (hn : ∀ x ∈ xs, next' x = next x)
    (hp : ∀ x ∈ xs, prev' x = prev x) : Linked next' prev' null xs := by
  intro as x bs hxs
  have hx : x ∈ xs := by simp [hxs]
  rw [hn x hx, hp x hx]
  exact h as x bs hxs

/-- A node of two lists in a row is a node of the first or of the second. -/
theorem split_append {zs ws : List α} (h : as ++ bs = zs ++ y :: ws) :
    (∃ cs, as = zs ++ y :: cs ∧ ws = cs ++ bs) ∨ ∃ cs, bs = cs ++ y :: ws ∧ zs = as ++ cs := by
  rcases List.append_eq_append_iff.mp h with ⟨cs, rfl, hcs⟩ | ⟨cs, rfl, hcs⟩
  · exact .inr ⟨cs, hcs, rfl⟩
  · cases cs with
    | nil => exact .inr ⟨[], hcs.symm, by simp⟩
    | cons c cs =>
      cases hcs
      exact .inl ⟨cs, rfl, rfl⟩

theorem getLast?_ne_of_nodup (hnd : (as ++ y :: bs).Nodup) (hbs : bs ≠ []) :
    (as ++ y :: bs).getLast? ≠ some y := by
  intro hl
  rw [List.append_cons, List.getLast?_append_of_ne_nil _ hbs] at hl
  have hmem := List.mem_of_mem_getLast? hl
  exact (List.nodup_cons.mp (List.nodup_append.mp hnd).2.1).1 hmem

theorem head?_ne_of_nodup (hnd : (as ++ y :: bs).Nodup) (has : as ≠ []) :
    (as ++ y :: bs).head? ≠ some y := by
  intro hh
  rw [List.head?_append_of_ne_nil _ has] at hh
  have hmem := List.mem_of_mem_head? hh
  exact (List.nodup_append.mp hnd).2.2 y hmem y (by simp) rfl

/-- The links around a place between a front and a rest have been changed: those of the
last node in front of it and of the first one behind it, to `a` and to `b`. -/
structure Relinked (next prev next' prev' : α → α) (as bs : List α) (a b : α) : Prop where
  last : ∀ y, as.getLast? = some y → next' y = a
  first : ∀ y, bs.head? = some y → prev' y = b
  next : ∀ y ∈ as ++ bs, as.getLast? ≠ some y → next' y = next y
  prev : ∀ y ∈ as ++ bs, bs.head? ≠ some y → prev' y = prev y

section Relinked

variable {m n : List α}
  (h : Linked next prev null (as ++ (m ++ bs))) (hnd : (as ++ bs).Nodup)
  (hr : Relinked next prev next' prev' as bs ((n ++ bs).head?.getD null)
    ((as ++ n).getLast?.getD null))
include h hnd hr

/-- What stood between the front and the rest is replaced: the front is linked to what
stands there now. -/
theorem Relinked.front {es : List α} (has : as = cs ++ y :: es) :
    next' y = (es ++ (n ++ bs)).head?.getD null ∧ prev' y = cs.getLast?.getD null := by
  have hy : y ∈ as ++ bs := by simp [has]
  obtain ⟨hnext, hprev⟩ := h cs y (es ++ (m ++ bs)) (by simp [has])
  have hfirst : bs.head? ≠ some y := by
    intro hb
    exact (List.nodup_append.mp hnd).2.2 y (by simp [has]) y (List.mem_of_mem_head? hb) rfl
  refine ⟨?_, (hr.prev y hy hfirst).trans hprev⟩
  by_cases hes : es = []
  · subst hes
    exact hr.last y (by simp [has])
  · have hlast : as.getLast? ≠ some y := by
      have hndas := (List.nodup_append.mp hnd).1
      rw [has] at hndas ⊢
      exact getLast?_ne_of_nodup hndas hes
    rw [hr.next y hy hlast, hnext, List.head?_append_of_ne_nil _ hes,
      List.head?_append_of_ne_nil _ hes]

/-- And so is the rest. -/
theorem Relinked.rest {es : List α} (hbs : bs = es ++ y :: ds) :
    next' y = ds.head?.getD null ∧ prev' y = (as ++ n ++ es).getLast?.getD null := by
  have hy : y ∈ as ++ bs := by simp [hbs]
  obtain ⟨hnext, hprev⟩ := h (as ++ m ++ es) y ds (by simp [hbs])
  have hlast : as.getLast? ≠ some y := by
    intro hl
    exact (List.nodup_append.mp hnd).2.2 y (List.mem_of_mem_getLast? hl) y (by simp [hbs]) rfl
  refine ⟨(hr.next y hy hlast).trans hnext, ?_⟩
  by_cases hes : es = []
  · subst hes
    rw [hr.first y (by simp [hbs]), List.append_nil]
  · have hfirst : bs.head? ≠ some y := by
      have hndbs := (List.nodup_append.mp hnd).2.1
      rw [hbs] at hndbs ⊢
      exact head?_ne_of_nodup hndbs hes
    rw [hr.prev y hy hfirst, hprev, List.getLast?_append_of_ne_nil _ hes,
      List.getLast?_append_of_ne_nil _ hes]

end Relinked

/-- The node between the front and the rest is taken out. -/
theorem Linked.remove (h : Linked next prev null (as ++ x :: bs)) (hnd : (as ++ bs).Nodup)
    (hr : Relinked next prev next' prev' as bs (bs.head?.getD null) (as.getLast?.getD null)) :
    Linked next' prev' null (as ++ bs) := by
  have hr' : Relinked next prev next' prev' as bs (([] ++ bs).head?.getD null)
      ((as ++ []).getLast?.getD null) := by rwa [List.append_nil]
  intro cs y ds hsplit
  rcases split_append hsplit with ⟨es, hes, rfl⟩ | ⟨es, hes, rfl⟩
  · exact Relinked.front (m := [x]) h hnd hr' hes
  · have hrest := Relinked.rest (m := [x]) h hnd hr' hes
    rwa [List.append_nil] at hrest

/-- A node is put in between the front and the rest. -/
theorem Linked.insert (h : Linked next prev null (as ++ bs)) (hnd : (as ++ bs).Nodup)
    (hr : Relinked next prev next' prev' as bs x x) (hn : next' x = bs.head?.getD null)
    (hp : prev' x = as.getLast?.getD null) : Linked next' prev' null (as ++ x :: bs) := by
  have hr' : Relinked next prev next' prev' as bs (([x] ++ bs).head?.getD null)
      ((as ++ [x]).getLast?.getD null) := by simpa using hr
  intro cs y ds hsplit
  rcases split_append hsplit with ⟨es, hes, rfl⟩ | ⟨es, hes, rfl⟩
  · exact Relinked.front (m := []) h hnd hr' hes
  · cases es with
    | nil =>
      cases hes
      rw [List.append_nil]
      exact ⟨hn, hp⟩
    | cons e es =>
      obtain ⟨rfl, hbs⟩ := List.cons.inj hes
      have hrest := Relinked.rest (m := []) h hnd hr' hbs
      rwa [List.append_assoc] at hrest

end Levos.Library
