import Mathlib

namespace Levos.Library

/-- A table with a fixed number of places, some of them empty. -/
structure Slots (n : Nat) (α : Type u) where
  entries : List (Option α)
  size : entries.length = n

namespace Slots

variable {α : Type u} {n : Nat}

def empty (n : Nat) (α : Type u) : Slots n α := ⟨List.replicate n none, List.length_replicate⟩

def get (s : Slots n α) (i : Nat) : Option α := s.entries[i]?.join

def set (s : Slots n α) (i : Nat) (a : Option α) : Slots n α :=
  ⟨s.entries.set i a, by rw [List.length_set, s.size]⟩

/-- The first place that holds `a` becomes empty. -/
def vacate [BEq α] (s : Slots n α) (a : α) : Slots n α :=
  ⟨s.entries.replace (some a) none, by rw [List.length_replace, s.size]⟩

/-- The places that hold something else than `keep` allows become empty. -/
def retain (s : Slots n α) (keep : α → Bool) : Slots n α :=
  ⟨s.entries.map (Option.filter keep), by rw [List.length_map, s.size]⟩

/-- The occupied places, in the order of the table. -/
def members (s : Slots n α) : List α := s.entries.filterMap id

/-- The place behind `last`; behind the end it is the first. -/
def after (n last : Nat) : Nat := if last + 1 ≥ n then 0 else last + 1

/-- The search for the next occupied place behind `last`. -/
def scan (s : Slots n α) : Nat → Nat → Option (Nat × α)
  | 0, _ => none
  | fuel + 1, last => match s.get (after n last) with
    | some a => some (after n last, a)
    | none => scan s fuel (after n last)

/-- The results of `k` searches in a row, each from where the one before ended. -/
def picks (s : Slots n α) : Nat → Nat → List (Nat × α)
  | 0, _ => []
  | k + 1, last => match s.scan n last with
    | none => []
    | some (i, a) => (i, a) :: picks s k i

/-- The places in the order in which a search from `last` meets them. -/
def ring (s : Slots n α) (last : Nat) : List (Option α × Nat) :=
  s.entries.zipIdx.rotate (after n last)

def mark (x : Option α × Nat) : Option (Nat × α) := x.1.map (fun a => (x.2, a))

/-- The occupied places in that order. -/
def order (s : Slots n α) (last : Nat) : List (Nat × α) := (s.ring last).filterMap mark

/-- Place `i` holds `a`, and every place between `last` and it is empty when the
table is walked from `last` onward and around its end. -/
def Nearest (s : Slots n α) (last i : Nat) (a : α) : Prop :=
  s.get i = some a ∧ ∃ d, i = (after n last + d) % n ∧
    ∀ e < d, s.get ((after n last + e) % n) = none

@[simp] theorem mark_some (a : α) (i : Nat) : mark (some a, i) = some (i, a) := rfl

@[simp] theorem mark_none (i : Nat) : mark ((none : Option α), i) = none := rfl

theorem mem_members {s : Slots n α} : a ∈ s.members ↔ ∃ i, s.get i = some a := by
  rw [members, List.mem_filterMap]
  simp [get, List.mem_iff_getElem?, Option.join_eq_some_iff]

@[simp] theorem members_empty : (empty n α).members = [] := by
  simp [members, empty]

theorem mem_members_set {s : Slots n α} (hi : i < n) :
    b ∈ (s.set i (some a)).members → b = a ∨ b ∈ s.members := by
  rintro hb
  obtain ⟨j, hj⟩ := mem_members.mp hb
  by_cases hij : j = i
  · subst hij
    simp only [get, set, List.getElem?_set_self (s.size.symm ▸ hi), Option.join_some,
      Option.some.injEq] at hj
    exact .inl hj.symm
  · simp only [get, set, List.getElem?_set_ne (Ne.symm hij)] at hj
    exact .inr (mem_members.mpr ⟨j, hj⟩)

theorem mem_members_set_self (s : Slots n α) (hi : i < n) : a ∈ (s.set i (some a)).members := by
  refine mem_members.mpr ⟨i, ?_⟩
  simp [get, set, List.getElem?_set_self (s.size.symm ▸ hi)]

/-- An empty place that is filled adds one member. -/
theorem members_set_perm {s : Slots n α} (h : s.entries[i]? = some none) (a : α) :
    ((s.set i (some a)).members).Perm (a :: s.members) := by
  obtain ⟨l, hl⟩ := s
  simp only [members, set] at h ⊢
  clear hl
  induction l generalizing i with
  | nil => cases h
  | cons x l ih =>
    cases i with
    | zero =>
      cases h
      simp
    | succ i =>
      cases x with
      | none => simpa using ih h
      | some b => simpa using ((ih h).cons b).trans (List.Perm.swap a b _)

theorem members_vacate [BEq α] [LawfulBEq α] (s : Slots n α) (a : α) :
    (s.vacate a).members = s.members.erase a := by
  obtain ⟨l, hl⟩ := s
  simp only [members, vacate]
  clear hl
  induction l with
  | nil => rfl
  | cons x l ih =>
    cases x with
    | none => simpa [List.replace_cons] using ih
    | some b =>
      by_cases hb : b = a
      · subst hb
        simp
      · have hab : (a == b) = false := by simpa using Ne.symm hb
        have hba : (b == a) = false := by simpa using hb
        simpa [List.replace_cons, List.erase_cons, hab, hba] using ih

theorem members_retain (s : Slots n α) (keep : α → Bool) :
    (s.retain keep).members = s.members.filter keep := by
  simp only [members, retain, List.filterMap_map, List.filter_filterMap]
  rfl

theorem after_lt (hn : 0 < n) (last : Nat) : after n last < n := by
  unfold after
  split <;> omega

theorem after_eq_mod (h : i < n) : after n i = (i + 1) % n := by
  unfold after
  split
  · rw [show i + 1 = n by omega, Nat.mod_self]
  · rw [Nat.mod_eq_of_lt (by omega)]

theorem ring_length (s : Slots n α) (last : Nat) : (s.ring last).length = n := by
  simp [ring, s.size]

/-- The ring begins with the place behind `last`, and ends with it when the
search has moved there. -/
theorem ring_step (s : Slots n α) (hn : 0 < n) (last : Nat) :
    ∃ rest, s.ring last = (s.get (after n last), after n last) :: rest ∧
      s.ring (after n last) = rest ++ [(s.get (after n last), after n last)] := by
  have hi := after_lt hn last
  have hlen : s.entries.zipIdx.length = n := by rw [List.length_zipIdx, s.size]
  have hhead : (s.ring last).head? = some (s.get (after n last), after n last) := by
    rw [ring, List.head?_rotate (by omega), List.getElem?_zipIdx, get,
      List.getElem?_eq_getElem (by rw [s.size]; exact hi)]
    simp
  obtain ⟨rest, hrest⟩ := List.head?_eq_some_iff.mp hhead
  refine ⟨rest, hrest, ?_⟩
  have hturn : s.ring (after n last) = (s.ring last).rotate 1 := by
    have hmod := List.rotate_mod s.entries.zipIdx (after n last + 1)
    rw [hlen] at hmod
    rw [ring, ring, List.rotate_rotate, after_eq_mod hi, hmod]
  rw [hturn, hrest, List.rotate_cons_succ, List.rotate_zero]

theorem scan_eq_head (s : Slots n α) (fuel last : Nat) (hf : fuel ≤ n) :
    s.scan fuel last = (((s.ring last).take fuel).filterMap mark).head? := by
  induction fuel generalizing last with
  | zero => rfl
  | succ fuel ih =>
    obtain ⟨rest, hl, hi⟩ := s.ring_step (by omega) last
    have hlen : fuel ≤ rest.length := by
      have := s.ring_length last
      rw [hl, List.length_cons] at this
      omega
    rw [hl, List.take_succ_cons]
    cases hg : s.get (after n last) with
    | some a => simp [scan, hg]
    | none =>
      rw [hg] at hi
      simp only [scan, hg, ih (after n last) (by omega), hi, List.take_append_of_le_length hlen]
      rfl

/-- A search of one whole round finds the first occupied place, if there is one. -/
theorem scan_order (s : Slots n α) (last : Nat) : s.scan n last = (s.order last).head? := by
  rw [scan_eq_head s n last le_rfl, List.take_of_length_le (s.ring_length last).le]
  rfl

/-- From the place found, the order is the same with that place moved to the end. -/
theorem order_scan {s : Slots n α} (hf : fuel ≤ n) (h : s.scan fuel last = some (i, a)) :
    s.order i = (s.order last).rotate 1 := by
  induction fuel generalizing last with
  | zero => cases h
  | succ fuel ih =>
    obtain ⟨rest, hl, hi⟩ := s.ring_step (by omega) last
    cases hg : s.get (after n last) with
    | some b =>
      simp only [scan, hg, Option.some.injEq, Prod.mk.injEq] at h
      obtain ⟨rfl, rfl⟩ := h
      simp [order, hl, hi, hg]
    | none =>
      simp only [scan, hg] at h
      have hsame : s.order (after n last) = s.order last := by
        simp only [order, hl, hi, hg, List.filterMap_append, List.filterMap_cons, mark_none,
          List.filterMap_nil, List.append_nil]
      rw [ih (by omega) h, hsame]

/-- What a search finds is the nearest occupied place in cyclic order. -/
theorem scan_nearest {s : Slots n α} (hn : 0 < n) (h : s.scan fuel last = some (i, a)) :
    s.Nearest last i a := by
  induction fuel generalizing last with
  | zero => cases h
  | succ fuel ih =>
    have hlt := after_lt hn last
    cases hg : s.get (after n last) with
    | some b =>
      simp only [scan, hg, Option.some.injEq, Prod.mk.injEq] at h
      obtain ⟨rfl, rfl⟩ := h
      exact ⟨hg, 0, (Nat.mod_eq_of_lt hlt).symm, fun e he => absurd he (Nat.not_lt_zero e)⟩
    | none =>
      simp only [scan, hg] at h
      obtain ⟨hget, d, hd, hempty⟩ := ih h
      have hshift (e : Nat) :
          (after n (after n last) + e) % n = (after n last + (e + 1)) % n := by
        rw [after_eq_mod hlt, Nat.mod_add_mod, Nat.add_assoc, Nat.add_comm 1 e]
      refine ⟨hget, d + 1, hd.trans (hshift d), ?_⟩
      intro e he
      cases e with
      | zero => rwa [Nat.add_zero, Nat.mod_eq_of_lt hlt]
      | succ e => exact hshift e ▸ hempty e (by omega)

theorem order_perm (s : Slots n α) (last : Nat) :
    ((s.order last).map Prod.snd).Perm s.members := by
  have hring := (List.rotate_perm s.entries.zipIdx (after n last)).filterMap mark
  refine (hring.map Prod.snd).trans (List.Perm.of_eq ?_)
  have hsnd : (fun x : Option α × Nat => (mark x).map Prod.snd) = id ∘ Prod.fst := by
    funext x
    obtain ⟨o, i⟩ := x
    cases o <;> rfl
  rw [List.map_filterMap, hsnd, ← List.filterMap_map, List.zipIdx_map_fst]
  rfl

theorem order_length (s : Slots n α) (last : Nat) :
    (s.order last).length = s.members.length := by
  simpa using (s.order_perm last).length_eq

theorem scan_exists {s : Slots n α} (h : s.members ≠ []) (last : Nat) :
    ∃ i a, s.scan n last = some (i, a) := by
  rw [scan_order]
  cases ho : s.order last with
  | nil =>
    have := s.order_length last
    rw [ho] at this
    exact absurd (List.length_eq_zero_iff.mp this.symm) h
  | cons x rest => exact ⟨x.1, x.2, rfl⟩

theorem picks_cons {s : Slots n α} (h : s.scan n last = some (i, a)) (k : Nat) :
    s.picks (k + 1) last = (i, a) :: s.picks k i := by
  simp only [picks, h]

/-- As many searches as there are members meet each of them, in cyclic order. -/
theorem picks_eq_take (s : Slots n α) (k last : Nat) (hk : k ≤ s.members.length) :
    s.picks k last = (s.order last).take k := by
  induction k generalizing last with
  | zero => rfl
  | succ k ih =>
    have hne : s.members ≠ [] := by
      rintro h
      simp [h] at hk
    obtain ⟨i, a, hscan⟩ := scan_exists hne last
    have hnext := order_scan le_rfl hscan
    have hhead := s.scan_order last
    rw [hscan] at hhead
    obtain ⟨rest, hrest⟩ := List.head?_eq_some_iff.mp hhead.symm
    have hlen : k ≤ rest.length := by
      have := s.order_length last
      rw [hrest, List.length_cons] at this
      omega
    rw [hrest, List.rotate_cons_succ, List.rotate_zero] at hnext
    rw [picks_cons hscan, ih i (by omega), hnext, hrest, List.take_succ_cons,
      List.take_append_of_le_length hlen]

theorem picks_all_perm (s : Slots n α) (last : Nat) :
    ((s.picks s.members.length last).map Prod.snd).Perm s.members := by
  rw [picks_eq_take s _ last le_rfl, List.take_of_length_le (s.order_length last).le]
  exact s.order_perm last

theorem picks_take (s : Slots n α) (h : j ≤ k) (last : Nat) :
    (s.picks k last).take j = s.picks j last := by
  induction j generalizing k last with
  | zero => rfl
  | succ j ih =>
    obtain ⟨k, rfl⟩ : ∃ l, k = l + 1 := ⟨k - 1, by omega⟩
    cases hs : s.scan n last with
    | none => simp [picks, hs]
    | some x => simp [picks, hs, ih (by omega : j ≤ k)]

theorem picks_drop (s : Slots n α) (k j last : Nat) :
    ∃ last', (s.picks (j + k) last).drop j = s.picks k last' := by
  induction j generalizing last with
  | zero => exact ⟨last, by simp⟩
  | succ j ih =>
    cases hs : s.scan n last with
    | none =>
      refine ⟨last, ?_⟩
      cases k <;> simp [picks, hs]
    | some x =>
      obtain ⟨last', hl⟩ := ih x.1
      exact ⟨last', by simpa [picks, hs, Nat.succ_add] using hl⟩

/-- The round robin rule: among any searches in a row, as many as there are
members meet every member once. -/
theorem picks_window (s : Slots n α) (last : Nat) (h : j + s.members.length ≤ k) :
    ((((s.picks k last).drop j).take s.members.length).map Prod.snd).Perm s.members := by
  obtain ⟨l, rfl⟩ := Nat.exists_eq_add_of_le h
  rw [Nat.add_assoc]
  obtain ⟨last', hl⟩ := s.picks_drop (s.members.length + l) j last
  rw [hl, s.picks_take (Nat.le_add_right _ _)]
  exact s.picks_all_perm last'

end Slots

end Levos.Library
