import Levos.Paging

namespace Levos.Proofs.Paging

/-- The addresses a process is given for its image. -/
def InWindow (v : Nat) : Prop := 0x400000 ≤ v ∧ v < 0x800000

theorem page_entry_frame (x : Nat) :
    makePagePte x kernelPage / 0x1000 = x / 0x1000 ∧ makePagePte x kernelPage % 2 = 1 := by
  have hdiv : (x ||| 3) / 2 ^ 12 = x / 2 ^ 12 := by
    rw [← Nat.shiftRight_eq_div_pow, Nat.shiftRight_or_distrib, ← Nat.shiftRight_eq_div_pow]
    simp
  have hodd : (x ||| 3) % 2 = 1 := by
    have := Nat.or_mod_two_eq_one (a := x) (b := 3)
    simp [this]
  exact ⟨hdiv, hodd⟩

/-- An entry that `initialize_pt` has stored. -/
theorem table_lookup {dir : PageDirectory} (table : PageTable) (start : Nat)
    (hpd : dir (v >>> 22) = some table)
    (hentry : table ((v >>> 12) % 1024) = initializePt start ((v >>> 12) % 1024)) :
    translate dir v = some ((start + v % 0x400000 / 0x1000 * 0x1000) % 2 ^ 32 / 0x1000 * 0x1000 +
      v % 0x1000) := by
  have hindex : (v >>> 12) % 1024 = v % 0x400000 / 0x1000 := by
    rw [Nat.shiftRight_eq_div_pow]
    omega
  obtain ⟨hdiv, hodd⟩ := page_entry_frame ((start + v % 0x400000 / 0x1000 * 0x1000) % 2 ^ 32)
  rw [hindex] at hentry
  unfold translate
  rw [hpd, hindex]
  simp only [hentry, initializePt, hodd, hdiv, ↓reduceIte]

/-- A table that `initialize_pt` has filled maps its pages in order. -/
theorem translate_table {dir : PageDirectory} (table : PageTable) (start : Nat)
    (hpd : dir (v >>> 22) = some table)
    (hentry : table ((v >>> 12) % 1024) = initializePt start ((v >>> 12) % 1024))
    (hstart : start % 0x1000 = 0) : translate dir v = some ((start + v % 0x400000) % 2 ^ 32) := by
  rw [table_lookup table start hpd hentry, Option.some.injEq]
  omega

theorem window_lookup (rest : PageDirectory) (palloc v : Nat) (hv : InWindow v) :
    translate (createNewPageDirectory rest 0x400000 palloc) v =
      some ((palloc + (v - 0x400000) / 0x1000 * 0x1000) % 2 ^ 32 / 0x1000 * 0x1000 +
        v % 0x1000) := by
  obtain ⟨h1, h2⟩ := hv
  have hdir : v >>> 22 = 0x400000 >>> 22 := by
    rw [Nat.shiftRight_eq_div_pow]
    omega
  have htable : createNewPageDirectory rest 0x400000 palloc (v >>> 22) =
      some (initializePt palloc) := by
    rw [createNewPageDirectory, if_pos hdir]
  rw [table_lookup (initializePt palloc) palloc htable rfl,
    show v % 0x400000 = v - 0x400000 by omega]

/-- The table of the window maps its pages in order, from the first frame on. -/
theorem window_translate (rest : PageDirectory) (palloc v : Nat) (ha : palloc % 0x1000 = 0)
    (hv : InWindow v) : translate (createNewPageDirectory rest 0x400000 palloc) v =
      some ((palloc + (v - 0x400000) / 0x1000 * 0x1000) % 2 ^ 32 + v % 0x1000) := by
  rw [window_lookup rest palloc v hv, Option.some.injEq]
  omega

theorem window_frame {rest : PageDirectory} {palloc v f : Nat} (ha : palloc % 0x1000 = 0)
    (hv : InWindow v) (ht : translate (createNewPageDirectory rest 0x400000 palloc) v = some f) :
    f / 0x1000 * 0x1000 = (palloc + (v - 0x400000) / 0x1000 * 0x1000) % 2 ^ 32 := by
  rw [window_translate rest palloc v ha hv, Option.some.injEq] at ht
  subst f
  omega

section Accesses

variable {pd : PageDirectory} {v n : Nat}

/-- Each of the bytes from `v` on has an address, and it is one with `P`. -/
def Lands (pd : PageDirectory) (v n : Nat) (P : Nat → Prop) : Prop :=
  ∀ k < n, ∃ a, translate pd ((v + k) % 2 ^ 32) = some a ∧ P a

theorem Lands.mono {P Q : Nat → Prop} (h : Lands pd v n P) (hpq : ∀ a, P a → Q a) :
    Lands pd v n Q := by
  intro k hk
  obtain ⟨a, ha, hp⟩ := h k hk
  exact ⟨a, ha, hpq a hp⟩

theorem lands_succ {P : Nat → Prop} : Lands pd v (n + 1) P ↔
    Lands pd v n P ∧ ∃ a, translate pd ((v + n) % 2 ^ 32) = some a ∧ P a := by
  constructor
  · intro h
    exact ⟨fun k hk => h k (by omega), h n (Nat.lt_succ_self n)⟩
  · rintro ⟨h, hn⟩ k hk
    rcases Nat.lt_succ_iff_lt_or_eq.mp hk with hk | rfl
    · exact h k hk
    · exact hn

theorem lands_zero {P : Nat → Prop} : Lands pd v 0 P := fun k hk => absurd hk (Nat.not_lt_zero k)

theorem access_append (pd : PageDirectory) (ts us : List Touch) :
    access pd (ts ++ us) = (access pd ts).andThen (access pd us) := by
  induction ts with
  | nil => rfl
  | cons t ts ih =>
    rw [List.cons_append]
    cases t with
    | load u =>
      simp only [access]
      split
      · exact ih
      · rfl
    | store u =>
      simp only [access]
      split
      · rfl
      · split
        · rfl
        · exact ih

theorem and_then_done {a b : Access} : a.andThen b = .done ↔ a = .done ∧ b = .done := by
  cases a <;> simp [Access.andThen]

theorem and_then_fault {a b : Access} :
    a.andThen b = .fault ↔ a = .fault ∨ (a = .done ∧ b = .fault) := by
  cases a <;> simp [Access.andThen]

theorem load_done : access pd [.load v] = .done ↔ ∃ a, translate pd (v % 2 ^ 32) = some a := by
  simp only [access, ite_eq_left_iff, reduceCtorEq, imp_false, not_not]
  exact Option.isSome_iff_exists

theorem store_done : access pd [.store v] = .done ↔
    ∃ a, translate pd (v % 2 ^ 32) = some a ∧ kernelOwned a = false := by
  simp only [access]
  cases translate pd (v % 2 ^ 32) with
  | none => simp
  | some a => cases h : kernelOwned a <;> simp [h]

theorem store_fault : access pd [.store v] = .fault ↔ translate pd (v % 2 ^ 32) = none := by
  simp only [access]
  cases translate pd (v % 2 ^ 32) with
  | none => simp
  | some a => cases h : kernelOwned a <;> simp [h]

theorem loads_done_iff : access pd (Touch.loads v n) = .done ↔ Lands pd v n (fun _ => True) := by
  induction n with
  | zero => exact iff_of_true rfl lands_zero
  | succ n ih =>
    have hsplit : Touch.loads v (n + 1) = Touch.loads v n ++ [.load (v + n)] := by
      simp [Touch.loads, List.range_succ]
    rw [hsplit, access_append, and_then_done, ih, load_done, lands_succ]
    simp

theorem stores_succ (v n : Nat) :
    Touch.stores v (n + 1) = Touch.stores v n ++ [.store (v + n)] := by
  simp [Touch.stores, List.range_succ]

theorem stores_done_iff : access pd (Touch.stores v n) = .done ↔
    Lands pd v n (fun a => kernelOwned a = false) := by
  induction n with
  | zero => exact iff_of_true rfl lands_zero
  | succ n ih => rw [stores_succ, access_append, and_then_done, ih, store_done, lands_succ]

/-- A `memset` that faults has filled everything below the byte it faults at. -/
theorem stores_fault (h : access pd (Touch.stores v n) = .fault) :
    ∃ k < n, translate pd ((v + k) % 2 ^ 32) = none ∧
      Lands pd v k (fun a => kernelOwned a = false) := by
  induction n with
  | zero => cases h
  | succ n ih =>
    rw [stores_succ, access_append, and_then_fault] at h
    rcases h with h | ⟨hd, hf⟩
    · obtain ⟨k, hk, hkn⟩ := ih h
      exact ⟨k, Nat.lt_succ_of_lt hk, hkn⟩
    · exact ⟨n, Nat.lt_succ_self n, store_fault.mp hf, stores_done_iff.mp hd⟩

theorem copies_done_iff : access pd (Touch.copies dest src n) = .done ↔
    Lands pd src n (fun _ => True) ∧ Lands pd dest n (fun a => kernelOwned a = false) := by
  induction n with
  | zero => exact iff_of_true rfl ⟨lands_zero, lands_zero⟩
  | succ n ih =>
    have hsplit : Touch.copies dest src (n + 1) =
        Touch.copies dest src n ++ ([.load (src + n)] ++ [.store (dest + n)]) := by
      simp [Touch.copies, List.range_succ]
    rw [hsplit, access_append, access_append, and_then_done, and_then_done, ih, load_done,
      store_done, lands_succ, lands_succ]
    constructor
    · rintro ⟨⟨hs, hd⟩, ⟨a, ha⟩, hb⟩
      exact ⟨⟨hs, a, ha, trivial⟩, hd, hb⟩
    · rintro ⟨⟨hs, a, ha, -⟩, hd, hb⟩
      exact ⟨⟨hs, hd⟩, ⟨a, ha⟩, hb⟩

end Accesses

end Levos.Proofs.Paging
