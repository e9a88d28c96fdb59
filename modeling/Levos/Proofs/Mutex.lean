import Levos.Mutex

namespace Levos.Proofs.Mutex
open Levos.Library Levos.Mutex

/-- At most one process is inside the critical section. -/
def Exclusive (s : State) : Prop :=
  ∀ i j, s.phase i = .inside → s.phase j = .inside → i = j

/-- A process that stores `m->locked = 1` finds it still zero. -/
def FreeAtStore (s : State) (a : Nat × Act) : Prop := a.2 = .store → s.locked = false

/-- The mutex is locked exactly while a process is inside. -/
structure Held (s : State) : Prop where
  exclusive : Exclusive s
  locked : s.locked = true ↔ ∃ i, s.phase i = .inside

theorem start_held : Held State.start where
  exclusive := fun _ _ h => by cases h
  locked := by simp [State.start]

/-- Everything one step can do. -/
theorem step_cases {s t : State} (h : s.step (i, a) = some t) :
    (a = .test ∧ s.phase i = .outside ∧ (t = s ∨ t = s.move i .tested)) ∨
    (a = .store ∧ s.phase i = .tested ∧ t = { s.move i .inside with locked := true }) ∨
    (a = .unlock ∧ s.phase i = .inside ∧ t = { s.move i .outside with locked := false }) := by
  cases a with
  | test =>
    by_cases hp : s.phase i = .outside
    · rw [State.step, if_pos hp] at h
      refine .inl ⟨rfl, hp, ?_⟩
      cases hw : s.waits <;> simp_all
    · rw [State.step, if_neg hp] at h
      cases h
  | store =>
    by_cases hp : s.phase i = .tested
    · rw [State.step, if_pos hp] at h
      exact .inr (.inl ⟨rfl, hp, (Option.some.inj h).symm⟩)
    · rw [State.step, if_neg hp] at h
      cases h
  | unlock =>
    by_cases hp : s.phase i = .inside
    · rw [State.step, if_pos hp] at h
      exact .inr (.inr ⟨rfl, hp, (Option.some.inj h).symm⟩)
    · rw [State.step, if_neg hp] at h
      cases h

theorem inside_move {s : State} (h : ph ≠ .inside) :
    (s.move i ph).phase j = .inside ↔ j ≠ i ∧ s.phase j = .inside := by
  by_cases hj : j = i
  · simp [State.move, hj, h]
  · simp [State.move, hj]

theorem inside_enter {s : State} :
    (s.move i .inside).phase j = .inside ↔ j = i ∨ s.phase j = .inside := by
  by_cases hj : j = i
  · simp [State.move, hj]
  · simp [State.move, hj]

theorem Held.tested {s : State} (hs : Held s) (hp : s.phase i = .outside) :
    Held (s.move i .tested) := by
  have hsame (j : Nat) : (s.move i .tested).phase j = .inside ↔ s.phase j = .inside := by
    rw [inside_move (by decide)]
    refine and_iff_right_of_imp ?_
    rintro hj rfl
    cases hp.symm.trans hj
  refine ⟨fun j k hj hk => hs.exclusive j k ((hsame j).mp hj) ((hsame k).mp hk), ?_⟩
  simp only [hsame]
  exact hs.locked

theorem Held.store {s : State} (hs : Held s) (hfree : s.locked = false) (i : Nat) :
    Held { s.move i .inside with locked := true } := by
  have hnone (j : Nat) : s.phase j ≠ .inside := by
    intro hj
    have := hs.locked.mpr ⟨j, hj⟩
    simp [hfree] at this
  have honly (j : Nat) (hj : (s.move i .inside).phase j = .inside) : j = i :=
    (inside_enter.mp hj).resolve_right (hnone j)
  refine ⟨fun j k hj hk => (honly j hj).trans (honly k hk).symm, ?_⟩
  exact iff_of_true rfl ⟨i, inside_enter.mpr (.inl rfl)⟩

theorem Held.unlock {s : State} (hs : Held s) (hp : s.phase i = .inside) :
    Held { s.move i .outside with locked := false } := by
  have hnone (j : Nat) : (s.move i .outside).phase j ≠ .inside := by
    intro hj
    obtain ⟨hne, hin⟩ := (inside_move (by decide)).mp hj
    exact hne (hs.exclusive j i hin hp)
  refine ⟨fun j _ hj => absurd hj (hnone j), ?_⟩
  exact iff_of_false (by simp) (fun ⟨j, hj⟩ => hnone j hj)

theorem Held.step {s t : State} (hs : Held s) (hg : FreeAtStore s a) (h : s.step a = some t) :
    Held t := by
  obtain ⟨i, act⟩ := a
  obtain ⟨rfl, hp, rfl | rfl⟩ | ⟨rfl, -, rfl⟩ | ⟨rfl, hp, rfl⟩ := step_cases h
  · exact hs
  · exact hs.tested hp
  · exact hs.store (hg rfl) i
  · exact hs.unlock hp

/-- A store that finds the mutex taken puts a second process inside. -/
theorem Held.intrude {s t : State} (hs : Held s) (hg : ¬ FreeAtStore s a)
    (h : s.step a = some t) : ¬ Exclusive t := by
  obtain ⟨i, act⟩ := a
  obtain ⟨hstore, htaken⟩ : act = .store ∧ s.locked = true := by
    simpa [FreeAtStore] using hg
  obtain ⟨rfl, -, -⟩ | ⟨-, hp, rfl⟩ | ⟨rfl, -, -⟩ := step_cases h
  · cases hstore
  · obtain ⟨j, hj⟩ := hs.locked.mp htaken
    intro hex
    have hij : i = j := hex i j (inside_enter.mpr (.inl rfl)) (inside_enter.mpr (.inr hj))
    subst hij
    cases hp.symm.trans hj
  · cases hstore

/-- Two processes are never inside together in exactly those runs in which no
process takes the mutex between the last test and the store of another one. -/
theorem mutual_exclusion_iff (as : List (Nat × Act))
    (hr : (run State.step State.start as).isSome) :
    Throughout State.step Exclusive State.start as ↔
      Guarded State.step FreeAtStore State.start as :=
  throughout_iff_guarded start_held (fun _ hs => hs.exclusive)
    (fun _ _ _ hs hg h => hs.step hg h) (fun _ _ _ hs hg h => hs.intrude hg h) hr

/-- Two processes that take turns. -/
def politeRun : List (Nat × Act) :=
  [(0, .test), (0, .store), (1, .test), (0, .unlock), (1, .test), (1, .store), (1, .unlock)]

theorem mutual_exclusion_polite :
    Throughout State.step Exclusive State.start politeRun := by
  refine (mutual_exclusion_iff politeRun rfl).mpr ?_
  have hother : ∀ s i act, act ≠ .store → FreeAtStore s (i, act) :=
    fun _ _ _ hne he => absurd he hne
  exact .cons rfl (hother _ _ _ (by decide)) <| .cons rfl (fun _ => rfl) <|
    .cons rfl (hother _ _ _ (by decide)) <| .cons rfl (hother _ _ _ (by decide)) <|
    .cons rfl (hother _ _ _ (by decide)) <| .cons rfl (fun _ => rfl) <|
    .single (hother _ _ _ (by decide))

/-- The timer switches between the test and the store of process 0. -/
def brokenRun : List (Nat × Act) := [(0, .test), (1, .test), (1, .store), (0, .store)]

theorem mutual_exclusion_broken :
    ¬ ∀ as, Throughout State.step Exclusive State.start as := by
  intro h
  have hboth := (h brokenRun).last rfl 0 1 rfl rfl
  cases hboth

end Levos.Proofs.Mutex
