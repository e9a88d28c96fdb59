import Mathlib

namespace Levos.Library

/-- The state a list of actions leads to. A step function answers `none` for an
action that is not enabled, and then the whole list is not a run. -/
def run (step : σ → α → Option σ) : σ → List α → Option σ
  | s, [] => some s
  | s, a :: as => match step s a with
    | none => none
    | some t => run step t as

/-- A property of the first state and of every state the actions lead through. -/
def Throughout (step : σ → α → Option σ) (P : σ → Prop) : σ → List α → Prop
  | s, [] => P s
  | s, a :: as => P s ∧ match step s a with
    | none => True
    | some t => Throughout step P t as

/-- Every action is taken in a state that meets the guard. -/
def Guarded (step : σ → α → Option σ) (G : σ → α → Prop) : σ → List α → Prop
  | _, [] => True
  | s, a :: as => G s a ∧ match step s a with
    | none => True
    | some t => Guarded step G t as

variable {σ : Type u} {α : Type v} {step : σ → α → Option σ} {P Inv : σ → Prop}
  {G H : σ → α → Prop} {s t : σ} {as : List α}

theorem run_cons (h : run step s (a :: as) = some t) :
    ∃ u, step s a = some u ∧ run step u as = some t := by
  unfold run at h
  split at h
  · cases h
  · rename_i u hu
    exact ⟨u, hu, h⟩

theorem run_single (h : step s a = some t) : run step s [a] = some t := by
  simp only [run, h]

theorem run_append (as bs : List α) (s : σ) :
    run step s (as ++ bs) = (run step s as).bind (fun t => run step t bs) := by
  induction as generalizing s with
  | nil => rfl
  | cons a as ih =>
    simp only [List.cons_append, run]
    cases step s a with
    | none => rfl
    | some t => exact ih t

theorem Guarded.cons (hs : step s a = some t) (hg : G s a) (h : Guarded step G t as) :
    Guarded step G s (a :: as) := by
  refine ⟨hg, ?_⟩
  rw [hs]
  exact h

theorem Guarded.tail (h : Guarded step G s (a :: as)) (ht : step s a = some t) :
    Guarded step G t as := by
  have hrest := h.2
  rwa [ht] at hrest

theorem Throughout.head (h : Throughout step P s as) : P s := by
  cases as with
  | nil => exact h
  | cons a as => exact h.1

theorem Throughout.tail (h : Throughout step P s (a :: as)) (ht : step s a = some t) :
    Throughout step P t as := by
  have hrest := h.2
  rwa [ht] at hrest

theorem Guarded.single (hg : G s a) : Guarded step G s [a] := by
  refine ⟨hg, ?_⟩
  split <;> trivial

/-- Actions whose guard holds in every state. -/
theorem Guarded.of_forall (hg : ∀ s, ∀ a ∈ as, G s a) (s : σ) : Guarded step G s as := by
  induction as generalizing s with
  | nil => trivial
  | cons a as ih =>
    refine ⟨hg s a List.mem_cons_self, ?_⟩
    split
    · trivial
    · exact ih (fun s b hb => hg s b (List.mem_cons_of_mem _ hb)) _

/-- One list of actions after another, which need not run to its end. -/
theorem guarded_append_iff : Guarded step G s (as ++ bs) ↔
    Guarded step G s as ∧ ∀ t, run step s as = some t → Guarded step G t bs := by
  induction as generalizing s with
  | nil => simp [Guarded, run]
  | cons a as ih =>
    simp only [List.cons_append, Guarded, run]
    cases step s a with
    | none => simp
    | some u =>
      simp only [ih]
      exact and_assoc.symm

theorem Guarded.append (h : Guarded step G s as) (hr : run step s as = some t)
    (h' : Guarded step G t bs) : Guarded step G s (as ++ bs) := by
  refine guarded_append_iff.mpr ⟨h, ?_⟩
  intro u hu
  cases hr.symm.trans hu
  exact h'

/-- `Throughout` speaks about exactly the states reached by the prefixes. -/
theorem throughout_iff (step : σ → α → Option σ) (P : σ → Prop) (s : σ) (as : List α) :
    Throughout step P s as ↔
      ∀ pre post t, as = pre ++ post → run step s pre = some t → P t := by
  induction as generalizing s with
  | nil =>
    constructor
    · intro h pre post t he hr
      obtain ⟨rfl, rfl⟩ := List.append_eq_nil_iff.mp he.symm
      cases hr
      exact h
    · intro h
      exact h [] [] s rfl rfl
  | cons a as ih =>
    constructor
    · intro h pre post t he hr
      cases pre with
      | nil =>
        cases hr
        exact h.1
      | cons b pre =>
        simp only [List.cons_append, List.cons.injEq] at he
        obtain ⟨rfl, rfl⟩ := he
        obtain ⟨u, hu, hr⟩ := run_cons hr
        exact (ih u).mp (h.tail hu) pre post t rfl hr
    · intro h
      refine ⟨h [] (a :: as) s rfl rfl, ?_⟩
      cases hu : step s a with
      | none => trivial
      | some u =>
        refine (ih u).mpr ?_
        intro pre post t he hr
        refine h (a :: pre) post t (by rw [he]; rfl) ?_
        simp only [run, hu, hr]

/-- `Guarded` speaks about exactly the steps taken from the prefixes. -/
theorem guarded_iff (step : σ → α → Option σ) (G : σ → α → Prop) (s : σ) (as : List α) :
    Guarded step G s as ↔
      ∀ pre a post t, as = pre ++ a :: post → run step s pre = some t → G t a := by
  induction as generalizing s with
  | nil =>
    constructor
    · intro _ pre a post t he
      cases pre <;> cases he
    · intro _
      trivial
  | cons b as ih =>
    constructor
    · intro h pre a post t he hr
      cases pre with
      | nil =>
        cases hr
        cases he
        exact h.1
      | cons c pre =>
        simp only [List.cons_append, List.cons.injEq] at he
        obtain ⟨rfl, rfl⟩ := he
        obtain ⟨u, hu, hr⟩ := run_cons hr
        exact (ih u).mp (h.tail hu) pre a post t rfl hr
    · intro h
      refine ⟨h [] b as s rfl rfl, ?_⟩
      cases hu : step s b with
      | none => trivial
      | some u =>
        refine (ih u).mpr ?_
        intro pre a post t he hr
        refine h (b :: pre) a post t (by rw [he]; rfl) ?_
        simp only [run, hu, hr]

/-- The invariant rule: what holds at the start and survives every guarded
step holds throughout every guarded run. -/
theorem throughout_of_guarded (hs : Inv s)
    (keep : ∀ s a t, Inv s → G s a → step s a = some t → Inv t)
    (hg : Guarded step G s as) : Throughout step Inv s as := by
  induction as generalizing s with
  | nil => exact hs
  | cons a as ih =>
    refine ⟨hs, ?_⟩
    cases hu : step s a with
    | none => trivial
    | some u => exact ih (keep s a u hs hg.1 hu) (hg.tail hu)

/-- The rule for the last state of a run without guards. -/
theorem run_keeps {I : σ → Prop} (hr : run step s as = some t) (hs : I s)
    (keep : ∀ s a t, I s → step s a = some t → I t) : I t := by
  induction as generalizing s with
  | nil =>
    cases hr
    exact hs
  | cons a as ih =>
    obtain ⟨u, hu, hru⟩ := run_cons hr
    exact ih hru (keep s a u hs hu)

theorem Throughout.mono (h : Throughout step P s as) (hp : ∀ s, P s → Inv s) :
    Throughout step Inv s as := by
  rw [throughout_iff] at h ⊢
  exact fun pre post t he hr => hp t (h pre post t he hr)

theorem throughout_and : Throughout step (fun s => P s ∧ Inv s) s as ↔
    Throughout step P s as ∧ Throughout step Inv s as := by
  induction as generalizing s with
  | nil => exact Iff.rfl
  | cons a as ih =>
    simp only [Throughout]
    cases step s a with
    | none => simp
    | some t => exact (and_congr_right fun _ => ih).trans and_and_and_comm

/-- A property of all states is a guard of all steps. -/
theorem Throughout.guarded (h : Throughout step P s as) (hp : ∀ s a, P s → G s a) :
    Guarded step G s as := by
  induction as generalizing s with
  | nil => trivial
  | cons a as ih =>
    refine ⟨hp s a h.1, ?_⟩
    cases ht : step s a with
    | none => trivial
    | some t => exact ih (h.tail ht)

theorem Throughout.last (h : Throughout step P s as) (hr : run step s as = some t) : P t :=
  (throughout_iff step P s as).mp h as [] t (List.append_nil as).symm hr

/-- In a list that runs to its end every action is enabled. -/
theorem guarded_of_run (hr : (run step s as).isSome) :
    Guarded step (fun s a => (step s a).isSome) s as := by
  induction as generalizing s with
  | nil => trivial
  | cons a as ih =>
    obtain ⟨t, ht⟩ := Option.isSome_iff_exists.mp hr
    obtain ⟨u, hu, hru⟩ := run_cons ht
    exact .cons hu (Option.isSome_of_eq_some hu) (ih (Option.isSome_of_eq_some hru))

/-- Under an assumption `A` by which a step against its guard is taken and loses the
property, every step of a run that keeps the property met its guard. -/
theorem guarded_of_throughout {A : σ → α → Prop} (hs : Inv s)
    (keep : ∀ s a t, Inv s → G s a → step s a = some t → Inv t)
    (lose : ∀ s a, Inv s → A s a → ¬ G s a → ∃ t, step s a = some t ∧ ¬ P t)
    (ha : Guarded step A s as) (h : Throughout step P s as) : Guarded step G s as := by
  induction as generalizing s with
  | nil => trivial
  | cons a as ih =>
    have hg : G s a := by
      by_contra hn
      obtain ⟨t, ht, hnot⟩ := lose s a hs ha.1 hn
      exact hnot (h.tail ht).head
    refine ⟨hg, ?_⟩
    cases ht : step s a with
    | none => trivial
    | some t => exact ih (keep s a t hs hg ht) (ha.tail ht) (h.tail ht)

/-- The exact rule: if a guarded step keeps the invariant, the invariant gives
the property, and a step against its guard loses the property, then the
property holds throughout a run if and only if every step met its guard. -/
theorem throughout_iff_guarded (hs : Inv s) (hp : ∀ s, Inv s → P s)
    (keep : ∀ s a t, Inv s → G s a → step s a = some t → Inv t)
    (lose : ∀ s a t, Inv s → ¬ G s a → step s a = some t → ¬ P t)
    (hr : (run step s as).isSome) :
    Throughout step P s as ↔ Guarded step G s as := by
  constructor
  · refine guarded_of_throughout hs keep ?_ (guarded_of_run hr)
    intro s a hi henabled hn
    obtain ⟨t, ht⟩ := Option.isSome_iff_exists.mp henabled
    exact ⟨t, ht, lose s a t hi hn ht⟩
  · intro hg
    exact (throughout_of_guarded hs keep hg).mono hp

/-- The exact rule for guards that no step fails to be enabled by: a step against
its guard is taken, and loses the property. -/
theorem throughout_iff_guarded_taken (hs : Inv s) (hp : ∀ s, Inv s → P s)
    (keep : ∀ s a t, Inv s → G s a → step s a = some t → Inv t)
    (lose : ∀ s a, Inv s → ¬ G s a → ∃ t, step s a = some t ∧ ¬ P t) :
    Throughout step P s as ↔ Guarded step G s as := by
  constructor
  · exact guarded_of_throughout (A := fun _ _ => True) hs keep (fun s a hi _ => lose s a hi)
      (.of_forall (fun _ _ _ => trivial) s)
  · intro hg
    exact (throughout_of_guarded hs keep hg).mono hp

/-- Guards that enable their step let the whole list run. -/
theorem run_of_guarded (hs : Inv s)
    (keep : ∀ s a, Inv s → G s a → ∃ t, step s a = some t ∧ Inv t)
    (hg : Guarded step G s as) : (run step s as).isSome := by
  induction as generalizing s with
  | nil => rfl
  | cons a as ih =>
    obtain ⟨t, ht, hi⟩ := keep s a hs hg.1
    simp only [run, ht]
    exact ih hi (hg.tail ht)

/-- The exact rule for guards that also say when a step is enabled, for runs whose
steps all meet an assumption. -/
theorem answered_iff_guarded_under {A : σ → α → Prop} (hs : Inv s) (hp : ∀ s, Inv s → P s)
    (keep : ∀ s a, Inv s → A s a → G s a → ∃ t, step s a = some t ∧ Inv t)
    (lose : ∀ s a t, Inv s → A s a → ¬ G s a → step s a = some t → ¬ P t)
    (ha : Guarded step A s as) :
    (run step s as).isSome ∧ Throughout step P s as ↔ Guarded step G s as := by
  induction as generalizing s with
  | nil => exact ⟨fun _ => trivial, fun _ => ⟨rfl, hp s hs⟩⟩
  | cons a as ih =>
    by_cases hg : G s a
    · obtain ⟨t, ht, hi⟩ := keep s a hs ha.1 hg
      simp only [run, Throughout, Guarded, ht, hg, hp s hs, true_and]
      exact ih hi (ha.tail ht)
    · constructor
      · rintro ⟨hr, h⟩
        obtain ⟨t, ht⟩ := Option.isSome_iff_exists.mp hr
        obtain ⟨u, hu, -⟩ := run_cons ht
        exact absurd (h.tail hu).head (lose s a u hs ha.1 hg hu)
      · intro h
        exact absurd h.1 hg

/-- The same rule without an assumption. -/
theorem answered_iff_guarded (hs : Inv s) (hp : ∀ s, Inv s → P s)
    (keep : ∀ s a, Inv s → G s a → ∃ t, step s a = some t ∧ Inv t)
    (lose : ∀ s a t, Inv s → ¬ G s a → step s a = some t → ¬ P t) :
    (run step s as).isSome ∧ Throughout step P s as ↔ Guarded step G s as :=
  answered_iff_guarded_under hs hp (fun s a hi _ => keep s a hi) (fun s a t hi _ => lose s a t hi)
    (Guarded.of_forall (G := fun _ _ => True) (fun _ _ _ => trivial) s)

/-- The same rule for a property of the steps themselves: under the invariant
the property of a step and its guard are one, so they hold of the same runs. -/
theorem guarded_iff_guarded_under {A : σ → α → Prop} (hs : Inv s)
    (keep : ∀ s a t, Inv s → A s a → G s a → step s a = some t → Inv t)
    (same : ∀ s a, Inv s → A s a → (H s a ↔ G s a)) (ha : Guarded step A s as) :
    Guarded step H s as ↔ Guarded step G s as := by
  induction as generalizing s with
  | nil => exact Iff.rfl
  | cons a as ih =>
    simp only [Guarded, same s a hs ha.1]
    refine and_congr_right ?_
    intro hg
    cases hu : step s a with
    | none => exact Iff.rfl
    | some u => exact ih (keep s a u hs ha.1 hg hu) (ha.tail hu)

theorem guarded_iff_guarded (hs : Inv s)
    (keep : ∀ s a t, Inv s → G s a → step s a = some t → Inv t)
    (same : ∀ s a, Inv s → (H s a ↔ G s a)) :
    Guarded step H s as ↔ Guarded step G s as :=
  guarded_iff_guarded_under hs (fun s a t hi _ => keep s a t hi) (fun s a hi _ => same s a hi)
    (Guarded.of_forall (G := fun _ _ => True) (fun _ _ _ => trivial) s)

/-- The same for a list of actions that are all enabled; then the two need only
agree on enabled actions. -/
theorem guarded_iff_guarded_of_run (hs : Inv s)
    (keep : ∀ s a t, Inv s → G s a → step s a = some t → Inv t)
    (same : ∀ s a t, Inv s → step s a = some t → (H s a ↔ G s a))
    (hr : (run step s as).isSome) :
    Guarded step H s as ↔ Guarded step G s as := by
  induction as generalizing s with
  | nil => exact Iff.rfl
  | cons a as ih =>
    obtain ⟨t, ht⟩ := Option.isSome_iff_exists.mp hr
    obtain ⟨u, hu, hru⟩ := run_cons ht
    simp only [Guarded, hu, same s a u hs hu]
    exact and_congr_right (fun hg => ih (keep s a u hs hg hu) (by simp [hru]))

/-- One direction of it needs less: guards that imply the property. -/
theorem Guarded.imp (hs : Inv s)
    (keep : ∀ s a t, Inv s → G s a → step s a = some t → Inv t)
    (hp : ∀ s a, Inv s → G s a → H s a)
    (hg : Guarded step G s as) : Guarded step H s as := by
  induction as generalizing s with
  | nil => trivial
  | cons a as ih =>
    refine ⟨hp s a hs hg.1, ?_⟩
    cases hu : step s a with
    | none => trivial
    | some u => exact ih (keep s a u hs hg.1 hu) (hg.tail hu)

section Image

variable {τ : Type w} {step' : τ → α → Option τ} {Q : τ → Prop} {f : σ → τ}

/-- What holds along the images of the states of a run holds along the run. -/
theorem Throughout.of_image (hs : Inv s)
    (sim : ∀ s a t, Inv s → step s a = some t → step' (f s) a = some (f t) ∧ Inv t)
    (h : Throughout step' Q (f s) as) : Throughout step (fun s => Q (f s)) s as := by
  induction as generalizing s with
  | nil => exact h
  | cons a as ih =>
    refine ⟨h.1, ?_⟩
    cases ht : step s a with
    | none => trivial
    | some t =>
      obtain ⟨himage, hinv⟩ := sim s a t hs ht
      exact ih hinv (h.tail himage)

/-- And the other way, when every step between images comes from one of the run. -/
theorem Throughout.image (hs : Inv s)
    (sim : ∀ s a q, Inv s → step' (f s) a = some q → ∃ t, step s a = some t ∧ f t = q ∧ Inv t)
    (h : Throughout step (fun s => Q (f s)) s as) : Throughout step' Q (f s) as := by
  induction as generalizing s with
  | nil => exact h
  | cons a as ih =>
    refine ⟨h.1, ?_⟩
    cases hq : step' (f s) a with
    | none => trivial
    | some q =>
      obtain ⟨t, ht, rfl, hinv⟩ := sim s a q hs hq
      exact ih hinv (h.tail ht)

end Image

/-- A run each of whose steps another machine matches by a run is matched by one. -/
theorem run_simulated {τ : Type w} {β : Type x} {step' : τ → β → Option τ} {R : σ → τ → Prop}
    {q : τ} (sim : ∀ s a t q, R s q → G s a → step s a = some t →
      ∃ bs q', run step' q bs = some q' ∧ R t q')
    (hs : R s q) (hg : Guarded step G s as) (hr : run step s as = some t) :
    ∃ bs q', run step' q bs = some q' ∧ R t q' := by
  induction as generalizing s q with
  | nil =>
    cases hr
    exact ⟨[], q, rfl, hs⟩
  | cons a as ih =>
    obtain ⟨u, hu, hrest⟩ := run_cons hr
    obtain ⟨bs, q₁, hq₁, hu'⟩ := sim s a u q hs hg.1 hu
    obtain ⟨cs, q₂, hq₂, ht⟩ := ih hu' (hg.tail hu) hrest
    exact ⟨bs ++ cs, q₂, by rw [run_append, hq₁, Option.bind_some, hq₂], ht⟩

end Levos.Library
