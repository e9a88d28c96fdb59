import Levos.Library.Runs

namespace Levos.Library

variable {σ : Type u} {τ : Type v} {ω : Type w} {α : Type x} {β : Type y}

/-- The state a list of actions leads to, with what each of them has answered. -/
def runWith (step : σ → α → Option (σ × β)) : σ → List α → Option (σ × List β)
  | s, [] => some (s, [])
  | s, a :: as => match step s a with
    | none => none
    | some (t, b) => (runWith step t as).map (fun (u, bs) => (u, b :: bs))

/-- A step without its answer. -/
def silent (step : σ → α → Option (σ × β)) (s : σ) (a : α) : Option σ := (step s a).map (·.1)

/-- Actions with answers a specification allows, one after the other. -/
inductive Traced (spec : ω → α → β → ω → Prop) : ω → List α → List β → ω → Prop
  | nil (o : ω) : Traced spec o [] [] o
  | cons {o o₁ o₂ : ω} {a : α} {b : β} {as : List α} {bs : List β} (head : spec o a b o₁)
      (rest : Traced spec o₁ as bs o₂) : Traced spec o (a :: as) (b :: bs) o₂

theorem runWith_cons {step : σ → α → Option (σ × β)} {as : List α} (hs : step s a = some (t, b))
    (hr : runWith step t as = some (u, bs)) : runWith step s (a :: as) = some (u, b :: bs) := by
  simp only [runWith, hs, hr, Option.map_some]

theorem runWith_uncons {step : σ → α → Option (σ × β)} {as : List α}
    (h : runWith step s (a :: as) = some (u, bs)) :
    ∃ t b cs, step s a = some (t, b) ∧ runWith step t as = some (u, cs) ∧ bs = b :: cs := by
  rw [runWith] at h
  split at h
  case h_1 => cases h
  case h_2 t b ht =>
    obtain ⟨⟨u', cs⟩, hu, he⟩ := Option.map_eq_some_iff.mp h
    cases he
    exact ⟨t, b, cs, ht, hu, rfl⟩

theorem runWith_append {step : σ → α → Option (σ × β)} {as as' : List α}
    (h : runWith step s as = some (t, bs)) (h' : runWith step t as' = some (u, bs')) :
    runWith step s (as ++ as') = some (u, bs ++ bs') := by
  induction as generalizing s bs with
  | nil =>
    cases h
    exact h'
  | cons a as ih =>
    obtain ⟨v, b, cs, hv, hrest, rfl⟩ := runWith_uncons h
    exact runWith_cons hv (ih hrest)

theorem run_silent {step : σ → α → Option (σ × β)} {as : List α}
    (h : runWith step s as = some (t, bs)) : run (silent step) s as = some t := by
  induction as generalizing s bs with
  | nil =>
    cases h
    rfl
  | cons a as ih =>
    obtain ⟨v, b, cs, hv, hrest, rfl⟩ := runWith_uncons h
    have hs : silent step s a = some v := by rw [silent, hv]; rfl
    rw [run, hs]
    exact ih hrest

/-- A guard together with a property of the actions alone. -/
theorem Guarded.and_forall {step : σ → α → Option σ} {G : σ → α → Prop} {Q : α → Prop}
    {as : List α} (h : Guarded step G s as) (hq : ∀ a ∈ as, Q a) :
    Guarded step (fun s a => G s a ∧ Q a) s as := by
  induction as generalizing s with
  | nil => trivial
  | cons a as ih =>
    refine ⟨⟨h.1, hq a List.mem_cons_self⟩, ?_⟩
    cases ht : step s a with
    | none => trivial
    | some t => exact ih (h.tail ht) (fun b hb => hq b (List.mem_cons_of_mem _ hb))

/-- Two machines that stay related step by step answer every guarded run alike, and as the
specification of what is seen of them allows. -/
theorem runs_simulate {step : σ → α → Option (σ × β)} {step' : τ → α → Option (τ × β)}
    {R : σ → τ → Prop} {G : τ → α → Prop} {spec : ω → α → β → ω → Prop} {view : σ → τ → ω}
    (hstep : ∀ s t a, R s t → G t a → ∃ s' t' b, step s a = some (s', b) ∧
      step' t a = some (t', b) ∧ R s' t' ∧ spec (view s t) a b (view s' t'))
    (hr : R s t) (hg : Guarded (silent step') G t as) :
    ∃ s' t' bs, runWith step s as = some (s', bs) ∧ runWith step' t as = some (t', bs) ∧
      R s' t' ∧ Traced spec (view s t) as bs (view s' t') := by
  induction as generalizing s t with
  | nil => exact ⟨s, t, [], rfl, rfl, hr, .nil _⟩
  | cons a as ih =>
    obtain ⟨s₁, t₁, b, hs, ht, hr₁, hspec⟩ := hstep s t a hr hg.1
    have hrest : Guarded (silent step') G t₁ as := hg.tail (by rw [silent, ht]; rfl)
    obtain ⟨s₂, t₂, bs, hs₂, ht₂, hr₂, htr⟩ := ih hr₁ hrest
    exact ⟨s₂, t₂, b :: bs, runWith_cons hs hs₂, runWith_cons ht ht₂, hr₂, .cons hspec htr⟩

end Levos.Library
