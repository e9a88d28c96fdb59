import Mathlib

namespace Levos.Library

/-- A program that asks a device for items, one after the other. `stop` is a
program that asks for nothing more and does not return. -/
inductive Reads (β γ α : Type)
  | done (a : α)
  | stop
  | read (b : β) (next : γ → Reads β γ α)

namespace Reads

variable {β γ α δ : Type} {P Q : β → Prop} {answer : β → γ}

def bind (f : α → Reads β γ δ) : Reads β γ α → Reads β γ δ
  | done a => f a
  | stop => stop
  | read b next => read b (fun c => (next c).bind f)

instance : Monad (Reads β γ) where
  pure := done
  bind x f := x.bind f

/-- What the program returns. -/
def eval (answer : β → γ) : Reads β γ α → Option α
  | done a => some a
  | stop => none
  | read b next => (next (answer b)).eval answer

/-- Everything the program asks for has the property. -/
def All (P : β → Prop) (answer : β → γ) : Reads β γ α → Prop
  | done _ => True
  | stop => True
  | read b next => P b ∧ (next (answer b)).All P answer

@[simp] theorem eval_pure (a : α) : (pure a : Reads β γ α).eval answer = some a := rfl

@[simp] theorem eval_stop : (stop : Reads β γ α).eval answer = none := rfl

@[simp] theorem eval_read (b : β) (next : γ → Reads β γ α) :
    (read b next).eval answer = (next (answer b)).eval answer := rfl

@[simp] theorem eval_bind (x : Reads β γ α) (f : α → Reads β γ δ) :
    (x >>= f).eval answer = (x.eval answer).bind (fun a => (f a).eval answer) := by
  induction x with
  | done a => rfl
  | stop => rfl
  | read b next ih => exact ih (answer b)

@[simp] theorem all_pure (a : α) : (pure a : Reads β γ α).All P answer := trivial

@[simp] theorem all_stop : (stop : Reads β γ α).All P answer := trivial

@[simp] theorem all_read (b : β) (next : γ → Reads β γ α) :
    (read b next).All P answer ↔ P b ∧ (next (answer b)).All P answer := Iff.rfl

@[simp] theorem all_bind (x : Reads β γ α) (f : α → Reads β γ δ) :
    (x >>= f).All P answer ↔
      x.All P answer ∧ ∀ a, x.eval answer = some a → (f a).All P answer := by
  induction x with
  | done a =>
    constructor
    · rintro h
      exact ⟨trivial, fun b hb => by cases hb; exact h⟩
    · rintro h
      exact h.2 a rfl
  | stop => exact ⟨fun _ => ⟨trivial, fun a ha => by cases ha⟩, fun _ => trivial⟩
  | read b next ih =>
    constructor
    · rintro ⟨hb, hn⟩
      obtain ⟨hnext, hf⟩ := (ih (answer b)).mp hn
      exact ⟨⟨hb, hnext⟩, hf⟩
    · rintro ⟨⟨hb, hnext⟩, hf⟩
      exact ⟨hb, (ih (answer b)).mpr ⟨hnext, hf⟩⟩

theorem eval_ite (c : Prop) [Decidable c] (x y : Reads β γ α) :
    (if c then x else y).eval answer = if c then x.eval answer else y.eval answer :=
  apply_ite (eval answer) c x y

theorem all_ite (c : Prop) [Decidable c] (x y : Reads β γ α) :
    (if c then x else y).All P answer ↔ (c → x.All P answer) ∧ (¬ c → y.All P answer) := by
  by_cases h : c <;> simp [h]

theorem all_congr (h : ∀ b, P b ↔ Q b) (x : Reads β γ α) : x.All P answer ↔ x.All Q answer := by
  induction x with
  | done a => exact Iff.rfl
  | stop => exact Iff.rfl
  | read b next ih => exact and_congr (h b) (ih (answer b))

theorem all_of_forall (h : ∀ b, P b) (x : Reads β γ α) : x.All P answer := by
  induction x with
  | done a => trivial
  | stop => trivial
  | read b next ih => exact ⟨h b, ih (answer b)⟩

end Reads

end Levos.Library
