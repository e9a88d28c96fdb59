import Levos.Kernel
import Levos.Library.Runs

namespace Levos.Proofs.Recording
open Library

variable {p p' : Process} {base : Nat}

/-- One call of `post_allocation` for a process. -/
def recordStep (p : Process) (base : Nat) : Option Process := some (p.afterAllocation base)

/-- The entries `scheduler_kill_self` frees are those of the table. -/
def Iterable (p : Process) : Prop := p.allocs ≤ maxAllocationsPerProcess

/-- A call that returns 0 has stored the address in the table and changed nothing
else but the counter; one that finds the table full fails and changes nothing. -/
def Recorded (p : Process) (base : Nat) : Prop :=
  (postAllocationResult p base = 0 → ∃ i < maxAllocationsPerProcess,
    (p.afterAllocation base).allocationTable[i]? = some base ∧
    p.afterAllocation base = { p with
      allocationTable := p.allocationTable.set i base
      allocs := (p.afterAllocation base).allocs }) ∧
  (maxAllocationsPerProcess ≤ p.allocs →
    postAllocationResult p base ≠ 0 ∧ p.afterAllocation base = p)

/-- The address is null, which is refused, or the table is not just full. -/
def NotFull (p : Process) (base : Nat) : Prop := base = 0 ∨ p.allocs ≠ maxAllocationsPerProcess

/-- The struct as it is declared, with a counter inside its table. -/
structure InTable (p : Process) : Prop where
  declared : p.allocationTable.length = maxAllocationsPerProcess
  iterable : Iterable p

theorem after_null (p : Process) : p.afterAllocation 0 = p := rfl

theorem after_stored (hb : base ≠ 0) (hp : p.allocs < maxAllocationsPerProcess) :
    p.afterAllocation base = { p with
      allocationTable := p.allocationTable.set p.allocs base, allocs := p.allocs + 1 } := by
  simp only [Process.afterAllocation, postAllocation, hb, if_false]
  rw [if_neg (by omega), if_neg (by omega)]
  rfl

theorem after_full (hb : base ≠ 0) (hp : p.allocs = maxAllocationsPerProcess) :
    postAllocationResult p base = 0 ∧ (p.afterAllocation base).allocs = p.allocs + 1 := by
  simp only [postAllocationResult, Process.afterAllocation, postAllocation, hb, if_false]
  rw [if_neg (by omega), if_neg (by omega), if_pos hp]
  exact ⟨rfl, rfl⟩

theorem step_in_table (h : InTable p) (hn : NotFull p base) : InTable (p.afterAllocation base) := by
  by_cases hb : base = 0
  · rw [hb, after_null]
    exact h
  · have hlt : p.allocs < maxAllocationsPerProcess :=
      Nat.lt_of_le_of_ne h.iterable (hn.resolve_left hb)
    rw [after_stored hb hlt]
    exact ⟨by rw [List.length_set]; exact h.declared, hlt⟩

theorem recorded_iff (h : InTable p) : Recorded p base ↔ NotFull p base := by
  constructor
  · rintro ⟨-, hfull⟩
    by_contra hn
    obtain ⟨hb, hmax⟩ := not_or.mp hn
    rw [not_not] at hmax
    exact (hfull hmax.ge).1 (after_full hb hmax).1
  · intro hn
    by_cases hb : base = 0
    · have hresult : postAllocationResult p base ≠ 0 := by
        rw [postAllocationResult, if_pos hb]
        decide
      refine ⟨fun hz => absurd hz hresult, fun _ => ⟨hresult, ?_⟩⟩
      rw [hb, after_null]
    · have hlt : p.allocs < maxAllocationsPerProcess :=
        Nat.lt_of_le_of_ne h.iterable (hn.resolve_left hb)
      refine ⟨fun _ => ⟨p.allocs, hlt, ?_, ?_⟩, fun hfull => absurd hfull (Nat.not_le_of_lt hlt)⟩
      · rw [after_stored hb hlt]
        exact List.getElem?_set_self (by rw [h.declared]; exact hlt)
      · rw [after_stored hb hlt]

theorem recording_iff (p : Process) (bases : List Nat)
    (hp : p.allocationTable.length = maxAllocationsPerProcess) :
    Guarded recordStep Recorded p bases ∧ Throughout recordStep Iterable p bases ↔
      Iterable p ∧ Guarded recordStep NotFull p bases := by
  have hkeep : ∀ p base p', InTable p → NotFull p base → recordStep p base = some p' →
      InTable p' := by
    intro p base p' h hn hs
    cases hs
    exact step_in_table h hn
  constructor
  · rintro ⟨hg, ht⟩
    have hstart : InTable p := ⟨hp, ht.head⟩
    exact ⟨ht.head, (guarded_iff_guarded hstart hkeep (fun _ _ h => recorded_iff h)).mp hg⟩
  · rintro ⟨hi, hg⟩
    have hstart : InTable p := ⟨hp, hi⟩
    exact ⟨(guarded_iff_guarded hstart hkeep (fun _ _ h => recorded_iff h)).mpr hg,
      (throughout_of_guarded hstart hkeep hg).mono (fun _ h => h.iterable)⟩

/-- A process as the creation functions prepare it. -/
def freshProcess : Process :=
  { lastthread := 0, threadslen := 0, paged := bootDirectory, pid := 1, palloc := 0
    pallocLen := 0, execLen := 0, openHandles := 0, allocs := 0
    allocationTable := List.replicate maxAllocationsPerProcess 0, filehandles := 0, born := 0 }

theorem recording_three_calls :
    freshProcess.allocationTable.length = maxAllocationsPerProcess ∧
    Guarded recordStep Recorded freshProcess [0xC0401000, 0, 0xC0402000] ∧
    Throughout recordStep Iterable freshProcess [0xC0401000, 0, 0xC0402000] :=
  ⟨rfl, (recording_iff freshProcess _ rfl).mpr
    ⟨show 0 ≤ 32 by decide, .inr (show 0 ≠ 32 by decide), .inl rfl,
      .inr (show 1 ≠ 32 by decide), trivial⟩⟩

/-- As many calls as the table has room for fill it. -/
theorem run_stored (hb : base ≠ 0) (n : Nat) (hp : p.allocs + n ≤ maxAllocationsPerProcess) :
    ∃ p', run recordStep p (List.replicate n base) = some p' ∧ p'.allocs = p.allocs + n := by
  induction n generalizing p with
  | zero => exact ⟨p, rfl, rfl⟩
  | succ n ih =>
    have hone : (p.afterAllocation base).allocs = p.allocs + 1 := by
      rw [after_stored hb (by omega)]
    obtain ⟨p', hr, ha⟩ := ih (p := p.afterAllocation base) (by omega)
    exact ⟨p', hr, by omega⟩

/-- The 33rd allocation of a process is counted, though the table was full. -/
theorem thirty_third_allocation :
    ∃ bases, ¬ (Guarded recordStep Recorded freshProcess bases ∧
      Throughout recordStep Iterable freshProcess bases) := by
  have hb : 0xC0401000 ≠ 0 := by decide
  obtain ⟨p, hr, hfull⟩ := run_stored hb 32 (p := freshProcess) (show 0 + 32 ≤ 32 by decide)
  have hp : p.allocs = maxAllocationsPerProcess := hfull
  refine ⟨List.replicate 32 0xC0401000 ++ [0xC0401000], ?_⟩
  rintro ⟨-, ht⟩
  have hlast : Iterable (p.afterAllocation 0xC0401000) :=
    ht.last (by rw [run_append, hr]; rfl)
  have hcount := (after_full hb hp).2
  simp only [Iterable] at hlast
  omega

end Levos.Proofs.Recording
