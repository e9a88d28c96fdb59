import Levos.Descriptors
import Levos.Proofs.Kernel

namespace Levos.Proofs.Descriptors
open Levos.Library Levos.Proofs.Kernel

/-- A call that does no harm: it returns an error or does nothing, and on the way it
has looked at no entry that is not in use. -/
structure Harmless (p : Process) (s : FdResult) : Prop where
  refused : (∃ rc < 0, s.done = .failed rc) ∨ s.done = .nothing
  within : ∀ index, s.entry = some index → 0 ≤ index ∧ index < p.openHandles

/-- The descriptor that a call does not take for an open file. -/
def own : FdCall → Int
  | .read _ _ => 0
  | .write _ _ => 1
  | .readdir => 0xFF

/-- With any other the call looks at an entry. -/
theorem fd_call_entry (k : Kernel) (p : Process) (workdir : Nat) {call : FdCall}
    (h : fd ≠ own call) : (k.fdCall p workdir fd call).entry = some (fd - 3) := by
  cases call with
  | read buf len => exact congrArg FdResult.entry (if_neg h)
  | write buf len => exact congrArg FdResult.entry (if_neg h)
  | readdir => exact congrArg FdResult.entry (if_neg h)

/-- No open by process `h` has returned the descriptor. -/
def Unissued (k : Kernel) (h : Nat) (fd : Int) : Prop :=
  ∀ n fl, (h, n, fl) ∈ k.opened → (n : Int) ≠ fd

/-- For every entry in use there was an open that returned its descriptor. -/
def Issued (procs : List (Option Process)) (opened : List (Nat × Nat × Nat)) : Prop :=
  ∀ h p, procAt procs h = some p → ∀ i < p.openHandles, ∃ fl, (h, i + 3, fl) ∈ opened

def Invariant (k : Kernel) : Prop := Issued k.procs k.opened

/-- Structs that are new, or keep their count of descriptors. -/
theorem Issued.evolve (h : Issued procs opened)
    (hp : ∀ i p', procAt procs' i = some p' → p'.openHandles = 0 ∨
      ∃ p, procAt procs i = some p ∧ p'.openHandles = p.openHandles) : Issued procs' opened := by
  intro i p' hi n hn
  rcases hp i p' hi with hzero | ⟨p, hp, hsame⟩
  · omega
  · exact h i p hp n (hsame ▸ hn)

theorem Issued.set (h : Issued procs opened) (hp : procAt procs i = some p)
    (ho : p'.openHandles = p.openHandles) : Issued (procs.set i (some p')) opened := by
  refine h.evolve ?_
  intro j q hj
  exact .inr (proc_at_set_related (fun q' q => q'.openHandles = q.openHandles) (fun _ => rfl) hp
    ho j q hj)

theorem Issued.push (h : Issued procs opened) (ho : p.openHandles = 0) :
    Issued (procs ++ [some p]) opened := by
  refine h.evolve ?_
  intro i q hi
  rcases push_lookup hi with ⟨_, rfl⟩ | hi
  · exact .inl ho
  · exact .inr ⟨q, hi, rfl⟩

theorem Issued.sys_open (h : Issued procs opened) (hp : procAt procs i = some p) (fl : Nat) :
    Issued (procs.set i (some { p with openHandles := p.openHandles + 1 }))
      ((i, p.openHandles + 3, fl) :: opened) := by
  intro j q hj n hn
  rcases proc_at_replaced hp hj with ⟨rfl, rfl⟩ | ⟨_, hj⟩
  · rcases Nat.lt_succ_iff_lt_or_eq.mp hn with hlt | rfl
    · obtain ⟨fl', hmem⟩ := h _ p hp n hlt
      exact ⟨fl', List.mem_cons_of_mem _ hmem⟩
    · exact ⟨fl, List.mem_cons_self⟩
  · obtain ⟨fl', hmem⟩ := h j q hj n hn
    exact ⟨fl', List.mem_cons_of_mem _ hmem⟩

theorem began_invariant {k k₁ : Kernel} {op : KernelOp} (h : Invariant k) (hb : Began k op k₁) :
    Invariant k₁ := by
  unfold Invariant at h ⊢
  cases hb with
  | clearing => exact h
  | loading hc => exact h.set (get_process_proc hc).2 rfl
  | forkClearing | forkCopying => exact h.push rfl

theorem Issued.exit {k : Kernel} (h : Invariant k) (hc : k.getProcess = some (i, p))
    (m : Phymem) : Invariant (afterExit k i p m) := by
  refine Issued.evolve h ?_
  intro i p' hi
  exact .inr ⟨p', (proc_at_gone (get_process_proc hc).2 hi).1, rfl⟩

theorem step_invariant {k k' : Kernel} {op : KernelOp} (h : Invariant k)
    (hs : k.step op = some k') : Invariant k' := by
  unfold Invariant at h ⊢
  cases step_cases hs with
  | same | drew | added => exact h
  | created | forkedFull | forked => exact h.push rfl
  | loaded hc | replaced hc => exact h.set (get_process_proc hc).2 rfl
  | faulted hb _ hc => exact Issued.exit (began_invariant h hb) hc _
  | exited hop hc => exact Issued.exit h hc _
  | killed hc hne =>
    refine h.evolve ?_
    intro i p' hi
    exact .inr ⟨p', (proc_at_unmasked hi).1, rfl⟩
  | switched hp hi => exact h.set hp rfl
  | recorded hc hp =>
    obtain ⟨table, handles, rfl⟩ := post_allocation_shape hp
    exact h.set (get_process_proc hc).2 rfl
  | opened hc hlt => exact h.sys_open (get_process_proc hc).2 _

theorem boot_invariant {k : Kernel} (h : Kernel.boot stop memory = some k) : Invariant k := by
  obtain ⟨m, _, rfl⟩ := Option.map_eq_some_iff.mp h
  intro i p hp
  cases hp

/-- An entry in use belongs to a descriptor that was returned. -/
theorem Unissued.outside {k : Kernel} (h : Unissued k i fd) (hk : Invariant k)
    (hp : procAt k.procs i = some p) : ¬ (0 ≤ fd - 3 ∧ fd - 3 < p.openHandles) := by
  rintro ⟨hlow, hhigh⟩
  obtain ⟨fl, hmem⟩ := hk i p hp (fd - 3).toNat (by omega)
  exact h _ fl hmem (by omega)

/-- Of the calls with a descriptor that no open has returned to the process, each that
does not take it for its own looks at an entry that is not in use, whatever its other
arguments are; no descriptor is the own one of all three. -/
theorem unissued_never_harmless (stop : Nat) (memory : Nat → Nat) (k₀ k : Kernel)
    (ops : List KernelOp) (h : Nat) (p : Process) (workdir : Nat) (fd : Int)
    (hboot : Kernel.boot stop memory = some k₀) (hrun : run Kernel.step k₀ ops = some k)
    (hp : k.getProcess = some (h, p)) (hfd : Unissued k h fd) :
    (∀ call, fd ≠ own call → ¬ Harmless p (k.fdCall p workdir fd call)) ∧
      ¬ ∀ call, Harmless p (k.fdCall p workdir fd call) := by
  have hinv : Invariant k :=
    run_keeps (I := Invariant) hrun (boot_invariant hboot) (fun _ _ _ => step_invariant)
  have hout := hfd.outside hinv (get_process_proc hp).2
  have hother : ∀ call, fd ≠ own call → ¬ Harmless p (k.fdCall p workdir fd call) := by
    intro call hne hharmless
    exact hout (hharmless.within (fd - 3) (fd_call_entry k p workdir hne))
  refine ⟨hother, fun hall => ?_⟩
  by_cases hzero : fd = 0
  · exact hother (.write 0 0) (by simp [own, hzero]) (hall _)
  · exact hother (.read 0 0) hzero (hall _)

/-- A process that has opened nothing. -/
def oneProcess : List KernelOp :=
  [.createNewProcess 1 none, .schedulerAddProcess 0, .schedulerSwitch]

theorem unissued_never_harmless_first :
    ∃ k p, run Kernel.step smallKernel oneProcess = some k ∧ k.getProcess = some (0, p) ∧
      Unissued k 0 0 ∧ Harmless p (k.sysRead p 0 0 0) ∧ ¬ Harmless p (k.sysWrite p 0 0 0) ∧
      ¬ Harmless p (k.sysReaddir p 0 0) := by
  obtain ⟨k, hrun, p, hp, ho⟩ : ∃ k, run Kernel.step smallKernel oneProcess = some k ∧
      ∃ p, k.getProcess = some (0, p) ∧ k.opened = [] := ⟨_, rfl, _, rfl, rfl⟩
  have hfd : Unissued k 0 0 := by
    intro n fl hmem
    rw [ho] at hmem
    cases hmem
  obtain ⟨hother, -⟩ := unissued_never_harmless 0x31b000 (fun _ => 0) smallKernel k oneProcess 0 p 0
    0 rfl hrun hp hfd
  refine ⟨k, p, hrun, hp, hfd, ⟨.inr rfl, ?_⟩, hother (.write 0 0) (by decide),
    hother .readdir (by decide)⟩
  intro index hentry
  cases hentry

/-- With nothing open, a read from descriptor 3 takes whatever word lies where the
entries would be. -/
theorem read_unopened :
    ¬ ∀ (stop : Nat) (memory : Nat → Nat) (k₀ k : Kernel) (ops : List KernelOp) (h : Nat)
      (p : Process) (workdir : Nat) (fd : Int), Kernel.boot stop memory = some k₀ →
      run Kernel.step k₀ ops = some k → k.getProcess = some (h, p) → Unissued k h fd →
      ∀ call, Harmless p (k.fdCall p workdir fd call) := by
  intro hall
  have hharmless := hall 0x31b000 (fun _ => 0) smallKernel _ oneProcess 0 _ 0 3 rfl rfl rfl
    (by rintro n fl ⟨⟩) (.read 0x400000 1)
  have hbound := (hharmless.within 0 rfl).2
  exact absurd hbound (by decide)

end Levos.Proofs.Descriptors
