import Levos.Proofs.Kernel

namespace Levos.Proofs.Handles
open Levos.Library Levos.Proofs.Kernel

/-- Every descriptor an open returned to a process that can still run denotes
the file of that open. -/
def Denotes (k : Kernel) : Prop :=
  ∀ h fd fl p, (h, fd, fl) ∈ k.opened → some h ∈ k.processes → procAt k.procs h = some p →
    k.fileOf p fd = fl

/-- An open that succeeds is made while no other process on the table holds more
descriptors, and no process has a 33rd allocation recorded. -/
def Guard (k : Kernel) : KernelOp → Prop
  | .sysOpen flags (some _) => flags = Kernel.oRdonly → ∀ h p, k.getProcess = some (h, p) →
      p.openHandles < maxFilehandles → ∀ j q, j ≠ h → some j ∈ k.processes →
      procAt k.procs j = some q → q.openHandles ≤ p.openHandles
  | .postAllocation base => base ≠ 0 → ∀ h p, k.getProcess = some (h, p) →
      p.allocs ≠ maxAllocationsPerProcess
  | _ => True

/-- All descriptor tables are the same words of memory, from address 0 on: no
process is ever given a table of its own. -/
structure Shared (procs : List (Option Process)) (processes : List (Option Nat))
    (current : Option Nat) (memory : Nat → Nat) (opened : List (Nat × Nat × Nat)) : Prop where
  null : ∀ i p, procAt procs i = some p → p.filehandles = 0
  unused : ∀ i p, procAt procs i = some p → some i ∉ processes → p.openHandles = 0
  running : ∀ i, current = some i → some i ∈ processes
  bound : ∀ i fd fl, (i, fd, fl) ∈ opened → i < procs.length
  issued : ∀ i fd fl p, (i, fd, fl) ∈ opened → procAt procs i = some p →
    3 ≤ fd ∧ fd < p.openHandles + 3
  stored : ∀ i fd fl p, (i, fd, fl) ∈ opened → procAt procs i = some p →
    memory (4 * (fd - 3)) = fl

def Invariant (k : Kernel) : Prop :=
  Shared k.procs k.processes k.current k.memory k.opened

theorem Shared.denotes {k : Kernel} (h : Invariant k) : Denotes k := by
  intro i fd fl p hm _ hp
  unfold Kernel.fileOf
  rw [h.null i p hp, Nat.zero_add]
  exact h.stored i fd fl p hm hp

/-- Structs that keep their table and their count of descriptors, and slots
that are given up only together with their struct, change nothing. -/
theorem Shared.evolve (h : Shared procs processes current memory opened)
    (hp : ∀ i p', procAt procs' i = some p' → ∃ p, procAt procs i = some p ∧
      p'.filehandles = p.filehandles ∧ p'.openHandles = p.openHandles)
    (hs : ∀ i p', procAt procs' i = some p' → some i ∈ processes → some i ∈ processes')
    (hc : ∀ i, current' = some i → some i ∈ processes')
    (hl : procs.length ≤ procs'.length) :
    Shared procs' processes' current' memory opened := by
  refine ⟨?_, ?_, hc, fun i fd fl hm => Nat.lt_of_lt_of_le (h.bound i fd fl hm) hl, ?_, ?_⟩
  · intro i p' hi
    obtain ⟨p, hm, hf, _⟩ := hp i p' hi
    exact hf.trans (h.null i p hm)
  · intro i p' hi hn
    obtain ⟨p, hm, _, ho⟩ := hp i p' hi
    exact ho.trans (h.unused i p hm (fun hin => hn (hs i p' hi hin)))
  · intro i fd fl p' hm hi
    obtain ⟨p, hq, _, ho⟩ := hp i p' hi
    rw [ho]
    exact h.issued i fd fl p hm hq
  · intro i fd fl p' hm hi
    obtain ⟨p, hq, _, _⟩ := hp i p' hi
    exact h.stored i fd fl p hm hq

theorem set_keeps {procs : List (Option Process)} (hp : procAt procs h = some p)
    (hf : p'.filehandles = p.filehandles) (ho : p'.openHandles = p.openHandles) (i : Nat)
    (q' : Process) (hi : procAt (procs.set h (some p')) i = some q') :
    ∃ q, procAt procs i = some q ∧ q'.filehandles = q.filehandles ∧
      q'.openHandles = q.openHandles :=
  proc_at_set_related (fun q' q => q'.filehandles = q.filehandles ∧ q'.openHandles = q.openHandles)
    (fun _ => ⟨rfl, rfl⟩) hp ⟨hf, ho⟩ i q' hi

theorem Shared.set (h : Shared procs processes current memory opened)
    (hp : procAt procs i = some p) (hf : p'.filehandles = p.filehandles)
    (ho : p'.openHandles = p.openHandles) :
    Shared (procs.set i (some p')) processes current memory opened :=
  h.evolve (set_keeps hp hf ho) (fun _ _ _ hm => hm) h.running (by simp)

/-- A new struct has no table and no descriptors. -/
theorem Shared.push (h : Shared procs processes current memory opened)
    (hf : p.filehandles = 0) (ho : p.openHandles = 0) :
    Shared (procs ++ [some p]) processes current memory opened := by
  refine ⟨?_, ?_, h.running, ?_, ?_, ?_⟩
  · intro i q hi
    rcases push_lookup hi with ⟨_, rfl⟩ | hi
    · exact hf
    · exact h.null i q hi
  · intro i q hi hn
    rcases push_lookup hi with ⟨_, rfl⟩ | hi
    · exact ho
    · exact h.unused i q hi hn
  · intro i fd fl hm
    have := h.bound i fd fl hm
    simp only [List.length_append, List.length_singleton]
    omega
  · intro i fd fl q hm hi
    rcases push_lookup hi with ⟨rfl, _⟩ | hi
    · exact absurd (h.bound _ fd fl hm) (Nat.lt_irrefl _)
    · exact h.issued i fd fl q hm hi
  · intro i fd fl q hm hi
    rcases push_lookup hi with ⟨rfl, _⟩ | hi
    · exact absurd (h.bound _ fd fl hm) (Nat.lt_irrefl _)
    · exact h.stored i fd fl q hm hi

theorem Shared.place (h : Shared procs processes current memory opened)
    (hi : processes[n]? = some none) :
    Shared procs (processes.set n (some i)) current memory opened :=
  h.evolve (fun _ p hp => ⟨p, hp, rfl, rfl⟩) (fun _ _ _ => mem_set_other hi)
    (fun j hj => mem_set_other hi (h.running j hj)) (Nat.le_refl _)

/-- A process with the most handles open is asked for a descriptor above all that
were ever given out. -/
theorem Shared.issued_below (h : Shared procs processes current memory opened)
    (hp : procAt procs i = some p)
    (hg : ∀ j q, j ≠ i → some j ∈ processes → procAt procs j = some q →
      q.openHandles ≤ p.openHandles)
    (hm : (j, fd, fl) ∈ opened) (hq : procAt procs j = some q) :
    3 ≤ fd ∧ fd < p.openHandles + 3 := by
  obtain ⟨h3, hfd⟩ := h.issued j fd fl q hm hq
  refine ⟨h3, ?_⟩
  by_cases he : j = i
  · subst j
    rw [hp] at hq
    cases hq
    exact hfd
  · by_cases hin : some j ∈ processes
    · have := hg j q he hin hq
      omega
    · have := h.unused j q hq hin
      omega

/-- The store of an open hits no descriptor of a process that holds at most as
many, and none the opener already has. -/
theorem Shared.sys_open (h : Shared procs processes current memory opened)
    (hc : current = some i) (hp : procAt procs i = some p)
    (hg : ∀ j q, j ≠ i → some j ∈ processes → procAt procs j = some q →
      q.openHandles ≤ p.openHandles) :
    Shared (procs.set i (some { p with openHandles := p.openHandles + 1 })) processes current
      (Function.update memory (p.filehandles + 4 * p.openHandles) fl)
      ((i, p.openHandles + 3, fl) :: opened) := by
  have hrun := h.running i hc
  have hnull := h.null i p hp
  refine ⟨?_, ?_, h.running, ?_, ?_, ?_⟩
  · intro j q hj
    rcases proc_at_replaced hp hj with ⟨_, rfl⟩ | ⟨_, hj⟩
    · exact hnull
    · exact h.null j q hj
  · intro j q hj hn
    rcases proc_at_replaced hp hj with ⟨rfl, _⟩ | ⟨_, hj⟩
    · exact absurd hrun hn
    · exact h.unused j q hj hn
  · intro j fd fl' hm
    rw [List.length_set]
    rcases List.mem_cons.mp hm with he | hm
    · cases he
      exact proc_at_lt hp
    · exact h.bound j fd fl' hm
  · intro j fd fl' q hm hj
    rcases proc_at_replaced hp hj with ⟨rfl, rfl⟩ | ⟨hne, hj⟩
    · rcases List.mem_cons.mp hm with he | hm
      · cases he
        exact ⟨by omega, by simp only; omega⟩
      · obtain ⟨h3, hfd⟩ := h.issued _ fd fl' p hm hp
        exact ⟨h3, by simp only; omega⟩
    · rcases List.mem_cons.mp hm with he | hm
      · cases he
        exact absurd rfl hne
      · exact h.issued j fd fl' q hm hj
  · intro j fd fl' q hm hj
    rw [hnull, Nat.zero_add]
    rcases List.mem_cons.mp hm with he | hm
    · cases he
      rw [Nat.add_sub_cancel, Function.update_self]
    · have hold : ∃ q', procAt procs j = some q' := by
        rcases proc_at_replaced hp hj with ⟨rfl, _⟩ | ⟨_, hj⟩
        · exact ⟨p, hp⟩
        · exact ⟨q, hj⟩
      obtain ⟨q', hq'⟩ := hold
      obtain ⟨h3, hfd⟩ := h.issued_below hp hg hm hq'
      rw [Function.update_of_ne (by omega)]
      exact h.stored j fd fl' q' hm hq'

theorem post_allocation_table (h : postAllocation p base = some p')
    (ha : base ≠ 0 → p.allocs ≠ maxAllocationsPerProcess) :
    p'.filehandles = p.filehandles ∧ p'.openHandles = p.openHandles := by
  unfold postAllocation at h
  split at h
  · cases h
  · rename_i hbase
    split at h
    · cases h
    · rw [if_neg (ha hbase)] at h
      cases h
      exact ⟨rfl, rfl⟩

/-- A slot that `scheduler_kill_pid` does not clear keeps its process. -/
theorem mem_kill_other {k : Kernel} (hm : some i ∈ k.processes)
    (hne : k.onTable pid i = false) :
    some i ∈ k.processes.map (fun slot => if k.pidAt slot = some pid then none else slot) := by
  refine List.mem_map.mpr ⟨some i, hm, ?_⟩
  have hpid : k.pidAt (some i) ≠ some pid := by
    simpa [Kernel.onTable, hm] using hne
  simp only [hpid, ↓reduceIte]

theorem began_invariant {k k₁ : Kernel} {op : KernelOp} (h : Invariant k) (hb : Began k op k₁) :
    Invariant k₁ := by
  unfold Invariant at h ⊢
  cases hb with
  | clearing => exact h
  | loading hc => exact h.set (get_process_proc hc).2 rfl rfl
  | forkClearing | forkCopying => exact h.push rfl rfl

theorem Shared.exit {k : Kernel} (h : Invariant k) (hc : k.getProcess = some (i, p))
    (m : Phymem) : Invariant (afterExit k i p m) := by
  have hp := (get_process_proc hc).2
  refine Shared.evolve h ?_ ?_ (by simp [afterExit]) (by simp [afterExit])
  · intro i p' hi
    exact ⟨p', (proc_at_gone hp hi).1, rfl, rfl⟩
  · intro i p' hi hm
    exact mem_replace_other hm (proc_at_gone hp hi).2

theorem step_invariant {k k' : Kernel} {op : KernelOp} (h : Invariant k) (hg : Guard k op)
    (hs : k.step op = some k') : Invariant k' := by
  unfold Invariant at h ⊢
  cases step_cases hs with
  | same => exact h
  | drew => exact h
  | created t => exact h.push rfl rfl
  | added hp ht hn hi => exact h.place hi
  | loaded hc | replaced hc => exact h.set (get_process_proc hc).2 rfl rfl
  | forkedFull => exact h.push rfl rfl
  | forked hc _ ha _ hi => exact (h.push (p := forkedProcess k _ _ _) rfl rfl).place hi
  | faulted hb _ hc => exact Shared.exit (began_invariant h hb) hc _
  | exited hop hc => exact Shared.exit h hc _
  | killed hc hne =>
    obtain ⟨hcur, hp⟩ := get_process_proc hc
    refine h.evolve ?_ ?_ ?_ (by simp)
    · intro i p' hi
      exact ⟨p', (proc_at_unmasked hi).1, rfl, rfl⟩
    · intro i p' hi hm
      exact mem_kill_other hm (by simpa using (proc_at_unmasked hi).2)
    · intro i hi
      refine mem_kill_other (h.running i hi) ?_
      rw [hcur] at hi
      cases hi
      simp [Kernel.onTable, Kernel.pidAt, Kernel.proc, hp, Ne.symm hne]
  | switched hp hi =>
    refine h.evolve (set_keeps hp rfl rfl) (fun _ _ _ hm => hm) ?_ (by simp)
    intro j hj
    cases hj
    exact List.mem_of_getElem? hi
  | recorded hc hp =>
    obtain ⟨hf, ho⟩ := post_allocation_table hp (fun hbase => hg hbase _ _ hc)
    exact h.set (get_process_proc hc).2 hf ho
  | opened hc hlt hf =>
    obtain ⟨hcur, hp⟩ := get_process_proc hc
    exact h.sys_open hcur hp (hg hf _ _ hc hlt)

theorem boot_invariant {k : Kernel} (h : Kernel.boot stop memory = some k) : Invariant k := by
  obtain ⟨m, _, rfl⟩ := Option.map_eq_some_iff.mp h
  refine ⟨?_, ?_, ?_, ?_, ?_, ?_⟩
  · intro i p hp
    cases hp
  · intro i p hp
    cases hp
  · intro i hi
    cases hi
  · intro i fd fl hm
    cases hm
  · intro i fd fl p hm
    cases hm
  · intro i fd fl p hm
    cases hm

/-- In every run in which no open succeeds while another process holds more
descriptors, and no process has a 33rd allocation recorded, every descriptor
denotes its own file in every state. -/
theorem descriptors_denote (stop : Nat) (memory : Nat → Nat) (k : Kernel) (ops : List KernelOp)
    (hboot : Kernel.boot stop memory = some k) (hg : Guarded Kernel.step Guard k ops) :
    Throughout Kernel.step Denotes k ops :=
  (throughout_of_guarded (boot_invariant hboot) (fun _ _ _ => step_invariant) hg).mono
    (fun _ => Shared.denotes)

theorem descriptors_denote_two_files :
    Throughout Kernel.step Denotes smallKernel
      [.createNewProcess 1 none, .schedulerAddProcess 0, .createNewProcess 1 none,
        .schedulerAddProcess 1, .schedulerSwitch, .sysOpen 0 (some 0x1000),
        .sysOpen 0 (some 0x2000)] := by
  have hfew : ∀ k : Kernel, k.processes = some 0 :: some 1 :: List.replicate 30 none →
      k.current = some 1 → (∀ q, procAt k.procs 0 = some q → q.openHandles = 0) →
      ∀ flags fl, Guard k (.sysOpen flags (some fl)) := by
    intro k hslots hcur h0 flags fl _ h p hc _ j q hj hin hq
    rw [hslots] at hin
    rw [(get_process_proc hc).1, Option.some.injEq] at hcur
    rcases List.mem_cons.mp hin with he | hin
    · cases he
      rw [h0 q hq]
      exact Nat.zero_le _
    · rcases List.mem_cons.mp hin with he | hin
      · cases he
        exact absurd hcur.symm hj
      · exact absurd (List.eq_of_mem_replicate hin) (by simp)
  refine descriptors_denote 0x31b000 (fun _ => 0) smallKernel _ rfl
    (.cons rfl trivial (.cons rfl trivial (.cons rfl trivial (.cons rfl trivial
      (.cons rfl trivial (.cons rfl ?_ (.cons rfl ?_ trivial)))))))
  · exact hfew _ rfl rfl (fun q hq => by cases hq; rfl) _ _
  · exact hfew _ rfl rfl (fun q hq => by cases hq; rfl) _ _

/-- Two processes open a file each: the second open replaces the file behind
the first one's descriptor. -/
theorem descriptors_overwritten :
    ¬ ∀ stop memory k ops, Kernel.boot stop memory = some k →
      Throughout Kernel.step Denotes k ops := by
  intro h
  have hd := (h 0x31b000 (fun _ => 0) smallKernel
    [.createNewProcess 1 none, .schedulerAddProcess 0, .createNewProcess 1 none,
      .schedulerAddProcess 1, .schedulerSwitch, .sysOpen 0 (some 0x1000), .schedulerSwitch,
      .sysOpen 0 (some 0x2000)] rfl).last rfl
  have he := hd 1 3 0x1000 _ (by decide) (by decide) rfl
  exact absurd he (by decide)

end Levos.Proofs.Handles
