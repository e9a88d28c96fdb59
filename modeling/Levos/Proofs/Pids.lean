import Levos.Proofs.Kernel

namespace Levos.Proofs.Pids
open Levos.Library Levos.Proofs.Kernel

/-- The processes on the table have pairwise distinct pids. -/
def Distinct (k : Kernel) : Prop :=
  ∀ i j p q, some i ∈ k.processes → some j ∈ k.processes → procAt k.procs i = some p →
    procAt k.procs j = some q → p.pid = q.pid → i = j

/-- Between the creation of a process that is put on the table and that of any
process already there, the number of pids given out is no multiple of 256. A fork
that ends in a page fault puts nobody there. -/
def Guard (k : Kernel) : KernelOp → Prop
  | .schedulerAddProcess h => ∀ p, procAt k.procs h = some p → p.threadslen ≠ 0 →
      none ∈ k.processes → ∀ j q, some j ∈ k.processes → procAt k.procs j = some q →
      ¬ p.born ≡ q.born [MOD 256]
  | .sysFork f => (k.effect (.sysFork f)).fault = false → none ∈ k.processes →
      ∀ j q, some j ∈ k.processes → procAt k.procs j = some q → ¬ k.drawn ≡ q.born [MOD 256]
  | _ => True

theorem low_byte_succ (hc : lastpid = drawn % 256) : (lastpid + 1) % 2 ^ 8 = (drawn + 1) % 256 := by
  omega

/-- The pids and the counter follow the number of pids given out. -/
structure Lettered (procs : List (Option Process)) (lastpid drawn : Nat) : Prop where
  counter : lastpid = drawn % 256
  pid : ∀ i p, procAt procs i = some p → p.pid = p.born % 256

theorem Lettered.evolve (h : Lettered procs lastpid drawn)
    (hp : ∀ i p', procAt procs' i = some p' →
      ∃ p, procAt procs i = some p ∧ p'.pid = p.pid ∧ p'.born = p.born) :
    Lettered procs' lastpid drawn := by
  refine ⟨h.counter, ?_⟩
  intro i p' hi
  obtain ⟨p, hm, hpid, hborn⟩ := hp i p' hi
  rw [hpid, hborn]
  exact h.pid i p hm

theorem Lettered.push (h : Lettered procs lastpid drawn) (hpid : p.pid = lastpid)
    (hborn : p.born = drawn) :
    Lettered (procs ++ [some p]) ((lastpid + 1) % 2 ^ 8) (drawn + 1) := by
  refine ⟨low_byte_succ h.counter, ?_⟩
  intro i q hi
  rcases push_lookup hi with ⟨_, rfl⟩ | hi
  · rw [hpid, hborn]
    exact h.counter
  · exact h.pid i q hi

/-- A pid is the low byte of the number of pids given out before it. -/
structure Numbered (procs : List (Option Process)) (processes : List (Option Nat))
    (lastpid drawn : Nat) : Prop where
  counter : lastpid = drawn % 256
  pid : ∀ i p, procAt procs i = some p → p.pid = p.born % 256
  bound : ∀ i, some i ∈ processes → i < procs.length
  distinct : ∀ i j p q, some i ∈ processes → some j ∈ processes → procAt procs i = some p →
    procAt procs j = some q → p.pid = q.pid → i = j

def Invariant (k : Kernel) : Prop := Numbered k.procs k.processes k.lastpid k.drawn

theorem Numbered.lettered (h : Numbered procs processes lastpid drawn) :
    Lettered procs lastpid drawn := ⟨h.counter, h.pid⟩

/-- Structs that keep their pid and slots that only empty keep the numbering. -/
theorem Numbered.evolve (h : Numbered procs processes lastpid drawn)
    (hp : ∀ i p', procAt procs' i = some p' →
      ∃ p, procAt procs i = some p ∧ p'.pid = p.pid ∧ p'.born = p.born)
    (hs : ∀ i, some i ∈ processes' → some i ∈ processes)
    (hl : procs.length ≤ procs'.length) : Numbered procs' processes' lastpid drawn := by
  refine ⟨h.counter, (h.lettered.evolve hp).pid,
    fun i hi => Nat.lt_of_lt_of_le (h.bound i (hs i hi)) hl, ?_⟩
  intro i j p' q' hi hj hip hjq he
  obtain ⟨p, hpi, hpp, _⟩ := hp i p' hip
  obtain ⟨q, hqj, hqq, _⟩ := hp j q' hjq
  exact h.distinct i j p q (hs i hi) (hs j hj) hpi hqj (by rw [← hpp, ← hqq, he])

theorem set_keeps {procs : List (Option Process)} (hp : procAt procs h = some p)
    (hpid : p'.pid = p.pid) (hborn : p'.born = p.born) (i : Nat) (q' : Process)
    (hi : procAt (procs.set h (some p')) i = some q') :
    ∃ q, procAt procs i = some q ∧ q'.pid = q.pid ∧ q'.born = q.born :=
  proc_at_set_related (fun q' q => q'.pid = q.pid ∧ q'.born = q.born) (fun _ => ⟨rfl, rfl⟩) hp
    ⟨hpid, hborn⟩ i q' hi

theorem Numbered.set (h : Numbered procs processes lastpid drawn)
    (hp : procAt procs i = some p) (hpid : p'.pid = p.pid) (hborn : p'.born = p.born) :
    Numbered (procs.set i (some p')) processes lastpid drawn :=
  h.evolve (set_keeps hp hpid hborn) (fun _ hi => hi) (by simp)

/-- A new struct takes the next number; the table does not know it yet. -/
theorem Numbered.push (h : Numbered procs processes lastpid drawn)
    (hpid : p.pid = lastpid) (hborn : p.born = drawn) :
    Numbered (procs ++ [some p]) processes ((lastpid + 1) % 2 ^ 8) (drawn + 1) := by
  obtain ⟨hcounter, hpids⟩ := h.lettered.push hpid hborn
  refine ⟨hcounter, hpids, ?_, ?_⟩
  · intro i hi
    have := h.bound i hi
    simp only [List.length_append, List.length_singleton]
    omega
  · intro i j q r hi hj hq hr he
    have hib := h.bound i hi
    have hjb := h.bound j hj
    rcases push_lookup hq with ⟨rfl, _⟩ | hq
    · omega
    · rcases push_lookup hr with ⟨rfl, _⟩ | hr
      · omega
      · exact h.distinct i j q r hi hj hq hr he

/-- Putting a process on the table keeps the pids distinct exactly when its
number differs from every number there modulo 256. -/
theorem Numbered.place (h : Numbered procs processes lastpid drawn)
    (hp : procAt procs i = some p)
    (hg : ∀ j q, some j ∈ processes → procAt procs j = some q → ¬ p.born ≡ q.born [MOD 256]) :
    Numbered procs (processes.set n (some i)) lastpid drawn := by
  have hne : ∀ j q, some j ∈ processes → procAt procs j = some q → p.pid ≠ q.pid := by
    intro j q hj hq he
    rw [h.pid i p hp, h.pid j q hq] at he
    exact hg j q hj hq he
  refine ⟨h.counter, h.pid, ?_, ?_⟩
  · intro j hj
    rcases mem_set_slot hj with rfl | hj
    · exact proc_at_lt hp
    · exact h.bound j hj
  · intro a b q r ha hb hq hr he
    rcases mem_set_slot ha with hia | hia
    · rcases mem_set_slot hb with hib | hib
      · rw [hia, hib]
      · rw [hia, hp] at hq
        cases hq
        exact absurd he (hne b r hib hr)
    · rcases mem_set_slot hb with hib | hib
      · rw [hib, hp] at hr
        cases hr
        exact absurd he.symm (hne a q hia hq)
      · exact h.distinct a b q r hia hib hq hr he

theorem began_invariant {k k₁ : Kernel} {op : KernelOp} (h : Invariant k) (hb : Began k op k₁) :
    Invariant k₁ := by
  unfold Invariant at h ⊢
  cases hb with
  | clearing => exact h
  | loading hc => exact h.set (get_process_proc hc).2 rfl rfl
  | forkClearing | forkCopying => exact h.push rfl rfl

theorem Invariant.exit {k : Kernel} (h : Invariant k) (hc : k.getProcess = some (i, p))
    (m : Phymem) : Invariant (afterExit k i p m) := by
  refine Numbered.evolve h ?_ (fun i => mem_replace_slot) (by simp [afterExit])
  intro i p' hi
  exact ⟨p', (proc_at_gone (get_process_proc hc).2 hi).1, rfl, rfl⟩

theorem step_invariant {k k' : Kernel} {op : KernelOp} (h : Invariant k) (hg : Guard k op)
    (hs : k.step op = some k') : Invariant k' := by
  unfold Invariant at h ⊢
  cases step_cases hs with
  | same => exact h
  | drew => exact ⟨low_byte_succ h.counter, h.pid, h.bound, h.distinct⟩
  | created t => exact h.push rfl rfl
  | added hp ht hn hi =>
    exact h.place hp (hg _ hp ht (List.mem_of_getElem? hi))
  | loaded hc | replaced hc => exact h.set (get_process_proc hc).2 rfl rfl
  | forkedFull => exact h.push rfl rfl
  | forked hc hn ha _ hi =>
    refine (h.push (p := forkedProcess k _ _ _) rfl rfl).place
      ((proc_at_push _ _ _).trans (if_pos rfl)) ?_
    intro j q hj hq
    have hb := h.bound j hj
    rcases push_lookup hq with ⟨rfl, _⟩ | hq
    · omega
    · exact hg hn (List.mem_of_getElem? hi) j q hj hq
  | faulted hb _ hc => exact (began_invariant h hb).exit hc _
  | exited hop hc => exact Invariant.exit h hc _
  | killed hc hne =>
    refine h.evolve ?_ ?_ (by simp)
    · intro i p' hi
      exact ⟨p', (proc_at_unmasked hi).1, rfl, rfl⟩
    · intro i hi
      obtain ⟨slot, hm, he⟩ := List.mem_map.mp hi
      split at he
      · cases he
      · exact he ▸ hm
  | switched hp hi => exact h.set hp rfl rfl
  | recorded hc hp =>
    obtain ⟨table, handles, rfl⟩ := post_allocation_shape hp
    exact h.set (get_process_proc hc).2 rfl rfl
  | opened hc hlt => exact h.set (get_process_proc hc).2 rfl rfl

/-- A process placed against the guard shares its pid with one on the table. -/
theorem step_collision {k k' : Kernel} {op : KernelOp} (h : Invariant k) (hg : ¬ Guard k op)
    (hs : k.step op = some k') : ¬ Distinct k' := by
  intro hd
  cases hstep : step_cases hs with
  | same hadd hfork =>
    cases op with
    | schedulerAddProcess i =>
      exact hg (fun p hp ht hm => absurd hm (hadd i p rfl hp ht))
    | sysFork f => exact hfork f rfl
    | _ => exact hg trivial
  | drew => exact hg trivial
  | created t hop =>
    rcases hop with ⟨addr, fail, rfl⟩ | ⟨fail, rfl⟩ <;> exact hg trivial
  | added hp ht hn hi =>
    apply hg
    intro q hq _ _ j r hj hr hmod
    rw [hp] at hq
    cases hq
    have hpid := (h.pid _ _ hp).trans (Eq.trans hmod (h.pid j r hr).symm)
    have he := hd _ j _ r (mem_set_self hi) (mem_set_other hi hj) hp hr hpid
    exact hn (he ▸ hj)
  | forkedFull _ _ _ _ hfull => exact hg (fun _ hm => absurd hm hfull)
  | forked hc _ ha _ hi =>
    apply hg
    intro _ _ j r hj hr hmod
    have hb := h.bound j hj
    have hpid := h.counter.trans (Eq.trans hmod (h.pid j r hr).symm)
    have he := hd _ j _ r (mem_set_self hi) (mem_set_other hi hj)
      ((proc_at_push _ _ _).trans (if_pos rfl))
      ((proc_at_push _ _ _).trans ((if_neg (by omega)).trans hr)) hpid
    omega
  | faulted hb hn =>
    cases hb with
    | clearing | loading => exact hg trivial
    | forkClearing | forkCopying => exact hg (fun hf => absurd (hf.symm.trans hn) (by decide))
  | exited hop => rcases hop with rfl | rfl <;> exact hg trivial
  | _ => exact hg trivial

theorem boot_invariant {k : Kernel} (h : Kernel.boot stop memory = some k) : Invariant k := by
  obtain ⟨m, _, rfl⟩ := Option.map_eq_some_iff.mp h
  refine ⟨rfl, ?_, ?_, ?_⟩
  · intro i p hp
    cases hp
  · intro i hi
    exact absurd (List.eq_of_mem_replicate hi) (by simp)
  · intro i j p q hi
    exact absurd (List.eq_of_mem_replicate hi) (by simp)

/-- Over every run of the kernel the pids on the table stay distinct if and
only if no process is put there whose number differs from that of one already
there by a multiple of 256. -/
theorem pids_distinct_iff (stop : Nat) (memory : Nat → Nat) (k : Kernel) (ops : List KernelOp)
    (hboot : Kernel.boot stop memory = some k) (hrun : (run Kernel.step k ops).isSome) :
    Throughout Kernel.step Distinct k ops ↔ Guarded Kernel.step Guard k ops :=
  throughout_iff_guarded (boot_invariant hboot) (fun _ h => h.distinct)
    (fun _ _ _ => step_invariant) (fun _ _ _ => step_collision) hrun

theorem pids_distinct_two :
    Throughout Kernel.step Distinct smallKernel
      [.createNewProcess 1 none, .schedulerAddProcess 0, .createNewProcess 1 none,
        .schedulerAddProcess 1] := by
  refine (pids_distinct_iff 0x31b000 (fun _ => 0) smallKernel _ rfl (by decide)).mpr ?_
  refine .cons rfl trivial (.cons rfl ?_ (.cons rfl trivial (.single ?_)))
  · intro p _ _ _ j q hj
    exact absurd (List.eq_of_mem_replicate hj) (by simp)
  · intro p hp _ _ j q hj hq
    have hj0 : j = 0 := by
      rcases List.mem_cons.mp hj with he | hj
      · exact Option.some.inj he
      · exact absurd (List.eq_of_mem_replicate (n := 31) hj) (by simp)
    subst j
    cases hp
    cases hq
    decide

/-- One process is created, put on the table and killed by another. -/
def comeAndGo (n : Nat) : List KernelOp :=
  [.createNewProcess 1 none, .schedulerAddProcess (n + 1), .schedulerKillPid (n + 1)]

/-- Process 0 runs alone, after `n` others have come and gone. -/
structure Alone (k : Kernel) (n : Nat) : Prop where
  slots : k.processes = some 0 :: List.replicate 31 none
  first : ∃ p, procAt k.procs 0 = some p ∧ p.pid = 0
  running : k.current = some 0
  count : k.procs.length = n + 1
  counter : k.lastpid = (n + 1) % 256

/-- Process 0 and the newest process are on the table. -/
theorem Alone.add {k : Kernel} (h : Alone k n) :
    ∃ k', run Kernel.step k [.createNewProcess 1 none, .schedulerAddProcess (n + 1)] = some k' ∧
      k'.processes = some 0 :: some (n + 1) :: List.replicate 30 none ∧
      (∃ p, procAt k'.procs 0 = some p ∧ p.pid = 0) ∧ k'.current = some 0 ∧
      k'.procs.length = n + 2 ∧ k'.lastpid = (n + 2) % 256 ∧
      ∃ q, procAt k'.procs (n + 1) = some q ∧ q.pid = (n + 1) % 256 := by
  obtain ⟨p, hp, hpid⟩ := h.first
  have hnew : procAt (k.procs ++ [some { k.newProcess with threadslen := 1 }]) (n + 1) =
      some { k.newProcess with threadslen := 1 } :=
    (proc_at_push _ _ _).trans (if_pos h.count.symm)
  have hold : procAt (k.procs ++ [some { k.newProcess with threadslen := 1 }]) 0 = some p :=
    (proc_at_push _ _ _).trans ((if_neg (by rw [h.count]; omega)).trans hp)
  refine ⟨{ k.nextPid.pushProcess { k.newProcess with threadslen := 1 } with
    processes := some 0 :: some (n + 1) :: List.replicate 30 none }, ?_, rfl, ⟨p, hold, hpid⟩,
    h.running, ?_, ?_, _, hnew, h.counter⟩
  · simp only [run, Kernel.step, Kernel.effect, Kernel.createNewProcess, createNewThread,
      Effect.of]
    simp [Kernel.schedulerAddProcess, Kernel.proc, Kernel.nextPid, Kernel.pushProcess,
      Kernel.newProcess, maxThreads, h.slots, List.findIdx?_cons, List.replicate_succ]
    simp [Kernel.newProcess] at hnew
    rw [hnew]
    simp
  · simp [Kernel.pushProcess, Kernel.nextPid, h.count]
  · simp only [Kernel.pushProcess, Kernel.nextPid, h.counter]
    omega

theorem Alone.churn {k : Kernel} (h : Alone k n) (hn : n < 255) :
    ∃ k', run Kernel.step k (comeAndGo n) = some k' ∧ Alone k' (n + 1) := by
  obtain ⟨k1, hr, hslots, ⟨p, hp, hpid⟩, hcur, hlen, hlast, q, hq, hqpid⟩ := h.add
  have hkeep : k1.onTable (n + 1) 0 = false := by
    simp [Kernel.onTable, Kernel.pidAt, Kernel.proc, hp, hpid]
  refine ⟨{ k1 with
    processes := some 0 :: List.replicate 31 none
    procs := k1.procs.mapIdx (fun h q => if k1.onTable (n + 1) h then none else q) }, ?_, rfl,
    ⟨p, ?_, hpid⟩, hcur, ?_, hlast⟩
  rotate_left
  · rw [proc_at_mask, hkeep]
    exact hp
  · simp [hlen]
  have hsplit : comeAndGo n = [.createNewProcess 1 none, .schedulerAddProcess (n + 1)] ++
      [.schedulerKillPid (n + 1)] := rfl
  have hget : k1.getProcess = some (0, p) := by
    simp [Kernel.getProcess, hcur, Kernel.proc, hp]
  rw [Nat.mod_eq_of_lt (by omega)] at hqpid
  rw [hsplit, run_append, hr, Option.bind_some]
  simp only [run, Kernel.step, Kernel.effect, Kernel.schedulerKillPid, hget, hpid, Effect.of]
  simp [hslots, Kernel.pidAt, Kernel.proc, hp, hq, hpid, hqpid, List.replicate_succ]

theorem Alone.churns {k : Kernel} (h : Alone k 0) (n : Nat) (hn : n ≤ 255) :
    ∃ k', run Kernel.step k ((List.range n).flatMap comeAndGo) = some k' ∧ Alone k' n := by
  induction n with
  | zero => exact ⟨k, rfl, h⟩
  | succ n ih =>
    obtain ⟨k1, hr, ha⟩ := ih (by omega)
    obtain ⟨k2, hr2, ha2⟩ := ha.churn (by omega)
    refine ⟨k2, ?_, ha2⟩
    rw [List.range_succ, List.flatMap_append, run_append, hr, Option.bind_some]
    simpa using hr2

/-- Process 0 keeps its place while 255 others come and go; then the next one
is created and put on the table. -/
def wrapRun : List KernelOp :=
  ([.createNewProcess 1 none, .schedulerAddProcess 0, .schedulerSwitch] : List KernelOp) ++
    ((List.range 255).flatMap comeAndGo ++
      ([.createNewProcess 1 none, .schedulerAddProcess (255 + 1)] : List KernelOp))

/-- The 257th process is given the pid of the first while that one is still on
the table. -/
theorem pids_collide_after_256 :
    ¬ ∀ (stop : Nat) (memory : Nat → Nat) (k : Kernel) (ops : List KernelOp),
      Kernel.boot stop memory = some k → (run Kernel.step k ops).isSome →
      Throughout Kernel.step Distinct k ops := by
  intro h
  obtain ⟨k0, hk0⟩ : ∃ k0, run Kernel.step smallKernel
      [.createNewProcess 1 none, .schedulerAddProcess 0, .schedulerSwitch] = some k0 := ⟨_, rfl⟩
  have halone : Alone k0 0 := by
    cases hk0
    exact ⟨rfl, ⟨_, rfl, rfl⟩, rfl, rfl, rfl⟩
  obtain ⟨k1, hk1, ha⟩ := halone.churns 255 (Nat.le_refl _)
  obtain ⟨t, ht, hslots, ⟨p, hp, hpid⟩, _, _, hlast, q, hq, hqpid⟩ := ha.add
  have hrun : run Kernel.step smallKernel wrapRun = some t := by
    rw [wrapRun, run_append, hk0, Option.bind_some, run_append, hk1, Option.bind_some, ht]
  have hd := (h 0x31b000 (fun _ => 0) smallKernel wrapRun rfl (by rw [hrun]; rfl)).last hrun
  have he := hd 0 (255 + 1) p q (by simp [hslots]) (by simp [hslots]) hp hq (hpid.trans hqpid.symm)
  exact absurd he (by decide)

section Results

theorem began_lettered {k k₁ : Kernel} {op : KernelOp} (h : Lettered k.procs k.lastpid k.drawn)
    (hb : Began k op k₁) : Lettered k₁.procs k₁.lastpid k₁.drawn := by
  cases hb with
  | clearing => exact h
  | loading hc => exact h.evolve (set_keeps (get_process_proc hc).2 rfl rfl)
  | forkClearing | forkCopying => exact h.push rfl rfl

theorem exit_lettered {k : Kernel} (h : Lettered k.procs k.lastpid k.drawn)
    (hc : k.getProcess = some (i, p)) (m : Phymem) :
    Lettered (afterExit k i p m).procs k.lastpid k.drawn := by
  refine h.evolve ?_
  intro i p' hi
  exact ⟨p', (proc_at_gone (get_process_proc hc).2 hi).1, rfl, rfl⟩

theorem step_lettered {k k' : Kernel} {op : KernelOp} (h : Lettered k.procs k.lastpid k.drawn)
    (hs : k.step op = some k') : Lettered k'.procs k'.lastpid k'.drawn := by
  cases step_cases hs with
  | same | added => exact h
  | drew => exact ⟨low_byte_succ h.counter, h.pid⟩
  | created | forkedFull | forked => exact h.push rfl rfl
  | loaded hc | replaced hc => exact h.evolve (set_keeps (get_process_proc hc).2 rfl rfl)
  | faulted hb _ hc => exact exit_lettered (began_lettered h hb) hc _
  | exited hop hc => exact exit_lettered h hc _
  | killed hc hne =>
    refine h.evolve ?_
    intro i p' hi
    exact ⟨p', (proc_at_unmasked hi).1, rfl, rfl⟩
  | switched hp hi => exact h.evolve (set_keeps hp rfl rfl)
  | recorded hc hp =>
    obtain ⟨table, handles, rfl⟩ := post_allocation_shape hp
    exact h.evolve (set_keeps (get_process_proc hc).2 rfl rfl)
  | opened hc hlt => exact h.evolve (set_keeps (get_process_proc hc).2 rfl rfl)

theorem boot_lettered {k : Kernel} (h : Kernel.boot stop memory = some k) :
    Lettered k.procs k.lastpid k.drawn := by
  obtain ⟨m, _, rfl⟩ := Option.map_eq_some_iff.mp h
  refine ⟨rfl, ?_⟩
  intro i p hp
  cases hp

/-- One slot that was empty has the process now, and the others are as they were. -/
def PlacedIn (before after : List (Option Nat)) (h : Nat) : Prop :=
  ∃ i, before[i]? = some none ∧ after = before.set i (some h)

/-- The result tells whether the process was placed; if not, the table is unchanged. -/
structure Tells (k : Kernel) (h : Nat) : Prop where
  zero : (k.schedulerAddProcess h).2 = 0 ↔
    ¬ PlacedIn k.processes (k.schedulerAddProcess h).1.processes h
  unchanged : (k.schedulerAddProcess h).2 = 0 →
    (k.schedulerAddProcess h).1.processes = k.processes

theorem placed_in_ne (h : PlacedIn before after n) : after ≠ before := by
  obtain ⟨i, hi, rfl⟩ := h
  intro he
  have hslot := congrArg (·[i]?) he
  simp only [List.getElem?_set_self (slot_lt hi), hi] at hslot
  cases hslot

/-- In every reachable state the result of `scheduler_add_process` tells what it did if
and only if the process cannot be placed, or the number of pids given out before its
own is no multiple of 256. -/
theorem add_process_tells_iff (stop : Nat) (memory : Nat → Nat) (k₀ k : Kernel)
    (ops : List KernelOp) (h : Nat) (hboot : Kernel.boot stop memory = some k₀)
    (hrun : run Kernel.step k₀ ops = some k) :
    Tells k h ↔ ∀ p, k.proc h = some p → p.threadslen ≠ 0 → none ∈ k.processes →
      ¬ 256 ∣ p.born := by
  have hinv : Lettered k.procs k.lastpid k.drawn :=
    run_keeps (I := fun k => Lettered k.procs k.lastpid k.drawn) hrun (boot_lettered hboot)
      (fun _ _ _ => step_lettered)
  rcases add_cases k h with hs | ⟨p, i, hp, ht, -, hi, hs⟩
  · refine iff_of_true ⟨?_, fun _ => by rw [hs]⟩ ?_
    · rw [hs]
      exact iff_of_true rfl (fun hplaced => placed_in_ne hplaced rfl)
    · intro p hp ht hm
      exact absurd hm (add_full hp ht hs)
  · have hplaced : PlacedIn k.processes (k.schedulerAddProcess h).1.processes h := by
      rw [hs]
      exact ⟨i, hi, rfl⟩
    have hpid : (k.schedulerAddProcess h).2 = p.born % 256 := by
      rw [hs]
      exact hinv.pid h p hp
    constructor
    · intro htells q hq _ _ hdvd
      cases hp.symm.trans hq
      exact htells.zero.mp (by rw [hpid]; exact Nat.mod_eq_zero_of_dvd hdvd) hplaced
    · intro hborn
      have hne : (k.schedulerAddProcess h).2 ≠ 0 := by
        rw [hpid]
        intro hzero
        exact hborn p hp ht (List.mem_of_getElem? hi) (Nat.dvd_of_mod_eq_zero hzero)
      exact ⟨iff_of_false hne (not_not.mpr hplaced), fun hzero => absurd hzero hne⟩

/-- A second process is created, with the first one on the table. -/
def twoCreated : List KernelOp :=
  [.createNewProcess 1 none, .schedulerAddProcess 0, .createNewProcess 1 none]

theorem add_process_tells_second :
    ∃ k, run Kernel.step smallKernel twoCreated = some k ∧ Tells k 1 := by
  refine ⟨_, rfl, (add_process_tells_iff 0x31b000 (fun _ => 0) smallKernel _ twoCreated 1 rfl
    rfl).mpr ?_⟩
  intro p hp _ _
  cases hp
  decide

/-- The first process is placed, and the result is 0. -/
theorem first_process_result_zero :
    ¬ ∀ (stop : Nat) (memory : Nat → Nat) (k₀ k : Kernel) (ops : List KernelOp) (h : Nat),
      Kernel.boot stop memory = some k₀ → run Kernel.step k₀ ops = some k → Tells k h := by
  intro hall
  have htells := hall 0x31b000 (fun _ => 0) smallKernel _ [.createNewProcess 1 none] 0 rfl rfl
  exact htells.zero.mp rfl ⟨0, rfl, rfl⟩

end Results

end Levos.Proofs.Pids
