import Levos.Proofs.Scheduling
import Levos.Proofs.Syscalls

namespace Levos.Proofs.Calls
open Levos Levos.Library Levos.Proofs.Kernel Levos.Proofs.Syscalls
open Levos.Syscalls (State Op Pc)

/-! A call that nobody interrupts. -/

/-- `sys_fork` and the five times it goes on behind a `malloc` or `free`. -/
def forkCall (i palloc : Nat) : List Op :=
  .fork i palloc :: List.replicate 4 (.resume i palloc) ++ [.resume i palloc]

/-- `sys_execve` with so many calls of `malloc` and `free` before `elf_start`. -/
def execveCall (i size mallocs palloc : Nat) : List Op :=
  .execve i size mallocs palloc :: List.replicate mallocs (.resume i palloc)

section Alone

variable {s s' : State} {p : Syscalls.Process}

/-- The call has made its child and copied the image, and has yet to copy the stack. -/
def halfway (s : State) (i palloc : Nat) (p : Syscalls.Process) : State :=
  { s with
    procs := s.procs ++ [⟨s.lastpid, p.execLen, p.execLen, palloc, palloc, none, 0⟩]
    threads := s.threads ++ [⟨s.procs.length, 0, none⟩]
    lastpid := (s.lastpid + 1) % 2 ^ 8
    parent := some i
    child := some s.procs.length
    t := some s.threads.length
    pc := Function.update s.pc i (.stack s.procs.length)
    image := Function.update s.image palloc (some (i, min p.pallocLen p.execLen)) }

theorem fork_halfway (hi : i ∈ s.table) (hpc : s.pc i = .user) (hp : s.procs[i]? = some p)
    (palloc : Nat) :
    run State.step s (.fork i palloc :: List.replicate 4 (.resume i palloc)) =
      some (halfway s i palloc p) := by
  have hold (q : Syscalls.Process) : (s.procs ++ [q])[i]? = some p := by
    rw [List.getElem?_append_left (List.getElem?_eq_some_iff.mp hp).1, hp]
  simp [List.replicate_succ, run, State.step, Op.process, hi, State.act, hpc, State.sysFork, hp,
    State.goto, State.resume, State.copyImage, hold, State.makeThread, halfway]

/-- The struct of the child when the call returns. -/
def childOf (s : State) (p : Syscalls.Process) (palloc : Nat) : Syscalls.Process :=
  ⟨s.lastpid, p.execLen, p.execLen, palloc, palloc, some s.threads.length, 1⟩

/-- What the call leaves behind. -/
structure Forked (s : State) (p : Syscalls.Process) (palloc : Nat) (s' : State) : Prop where
  procs : s'.procs = s.procs ++ [childOf s p palloc]
  lastpid : s'.lastpid = (s.lastpid + 1) % 2 ^ 8
  table : s'.table =
    if s.table.length < maxProcesses then s.table ++ [s.procs.length] else s.table
  threads : ∃ t, s'.threads = s.threads ++ [t]
  pc : s'.pc = s.pc

/-- A thread that is there keeps its `stackbot` when others come. -/
theorem stackbot_append (h : s.stackbot p = some b) (hs : s'.threads = s.threads ++ ts) :
    s'.stackbot p = some b := by
  obtain ⟨th, hth, hb⟩ := Option.map_eq_some_iff.mp h
  obtain ⟨t, ht, hget⟩ := Option.bind_eq_some_iff.mp hth
  have hlt := (List.getElem?_eq_some_iff.mp hget).1
  simp only [State.stackbot, ht, Option.bind_some, hs, List.getElem?_append_left hlt, hget,
    Option.map_some, hb]

theorem record_keeps (s : State) (i own pid : Nat) :
    (s.record i own pid).procs = s.procs ∧ (s.record i own pid).lastpid = s.lastpid ∧
      (s.record i own pid).table = s.table ∧ (s.record i own pid).threads = s.threads ∧
      (s.record i own pid).pc = s.pc := by
  unfold State.record
  split <;> exact ⟨rfl, rfl, rfl, rfl, rfl⟩

/-- The child has its thread, and the caller is back. -/
def handed (s : State) (i palloc : Nat) (p : Syscalls.Process) (b : Nat) : State :=
  { halfway s i palloc p with
    procs := s.procs ++ [childOf s p palloc]
    threads := s.threads ++ [⟨s.procs.length, 0, some (b, i)⟩]
    pc := Function.update s.pc i .user }

theorem fork_finish (hp : s.procs[i]? = some p) (hb : s.stackbot p = some b) (hne : b ≠ 0)
    (palloc : Nat) :
    (halfway s i palloc p).finishFork i s.procs.length =
      some (((handed s i palloc p b).schedulerAddProcess s.procs.length).record i s.procs.length
        s.lastpid) := by
  have hbot : (halfway s i palloc p).stackbot p = some b := stackbot_append hb rfl
  have hold (q : Syscalls.Process) : (s.procs ++ [q])[i]? = some p := by
    rw [List.getElem?_append_left (List.getElem?_eq_some_iff.mp hp).1, hp]
  have hcaller : (halfway s i palloc p).parent.bind ((halfway s i palloc p).procs[·]?) = some p :=
    hold _
  have hmade : (halfway s i palloc p).procs[s.procs.length]? =
      some ⟨s.lastpid, p.execLen, p.execLen, palloc, palloc, none, 0⟩ :=
    List.getElem?_concat_length
  have hthread : (halfway s i palloc p).threads[s.threads.length]? =
      some ⟨s.procs.length, 0, none⟩ :=
    List.getElem?_concat_length
  have hchild : (halfway s i palloc p).child = some s.procs.length := rfl
  have ht : (halfway s i palloc p).t = some s.threads.length := rfl
  simp only [State.finishFork, hcaller, hchild, ht, hbot, hmade, hthread, if_neg hne]
  simp [State.goto, halfway, handed, childOf]

theorem fork_call (hi : i ∈ s.table) (hpc : s.pc i = .user) (hp : s.procs[i]? = some p)
    (hb : s.stackbot p = some b) (hne : b ≠ 0) (palloc : Nat) :
    ∃ s', run State.step s (forkCall i palloc) = some s' ∧ Forked s p palloc s' := by
  have hlast : (halfway s i palloc p).step (.resume i palloc) =
      (halfway s i palloc p).finishFork i s.procs.length := by
    simp [State.step, Op.process, State.act, State.resume, halfway, hi]
  refine ⟨((handed s i palloc p b).schedulerAddProcess s.procs.length).record i s.procs.length
    s.lastpid, ?_, ?_⟩
  · rw [forkCall, run_append, fork_halfway hi hpc hp, Option.bind_some]
    exact run_single (hlast.trans (fork_finish hp hb hne palloc))
  · obtain ⟨hprocs, hlastpid, htable, hthreads, hpcs⟩ :=
      record_keeps ((handed s i palloc p b).schedulerAddProcess s.procs.length) i s.procs.length
        s.lastpid
    obtain ⟨hprocs', hthreads', -, hpcs', -⟩ := add_keeps (handed s i palloc p b) s.procs.length
    refine ⟨hprocs.trans hprocs', hlastpid.trans ?_, htable.trans ?_,
      ⟨_, hthreads.trans hthreads'⟩, hpcs.trans (hpcs'.trans ?_)⟩
    · unfold State.schedulerAddProcess
      split <;> rfl
    · exact apply_ite State.table _ _ _
    · exact (congrArg (Function.update s.pc i) hpc.symm).trans (Function.update_eq_self i s.pc)

/-- The image of `size` bytes is loaded, and the caller is back. -/
def started (s : State) (i size palloc : Nat) (p : Syscalls.Process) : State :=
  { s with
    procs := s.procs.set i
      { p with execLen := size, pallocLen := size, palloc := palloc, paged := palloc }
    esize := size
    pc := Function.update s.pc i .user
    image := Function.update s.image palloc none
    starts := ⟨i, size, size⟩ :: s.starts }

/-- From inside `sys_execve`, with calls of `malloc` and `free` left. -/
theorem loading_call (hi : i ∈ s.table) (hp : s.procs[i]? = some p) (size palloc mallocs : Nat) :
    run State.step ({ s with esize := size }.goto i (.loading size (mallocs + 1)))
        (List.replicate (mallocs + 1) (.resume i palloc)) =
      some (started s i size palloc p) := by
  induction mallocs with
  | zero =>
    refine run_single ?_
    simp [State.step, Op.process, State.act, State.resume, State.goto, hi, State.elfStart, hp,
      started]
  | succ mallocs ih =>
    have hstep :
        ({ s with esize := size }.goto i (.loading size (mallocs + 2))).step (.resume i palloc) =
          some ({ s with esize := size }.goto i (.loading size (mallocs + 1))) := by
      simp [State.step, Op.process, State.act, State.resume, State.goto, hi]
    rw [List.replicate_succ, run, hstep]
    exact ih

theorem execve_call (hi : i ∈ s.table) (hpc : s.pc i = .user) (hp : s.procs[i]? = some p)
    (hsize : size ≠ 0) (mallocs palloc : Nat) :
    run State.step s (execveCall i size mallocs palloc) = some (started s i size palloc p) := by
  cases mallocs with
  | zero =>
    refine run_single ?_
    simp [State.step, Op.process, hi, State.act, hpc, State.sysExecve, hsize, State.elfStart,
      State.goto, hp, started]
  | succ mallocs =>
    have hstep : s.step (.execve i size (mallocs + 1) palloc) =
        some ({ s with esize := size }.goto i (.loading size (mallocs + 1))) := by
      simp [State.step, Op.process, hi, State.act, hpc, State.sysExecve, hsize]
    rw [execveCall, run, hstep]
    exact loading_call hi hp size palloc mallocs

end Alone

/-! The kernel and the model of the calls. -/

/-- The fields the two structs share. -/
structure Keeps (p : Process) (q : Syscalls.Process) : Prop where
  pid : p.pid = q.pid
  execLen : p.execLen = q.execLen
  pallocLen : p.pallocLen = q.pallocLen
  palloc : p.palloc = q.palloc
  threadslen : p.threadslen = q.threadslen

/-- Both models are in the same state, nobody is inside a call, and the first `n` processes
have a stack that can be copied. -/
structure Agree (n : Nat) (procs : List (Option Process)) (processes : List (Option Nat))
    (lastpid : Nat) (current : Option Nat) (s : State) : Prop where
  length : procs.length = s.procs.length
  structs : ∀ h p, procAt procs h = some p → ∃ q, s.procs[h]? = some q ∧ Keeps p q
  counter : lastpid = s.lastpid
  slots : processes.length = maxProcesses
  table : (processes.filterMap id).Perm s.table
  running : ∀ h, current = some h → some h ∈ processes
  idle : ∀ i, s.pc i = .user
  seated : ∀ i < n, ∃ q b, s.procs[i]? = some q ∧ s.stackbot q = some b ∧ b ≠ 0

def Alike (n : Nat) (k : Kernel) (s : State) : Prop :=
  Agree n k.procs k.processes k.lastpid k.current s

section Steps

variable {procs : List (Option Process)} {processes : List (Option Nat)} {current : Option Nat}
  {s s' : State} {p p' : Process}

theorem Agree.mem_table (ha : Agree n procs processes lastpid current s)
    (hc : current = some h) : h ∈ s.table := by
  refine ha.table.mem_iff.mp (List.mem_filterMap.mpr ⟨some h, ha.running h hc, rfl⟩)

/-- There is room on the one table if there is on the other. -/
theorem Agree.room_iff (ha : Agree n procs processes lastpid current s) :
    s.table.length < maxProcesses ↔ none ∈ processes := by
  rw [← ha.table.length_eq, ← ha.slots, List.length_filterMap_lt_length_iff_exists]
  simp

/-- A struct changes in fields that are not shared. -/
theorem Agree.update (ha : Agree n procs processes lastpid current s)
    (hp : procAt procs h = some p) (hpid : p'.pid = p.pid) (hexec : p'.execLen = p.execLen)
    (hlen : p'.pallocLen = p.pallocLen) (hpalloc : p'.palloc = p.palloc)
    (hthreads : p'.threadslen = p.threadslen)
    (hrunning : ∀ h, current' = some h → some h ∈ processes) :
    Agree n (procs.set h (some p')) processes lastpid current' s := by
  refine ⟨by rw [List.length_set, ha.length], ?_, ha.counter, ha.slots, ha.table, hrunning,
    ha.idle, ha.seated⟩
  intro i r hr
  rcases proc_at_replaced hp hr with ⟨rfl, rfl⟩ | ⟨-, hr⟩
  · obtain ⟨q, hq, hkeeps⟩ := ha.structs i p hp
    exact ⟨q, hq, hpid.trans hkeeps.pid, hexec.trans hkeeps.execLen, hlen.trans hkeeps.pallocLen,
      hpalloc.trans hkeeps.palloc, hthreads.trans hkeeps.threadslen⟩
  · exact ha.structs i r hr

theorem Agree.start (ha : Agree n procs processes lastpid (some h) s)
    (hp : procAt procs h = some p) (hq : s.procs[h]? = some q)
    (hk : Keeps p'
      { q with execLen := size, pallocLen := size, palloc := palloc, paged := palloc }) :
    Agree n (procs.set h (some p')) processes lastpid (some h) (started s h size palloc q) := by
  refine ⟨by simp [started, ha.length], ?_, ha.counter, ha.slots, ha.table, ha.running, ?_, ?_⟩
  · intro i r hr
    rcases proc_at_replaced hp hr with ⟨rfl, rfl⟩ | ⟨hne, hr⟩
    · exact ⟨_, List.getElem?_set_self (List.getElem?_eq_some_iff.mp hq).1, hk⟩
    · obtain ⟨q', hq', hkeeps⟩ := ha.structs i r hr
      exact ⟨q', (List.getElem?_set_ne (Ne.symm hne)).trans hq', hkeeps⟩
  · intro i
    by_cases hi : i = h
    · subst hi
      exact Function.update_self _ _ _
    · exact (Function.update_of_ne hi _ _).trans (ha.idle i)
  · intro i hi
    obtain ⟨q', b, hq', hb, hne⟩ := ha.seated i hi
    by_cases hih : i = h
    · subst hih
      cases hq.symm.trans hq'
      exact ⟨_, b, List.getElem?_set_self (List.getElem?_eq_some_iff.mp hq).1, hb, hne⟩
    · exact ⟨q', b, (List.getElem?_set_ne (Ne.symm hih)).trans hq', hb, hne⟩

/-- The child is made on both sides. -/
theorem Agree.push (ha : Agree n procs processes lastpid current s)
    (hf : Forked s q palloc s') (hk : Keeps p' (childOf s q palloc))
    (hslots : processes'.length = maxProcesses) (htable : (processes'.filterMap id).Perm s'.table)
    (hrunning : ∀ h, current = some h → some h ∈ processes') :
    Agree n (procs ++ [some p']) processes' ((lastpid + 1) % 2 ^ 8) current s' := by
  have hlen := ha.length
  refine ⟨by rw [hf.procs]; simp [hlen], ?_, by rw [hf.lastpid, ha.counter], hslots, htable,
    hrunning, fun i => by rw [hf.pc, ha.idle i], ?_⟩
  · intro i r hr
    rw [hf.procs]
    rcases push_lookup hr with ⟨rfl, rfl⟩ | hr
    · exact ⟨_, by rw [hlen, List.getElem?_concat_length], hk⟩
    · obtain ⟨q', hq', hkeeps⟩ := ha.structs i r hr
      exact ⟨q', (List.getElem?_append_left (hlen ▸ proc_at_lt hr)).trans hq', hkeeps⟩
  · intro i hi
    obtain ⟨q', b, hq', hb, hne⟩ := ha.seated i hi
    obtain ⟨t, ht⟩ := hf.threads
    refine ⟨q', b, ?_, stackbot_append hb ht, hne⟩
    rw [hf.procs, List.getElem?_append_left (List.getElem?_eq_some_iff.mp hq').1, hq']

end Steps

variable {k k' : Kernel} {s : State}

/-- Calls that do not fault, made by processes that have a stack, and what changes no field
the calls use. -/
def Called (n : Nat) (k : Kernel) (op : KernelOp) : Prop :=
  (k.effect op).fault = false ∧ match op with
    | .sysFork _ => ∃ i < n, k.current = some i
    | .elfStart img _ => img.esize ≠ 0
    | .schedulerSwitch | .postAllocation _ | .sysOpen _ _ => True
    | _ => False

theorem Alike.caller (ha : Alike n k s) (hg : k.getProcess = some (i, p)) :
    k.current = some i ∧ procAt k.procs i = some p ∧ i ∈ s.table ∧
      ∃ q, s.procs[i]? = some q ∧ Keeps p q := by
  obtain ⟨hcur, hp⟩ := get_process_proc hg
  exact ⟨hcur, hp, Agree.mem_table ha hcur, Agree.structs ha i p hp⟩

/-- `elf_start` is the end of a `sys_execve`. -/
theorem Alike.execve (ha : Alike n k s) (hg : k.getProcess = some (i, p)) (hsize : size ≠ 0)
    (rest : PageDirectory) (palloc : Nat) :
    ∃ as s', run State.step s as = some s' ∧
      Agree n (k.procs.set i (some (loadedProcess p rest palloc size))) k.processes k.lastpid
        k.current s' := by
  obtain ⟨hcur, hp, hmem, q, hq, hkeeps⟩ := ha.caller hg
  refine ⟨execveCall i size 0 palloc, started s i size palloc q,
    execve_call hmem (Agree.idle ha i) hq hsize 0 palloc, ?_⟩
  unfold Alike at ha
  rw [hcur] at ha ⊢
  exact ha.start hp hq ⟨hkeeps.pid, rfl, rfl, rfl, hkeeps.threadslen⟩

/-- `sys_fork`, whether or not there is room for the child. -/
theorem Alike.fork (ha : Alike n k s) (hg : k.getProcess = some (i, p))
    (hseated : ∃ j < n, k.current = some j) (rest : PageDirectory) (palloc : Nat) :
    ∃ q s', run State.step s (forkCall i palloc) = some s' ∧ Forked s q palloc s' ∧
      Keeps (forkedProcess k rest palloc p.execLen) (childOf s q palloc) := by
  obtain ⟨hcur, hp, hmem, q, hq, hkeeps⟩ := ha.caller hg
  obtain ⟨j, hn, hj⟩ := hseated
  cases hcur.symm.trans hj
  obtain ⟨q', b, hq', hb, hne⟩ := Agree.seated ha i hn
  cases hq.symm.trans hq'
  obtain ⟨s', hrun, hforked⟩ := fork_call hmem (Agree.idle ha i) hq hb hne palloc
  exact ⟨q, s', hrun, hforked, Agree.counter ha, hkeeps.execLen, hkeeps.execLen, rfl, rfl⟩

/-- Every call of the kernel is an uninterrupted call in the model of the calls. -/
theorem step_called (ha : Alike n k s) (hc : Called n k op) (h : k.step op = some k') :
    ∃ as s', run State.step s as = some s' ∧ Alike n k' s' := by
  obtain ⟨hsmooth, hop⟩ := hc
  cases step_cases h with
  | same => exact ⟨[], s, rfl, ha⟩
  | drew | added | killed => exact hop.elim
  | created t hcreate => rcases hcreate with ⟨_, _, rfl⟩ | ⟨_, rfl⟩ <;> exact hop.elim
  | exited hexit => rcases hexit with rfl | rfl <;> exact hop.elim
  | faulted _ hfault =>
    rw [hsmooth] at hfault
    cases hfault
  | loaded hg | replaced hg => exact ha.execve hg hop _ _
  | forkedFull hg _ _ _ hfull =>
    obtain ⟨q, s', hrun, hf, hk⟩ := ha.fork hg hop _ _
    refine ⟨_, s', hrun, Agree.push ha hf hk (Agree.slots ha) ?_ (Agree.running ha)⟩
    rw [hf.table, if_neg (mt (Agree.room_iff ha).mp hfull)]
    exact Agree.table ha
  | forked hg _ _ _ hslot =>
    obtain ⟨q, s', hrun, hf, hk⟩ := ha.fork hg hop _ _
    refine ⟨_, s', hrun, Agree.push ha hf hk (by rw [List.length_set, Agree.slots ha]) ?_
      (fun j hj => mem_set_other hslot (Agree.running ha j hj))⟩
    rw [hf.table, if_pos ((Agree.room_iff ha).mpr (List.mem_of_getElem? hslot))]
    have hperm : ((k.processes.set _ (some k.procs.length)).filterMap id).Perm
        (k.procs.length :: k.processes.filterMap id) :=
      Slots.members_set_perm (s := ⟨k.processes, Agree.slots ha⟩) hslot k.procs.length
    rw [← Agree.length ha]
    exact hperm.trans (((Agree.table ha).cons _).trans (List.perm_append_singleton _ _).symm)
  | switched hp hslot =>
    refine ⟨[], s, rfl, Agree.update ha hp rfl rfl rfl rfl rfl ?_⟩
    rintro _ ⟨⟩
    exact List.mem_of_getElem? hslot
  | recorded hg hp =>
    obtain ⟨table, handles, rfl⟩ := post_allocation_shape hp
    exact ⟨[], s, rfl, Agree.update ha (get_process_proc hg).2 rfl rfl rfl rfl rfl
      (Agree.running ha)⟩
  | opened hg =>
    exact ⟨[], s, rfl, Agree.update ha (get_process_proc hg).2 rfl rfl rfl rfl rfl
      (Agree.running ha)⟩

/-- The struct of a process whose one thread has the same number. -/
def shownAs (i : Nat) : Option Process → Syscalls.Process
  | none => ⟨0, 0, 0, 0, 0, some i, 0⟩
  | some p => ⟨p.pid, p.execLen, p.pallocLen, p.palloc, p.palloc, some i, p.threadslen⟩

/-- The model of the calls in a state of the kernel in which nobody is inside a call. Each
process so far has a stack of its own. -/
def starting (k : Kernel) : State where
  procs := k.procs.mapIdx shownAs
  threads := k.procs.mapIdx (fun i _ => ⟨i, i + 1, none⟩)
  table := k.processes.filterMap id
  lastpid := k.lastpid
  parent := none
  child := none
  t := none
  esize := 0
  pc := fun _ => .user
  image := fun _ => none
  returns := []
  starts := []

theorem starting_alike (hb : Kernel.boot stop memory = some k₀)
    (hr : run Kernel.step k₀ ops = some k) : Alike k.procs.length k (starting k) := by
  obtain ⟨as, s, -, hf⟩ := Scheduling.kernel_run_followed hb hr
  refine ⟨by simp [starting], ?_, rfl, ?_, List.Perm.refl _, hf.running, fun _ => rfl, ?_⟩
  · intro h p hp
    have hget := Option.join_eq_some_iff.mp hp
    exact ⟨shownAs h (some p), by simp [starting, hget], rfl, rfl, rfl, rfl, rfl⟩
  · rw [hf.slots]
    exact s.processes.size
  · intro i hi
    refine ⟨shownAs i k.procs[i], i + 1, ?_, ?_, Nat.succ_ne_zero i⟩
    · simp [starting, List.getElem?_eq_getElem hi]
    · cases k.procs[i] <;> simp [State.stackbot, shownAs, starting, List.getElem?_eq_getElem hi]

/-- From any reachable state on, the calls that processes make there and that end without
a page fault do to the shared fields what they do in the model of the calls when nobody
interrupts them. -/
theorem kernel_calls_followed (hb : Kernel.boot stop memory = some k₀)
    (hr : run Kernel.step k₀ before = some k)
    (hg : Guarded Kernel.step (Called k.procs.length) k ops)
    (hr' : run Kernel.step k ops = some k') :
    ∃ as s, run State.step (starting k) as = some s ∧ Alike k.procs.length k' s :=
  run_simulated (fun _ _ _ _ => step_called) (starting_alike hb hr) hg hr'

/-- A process starts a program and is switched to again. -/
example :
    ∃ k, run Kernel.step smallKernel
        [.createNewProcess 1 none, .schedulerAddProcess 0, .schedulerSwitch] = some k ∧
      Guarded Kernel.step (Called k.procs.length) k
        [.elfStart ⟨0xC0000100, 5, 2, 0, []⟩ bootDirectory, .schedulerSwitch] := by
  refine ⟨_, rfl, ⟨by decide, by decide⟩, ?_⟩
  split
  · trivial
  · exact .single ⟨rfl, trivial⟩

end Levos.Proofs.Calls
