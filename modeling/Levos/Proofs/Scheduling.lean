import Levos.Proofs.Exits
import Levos.Proofs.Pids
import Levos.Switch

namespace Levos.Proofs.Scheduling
open Levos Levos.Library Levos.Proofs.Kernel Levos.Proofs.RoundRobin Levos.Proofs.Exits
open Levos.Scheduler (State)

/-- What the scheduler's model keeps of a struct, with its first `threadslen` threads. -/
structure Shows (p : Process) (q : Scheduler.Process) : Prop where
  last : p.lastthread = q.lastthread.toNat
  count : p.threadslen = q.threadslen
  pid : p.pid = q.pid.toNat
  filled : ∀ j, (q.threads.get j).isSome ↔ j < q.threadslen

/-- The structs of the two models, place by place. -/
structure Fits (procs : List (Option Process)) (shown : List (Option Scheduler.Process)) :
    Prop where
  length : procs.length = shown.length
  shows : ∀ h, Option.Rel Shows (procAt procs h) shown[h]?.join

/-- The scheduler is where the kernel is. After an exit the kernel has no running process,
where the scheduler's own variable keeps the old one. -/
structure Tracks (procs : List (Option Process)) (processes : List (Option Nat))
    (lastProcess lastpid : Nat) (current : Option Nat) (s : State) : Prop where
  slots : processes = s.processes.entries
  last : lastProcess = s.lastProcess.toNat
  lastpid : lastpid = s.lastpid.toNat
  procs : Fits procs s.procs
  selected : ∀ h, current = some h → s.current = some h
  running : ∀ h, current = some h → some h ∈ processes

def Follows (k : Kernel) (s : State) : Prop :=
  Tracks k.procs k.processes k.lastProcess k.lastpid k.current s

section Structs

variable {procs : List (Option Process)} {shown : List (Option Scheduler.Process)}

theorem Fits.found (hf : Fits procs shown) (hp : procAt procs h = some p) :
    ∃ q, shown[h]?.join = some q ∧ Shows p q := by
  have hrel := hf.shows h
  rw [hp] at hrel
  cases hq : shown[h]?.join with
  | none =>
    rw [hq] at hrel
    cases hrel
  | some q =>
    rw [hq] at hrel
    cases hrel with
    | some hshows => exact ⟨q, rfl, hshows⟩

theorem Fits.set (hf : Fits procs shown) (hlt : h < procs.length) (hrel : Option.Rel Shows a b) :
    Fits (procs.set h a) (shown.set h b) := by
  refine ⟨by simp [hf.length], fun i => ?_⟩
  rw [proc_at_set _ _ _ _ hlt]
  split
  · rename_i he
    subst he
    rw [List.getElem?_set_self (hf.length ▸ hlt), Option.join_some]
    exact hrel
  · rename_i hne
    rw [List.getElem?_set_ne (Ne.symm hne)]
    exact hf.shows i

/-- The other fields of a struct are not shown. -/
theorem Fits.update (hf : Fits procs shown) (hp : procAt procs h = some p)
    (hlast : p'.lastthread = p.lastthread) (hcount : p'.threadslen = p.threadslen)
    (hpid : p'.pid = p.pid) : Fits (procs.set h (some p')) shown := by
  refine ⟨by simp [hf.length], fun i => ?_⟩
  rw [proc_at_set _ _ _ _ (proc_at_lt hp)]
  split
  · rename_i he
    subst he
    obtain ⟨q, hq, hshows⟩ := hf.found hp
    rw [hq]
    exact .some ⟨hlast.trans hshows.last, hcount.trans hshows.count, hpid.trans hshows.pid,
      hshows.filled⟩
  · exact hf.shows i

theorem Fits.push (hf : Fits procs shown) (hshows : Shows p q) :
    Fits (procs ++ [some p]) (shown ++ [some q]) := by
  refine ⟨by simp [hf.length], fun i => ?_⟩
  rw [proc_at_push]
  split
  · rename_i he
    rw [he, hf.length, List.getElem?_concat_length, Option.join_some]
    exact .some hshows
  · rename_i hne
    rw [List.getElem?_append]
    split
    · exact hf.shows i
    · rename_i hlt
      have hout : ([some q] : List (Option Scheduler.Process))[i - shown.length]? = none :=
        List.getElem?_eq_none (by rw [List.length_singleton]; have := hf.length; omega)
      have hold := hf.shows i
      rw [List.getElem?_eq_none (by omega : shown.length ≤ i)] at hold
      rw [hout]
      exact hold

theorem Fits.mask (hf : Fits procs shown) (f : Nat → Bool) (g : Nat → Prop) [DecidablePred g]
    (hfg : ∀ i, f i = true ↔ g i) :
    Fits (procs.mapIdx (fun i q => if f i then none else q))
      (shown.mapIdx (fun i q => if g i then none else q)) := by
  refine ⟨by simp [hf.length], fun i => ?_⟩
  rw [proc_at_mask, List.getElem?_mapIdx]
  have hold := hf.shows i
  by_cases hg : g i
  · rw [if_pos ((hfg i).mpr hg)]
    cases shown[i]? with
    | none => exact .none
    | some q => simp [hg]
  · rw [if_neg (fun h => hg ((hfg i).mp h))]
    cases hq : shown[i]? with
    | none => simpa [hq] using hold
    | some q => simpa [hq, hg] using hold

end Structs

section Moves

variable {procs : List (Option Process)} {processes : List (Option Nat)}
  {lastProcess lastpid : Nat} {current : Option Nat} {s : State} {p p' : Process}

theorem succ_to_nat {b : UInt8} (h : n = b.toNat) : (n + 1) % 2 ^ 8 = (b + 1).toNat := by
  rw [h]
  exact (UInt8.toNat_add b 1).symm

theorem Tracks.update (ht : Tracks procs processes lastProcess lastpid current s)
    (hp : procAt procs h = some p) (hlast : p'.lastthread = p.lastthread)
    (hcount : p'.threadslen = p.threadslen) (hpid : p'.pid = p.pid) :
    Tracks (procs.set h (some p')) processes lastProcess lastpid current s :=
  ⟨ht.slots, ht.last, ht.lastpid, ht.procs.update hp hlast hcount hpid, ht.selected,
    ht.running⟩

theorem Tracks.push (ht : Tracks procs processes lastProcess lastpid current s)
    (hlast : p.lastthread = 0) (hcount : p.threadslen = 0) (hpid : p.pid = lastpid) :
    Tracks (procs ++ [some p]) processes lastProcess ((lastpid + 1) % 2 ^ 8) current
      s.createNewProcessNothread := by
  refine ⟨ht.slots, ht.last, succ_to_nat ht.lastpid,
    ht.procs.push ⟨hlast, hcount, hpid.trans ht.lastpid, fun j => ?_⟩, ht.selected, ht.running⟩
  simp only [Slots.get, Slots.empty, List.getElem?_replicate]
  split <;> simp

/-- The new struct has the next place. -/
theorem Tracks.pushThread (ht : Tracks procs processes lastProcess lastpid current s)
    (hlast : p.lastthread = 0) (hcount : p.threadslen = 1) (hpid : p.pid = lastpid) :
    ∃ s', s.createNewProcess true = some s' ∧
      Tracks (procs ++ [some p]) processes lastProcess ((lastpid + 1) % 2 ^ 8) current s' := by
  have hnew : s.createNewProcessNothread.proc s.procs.length =
      some ⟨0, 0, .empty maxThreads Nat, s.lastpid⟩ := by
    simp [State.proc, State.createNewProcessNothread]
  have hcreate : s.createNewProcess true = some
      { s with
        procs := s.procs ++ [some ⟨0, 1, (Slots.empty maxThreads Nat).set 0 (some s.threads),
          s.lastpid⟩]
        lastpid := s.lastpid + 1
        threads := s.threads + 1 } := by
    simp only [State.createNewProcess, State.createNewThread, hnew, if_true]
    simp [State.setProc, State.createNewProcessNothread, maxThreads]
  refine ⟨_, hcreate, ht.slots, ht.last, succ_to_nat ht.lastpid,
    ht.procs.push ⟨hlast, hcount, hpid.trans ht.lastpid, fun j => ?_⟩, ht.selected, ht.running⟩
  cases j with
  | zero => simp [Slots.get, Slots.set, Slots.empty, maxThreads]
  | succ j =>
    simp only [Slots.get, Slots.set, Slots.empty, List.getElem?_set_ne (Nat.succ_ne_zero j).symm,
      List.getElem?_replicate]
    split <;> simp

theorem Tracks.mem_slots (ht : Tracks procs processes lastProcess lastpid current s) :
    h ∈ s.processes.members ↔ some h ∈ processes := by
  rw [ht.slots, Slots.members, List.mem_filterMap]
  simp

theorem Tracks.add (ht : Tracks procs processes lastProcess lastpid current s)
    (hp : procAt procs h = some p) (hcount : p.threadslen ≠ 0) (hn : some h ∉ processes)
    (hi : processes[i]? = some none) (hfirst : processes.findIdx? (· == none) = some i) :
    ∃ s', s.schedulerAddProcess h = some s' ∧
      Tracks procs (processes.set i (some h)) lastProcess lastpid current s' := by
  obtain ⟨q, hq, hshows⟩ := ht.procs.found hp
  have hproc : s.proc h = some q := hq
  rw [ht.slots] at hfirst
  refine ⟨{ s with processes := s.processes.set i (some h) }, ?_,
    congrArg (·.set i (some h)) ht.slots, ht.last, ht.lastpid, ht.procs, ht.selected,
    fun j hj => mem_set_other hi (ht.running j hj)⟩
  simp only [State.schedulerAddProcess, hproc, if_neg (mt ht.mem_slots.mp hn),
    if_neg (hshows.count ▸ hcount), hfirst]

theorem Tracks.addFull (ht : Tracks procs processes lastProcess lastpid current s)
    (hp : procAt procs h = some p) (hn : some h ∉ processes) (hfull : none ∉ processes) :
    s.schedulerAddProcess h = some s := by
  obtain ⟨q, hq, -⟩ := ht.procs.found hp
  have hproc : s.proc h = some q := hq
  have hnone : s.processes.entries.findIdx? (· == none) = none := by
    rw [List.findIdx?_eq_none_iff, ← ht.slots]
    intro slot hslot
    cases slot with
    | none => exact absurd hslot hfull
    | some i => rfl
  simp only [State.schedulerAddProcess, hproc, if_neg (mt ht.mem_slots.mp hn), hnone, ite_self]

theorem Tracks.exit (ht : Tracks procs processes lastProcess lastpid (some h) s)
    (hp : procAt procs h = some p) :
    ∃ s', s.schedulerKillSelf = some s' ∧
      Tracks (procs.set h none) (processes.replace (some h) none) lastProcess lastpid none s' := by
  obtain ⟨q, hq, -⟩ := ht.procs.found hp
  have hproc : s.proc h = some q := hq
  refine ⟨{ s.setProc h none with
      oldThread := none
      processes := s.processes.vacate h
      killed := q.threads.members ++ s.killed }, ?_, ?_⟩
  · simp only [State.schedulerKillSelf, ht.selected h rfl, hproc]
  · exact ⟨congrArg (·.replace (some h) none) ht.slots, ht.last, ht.lastpid,
      ht.procs.set (proc_at_lt hp) .none, fun _ hc => (by cases hc), fun _ hc => (by cases hc)⟩

/-- The two thread loops meet the same entries. -/
theorem next_thread_scan (threads : Slots maxThreads Nat)
    (hfilled : ∀ j, (threads.get j).isSome ↔ j < threadslen) (fuel last : Nat) :
    Kernel.nextThread threadslen fuel last = (threads.scan fuel last).map Prod.fst := by
  induction fuel generalizing last with
  | zero => rfl
  | succ fuel ih =>
    have hthere := hfilled (Slots.after maxThreads last)
    show (if Slots.after maxThreads last < threadslen then some (Slots.after maxThreads last)
      else Kernel.nextThread threadslen fuel (Slots.after maxThreads last)) = _
    rw [Slots.scan]
    cases hget : threads.get (Slots.after maxThreads last) with
    | none =>
      rw [hget] at hthere
      rw [if_neg (fun h => by simpa using hthere.mpr h)]
      exact ih _
    | some t =>
      rw [hget] at hthere
      rw [if_pos (hthere.mp rfl)]
      rfl

theorem Tracks.switch (ht : Tracks procs processes lastProcess lastpid current s)
    (hp : procAt procs h = some p) (hi : processes[i]? = some (some h))
    (hproc : Kernel.nextProcess processes maxProcesses lastProcess = some (i, h))
    (hthread : Kernel.nextThread p.threadslen maxThreads p.lastthread = some t) :
    ∃ s', s.step .schedulerSwitch = some s' ∧
      Tracks (procs.set h (some { p with lastthread := t })) processes i lastpid (some h) s' := by
  obtain ⟨q, hq, hshows⟩ := ht.procs.found hp
  have hstruct : s.proc h = some q := hq
  rw [ht.slots, ht.last, next_process_scan, ← select_loop_scan (by decide) (by decide),
    Option.map_eq_some_iff] at hproc
  obtain ⟨⟨i', l⟩, hsel, he⟩ := hproc
  obtain ⟨rfl, hl⟩ := Prod.mk.inj he
  have hnext : s.nextProcess = some (i', h) := hl ▸ hsel
  rw [hshows.count, hshows.last, next_thread_scan q.threads hshows.filled,
    ← select_loop_scan (by decide) (by decide), Option.map_map, Option.map_eq_some_iff] at hthread
  obtain ⟨⟨j, x⟩, hpick, he⟩ := hthread
  cases he
  have hthen : q.nextThread = some (j, x) := hpick
  refine ⟨{ s.setProc h (some { q with lastthread := j }) with
      lastProcess := i'
      current := some h
      oldThread := s.newThread
      newThread := some x }, ?_, ht.slots, rfl, ht.lastpid, ?_, fun _ hc => hc, ?_⟩
  · simp only [State.step, State.schedulerSwitch, hnext, hstruct, hthen, Option.map_some]
  · exact ht.procs.set (proc_at_lt hp) (.some ⟨rfl, hshows.count, hshows.pid, hshows.filled⟩)
  · rintro _ ⟨⟩
    exact List.mem_of_getElem? hi

end Moves

variable {k k' : Kernel} {s : State}

theorem Follows.pid_at (hf : Follows k s) (h : Nat) :
    k.pidAt (some h) = (s.pidOf h).map UInt8.toNat := by
  have hrel : Option.Rel Shows (k.proc h) (s.proc h) := hf.procs.shows h
  show (k.proc h).map Process.pid = ((s.proc h).map Scheduler.Process.pid).map UInt8.toNat
  generalize k.proc h = p at hrel ⊢
  generalize s.proc h = q at hrel ⊢
  cases hrel with
  | none => rfl
  | some hshows => exact congrArg some hshows.pid

theorem Follows.pid_at_iff (hf : Follows k s) (hpid : pid < 2 ^ 8) (h : Nat) :
    k.pidAt (some h) = some pid ↔ s.pidOf h = some (UInt8.ofNat pid) := by
  rw [hf.pid_at, Option.map_eq_some_iff]
  constructor
  · rintro ⟨b, hb, rfl⟩
    rw [hb, UInt8.ofNat_toNat]
  · intro hs
    exact ⟨_, hs, UInt8.toNat_ofNat_of_lt' hpid⟩

/-- A number that is no pid names nobody. -/
theorem Follows.pid_at_large (hf : Follows k s) (hpid : 2 ^ 8 ≤ pid) (slot : Option Nat) :
    k.pidAt slot ≠ some pid := by
  cases slot with
  | none => exact fun h => by cases h
  | some h =>
    rw [hf.pid_at]
    intro hs
    obtain ⟨b, -, rfl⟩ := Option.map_eq_some_iff.mp hs
    exact absurd b.toNat_lt (by omega)

/-- The pid of no process empties nothing. -/
theorem Follows.kill_nobody (hf : Follows k s) (hpid : 2 ^ 8 ≤ pid) :
    Tracks (k.procs.mapIdx (fun h q => if k.onTable pid h then none else q))
      (k.processes.map (fun slot => if k.pidAt slot = some pid then none else slot))
      k.lastProcess k.lastpid k.current s := by
  have hnobody := hf.pid_at_large hpid
  have hslots : k.processes.map (fun slot => if k.pidAt slot = some pid then none else slot) =
      k.processes := by
    simp [hnobody]
  have hprocs : k.procs.mapIdx (fun h q => if k.onTable pid h then none else q) = k.procs := by
    refine List.ext_getElem? ?_
    intro i
    simp [Kernel.onTable, hnobody]
  rw [hslots, hprocs]
  exact hf

/-- Both tables lose the entries with the pid. -/
theorem Follows.killed_slots (hf : Follows k s) (hpid : pid < 2 ^ 8) :
    (s.processes.retain (fun h => s.pidOf h != some (UInt8.ofNat pid))).entries =
      k.processes.map (fun slot => if k.pidAt slot = some pid then none else slot) := by
  rw [hf.slots]
  refine List.map_congr_left ?_
  intro slot _
  cases slot with
  | none => simp [Kernel.pidAt]
  | some i =>
    by_cases hi : s.pidOf i = some (UInt8.ofNat pid)
    · rw [if_pos ((hf.pid_at_iff hpid i).mpr hi)]
      simp [Option.filter, hi]
    · rw [if_neg (mt (hf.pid_at_iff hpid i).mp hi)]
      simp [Option.filter, hi]

/-- `scheduler_kill_pid` for another process. -/
theorem Follows.kill (hf : Follows k s) (hg : k.getProcess = some (h, p)) (hne : pid ≠ p.pid) :
    ∃ as s', run State.step s as = some s' ∧
      Tracks (k.procs.mapIdx (fun h q => if k.onTable pid h then none else q))
        (k.processes.map (fun slot => if k.pidAt slot = some pid then none else slot))
        k.lastProcess k.lastpid k.current s' := by
  by_cases hpid : pid < 2 ^ 8
  · obtain ⟨hcur, hp⟩ := get_process_proc hg
    obtain ⟨q, hq, hshows⟩ := hf.procs.found hp
    have hproc : s.proc h = some q := hq
    have hother : UInt8.ofNat pid ≠ q.pid := by
      intro he
      rw [hshows.pid, ← he, UInt8.toNat_ofNat_of_lt' hpid] at hne
      exact hne rfl
    refine ⟨[.schedulerKillPid (UInt8.ofNat pid)], { s with
        processes := s.processes.retain (fun h => s.pidOf h != some (UInt8.ofNat pid))
        procs := s.procs.mapIdx (fun h q =>
          if h ∈ s.processes.members ∧ s.pidOf h = some (UInt8.ofNat pid) then none else q) },
      ?_, ?_, hf.last, hf.lastpid, ?_, hf.selected, ?_⟩
    · simp only [run, State.step, State.schedulerKillPid, hf.selected h hcur, hproc,
        if_neg hother]
    · exact (hf.killed_slots hpid).symm
    · refine hf.procs.mask _ _ ?_
      intro i
      simp only [Kernel.onTable, Bool.and_eq_true, List.contains_iff_mem, beq_iff_eq,
        hf.pid_at_iff hpid i, hf.mem_slots]
    · intro c hc
      cases hcur.symm.trans hc
      refine List.mem_map.mpr ⟨some h, hf.running h hcur, if_neg ?_⟩
      intro hp'
      simp only [Kernel.pidAt, Option.bind_some, Kernel.proc, hp, Option.map_some,
        Option.some.injEq] at hp'
      exact hne hp'.symm
  · exact ⟨[], s, rfl, hf.kill_nobody (Nat.le_of_not_lt hpid)⟩

theorem Follows.began (hf : Follows k s) (hb : Began k op k') :
    ∃ as s', run State.step s as = some s' ∧ Follows k' s' := by
  cases hb with
  | clearing => exact ⟨[], s, rfl, hf⟩
  | loading hg => exact ⟨[], s, rfl, Tracks.update hf (get_process_proc hg).2 rfl rfl rfl⟩
  | forkClearing | forkCopying =>
    exact ⟨[.createNewProcessNothread], _, rfl, Tracks.push hf rfl rfl rfl⟩

theorem Follows.exit (hf : Follows k s) (hg : k.getProcess = some (h, p)) (m : Phymem) :
    ∃ s', s.step .schedulerKillSelf = some s' ∧ Follows (afterExit k h p m) s' := by
  obtain ⟨hcur, hp⟩ := get_process_proc hg
  unfold Follows at hf
  rw [hcur] at hf
  exact hf.exit hp

/-- A process that is not yet there has no slot. -/
theorem Follows.new_apart (hf : Follows k s) (hs : Orderly s) :
    some k.procs.length ∉ k.processes := by
  intro hmem
  obtain ⟨q, hq, -⟩ := hs.tabled.live _ (hf.mem_slots.mpr hmem)
  have hlt := (List.getElem?_eq_some_iff.mp (Option.join_eq_some_iff.mp hq)).1
  rw [hf.procs.length] at hlt
  exact Nat.lt_irrefl _ hlt

/-- Every step of the kernel is a run of the scheduler. -/
theorem step_followed (hf : Follows k s) (hs : Orderly s) (h : k.step op = some k') :
    ∃ as s', run State.step s as = some s' ∧ Follows k' s' := by
  cases step_cases h with
  | same => exact ⟨[], s, rfl, hf⟩
  | drew =>
    exact ⟨[.createNewProcess false], _, rfl, hf.slots, hf.last, succ_to_nat hf.lastpid, hf.procs,
      hf.selected, hf.running⟩
  | created t _ ht =>
    rcases Nat.le_one_iff_eq_zero_or_eq_one.mp ht with rfl | rfl
    · exact ⟨[.createNewProcessNothread], _, rfl, Tracks.push hf rfl rfl rfl⟩
    · obtain ⟨s', hs', hf'⟩ :=
        Tracks.pushThread (p := { k.newProcess with threadslen := 1 }) hf rfl rfl rfl
      exact ⟨[.createNewProcess true], s', run_single hs', hf'⟩
  | added hp ht hn hi hfirst =>
    obtain ⟨s', hs', hf'⟩ := Tracks.add hf hp ht hn hi hfirst
    exact ⟨[.schedulerAddProcess _], s', run_single hs', hf'⟩
  | loaded hg | replaced hg =>
    exact ⟨[], s, rfl, Tracks.update hf (get_process_proc hg).2 rfl rfl rfl⟩
  | forkedFull hg hn ha hc hfull =>
    obtain ⟨s₁, hs₁, hf₁⟩ := Tracks.pushThread (p := forkedProcess k _ _ _) hf rfl rfl rfl
    have hadd := hf₁.addFull ((proc_at_push _ _ _).trans (if_pos rfl)) (hf.new_apart hs) hfull
    exact ⟨[.createNewProcess true, .schedulerAddProcess k.procs.length], s₁,
      by simp only [run, State.step, hs₁, hadd], hf₁⟩
  | forked hg hn ha hc hi hfirst =>
    obtain ⟨s₁, hs₁, hf₁⟩ := Tracks.pushThread (p := forkedProcess k _ _ _) hf rfl rfl rfl
    obtain ⟨s₂, hs₂, hf₂⟩ := hf₁.add ((proc_at_push _ _ _).trans (if_pos rfl)) Nat.one_ne_zero
      (hf.new_apart hs) hi hfirst
    exact ⟨[.createNewProcess true, .schedulerAddProcess k.procs.length], s₂,
      by simp only [run, State.step, hs₁, hs₂], hf₂⟩
  | faulted hb _ hg =>
    obtain ⟨as, s₁, hs₁, hf₁⟩ := hf.began hb
    obtain ⟨s₂, hs₂, hf₂⟩ := hf₁.exit hg _
    exact ⟨as ++ [.schedulerKillSelf], s₂,
      by rw [run_append, hs₁, Option.bind_some, run_single hs₂], hf₂⟩
  | exited _ hg =>
    obtain ⟨s', hs', hf'⟩ := hf.exit hg _
    exact ⟨[.schedulerKillSelf], s', run_single hs', hf'⟩
  | killed hg hne => exact hf.kill hg hne
  | switched hp hi hn ht =>
    obtain ⟨s', hs', hf'⟩ := Tracks.switch hf hp hi hn ht
    exact ⟨[.schedulerSwitch], s', run_single hs', hf'⟩
  | recorded hg hp =>
    obtain ⟨table, handles, rfl⟩ := post_allocation_shape hp
    exact ⟨[], s, rfl, Tracks.update hf (get_process_proc hg).2 rfl rfl rfl⟩
  | opened hg => exact ⟨[], s, rfl, Tracks.update hf (get_process_proc hg).2 rfl rfl rfl⟩

theorem boot_follows (hb : Kernel.boot stop memory = some k) : Follows k State.boot := by
  obtain ⟨m, -, rfl⟩ := Option.map_eq_some_iff.mp hb
  exact ⟨rfl, rfl, rfl, ⟨rfl, fun _ => .none⟩, fun _ h => (by cases h), fun _ h => (by cases h)⟩

/-- Every run of the kernel is one of the scheduler's machine. -/
theorem kernel_run_followed (hb : Kernel.boot stop memory = some k)
    (hr : run Kernel.step k ops = some k') :
    ∃ as s, run State.step State.boot as = some s ∧ Follows k' s := by
  have hsim : ∃ as s, run State.step State.boot as = some s ∧ Follows k' s ∧ Orderly s := by
    refine run_simulated (R := fun k s => Follows k s ∧ Orderly s) (G := fun _ _ => True) ?_
      ⟨boot_follows hb, boot_orderly⟩ (.of_forall (fun _ _ _ => trivial) _) hr
    rintro k op k' s ⟨hf, ho⟩ - hstep
    obtain ⟨as, s', hs', hf'⟩ := step_followed hf ho hstep
    exact ⟨as, s', hs', hf', run_keeps hs' ho (fun _ _ _ ho hstep => ho.step hstep)⟩
  obtain ⟨as, s, hs, hf, -⟩ := hsim
  exact ⟨as, s, hs, hf⟩

theorem switch_to_thread_sched {m m' : Switch.Machine} (h : m.switchToThread = some m') :
    m'.sched = m.sched := by
  have hsave : m.saveOld.sched = m.sched := by
    unfold Switch.Machine.saveOld
    split <;> rfl
  simp only [Switch.Machine.switchToThread, Switch.Machine.loadNew] at h
  split at h
  · cases h
  · split at h
    · cases h
    · split at h
      · cases h
      · cases h
        exact hsave

/-- Of the machine that switches threads, `sys_fork` makes the same two calls as that of the
kernel, and `elf_start` none. -/
theorem machine_step_followed {m m' : Switch.Machine} (h : m.step op = some m') :
    ∃ as, run State.step m.sched as = some m'.sched := by
  cases op with
  | createNewProcessNothread =>
    cases h
    exact ⟨[.createNewProcessNothread], rfl⟩
  | createNewThread i addr stackbot =>
    simp only [Switch.Machine.step, Switch.Machine.createNewThread] at h
    split at h
    · cases h
    · rename_i sched hsched
      split at h
      · cases h
        exact ⟨[], rfl⟩
      · cases h
        exact ⟨[.createNewThread i], run_single hsched⟩
  | schedulerAddProcess i =>
    obtain ⟨sched, hsched, rfl⟩ := Option.map_eq_some_iff.mp h
    exact ⟨[.schedulerAddProcess i], run_single hsched⟩
  | elfStart paged =>
    simp only [Switch.Machine.step, Switch.Machine.elfStart] at h
    split at h
    · cases h
    · cases h
      exact ⟨[], rfl⟩
  | sysFork pd eip rstack =>
    simp only [Switch.Machine.step, Switch.Machine.sysFork] at h
    split at h
    · cases h
    · split at h
      · cases h
      · rename_i sched hsched
        cases h
        obtain ⟨s₁, hs₁, hs₂⟩ := Option.bind_eq_some_iff.mp hsched
        have hcreate : m.sched.createNewProcess true = some s₁ := hs₁
        exact ⟨[.createNewProcess true, .schedulerAddProcess m.sched.procs.length],
          by simp only [run, State.step, hcreate, hs₂]⟩
  | compute regs esp stores =>
    cases h
    exact ⟨[], rfl⟩
  | schedulerSwitch scratch =>
    simp only [Switch.Machine.step, Switch.Machine.schedulerSwitch] at h
    split at h
    · cases h
    · rename_i sel sched hsw
      refine ⟨[.schedulerSwitch], ?_⟩
      rw [switch_to_thread_sched h]
      exact run_single (by simp only [State.step, hsw, Option.map_some])

/-- Its runs are runs of the scheduler too, so every process on its table can be selected. -/
theorem machine_run_followed {m : Switch.Machine}
    (h : run Switch.Machine.step (.boot core) ops = some m) :
    ∃ as, run State.step State.boot as = some m.sched ∧
      (m.sched.processes.members ≠ [] → Runnable m.sched) := by
  have hsim : ∃ as s, run State.step State.boot as = some s ∧ m.sched = s := by
    refine run_simulated (R := fun m s => m.sched = s) (G := fun _ _ => True) ?_ rfl
      (.of_forall (fun _ _ _ => trivial) _) h
    rintro m op m' s rfl - hstep
    obtain ⟨as, has⟩ := machine_step_followed hstep
    exact ⟨as, m'.sched, has, rfl⟩
  obtain ⟨as, s, hs, rfl⟩ := hsim
  exact ⟨as, hs, run_runnable hs⟩

/-! What the scheduler's results say about the kernel. -/

theorem Follows.switches (hf : Follows k s) (hr : Runnable s) :
    ∃ k', k.step .schedulerSwitch = some k' := by
  obtain ⟨sel, s', hsw⟩ := switch_exists hr
  obtain ⟨⟨q, hcase⟩, -⟩ := switch_cases hsw
  obtain ⟨j, hscan, -⟩ := hcase.next
  have hproc : Kernel.nextProcess k.processes maxProcesses k.lastProcess =
      some (s'.lastProcess.toNat, sel.process) := by
    rw [hf.slots, hf.last, next_process_scan]
    exact hcase.chosen
  have hrel : Option.Rel Shows (k.proc sel.process) (s.proc sel.process) :=
    hf.procs.shows sel.process
  rw [hcase.struct] at hrel
  cases hp : k.proc sel.process with
  | none =>
    rw [hp] at hrel
    cases hrel
  | some p =>
    rw [hp] at hrel
    cases hrel with
    | some hshows =>
      have hthread : Kernel.nextThread p.threadslen maxThreads p.lastthread = some j.toNat := by
        rw [hshows.count, hshows.last, next_thread_scan q.threads hshows.filled, hscan]
        rfl
      refine ⟨{ k.setProc sel.process { p with lastthread := j.toNat } with
          lastProcess := s'.lastProcess.toNat
          current := some sel.process }, ?_⟩
      simp only [Kernel.step, Kernel.effect, Kernel.schedulerSwitch, hproc, hp, hthread,
        Option.map_some]

/-- In every run the kernel can switch as long as a process is on the table. -/
theorem switch_possible (hb : Kernel.boot stop memory = some k)
    (hr : run Kernel.step k ops = some k') (hw : some w ∈ k'.processes) :
    ∃ k'', k'.step .schedulerSwitch = some k'' := by
  obtain ⟨as, s, hs, hf⟩ := kernel_run_followed hb hr
  exact hf.switches (run_runnable hs (List.ne_nil_of_mem (hf.mem_slots.mpr hw)))

theorem pid_running_iff :
    k.isPidRunning pid = true ↔
      ∃ h p, some h ∈ k.processes ∧ procAt k.procs h = some p ∧ p.pid = pid := by
  simp only [Kernel.isPidRunning, List.any_eq_true, beq_iff_eq]
  constructor
  · rintro ⟨slot, hslot, hpid⟩
    cases slot with
    | none => cases hpid
    | some h =>
      obtain ⟨p, hp, rfl⟩ := Option.map_eq_some_iff.mp hpid
      exact ⟨h, p, hslot, hp, rfl⟩
  · rintro ⟨h, p, hslot, hp, rfl⟩
    exact ⟨some h, hslot, Option.map_eq_some_iff.mpr ⟨p, hp, rfl⟩⟩

/-- A switch leaves the table and the pids as they are. -/
theorem switch_pid_running (h : k.step .schedulerSwitch = some k')
    (hpid : k'.isPidRunning pid = true) : k.isPidRunning pid = true := by
  have hsw : k.schedulerSwitch = some k' := h
  unfold Kernel.schedulerSwitch at hsw
  split at hsw
  · cases hsw
  · split at hsw
    · cases hsw
    · rename_i i h p hp
      obtain ⟨t, -, rfl⟩ := Option.map_eq_some_iff.mp hsw
      obtain ⟨j, q', hj, hq', rfl⟩ := pid_running_iff.mp hpid
      obtain ⟨q, hq, hsame⟩ :=
        proc_at_set_related (fun q' q => q'.pid = q.pid) (fun _ => rfl) hp (by rfl) j q' hq'
      exact pid_running_iff.mpr ⟨j, q, hj, hq, hsame.symm⟩

/-- A process that has left the table by itself was the only one of its pid there, as
long as the pids on the table are distinct. -/
theorem exit_pid_running (hb : Kernel.boot stop memory = some k₀)
    (hr : run Kernel.step k₀ ops = some k) (hd : Pids.Distinct k)
    (hself : k.getProcess = some (h, p)) (hexit : k.step .schedulerKillSelf = some k') :
    k'.isPidRunning p.pid = false := by
  obtain ⟨as, s, hs, hf⟩ := kernel_run_followed hb hr
  obtain ⟨hcur, hp⟩ := get_process_proc hself
  obtain ⟨i, q, m, hg, -, rfl⟩ := kill_self_shape hexit
  cases hself.symm.trans hg
  rw [Bool.eq_false_iff]
  intro hrunning
  obtain ⟨j, q, hj, hq, hpid⟩ := pid_running_iff.mp hrunning
  obtain ⟨hold, hne⟩ := proc_at_gone hp hq
  exact hne (hd j h q p (mem_replace_slot hj) (hf.running h hcur) hold hp hpid)

theorem waitpid_over (hpid : k.isPidRunning pid = false) (turns : List (List KernelOp)) :
    k.sysWaitpid pid turns = some k := by
  cases turns <;> simp [Kernel.sysWaitpid, hpid]

/-- A wait for a pid is over with the turn in which the process of that pid exits: the
kernel can switch back, and finds nobody under the pid. -/
theorem waitpid_returns (stop : Nat) (memory : Nat → Nat) (k₀ k k₁ k₂ : Kernel)
    (before turn : List KernelOp) (h w : Nat) (p : Process)
    (hb : Kernel.boot stop memory = some k₀) (hr : run Kernel.step k₀ before = some k)
    (hg : Guarded Kernel.step Pids.Guard k₀ (before ++ turn))
    (hwaits : k.isPidRunning p.pid = true) (hturn : run Kernel.step k turn = some k₁)
    (hself : k₁.getProcess = some (h, p)) (hw : some w ∈ k₁.processes) (hne : w ≠ h)
    (hexit : k₁.step .schedulerKillSelf = some k₂) :
    ∃ k₃, k₂.step .schedulerSwitch = some k₃ ∧ ∀ turns,
      k.sysWaitpid p.pid ((turn ++ [KernelOp.schedulerKillSelf, .schedulerSwitch]) :: turns) =
        some k₃ := by
  have hrun : run Kernel.step k₀ (before ++ turn) = some k₁ := by
    rw [run_append, hr, Option.bind_some, hturn]
  have hinv := (throughout_of_guarded (Pids.boot_invariant hb)
    (fun _ _ _ => Pids.step_invariant) hg).last hrun
  have hgone := exit_pid_running hb hrun hinv.distinct hself hexit
  have hstays : some w ∈ k₂.processes := by
    obtain ⟨i, q, m, hi, -, rfl⟩ := kill_self_shape hexit
    cases hself.symm.trans hi
    exact mem_replace_other hw hne
  have hafter : run Kernel.step k₀ ((before ++ turn) ++ [.schedulerKillSelf]) = some k₂ := by
    rw [run_append, hrun, Option.bind_some, run_single hexit]
  obtain ⟨k₃, hsw⟩ := switch_possible hb hafter hstays
  refine ⟨k₃, hsw, fun turns => ?_⟩
  have hover : k₃.isPidRunning p.pid = false := by
    rw [Bool.eq_false_iff] at hgone ⊢
    exact fun hrunning => hgone (switch_pid_running hsw hrunning)
  have hwhole : run Kernel.step k (turn ++ [KernelOp.schedulerKillSelf, .schedulerSwitch]) =
      some k₃ := by
    rw [run_append, hturn, Option.bind_some]
    simp only [run, hexit, hsw]
  simp only [Kernel.sysWaitpid, hwaits, if_true, hwhole, Option.bind_some, waitpid_over hover]

/-- Process 0 waits for process 1, which starts a program and exits. -/
example :
    ((run Kernel.step smallKernel
        [.createNewProcess 1 none, .schedulerAddProcess 0, .createNewProcess 1 none,
          .schedulerAddProcess 1, .schedulerSwitch, .schedulerSwitch]).bind
      (Kernel.sysWaitpid 1 [[.schedulerSwitch,
        .elfStart ⟨0xC0000100, 5, 2, 0, []⟩ bootDirectory, .schedulerKillSelf,
        .schedulerSwitch]])).isSome := by
  decide

end Levos.Proofs.Scheduling
