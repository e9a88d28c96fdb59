import Levos.Kernel
import Levos.Library.Runs

namespace Levos.Proofs.Kernel
open Levos.Library

theorem proc_at_lt {l : List (Option Process)} (h : procAt l i = some p) : i < l.length := by
  unfold procAt at h
  by_contra hn
  rw [List.getElem?_eq_none (by omega)] at h
  cases h

theorem proc_at_set (l : List (Option Process)) (i j : Nat) (v : Option Process)
    (hi : i < l.length) : procAt (l.set i v) j = if j = i then v else procAt l j := by
  unfold procAt
  split
  · rename_i he
    subst j
    rw [List.getElem?_set_self hi]
    rfl
  · rename_i hne
    rw [List.getElem?_set_ne (Ne.symm hne)]

theorem proc_at_replaced {procs : List (Option Process)} (hp : procAt procs h = some p)
    (hi : procAt (procs.set h (some p')) i = some q) :
    (i = h ∧ q = p') ∨ (i ≠ h ∧ procAt procs i = some q) := by
  rw [proc_at_set _ _ _ _ (proc_at_lt hp)] at hi
  split at hi
  · rename_i he
    exact .inl ⟨he, (Option.some.inj hi).symm⟩
  · rename_i hne
    exact .inr ⟨hne, hi⟩

/-- A struct is replaced by one that is related to it; every other one stays. -/
theorem proc_at_set_related {procs : List (Option Process)} (R : Process → Process → Prop)
    (hR : ∀ q, R q q) (hp : procAt procs h = some p) (hr : R p' p) (i : Nat) (q' : Process)
    (hi : procAt (procs.set h (some p')) i = some q') :
    ∃ q, procAt procs i = some q ∧ R q' q := by
  rcases proc_at_replaced hp hi with ⟨rfl, rfl⟩ | ⟨_, hi⟩
  · exact ⟨p, hp, hr⟩
  · exact ⟨q', hi, hR q'⟩

theorem proc_at_push (l : List (Option Process)) (p : Process) (j : Nat) :
    procAt (l ++ [some p]) j = if j = l.length then some p else procAt l j := by
  unfold procAt
  split
  · rename_i he
    subst j
    simp
  · rename_i hne
    rcases Nat.lt_or_gt_of_ne hne with hlt | hgt
    · rw [List.getElem?_append_left hlt]
    · rw [List.getElem?_eq_none (by simp; omega), List.getElem?_eq_none (by omega)]

theorem proc_at_mask (l : List (Option Process)) (f : Nat → Bool) (j : Nat) :
    procAt (l.mapIdx (fun i q => if f i then none else q)) j =
      if f j then none else procAt l j := by
  unfold procAt
  rw [List.getElem?_mapIdx]
  cases l[j]? with
  | none => simp
  | some q => cases f j <;> rfl

/-- A struct that is there after another has gone was there before. -/
theorem proc_at_gone {procs : List (Option Process)} (hp : procAt procs h = some p)
    (hi : procAt (procs.set h none) i = some q) : procAt procs i = some q ∧ i ≠ h := by
  rw [proc_at_set _ _ _ _ (proc_at_lt hp)] at hi
  split at hi
  · cases hi
  · rename_i hne
    exact ⟨hi, hne⟩

theorem proc_at_unmasked {procs : List (Option Process)} {f : Nat → Bool}
    (hi : procAt (procs.mapIdx (fun i q => if f i then none else q)) j = some q) :
    procAt procs j = some q ∧ ¬ f j = true := by
  rw [proc_at_mask] at hi
  split at hi
  · cases hi
  · rename_i hf
    exact ⟨hi, hf⟩

theorem get_process_proc {k : Kernel} (h : k.getProcess = some (i, p)) :
    k.current = some i ∧ procAt k.procs i = some p := by
  unfold Kernel.getProcess at h
  split at h
  · cases h
  · rename_i j hc
    obtain ⟨q, hq, he⟩ := Option.map_eq_some_iff.mp h
    cases he
    exact ⟨hc, hq⟩

theorem get_process_push {k k' : Kernel} (h : k.getProcess = some (i, p))
    (hc : k'.current = k.current) (hp : k'.procs = k.procs ++ [some q]) :
    k'.getProcess = some (i, p) := by
  obtain ⟨hcur, hproc⟩ := get_process_proc h
  have hold : procAt k'.procs i = some p := by
    rw [hp, proc_at_push, if_neg (Nat.ne_of_lt (proc_at_lt hproc)), hproc]
  simp only [Kernel.getProcess, hc, hcur, Kernel.proc, hold, Option.map_some]

theorem get_process_pushed {k k' : Kernel} (h : k.getProcess = some (i, p))
    (h' : k'.getProcess = some (j, p')) (hc : k'.current = k.current)
    (hp : k'.procs = k.procs ++ [some q]) : j = i ∧ p' = p := by
  rw [get_process_push h hc hp] at h'
  cases h'
  exact ⟨rfl, rfl⟩

/-- The struct `elf_start` leaves behind. -/
def loadedProcess (p : Process) (rest : PageDirectory) (palloc len : Nat) : Process :=
  { p with
    paged := createNewPageDirectory rest 0x400000 palloc
    palloc := palloc
    pallocLen := len
    execLen := len }

/-- The struct `sys_fork` prepares for the child. -/
def forkedProcess (k : Kernel) (rest : PageDirectory) (palloc len : Nat) : Process :=
  { k.newProcess with
    paged := createNewPageDirectory rest 0x400000 palloc
    palloc := palloc
    pallocLen := len
    execLen := len
    threadslen := 1 }

/-- What `post_allocation` leaves alone. -/
theorem post_allocation_shape (h : postAllocation p base = some p') :
    ∃ table handles, p' = { p with
      allocationTable := table, filehandles := handles, allocs := p.allocs + 1 } := by
  unfold postAllocation at h
  split at h
  · cases h
  · split at h
    · cases h
    · split at h <;> cases h <;> exact ⟨_, _, rfl⟩

/-- The kernel after the running process has given its frames back and is gone. -/
def afterExit (k : Kernel) (h : Nat) (p : Process) (m : Phymem) : Kernel :=
  { k with
    phymem := m
    live := k.live.filter (· != (p.palloc, p.pallocLen))
    processes := k.processes.replace (some h) none
    procs := k.procs.set h none
    current := none }

/-- What a call has done by the time it faults. The exit starts from there. -/
inductive Began (k : Kernel) : KernelOp → Kernel → Prop
  | clearing (ht : img.eType = 2) (ha : phymemAlloc k.phymem img.esize = some (palloc, m))
      (hc : access k.cr3 (Touch.stores palloc img.esize) = .fault) :
      Began k (.elfStart img rest)
        { k with phymem := m, live := (palloc, img.esize) :: k.live }
  | loading (hg : k.getProcess = some (h, p)) (ht : img.eType = 2)
      (ha : phymemAlloc k.phymem img.esize = some (palloc, m))
      (hc : access k.cr3 (Touch.stores palloc img.esize) = .done) :
      Began k (.elfStart img rest)
        { k with
          phymem := m
          live := (palloc, img.esize) :: k.live
          procs := k.procs.set h (some (loadedProcess p rest palloc img.esize)) }
  | forkClearing (hg : k.getProcess = some (h, p))
      (ha : phymemAlloc k.phymem p.execLen = some (palloc, m))
      (hc : access k.cr3 (Touch.stores palloc p.execLen) = .fault) :
      Began k (.sysFork f)
        { k with
          phymem := m
          live := (palloc, p.execLen) :: k.live
          lastpid := (k.lastpid + 1) % 2 ^ 8
          drawn := k.drawn + 1
          procs := k.procs ++ [some k.newProcess] }
  | forkCopying (hg : k.getProcess = some (h, p))
      (ha : phymemAlloc k.phymem p.execLen = some (palloc, m))
      (hc : access k.cr3 (Touch.stores palloc p.execLen) = .done) :
      Began k (.sysFork f)
        { k with
          phymem := m
          live := (palloc, p.execLen) :: k.live
          lastpid := (k.lastpid + 1) % 2 ^ 8
          drawn := k.drawn + 1
          procs := k.procs ++
            [some { forkedProcess k f.rest palloc p.execLen with threadslen := 0 }] }

/-- Everything one step of the kernel can do. -/
inductive Step (k : Kernel) : KernelOp → Kernel → Prop
  | same (hadd : ∀ h p, op = .schedulerAddProcess h → procAt k.procs h = some p →
      p.threadslen ≠ 0 → none ∉ k.processes) (hfork : ∀ f, op ≠ .sysFork f) : Step k op k
  | drew : Step k (.createNewProcess addr fail) k.nextPid
  | created (t : Nat) (hop : (∃ addr fail, op = .createNewProcess addr fail) ∨
      ∃ fail, op = .createNewProcessNothread fail) (ht : t ≤ 1) :
      Step k op (k.nextPid.pushProcess { k.newProcess with threadslen := t })
  | added (hp : procAt k.procs h = some p) (ht : p.threadslen ≠ 0) (hn : some h ∉ k.processes)
      (hi : k.processes[i]? = some none) (hfirst : k.processes.findIdx? (· == none) = some i) :
      Step k (.schedulerAddProcess h) { k with processes := k.processes.set i (some h) }
  | loaded (hg : k.getProcess = some (h, p)) (ht : img.eType = 2)
      (ha : phymemAlloc k.phymem img.esize = some (palloc, m))
      (hc : access k.cr3 (Touch.stores palloc img.esize) = .done)
      (hk : img.accepted = false ∨ p.palloc = 0) :
      Step k (.elfStart img rest)
        { k with
          phymem := m
          live := (palloc, img.esize) :: k.live
          procs := k.procs.set h (some (loadedProcess p rest palloc img.esize)) }
  | replaced (hg : k.getProcess = some (h, p)) (ht : img.eType = 2)
      (ha : phymemAlloc k.phymem img.esize = some (palloc, m))
      (hc : access k.cr3 (Touch.stores palloc img.esize) = .done) (hz : p.palloc ≠ 0)
      (hf : phymemFree m p.palloc p.pallocLen = some m') :
      Step k (.elfStart img rest)
        { k with
          phymem := m'
          live := ((palloc, img.esize) :: k.live).filter (· != (p.palloc, p.pallocLen))
          procs := k.procs.set h (some (loadedProcess p rest palloc img.esize)) }
  | forkedFull (hg : k.getProcess = some (h, p)) (hn : (k.effect (.sysFork f)).fault = false)
      (ha : phymemAlloc k.phymem p.execLen = some (palloc, m))
      (hc : access k.cr3 (Touch.stores palloc p.execLen) = .done)
      (hfull : none ∉ k.processes) :
      Step k (.sysFork f)
        { k with
          phymem := m
          live := (palloc, p.execLen) :: k.live
          lastpid := (k.lastpid + 1) % 2 ^ 8
          drawn := k.drawn + 1
          procs := k.procs ++ [some (forkedProcess k f.rest palloc p.execLen)] }
  | forked (hg : k.getProcess = some (h, p)) (hn : (k.effect (.sysFork f)).fault = false)
      (ha : phymemAlloc k.phymem p.execLen = some (palloc, m))
      (hc : access k.cr3 (Touch.stores palloc p.execLen) = .done)
      (hi : k.processes[i]? = some none) (hfirst : k.processes.findIdx? (· == none) = some i) :
      Step k (.sysFork f)
        { k with
          phymem := m
          live := (palloc, p.execLen) :: k.live
          lastpid := (k.lastpid + 1) % 2 ^ 8
          drawn := k.drawn + 1
          procs := k.procs ++ [some (forkedProcess k f.rest palloc p.execLen)]
          processes := k.processes.set i (some k.procs.length) }
  | faulted (hb : Began k op k₁) (hn : (k.effect op).fault = true)
      (hg : k₁.getProcess = some (h, p))
      (hf : phymemFree k₁.phymem p.palloc p.pallocLen = some m) :
      Step k op (afterExit k₁ h p m)
  | exited (hop : op = .schedulerKillSelf ∨ op = .schedulerKillPid p.pid)
      (hg : k.getProcess = some (h, p))
      (hf : phymemFree k.phymem p.palloc p.pallocLen = some m) :
      Step k op (afterExit k h p m)
  | killed (hg : k.getProcess = some (h, p)) (hne : pid ≠ p.pid) :
      Step k (.schedulerKillPid pid)
        { k with
          processes := k.processes.map
            (fun slot => if k.pidAt slot = some pid then none else slot)
          procs := k.procs.mapIdx (fun h q => if k.onTable pid h then none else q) }
  | switched (hp : procAt k.procs h = some p) (hi : k.processes[i]? = some (some h))
      (hn : Kernel.nextProcess k.processes maxProcesses k.lastProcess = some (i, h))
      (ht : Kernel.nextThread p.threadslen maxThreads p.lastthread = some t) :
      Step k .schedulerSwitch
        { k with
          procs := k.procs.set h (some { p with lastthread := t })
          lastProcess := i
          current := some h }
  | recorded (hg : k.getProcess = some (h, p)) (hp : postAllocation p base = some p') :
      Step k (.postAllocation base) { k with procs := k.procs.set h (some p') }
  | opened (hg : k.getProcess = some (h, p)) (hlt : p.openHandles < maxFilehandles)
      (hf : flags = Kernel.oRdonly) :
      Step k (.sysOpen flags (some fl))
        { k with
          procs := k.procs.set h (some { p with openHandles := p.openHandles + 1 })
          memory := Function.update k.memory (p.filehandles + 4 * p.openHandles) fl
          opened := (h, p.openHandles + 3, fl) :: k.opened }

theorem Step.unchanged {k : Kernel} {op : KernelOp} (hadd : ∀ h, op ≠ .schedulerAddProcess h)
    (hfork : ∀ f, op ≠ .sysFork f) : Step k op k :=
  .same (fun h _ he => absurd he (hadd h)) hfork

/-- The state `elf_start` has reached when it enters the segment loop. -/
def entered (k : Kernel) (h : Nat) (p : Process) (rest : PageDirectory) (palloc : Nat)
    (m : Phymem) (len : Nat) : Kernel :=
  { k with
    phymem := m
    live := (palloc, len) :: k.live
    procs := k.procs.set h (some (loadedProcess p rest palloc len)) }

/-- The shapes the effect of a step has: it frees no frames, or it ends in a page
fault, or an image gives way to another, or the running process exits. -/
inductive Outcome (k : Kernel) (op : KernelOp) : Effect → Prop
  | quiet (hs : ∀ k', next = some k' → Step k op k') : Outcome k op ⟨[], false, next⟩
  | faulting (hb : Began k op k₁) : Outcome k op k₁.excPf
  | replacing (hop : op = .elfStart img rest) (hg : k.getProcess = some (h, p))
      (ht : img.eType = 2) (ha : phymemAlloc k.phymem img.esize = some (palloc, m))
      (hc : access k.cr3 (Touch.stores palloc img.esize) = .done) (hz : p.palloc ≠ 0) :
      Outcome k op ((entered k h p rest palloc m img.esize).freeFrames p.palloc p.pallocLen)
  | exiting (hop : ∀ i p, k.getProcess = some (i, p) →
      op = .schedulerKillSelf ∨ op = .schedulerKillPid p.pid) :
      Outcome k op k.schedulerKillSelf

theorem Outcome.stuck : Outcome k op .stuck := .quiet (fun _ h => by cases h)

theorem Outcome.of (h : Step k op k') : Outcome k op (.of k') := by
  refine .quiet ?_
  rintro _ ⟨⟩
  exact h

/-- The slot search of `scheduler_add_process`. -/
theorem add_cases (k : Kernel) (h : Nat) :
    k.schedulerAddProcess h = (k, 0) ∨
      ∃ p i, procAt k.procs h = some p ∧ p.threadslen ≠ 0 ∧
        k.processes.findIdx? (· == none) = some i ∧ k.processes[i]? = some none ∧
        k.schedulerAddProcess h =
          ({ k with processes := k.processes.set i (some h) }, p.pid) := by
  unfold Kernel.schedulerAddProcess
  cases hp : k.proc h with
  | none => exact .inl rfl
  | some p =>
    by_cases ht : p.threadslen = 0
    · exact .inl (by simp [ht])
    · cases hi : k.processes.findIdx? (· == none) with
      | none => exact .inl (by simp [ht])
      | some i =>
        refine .inr ⟨p, i, hp, ht, rfl, ?_, by simp [ht]⟩
        obtain ⟨hlt, hb, _⟩ := List.findIdx?_eq_some_iff_getElem.mp hi
        rw [List.getElem?_eq_getElem hlt, Option.some.injEq]
        simpa using hb

theorem add_full {k : Kernel} (hp : procAt k.procs h = some p) (ht : p.threadslen ≠ 0)
    (hs : k.schedulerAddProcess h = (k, 0)) : none ∉ k.processes := by
  intro hm
  unfold Kernel.schedulerAddProcess at hs
  rw [show k.proc h = some p from hp] at hs
  simp only [ht, ↓reduceIte] at hs
  split at hs
  · rename_i hn
    rw [List.findIdx?_eq_none_iff] at hn
    exact absurd (hn none hm) (by simp)
  · rename_i i hi
    obtain ⟨hlt, hb, _⟩ := List.findIdx?_eq_some_iff_getElem.mp hi
    have he := congrArg (fun q => q.1.processes[i]?) hs
    simp only [List.getElem?_set_self hlt, List.getElem?_eq_getElem hlt] at he
    simp only [beq_iff_eq] at hb
    rw [hb] at he
    cases he

theorem create_cases (k : Kernel) (addr : Nat) (fail : Option MallocSite) :
    k.createNewProcess addr fail = k ∨ k.createNewProcess addr fail = k.nextPid ∨
      k.createNewProcess addr fail =
        k.nextPid.pushProcess { k.newProcess with threadslen := 1 } := by
  unfold Kernel.createNewProcess
  split
  · exact .inl rfl
  · split
    · exact .inr (.inl rfl)
    · rename_i p hp
      refine .inr (.inr ?_)
      unfold createNewThread at hp
      split at hp
      · cases hp
      · split at hp
        · cases hp
        · split at hp
          · cases hp
          · cases hp
            rfl

theorem alloc_frames_shape {k k' : Kernel} (h : k.allocFrames len = some (palloc, a, k')) :
    ∃ m, phymemAlloc k.phymem len = some (palloc, m) ∧
      access k.cr3 (Touch.stores palloc len) = a ∧
      k' = { k with phymem := m, live := (palloc, len) :: k.live } := by
  obtain ⟨⟨p, m⟩, hm, he⟩ := Option.map_eq_some_iff.mp h
  cases he
  exact ⟨m, hm, rfl, rfl⟩

theorem alloc_frames_eq {k : Kernel} (ha : phymemAlloc k.phymem len = some (palloc, m)) :
    k.allocFrames len = some (palloc, access k.cr3 (Touch.stores palloc len),
      { k with phymem := m, live := (palloc, len) :: k.live }) := by
  rw [Kernel.allocFrames, ha, Option.map_some]

theorem free_frames_shape {k k' : Kernel} (h : (k.freeFrames ptr len).next = some k') :
    ∃ m, phymemFree k.phymem ptr len = some m ∧
      k' = { k with phymem := m, live := k.live.filter (· != (ptr, len)) } := by
  obtain ⟨m, hm, he⟩ := Option.map_eq_some_iff.mp h
  exact ⟨m, hm, he.symm⟩

theorem kill_self_shape {k k' : Kernel} (h : k.schedulerKillSelf.next = some k') :
    ∃ i p m, k.getProcess = some (i, p) ∧ phymemFree k.phymem p.palloc p.pallocLen = some m ∧
      k' = afterExit k i p m := by
  unfold Kernel.schedulerKillSelf at h
  split at h
  · cases h
  · rename_i i p hg
    obtain ⟨m, hm, rfl⟩ := free_frames_shape h
    exact ⟨i, p, m, hg, hm, rfl⟩

theorem next_process_slot {slots : List (Option Nat)} {fuel last i h : Nat}
    (hn : Kernel.nextProcess slots fuel last = some (i, h)) : slots[i]? = some (some h) := by
  induction fuel generalizing last with
  | zero => cases hn
  | succ fuel ih =>
    simp only [Kernel.nextProcess] at hn
    generalize (if last + 1 ≥ maxProcesses then 0 else last + 1) = j at hn
    cases hj : slots[j]?.join with
    | none =>
      rw [hj] at hn
      exact ih hn
    | some g =>
      rw [hj] at hn
      cases hn
      exact Option.join_eq_some_iff.mp hj

theorem elf_start_outcome (k : Kernel) (img : Image) (rest : PageDirectory) :
    Outcome k (.elfStart img rest) (k.elfStart img rest) := by
  unfold Kernel.elfStart
  cases hg : k.getProcess with
  | none => exact .stuck
  | some q =>
    obtain ⟨i, p⟩ := q
    dsimp only
    split
    · exact .of (.unchanged (by simp) (by simp))
    · rename_i ht
      have ht : img.eType = 2 := not_not.mp ht
      cases ha : k.allocFrames img.esize with
      | none => exact .stuck
      | some q =>
        obtain ⟨palloc, a, k1⟩ := q
        obtain ⟨m, hm, hc, rfl⟩ := alloc_frames_shape ha
        cases a with
        | wild => exact .stuck
        | fault => exact .faulting (.clearing ht hm hc)
        | done =>
          dsimp only
          cases access (createNewPageDirectory rest 0x400000 palloc) img.touches with
          | wild => exact .stuck
          | fault => exact .faulting (.loading hg ht hm hc)
          | done =>
            dsimp only
            split
            · rename_i hok
              exact .of (.loaded hg ht hm hc (.inl hok))
            · split
              · rename_i hz
                exact .of (.loaded hg ht hm hc (.inr hz))
              · rename_i hz
                exact .replacing rfl hg ht hm hc hz

theorem fork_outcome (k : Kernel) (f : ForkSite) :
    Outcome k (.sysFork f) (k.effect (.sysFork f)) := by
  have heff : k.effect (.sysFork f) = k.sysFork f := rfl
  unfold Kernel.sysFork at heff
  cases hg : k.getProcess with
  | none =>
    rw [heff, hg]
    exact .stuck
  | some q =>
    obtain ⟨i, p⟩ := q
    simp only [hg] at heff
    cases ha : k.allocFrames p.execLen with
    | none =>
      rw [heff, ha]
      exact .stuck
    | some q =>
      obtain ⟨palloc, a, k1⟩ := q
      obtain ⟨m, hm, hc, rfl⟩ := alloc_frames_shape ha
      simp only [ha] at heff
      cases a with
      | wild =>
        rw [heff]
        exact .stuck
      | fault =>
        rw [heff]
        exact .faulting (.forkClearing hg hm hc)
      | done =>
        dsimp only at heff
        generalize hacc : Kernel.forkAccess _ _ f = b at heff
        cases b with
        | wild =>
          rw [heff]
          exact .stuck
        | fault =>
          rw [heff]
          exact .faulting (.forkCopying hg hm hc)
        | done =>
          have hn : (k.effect (.sysFork f)).fault = false := by
            rw [heff]
            rfl
          rw [heff]
          refine .of ?_
          generalize hk : Kernel.pushProcess _ _ = k1
          have hlast : procAt k1.procs k.procs.length =
              some (forkedProcess k f.rest palloc p.execLen) := by
            subst k1
            exact (proc_at_push _ _ _).trans (if_pos rfl)
          rcases add_cases k1 k.procs.length with hs | ⟨q, j, hq, ht, hfirst, hj, hs⟩
          · have hfull := add_full hlast (by simp [forkedProcess]) hs
            rw [hs]
            subst k1
            exact .forkedFull hg hn hm hc hfull
          · rw [hs]
            subst k1
            exact .forked hg hn hm hc hj hfirst

theorem create_step (k : Kernel) (addr : Nat) (fail : Option MallocSite) :
    Step k (.createNewProcess addr fail) (k.createNewProcess addr fail) := by
  rcases create_cases k addr fail with he | he | he
  · rw [he]
    exact .unchanged (by simp) (by simp)
  · rw [he]
    exact .drew
  · rw [he]
    exact .created 1 (.inl ⟨addr, fail, rfl⟩) (Nat.le_refl 1)

theorem nothread_step (k : Kernel) (fail : Option MallocSite) :
    Step k (.createNewProcessNothread fail) ((k.createNewProcessNothread fail).getD k) := by
  unfold Kernel.createNewProcessNothread
  split
  · exact .unchanged (by simp) (by simp)
  · exact .created 0 (.inr ⟨fail, rfl⟩) (Nat.zero_le 1)

theorem add_step {k : Kernel} (hn : some i ∉ k.processes) :
    Step k (.schedulerAddProcess i) (k.schedulerAddProcess i).1 := by
  rcases add_cases k i with hs | ⟨p, j, hp, ht, hfirst, hj, hs⟩
  · rw [hs]
    refine .same ?_ (by simp)
    intro i' p he hp ht
    cases he
    exact add_full hp ht hs
  · rw [hs]
    exact .added hp ht hn hj hfirst

theorem switch_step {k k' : Kernel} (h : k.schedulerSwitch = some k') :
    Step k .schedulerSwitch k' := by
  unfold Kernel.schedulerSwitch at h
  split at h
  · cases h
  · rename_i i j hn
    split at h
    · cases h
    · rename_i p hp
      obtain ⟨t, ht, rfl⟩ := Option.map_eq_some_iff.mp h
      exact .switched hp (next_process_slot hn) hn ht

theorem record_allocation_step (k : Kernel) (base : Nat) :
    Step k (.postAllocation base) (k.recordAllocation base) := by
  unfold Kernel.recordAllocation
  split
  · exact .unchanged (by simp) (by simp)
  · rename_i i p hg
    split
    · exact .unchanged (by simp) (by simp)
    · rename_i p' hp
      exact .recorded hg hp

theorem open_step {k k' : Kernel} (h : k.sysOpen flags fl = some (k', r)) :
    Step k (.sysOpen flags fl) k' := by
  unfold Kernel.sysOpen at h
  split at h
  · cases h
    exact .unchanged (by simp) (by simp)
  · rename_i hf
    split at h
    · cases h
    · rename_i i p hg
      split at h
      · cases h
        exact .unchanged (by simp) (by simp)
      · rename_i hlt
        split at h
        · cases h
          exact .unchanged (by simp) (by simp)
        · cases h
          exact .opened hg (by omega) (not_not.mp hf)

theorem effect_outcome (k : Kernel) (op : KernelOp) : Outcome k op (k.effect op) := by
  cases op with
  | createNewProcess addr fail => exact .of (create_step k addr fail)
  | createNewProcessNothread fail => exact .of (nothread_step k fail)
  | schedulerAddProcess i =>
    simp only [Kernel.effect]
    split
    · exact .stuck
    · rename_i hn
      exact .of (add_step hn)
  | elfStart img rest => exact elf_start_outcome k img rest
  | sysFork f => exact fork_outcome k f
  | schedulerKillSelf => exact .exiting (fun _ _ _ => .inl rfl)
  | schedulerKillPid pid =>
    simp only [Kernel.effect, Kernel.schedulerKillPid]
    cases hg : k.getProcess with
    | none => exact .stuck
    | some q =>
      obtain ⟨i, p⟩ := q
      dsimp only
      split
      · rename_i hpid
        refine .exiting ?_
        intro j q hq
        rw [hg] at hq
        cases hq
        exact .inr (congrArg KernelOp.schedulerKillPid hpid)
      · rename_i hpid
        exact .of (.killed hg hpid)
  | schedulerSwitch => exact .quiet (fun _ => switch_step)
  | postAllocation base => exact .of (record_allocation_step k base)
  | sysOpen flags fl =>
    refine .quiet ?_
    intro k' hk
    obtain ⟨⟨k1, r⟩, ho, rfl⟩ := Option.map_eq_some_iff.mp hk
    exact open_step ho

/-- The inversion of the step function that every invariant is proved from. -/
theorem step_cases {k k' : Kernel} {op : KernelOp} (h : k.step op = some k') : Step k op k' := by
  have ho := effect_outcome k op
  unfold Kernel.step at h
  generalize he : k.effect op = e at ho h
  cases ho with
  | quiet hs => exact hs k' h
  | faulting hb =>
    obtain ⟨i, p, m, hg, hm, rfl⟩ := kill_self_shape h
    refine .faulted hb ?_ hg hm
    rw [he]
    rfl
  | replacing hop hg ht ha hc hz =>
    subst hop
    obtain ⟨m', hm', rfl⟩ := free_frames_shape h
    exact .replaced hg ht ha hc hz hm'
  | exiting hop =>
    obtain ⟨i, p, m, hg, hm, rfl⟩ := kill_self_shape h
    exact .exited (hop i p hg) hg hm

theorem push_lookup {procs : List (Option Process)}
    (hi : procAt (procs ++ [some p]) i = some q) :
    (i = procs.length ∧ q = p) ∨ procAt procs i = some q := by
  rw [proc_at_push] at hi
  split at hi
  · rename_i he
    exact .inl ⟨he, (Option.some.inj hi).symm⟩
  · exact .inr hi

theorem mem_set_slot {processes : List (Option Nat)} (hm : some i ∈ processes.set n (some h)) :
    i = h ∨ some i ∈ processes := by
  rcases List.mem_or_eq_of_mem_set hm with hm | he
  · exact .inr hm
  · exact .inl (Option.some.inj he)

theorem mem_replace_slot {l : List (Option Nat)} (hm : some i ∈ l.replace a none) :
    some i ∈ l := by
  induction l with
  | nil => simp at hm
  | cons b l ih =>
    rw [List.replace_cons] at hm
    split at hm
    · rcases List.mem_cons.mp hm with he | hm
      · cases he
      · exact List.mem_cons_of_mem _ hm
    · rcases List.mem_cons.mp hm with he | hm
      · exact he ▸ List.mem_cons_self
      · exact List.mem_cons_of_mem _ (ih hm)

theorem mem_replace_other {l : List (Option Nat)} (hm : some i ∈ l) (hne : i ≠ h) :
    some i ∈ l.replace (some h) none := by
  induction l with
  | nil => cases hm
  | cons b l ih =>
    rw [List.replace_cons]
    split
    · rename_i hb
      rcases List.mem_cons.mp hm with he | hm
      · rw [beq_iff_eq, ← he, Option.some.injEq] at hb
        exact absurd hb.symm hne
      · exact List.mem_cons_of_mem _ hm
    · rcases List.mem_cons.mp hm with he | hm
      · exact he ▸ List.mem_cons_self
      · exact List.mem_cons_of_mem _ (ih hm)

theorem slot_lt {l : List α} {a : α} (h : l[i]? = some a) : i < l.length :=
  (List.getElem?_eq_some_iff.mp h).1

theorem mem_set_other {processes : List (Option Nat)} (hi : processes[n]? = some none)
    (hm : some j ∈ processes) : some j ∈ processes.set n (some h) := by
  obtain ⟨m, hm⟩ := List.mem_iff_getElem?.mp hm
  refine List.mem_iff_getElem?.mpr ⟨m, ?_⟩
  have hne : n ≠ m := by
    intro he
    rw [he, hm] at hi
    cases hi
  rw [List.getElem?_set_ne hne, hm]

theorem mem_set_self {processes : List (Option Nat)} (hi : processes[n]? = some none) :
    some h ∈ processes.set n (some h) :=
  List.mem_iff_getElem?.mpr ⟨n, List.getElem?_set_self (slot_lt hi)⟩

/-- A machine with 24 pages of frames, right after boot. -/
def smallKernel : Kernel :=
  ⟨⟨physStart, 0x17000, 0x31b000, .initTwo, [0, 0, 0, 0]⟩, fun _ => 0, [],
    List.replicate maxProcesses none, 0, none, 0, 0, [], []⟩

end Levos.Proofs.Kernel
