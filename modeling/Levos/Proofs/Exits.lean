import Levos.Proofs.RoundRobin

namespace Levos.Proofs.Exits
open Levos Levos.Library Levos.Scheduler Levos.Proofs.RoundRobin

/-- The threads of live processes were created, are not among the killed ones
and belong to one process only. -/
structure Census (s : State) : Prop where
  fresh : ∀ h p, s.proc h = some p → ∀ t ∈ p.threads.members, t < s.threads ∧ t ∉ s.killed
  dead : ∀ t ∈ s.killed, t < s.threads
  apart : ∀ h k p q t, s.proc h = some p → s.proc k = some q →
    t ∈ p.threads.members → t ∈ q.threads.members → h = k

/-- Every process on the table is there once, is live and has a thread. -/
structure Tabled (s : State) : Prop where
  once : s.processes.members.Nodup
  live : ∀ h ∈ s.processes.members, ∃ p, s.proc h = some p ∧ p.threads.members ≠ []
  counted : ∀ h p, s.proc h = some p → p.threadslen ≠ 0 → p.threads.members ≠ []

theorem boot_census : Census State.boot where
  fresh := fun h p hp => by simp [State.boot, State.proc] at hp
  dead := fun t ht => by cases ht
  apart := fun h k p q t hp => by simp [State.boot, State.proc] at hp

theorem boot_tabled : Tabled State.boot where
  once := by simp [State.boot]
  live := fun h hh => by simp [State.boot] at hh
  counted := fun h p hp => by simp [State.boot, State.proc] at hp

/-- A step that makes no thread and kills none. -/
theorem Census.shrink {s t : State} (hs : Census s)
    (hold : ∀ h q, t.proc h = some q → ∀ x ∈ q.threads.members,
      ∃ p, s.proc h = some p ∧ x ∈ p.threads.members)
    (hthreads : t.threads = s.threads) (hkilled : t.killed = s.killed) : Census t where
  fresh := by
    intro h q hq x hx
    obtain ⟨p, hp, hxp⟩ := hold h q hq x hx
    rw [hthreads, hkilled]
    exact hs.fresh h p hp x hxp
  dead := by
    rw [hthreads, hkilled]
    exact hs.dead
  apart := by
    intro h k q q' x hq hq' hx hx'
    obtain ⟨p, hp, hxp⟩ := hold h q hq x hx
    obtain ⟨p', hp', hxp'⟩ := hold k q' hq' x hx'
    exact hs.apart h k p p' x hp hp' hxp hxp'

theorem proc_push {s : State} (h : s.createNewProcessNothread.proc k = some q) :
    s.proc k = some q ∨ q = ⟨0, 0, .empty maxThreads Nat, s.lastpid⟩ := by
  simp only [State.proc, State.createNewProcessNothread, List.getElem?_append] at h
  split at h
  · exact .inl h
  · refine .inr ?_
    simpa using List.mem_of_getElem? (Option.join_eq_some_iff.mp h)

theorem Census.create {s : State} (hs : Census s) : Census s.createNewProcessNothread := by
  refine hs.shrink ?_ rfl rfl
  intro h q hq x hx
  rcases proc_push hq with hp | rfl
  · exact ⟨q, hp, hx⟩
  · simp at hx

theorem Tabled.create {s : State} (hs : Tabled s) : Tabled s.createNewProcessNothread where
  once := hs.once
  live := by
    intro h hh
    obtain ⟨p, hp, hne⟩ := hs.live h hh
    have hlt := (List.getElem?_eq_some_iff.mp (Option.join_eq_some_iff.mp hp)).1
    refine ⟨p, ?_, hne⟩
    simpa [State.proc, State.createNewProcessNothread, List.getElem?_append_left hlt] using hp
  counted := by
    intro h p hp hlen
    rcases proc_push hp with hp | rfl
    · exact hs.counted h p hp hlen
    · simp at hlen

/-- `create_new_thread` fails, or puts a new thread behind the others. -/
theorem create_thread_cases {s t : State} (h : s.createNewThread k = some t) :
    t = s ∨ ∃ p, s.proc k = some p ∧ p.threadslen < maxThreads ∧
      t = { s.setProc k (some { p with
          threads := p.threads.set p.threadslen (some s.threads)
          threadslen := p.threadslen + 1 }) with
        threads := s.threads + 1 } := by
  unfold State.createNewThread at h
  split at h
  · cases h
  · rename_i p hp
    split at h
    · exact .inl (Option.some.inj h).symm
    · exact .inr ⟨p, hp, by omega, (Option.some.inj h).symm⟩

theorem proc_set_cases {s : State} (h : (s.setProc k r).proc j = some q) :
    (j = k ∧ r = some q) ∨ (j ≠ k ∧ s.proc j = some q) := by
  by_cases hj : j = k
  · subst hj
    refine .inl ⟨rfl, ?_⟩
    by_cases hlt : j < s.procs.length
    · simpa [State.proc, State.setProc, List.getElem?_set_self hlt] using h
    · simp [State.proc, State.setProc, Nat.le_of_not_lt hlt] at h
  · exact .inr ⟨hj, proc_set_ne s hj r ▸ h⟩

theorem Census.createThread {s t : State} (hs : Census s) (h : s.createNewThread k = some t) :
    Census t := by
  obtain rfl | ⟨p, hp, hroom, rfl⟩ := create_thread_cases h
  · exact hs
  -- a thread of the new state is the new one, in process `k`, or an old one
  have hold (j : Nat) (q : Scheduler.Process) (x : Nat)
      (hq : (s.setProc k (some { p with
          threads := p.threads.set p.threadslen (some s.threads)
          threadslen := p.threadslen + 1 })).proc j = some q) (hx : x ∈ q.threads.members) :
      (j = k ∧ x = s.threads) ∨ ∃ q', s.proc j = some q' ∧ x ∈ q'.threads.members := by
    rcases proc_set_cases hq with ⟨rfl, hr⟩ | ⟨-, hj⟩
    · cases hr
      rcases Slots.mem_members_set hroom hx with rfl | hx
      · exact .inl ⟨rfl, rfl⟩
      · exact .inr ⟨p, hp, hx⟩
    · exact .inr ⟨q, hj, hx⟩
  refine ⟨?_, fun x hx => Nat.lt_succ_of_lt (hs.dead x hx), ?_⟩
  · intro j q hq x hx
    rcases hold j q x hq hx with ⟨-, rfl⟩ | ⟨q', hq', hx'⟩
    · exact ⟨Nat.lt_succ_self _, fun hk => Nat.lt_irrefl _ (hs.dead _ hk)⟩
    · obtain ⟨hlt, hn⟩ := hs.fresh j q' hq' x hx'
      exact ⟨Nat.lt_succ_of_lt hlt, hn⟩
  · intro j l q r x hq hr hx hx'
    rcases hold j q x hq hx with ⟨rfl, rfl⟩ | ⟨q', hq', hxq⟩
    · rcases hold l r _ hr hx' with ⟨rfl, -⟩ | ⟨r', hr', hxr⟩
      · rfl
      · exact absurd (hs.fresh l r' hr' _ hxr).1 (Nat.lt_irrefl _)
    · rcases hold l r x hr hx' with ⟨-, rfl⟩ | ⟨r', hr', hxr⟩
      · exact absurd (hs.fresh j q' hq' _ hxq).1 (Nat.lt_irrefl _)
      · exact hs.apart j l q' r' x hq' hr' hxq hxr

theorem Tabled.createThread {s t : State} (hs : Tabled s) (h : s.createNewThread k = some t) :
    Tabled t := by
  obtain rfl | ⟨p, hp, hroom, rfl⟩ := create_thread_cases h
  · exact hs
  have hfilled : (p.threads.set p.threadslen (some s.threads)).members ≠ [] :=
    List.ne_nil_of_mem (Slots.mem_members_set_self p.threads hroom)
  refine ⟨hs.once, ?_, ?_⟩
  · intro j hj
    obtain ⟨q, hq, hne⟩ := hs.live j hj
    by_cases hjk : j = k
    · subst hjk
      exact ⟨_, proc_set_self hp _, hfilled⟩
    · exact ⟨q, (proc_set_ne s hjk _).trans hq, hne⟩
  · intro j q hq hlen
    rcases proc_set_cases hq with ⟨-, hr⟩ | ⟨-, hj⟩
    · cases hr
      exact hfilled
    · exact hs.counted j q hj hlen

/-- `scheduler_add_process` changes nothing, or fills an empty slot of the table
with a process that has a thread and is not on the table. -/
theorem add_cases {s t : State} (h : s.schedulerAddProcess k = some t) :
    t = s ∨ ∃ p i, s.proc k = some p ∧ p.threadslen ≠ 0 ∧ k ∉ s.processes.members ∧
      s.processes.entries[i]? = some none ∧
      t = { s with processes := s.processes.set i (some k) } := by
  unfold State.schedulerAddProcess at h
  split at h
  · cases h
  · rename_i p hp
    split at h
    · cases h
    · rename_i hnew
      split at h
      · exact .inl (Option.some.inj h).symm
      · rename_i hlen
        split at h
        · exact .inl (Option.some.inj h).symm
        · rename_i i hi
          obtain ⟨hlt, hnone, -⟩ := List.findIdx?_eq_some_iff_getElem.mp hi
          refine .inr ⟨p, i, hp, hlen, hnew, ?_, (Option.some.inj h).symm⟩
          rw [List.getElem?_eq_getElem hlt, eq_of_beq hnone]

theorem Census.add {s t : State} (hs : Census s) (h : s.schedulerAddProcess k = some t) :
    Census t := by
  obtain rfl | ⟨p, i, -, -, -, -, rfl⟩ := add_cases h
  · exact hs
  · exact hs.shrink (fun h q hq x hx => ⟨q, hq, hx⟩) rfl rfl

theorem Tabled.add {s t : State} (hs : Tabled s) (h : s.schedulerAddProcess k = some t) :
    Tabled t := by
  obtain rfl | ⟨p, i, hp, hlen, hnew, hempty, rfl⟩ := add_cases h
  · exact hs
  have hperm := Slots.members_set_perm hempty k
  refine ⟨hperm.nodup_iff.mpr (List.nodup_cons.mpr ⟨hnew, hs.once⟩), ?_, hs.counted⟩
  intro j hj
  rcases List.mem_cons.mp (hperm.mem_iff.mp hj) with rfl | hj
  · exact ⟨p, hp, hs.counted j p hp hlen⟩
  · exact hs.live j hj

theorem kill_self_cases {s t : State} (h : s.schedulerKillSelf = some t) :
    ∃ k p, s.current = some k ∧ s.proc k = some p ∧
      t = { s.setProc k none with
        oldThread := none
        processes := s.processes.vacate k
        killed := p.threads.members ++ s.killed } := by
  unfold State.schedulerKillSelf at h
  split at h
  · cases h
  · rename_i k hk
    split at h
    · cases h
    · rename_i p hp
      exact ⟨k, p, hk, hp, (Option.some.inj h).symm⟩

theorem Census.killSelf {s t : State} (hs : Census s) (h : s.schedulerKillSelf = some t) :
    Census t := by
  obtain ⟨k, p, -, hp, rfl⟩ := kill_self_cases h
  have hother (j : Nat) (q : Scheduler.Process) (hq : (s.setProc k none).proc j = some q) :
      j ≠ k ∧ s.proc j = some q := by
    rcases proc_set_cases hq with ⟨-, hr⟩ | hj
    · cases hr
    · exact hj
  refine ⟨?_, ?_, ?_⟩
  · intro j q hq x hx
    obtain ⟨hjk, hj⟩ := hother j q hq
    obtain ⟨hlt, hn⟩ := hs.fresh j q hj x hx
    refine ⟨hlt, ?_⟩
    intro hmem
    rcases List.mem_append.mp hmem with hxp | hxk
    · exact hjk (hs.apart j k q p x hj hp hx hxp)
    · exact hn hxk
  · intro x hx
    rcases List.mem_append.mp hx with hxp | hxk
    · exact (hs.fresh k p hp x hxp).1
    · exact hs.dead x hxk
  · intro j l q r x hq hr hx hx'
    exact hs.apart j l q r x (hother j q hq).2 (hother l r hr).2 hx hx'

theorem Tabled.killSelf {s t : State} (hs : Tabled s) (h : s.schedulerKillSelf = some t) :
    Tabled t := by
  obtain ⟨k, p, -, hp, rfl⟩ := kill_self_cases h
  refine ⟨?_, ?_, ?_⟩
  · simpa only [Slots.members_vacate] using hs.once.erase k
  · intro j hj
    simp only [Slots.members_vacate] at hj
    have hjk : j ≠ k := (hs.once.mem_erase_iff.mp hj).1
    obtain ⟨q, hq, hne⟩ := hs.live j (List.mem_of_mem_erase hj)
    exact ⟨q, (proc_set_ne s hjk none).trans hq, hne⟩
  · intro j q hq hlen
    rcases proc_set_cases hq with ⟨-, hr⟩ | ⟨-, hj⟩
    · cases hr
    · exact hs.counted j q hj hlen

/-- `scheduler_kill_pid` exits, or takes the processes of the pid off the table
together with their structs. -/
theorem kill_pid_cases {s t : State} (h : s.schedulerKillPid pid = some t) :
    s.schedulerKillSelf = some t ∨
      (t.processes = s.processes.retain (fun h => s.pidOf h != some pid) ∧
        (∀ j, t.proc j = if j ∈ s.processes.members ∧ s.pidOf j = some pid then none
          else s.proc j) ∧ t.threads = s.threads ∧ t.killed = s.killed) := by
  unfold State.schedulerKillPid at h
  split at h
  · cases h
  · split at h
    · cases h
    · split at h
      · exact .inl h
      · cases h
        refine .inr ⟨rfl, ?_, rfl, rfl⟩
        intro j
        simp only [State.proc, List.getElem?_mapIdx]
        cases s.procs[j]? with
        | none => simp
        | some q => simp

theorem Census.killPid {s t : State} (hs : Census s) (h : s.schedulerKillPid pid = some t) :
    Census t := by
  obtain hself | ⟨-, hproc, hthreads, hkilled⟩ := kill_pid_cases h
  · exact hs.killSelf hself
  refine hs.shrink ?_ hthreads hkilled
  intro j q hq x hx
  rw [hproc] at hq
  split at hq
  · cases hq
  · exact ⟨q, hq, hx⟩

theorem Tabled.killPid {s t : State} (hs : Tabled s) (h : s.schedulerKillPid pid = some t) :
    Tabled t := by
  obtain hself | ⟨htable, hproc, -, -⟩ := kill_pid_cases h
  · exact hs.killSelf hself
  refine ⟨?_, ?_, ?_⟩
  · rw [htable, Slots.members_retain]
    exact hs.once.filter _
  · intro j hj
    rw [htable, Slots.members_retain, List.mem_filter, bne_iff_ne] at hj
    obtain ⟨q, hq, hne⟩ := hs.live j hj.1
    exact ⟨q, by rw [hproc, if_neg (fun h => hj.2 h.2), hq], hne⟩
  · intro j q hq hlen
    rw [hproc] at hq
    split at hq
    · cases hq
    · exact hs.counted j q hq hlen

/-- A struct after a switch is the struct before it, up to `lastthread`. -/
theorem Switched.same {s s' : State} (h : Switched s sel p s') (hq : s'.proc k = some q) :
    ∃ r, s.proc k = some r ∧ q.threads = r.threads ∧ q.threadslen = r.threadslen := by
  by_cases hk : k = sel.process
  · subst hk
    obtain ⟨j, -, hset⟩ := h.next
    cases hset.symm.trans hq
    exact ⟨p, h.struct, rfl, rfl⟩
  · exact ⟨q, (h.others k hk).symm.trans hq, rfl, rfl⟩

theorem Census.switch {s s' : State} (hs : Census s)
    (h : s.schedulerSwitch = some (sel, s')) : Census s' := by
  obtain ⟨⟨p, hcase⟩, -, -, hkilled, hthreads, -⟩ := switch_cases h
  refine hs.shrink ?_ hthreads hkilled
  intro k q hq x hx
  obtain ⟨r, hr, hsame, -⟩ := Switched.same hcase hq
  exact ⟨r, hr, hsame ▸ hx⟩

theorem Tabled.switch {s s' : State} (hs : Tabled s)
    (h : s.schedulerSwitch = some (sel, s')) : Tabled s' := by
  obtain ⟨⟨p, hcase⟩, -⟩ := switch_cases h
  refine ⟨hcase.table ▸ hs.once, ?_, ?_⟩
  · intro k hk
    obtain ⟨r, hr, hne⟩ := hs.live k (hcase.table ▸ hk)
    obtain ⟨q, hq, hsame⟩ := hcase.threads hr
    exact ⟨q, hq, hsame ▸ hne⟩
  · intro k q hq hlen
    obtain ⟨r, hr, hsame, hlens⟩ := Switched.same hcase hq
    exact hsame ▸ hs.counted k r hr (hlens ▸ hlen)

theorem step_switch {s t : State} (h : s.step .schedulerSwitch = some t) :
    ∃ sel, s.schedulerSwitch = some (sel, t) := by
  obtain ⟨⟨sel, t'⟩, hsw, rfl⟩ := Option.map_eq_some_iff.mp h
  exact ⟨sel, hsw⟩

structure Orderly (s : State) : Prop where
  census : Census s
  tabled : Tabled s

theorem boot_orderly : Orderly State.boot := ⟨boot_census, boot_tabled⟩

theorem Orderly.step {s t : State} (hs : Orderly s) (h : s.step op = some t) : Orderly t := by
  obtain ⟨hc, ht⟩ := hs
  cases op with
  | createNewProcess made =>
    cases made with
    | false =>
      cases h
      exact ⟨hc.shrink (fun _ q hq x hx => ⟨q, hq, hx⟩) rfl rfl, ⟨ht.once, ht.live, ht.counted⟩⟩
    | true => exact ⟨hc.create.createThread h, ht.create.createThread h⟩
  | createNewProcessNothread =>
    cases h
    exact ⟨hc.create, ht.create⟩
  | createNewThread k => exact ⟨hc.createThread h, ht.createThread h⟩
  | schedulerAddProcess k => exact ⟨hc.add h, ht.add h⟩
  | schedulerKillSelf => exact ⟨hc.killSelf h, ht.killSelf h⟩
  | schedulerKillPid pid => exact ⟨hc.killPid h, ht.killPid h⟩
  | schedulerSwitch =>
    obtain ⟨sel, hsw⟩ := step_switch h
    exact ⟨hc.switch hsw, ht.switch hsw⟩

/-- In every run the selection loops find a thread as long as a process is left
on the table. -/
theorem run_runnable (h : run State.step State.boot as = some s)
    (hne : s.processes.members ≠ []) : Runnable s := by
  have horderly := run_keeps h boot_orderly (fun _ _ _ hs hstep => hs.step hstep)
  exact ⟨hne, horderly.tabled.live⟩

/-- The thread a switch selects was made, and never killed. -/
theorem Census.selected {s s' : State} (hs : Census s)
    (h : s.schedulerSwitch = some (sel, s')) :
    sel.thread < s.threads ∧ sel.thread ∉ s.killed := by
  obtain ⟨⟨p, hcase⟩, -⟩ := switch_cases h
  obtain ⟨j, hscan, -⟩ := hcase.next
  have hmem : sel.thread ∈ p.threads.members :=
    Slots.mem_members.mpr ⟨_, (Slots.scan_nearest (by decide) hscan).1⟩
  exact hs.fresh sel.process p hcase.struct _ hmem

/-- At the `switch_to_thread` of a switch, neither pointer is a thread of a
process that `scheduler_kill_self` removed. -/
def Spared (s : State) (op : Op) : Prop :=
  op = .schedulerSwitch → ∀ t, s.step op = some t →
    (∀ x, t.oldThread = some x → x ∉ t.killed) ∧ (∀ x, t.newThread = some x → x ∉ t.killed)

/-- The thread that ran last is not one of a process that has exited since. -/
def NoExitSince (s : State) (op : Op) : Prop :=
  op = .schedulerSwitch → ∀ x, s.newThread = some x → x ∉ s.killed

theorem Census.spared_iff {s t : State} (hs : Census s) (h : s.step op = some t) :
    Spared s op ↔ NoExitSince s op := by
  refine imp_congr_right ?_
  rintro rfl
  obtain ⟨sel, hsw⟩ := step_switch h
  obtain ⟨-, hold, hnew, hkilled, -⟩ := switch_cases hsw
  constructor
  · intro hp x hx
    have := (hp t h).1 x (hold.trans hx)
    rwa [hkilled] at this
  · intro hg t' ht'
    cases h.symm.trans ht'
    rw [hold, hnew, hkilled]
    refine ⟨hg, ?_⟩
    rintro x hx
    cases hx
    exact (hs.selected hsw).2

/-- No context of a killed thread is saved or loaded in exactly those runs in
which no process exits before a switch. -/
theorem killed_threads_spared_iff (as : List Op)
    (hr : (run State.step State.boot as).isSome) :
    Guarded State.step Spared State.boot as ↔ Guarded State.step NoExitSince State.boot as :=
  guarded_iff_guarded_of_run boot_orderly (fun _ _ _ hs _ h => hs.step h)
    (fun _ _ _ hs h => hs.census.spared_iff h) hr

/-- Two processes with one thread each. -/
def twoStarted : List Op :=
  [.createNewProcessNothread, .createNewThread 0, .schedulerAddProcess 0,
    .createNewProcessNothread, .createNewThread 1, .schedulerAddProcess 1]

theorem two_started_switched :
    (run State.step State.boot
      (twoStarted ++ [Op.schedulerSwitch, Op.schedulerSwitch])).isSome := by
  decide

theorem killed_threads_spared_two :
    Guarded State.step Spared State.boot (twoStarted ++ [.schedulerSwitch, .schedulerSwitch]) := by
  refine (killed_threads_spared_iff _ two_started_switched).mpr ?_
  refine guarded_append_iff.mpr ⟨.of_forall ?_ _, ?_⟩
  · intro s op hop hsw
    subst hsw
    exact absurd hop (by decide)
  · intro s hs
    cases hs
    exact .cons rfl (fun _ x hx => by cases hx) (.single (fun _ _ _ => List.not_mem_nil))

/-- The switch after an exit saves a context through the exited thread. -/
theorem killed_thread_saved : ¬ ∀ as, Guarded State.step Spared State.boot as := by
  intro h
  have hsw := (guarded_iff State.step Spared State.boot _).mp
    (h (twoStarted ++ [Op.schedulerSwitch, Op.schedulerKillSelf] ++ [Op.schedulerSwitch]))
    (twoStarted ++ [Op.schedulerSwitch, Op.schedulerKillSelf]) .schedulerSwitch [] _ rfl rfl
  exact (hsw rfl _ rfl).1 _ rfl (by decide)

end Levos.Proofs.Exits
