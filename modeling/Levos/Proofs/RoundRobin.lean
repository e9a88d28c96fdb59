import Levos.Scheduler

namespace Levos.Proofs.RoundRobin
open Levos Levos.Library Levos.Scheduler

theorem bump_to_nat (hn : 0 < n) (hb : n < 2 ^ 8) (last : UInt8) :
    (bump n last).toNat = Slots.after n last.toNat := by
  have hlast := last.toNat_lt
  have hadd : (last + 1).toNat = (last.toNat + 1) % 2 ^ 8 := UInt8.toNat_add last 1
  unfold bump Slots.after
  by_cases hw : last.toNat + 1 = 2 ^ 8
  · have hzero : (last + 1).toNat = 0 := by rw [hadd, hw, Nat.mod_self]
    rw [if_neg (by omega), if_pos (by omega), hzero]
  · have hsucc : (last + 1).toNat = last.toNat + 1 := by
      rw [hadd, Nat.mod_eq_of_lt (by omega)]
    rw [hsucc]
    split
    · rfl
    · exact hsucc

/-- The selection loop is the search for the next occupied place. -/
theorem select_loop_scan (hn : 0 < n) (hb : n < 2 ^ 8) (slots : Slots n Nat) (fuel : Nat)
    (last : UInt8) :
    (selectLoop slots fuel last).map (Prod.map UInt8.toNat id) = slots.scan fuel last.toNat := by
  induction fuel generalizing last with
  | zero => rfl
  | succ fuel ih =>
    have hi := bump_to_nat hn hb last
    simp only [selectLoop, Slots.scan, ← hi]
    cases slots.get (bump n last).toNat with
    | none => exact ih (bump n last)
    | some a => rfl

theorem select_loop_some {slots : Slots n Nat} (hn : 0 < n) (hb : n < 2 ^ 8)
    (h : selectLoop slots fuel last = some (i, a)) :
    slots.scan fuel last.toNat = some (i.toNat, a) := by
  rw [← select_loop_scan hn hb, h]
  rfl

theorem select_loop_exists {slots : Slots n Nat} (hn : 0 < n) (hb : n < 2 ^ 8)
    (h : slots.members ≠ []) (last : UInt8) : ∃ i a, selectLoop slots n last = some (i, a) := by
  obtain ⟨i, a, hscan⟩ := Slots.scan_exists h last.toNat
  rw [← select_loop_scan hn hb, Option.map_eq_some_iff] at hscan
  obtain ⟨⟨i, a⟩, hsel, -⟩ := hscan
  exact ⟨i, a, hsel⟩

/-- There is a process on the table, and each one there has a thread. -/
structure Runnable (s : State) : Prop where
  process : s.processes.members ≠ []
  thread : ∀ h ∈ s.processes.members, ∃ p, s.proc h = some p ∧ p.threads.members ≠ []

/-- Everything `scheduler_switch` does to the tables. -/
structure Switched (s : State) (sel : Selection) (p : Scheduler.Process) (s' : State) :
    Prop where
  chosen : s.processes.scan maxProcesses s.lastProcess.toNat =
    some (s'.lastProcess.toNat, sel.process)
  struct : s.proc sel.process = some p
  next : ∃ j, p.threads.scan maxThreads p.lastthread.toNat = some (j.toNat, sel.thread) ∧
    s'.proc sel.process = some { p with lastthread := j }
  others : ∀ h, h ≠ sel.process → s'.proc h = s.proc h
  table : s'.processes = s.processes

theorem proc_set_self {s : State} (h : s.proc k = some p) (q : Option Scheduler.Process) :
    (s.setProc k q).proc k = q := by
  obtain ⟨hk, -⟩ := List.getElem?_eq_some_iff.mp (Option.join_eq_some_iff.mp h)
  simp [State.proc, State.setProc, List.getElem?_set_self hk]

theorem proc_set_ne (s : State) (h : j ≠ k) (q : Option Scheduler.Process) :
    (s.setProc k q).proc j = s.proc j := by
  simp [State.proc, State.setProc, List.getElem?_set_ne h.symm]

theorem switch_cases {s : State} (h : s.schedulerSwitch = some (sel, s')) :
    (∃ p, Switched s sel p s') ∧ s'.oldThread = s.newThread ∧ s'.newThread = some sel.thread ∧
      s'.killed = s.killed ∧ s'.threads = s.threads ∧ s'.procs.length = s.procs.length := by
  unfold State.schedulerSwitch at h
  split at h
  · cases h
  · rename_i i k hproc
    split at h
    · cases h
    · rename_i p hp
      split at h
      · cases h
      · rename_i j t hthread
        cases h
        refine ⟨⟨p, ?_, hp, ⟨j, ?_, ?_⟩, ?_, rfl⟩, rfl, rfl, rfl, rfl, ?_⟩
        · exact select_loop_some (by decide) (by decide) hproc
        · exact select_loop_some (by decide) (by decide) hthread
        · exact proc_set_self hp _
        · exact fun l hl => proc_set_ne s hl _
        · exact List.length_set

theorem switch_exists {s : State} (hs : Runnable s) :
    ∃ sel s', s.schedulerSwitch = some (sel, s') := by
  obtain ⟨i, k, hproc⟩ := select_loop_exists (by decide) (by decide) hs.process s.lastProcess
  have hscan := select_loop_some (by decide) (by decide) hproc
  have hmem : k ∈ s.processes.members :=
    Slots.mem_members.mpr ⟨_, (Slots.scan_nearest (by decide) hscan).1⟩
  obtain ⟨p, hp, hne⟩ := hs.thread k hmem
  obtain ⟨j, t, hthread⟩ := select_loop_exists (by decide) (by decide) hne p.lastthread
  have hnext : s.nextProcess = some (i, k) := hproc
  have hthen : p.nextThread = some (j, t) := hthread
  simp only [State.schedulerSwitch, hnext, hp, hthen]
  exact ⟨_, _, rfl⟩

/-- A process keeps its threads over a switch. -/
theorem Switched.threads (h : Switched s sel p s') (hq : s.proc k = some q) :
    ∃ q', s'.proc k = some q' ∧ q'.threads = q.threads := by
  by_cases hk : k = sel.process
  · subst hk
    obtain ⟨j, -, hset⟩ := h.next
    cases h.struct.symm.trans hq
    exact ⟨_, hset, rfl⟩
  · exact ⟨q, (h.others k hk).trans hq, rfl⟩

theorem Switched.runnable (h : Switched s sel p s') (hs : Runnable s) : Runnable s' where
  process := h.table ▸ hs.process
  thread := by
    intro k hk
    rw [h.table] at hk
    obtain ⟨q, hq, hne⟩ := hs.thread k hk
    obtain ⟨q', hq', hthreads⟩ := h.threads hq
    exact ⟨q', hq', hthreads ▸ hne⟩

theorem switches_succ (h : State.switches (k + 1) s = some (tr, s'')) :
    ∃ sel s' rest, s.schedulerSwitch = some (sel, s') ∧ s'.switches k = some (rest, s'') ∧
      tr = sel :: rest := by
  unfold State.switches at h
  split at h
  · cases h
  · rename_i sel s' hsw
    obtain ⟨⟨rest, t⟩, hrest, heq⟩ := Option.map_eq_some_iff.mp h
    cases heq
    exact ⟨sel, s', rest, hsw, hrest, rfl⟩

theorem switches_exists {s : State} (hs : Runnable s) (k : Nat) :
    ∃ tr s', s.switches k = some (tr, s') ∧ tr.length = k := by
  induction k generalizing s with
  | zero => exact ⟨[], s, rfl, rfl⟩
  | succ k ih =>
    obtain ⟨sel, s', hsw⟩ := switch_exists hs
    obtain ⟨⟨p, hcase⟩, -⟩ := switch_cases hsw
    obtain ⟨tr, s'', htr, hlen⟩ := ih (hcase.runnable hs)
    exact ⟨sel :: tr, s'', by simp [State.switches, hsw, htr], by simp [hlen]⟩

/-- A run of switches walks the table of processes. -/
theorem switches_processes (h : State.switches k s = some (tr, s')) :
    tr.map Selection.process = (s.processes.picks k s.lastProcess.toNat).map Prod.snd := by
  induction k generalizing s tr with
  | zero =>
    cases h
    rfl
  | succ k ih =>
    obtain ⟨sel, t, rest, hsw, hrest, rfl⟩ := switches_succ h
    obtain ⟨⟨p, hcase⟩, -⟩ := switch_cases hsw
    have hwalk := ih hrest
    rw [hcase.table] at hwalk
    rw [List.map_cons, Slots.picks_cons hcase.chosen, List.map_cons, hwalk]

/-- The switches of a run that chose one process. -/
def turns (tr : List Selection) (h : Nat) : List Selection :=
  tr.filter (fun sel => sel.process == h)

/-- The turns of a process walk its table of threads. -/
theorem switches_threads (h : State.switches k s = some (tr, s')) (hp : s.proc q = some p) :
    (turns tr q).map Selection.thread =
      (p.threads.picks (turns tr q).length p.lastthread.toNat).map Prod.snd := by
  induction k generalizing s tr p with
  | zero =>
    cases h
    rfl
  | succ k ih =>
    obtain ⟨sel, t, rest, hsw, hrest, rfl⟩ := switches_succ h
    obtain ⟨⟨r, hcase⟩, -⟩ := switch_cases hsw
    by_cases hq : sel.process = q
    · subst hq
      obtain ⟨j, hscan, hset⟩ := hcase.next
      cases hcase.struct.symm.trans hp
      have hturn : turns (sel :: rest) sel.process = sel :: turns rest sel.process := by
        simp [turns]
      rw [hturn, List.map_cons, List.length_cons, Slots.picks_cons hscan, List.map_cons,
        ih hrest hset]
    · have hwalk := ih hrest ((hcase.others q (Ne.symm hq)).trans hp)
      have hskip : turns (sel :: rest) q = turns rest q := by
        simp [turns, hq]
      rw [hskip, hwalk]

theorem Switched.nearest (h : Switched s sel p s') :
    s.processes.Nearest s.lastProcess.toNat s'.lastProcess.toNat sel.process ∧
      ∃ p', s'.proc sel.process = some p' ∧
        p.threads.Nearest p.lastthread.toNat p'.lastthread.toNat sel.thread := by
  obtain ⟨j, hscan, hset⟩ := h.next
  exact ⟨Slots.scan_nearest (by decide) h.chosen, _, hset, Slots.scan_nearest (by decide) hscan⟩

/-- The next switch takes the nearest process in cyclic order, and of it the
nearest thread. -/
def SelectsNext (s : State) : Prop :=
  ∃ sel s' p p', s.schedulerSwitch = some (sel, s') ∧
    s.processes.Nearest s.lastProcess.toNat s'.lastProcess.toNat sel.process ∧
    s.proc sel.process = some p ∧ s'.proc sel.process = some p' ∧
    p.threads.Nearest p.lastthread.toNat p'.lastthread.toNat sel.thread

/-- Any number of switches in a row succeed. Every `m` of them in a row, for a
table of `m` processes, select each process once, and every `k` turns in a row
of a process with `k` threads run each thread once. -/
def TakesTurns (s : State) : Prop :=
  ∀ n, ∃ tr s', s.switches n = some (tr, s') ∧ tr.length = n ∧
    (∀ j, j + s.processes.members.length ≤ n →
      (((tr.drop j).take s.processes.members.length).map Selection.process).Perm
        s.processes.members) ∧
    (∀ h p, s.proc h = some p → ∀ j, j + p.threads.members.length ≤ (turns tr h).length →
      ((((turns tr h).drop j).take p.threads.members.length).map Selection.thread).Perm
        p.threads.members)

theorem scheduler_switch_round_robin (s : State) (hs : Runnable s) :
    SelectsNext s ∧ TakesTurns s := by
  constructor
  · obtain ⟨sel, s', hsw⟩ := switch_exists hs
    obtain ⟨⟨p, hcase⟩, -⟩ := switch_cases hsw
    obtain ⟨hnear, p', hp', hthread⟩ := hcase.nearest
    exact ⟨sel, s', p, p', hsw, hnear, hcase.struct, hp', hthread⟩
  · intro n
    obtain ⟨tr, s', hrun, hlen⟩ := switches_exists hs n
    refine ⟨tr, s', hrun, hlen, ?_, ?_⟩
    · intro j hj
      rw [List.map_take, List.map_drop, switches_processes hrun, ← List.map_drop, ← List.map_take]
      exact s.processes.picks_window _ hj
    · intro h p hp j hj
      rw [List.map_take, List.map_drop, switches_threads hrun hp, ← List.map_drop,
        ← List.map_take]
      exact p.threads.picks_window _ hj

/-- Two processes with a hole between them, one of them with two threads. -/
def twoTasks : State :=
  { State.boot with
    processes := (State.boot.processes.set 3 (some 0)).set 9 (some 1)
    lastProcess := 255
    procs := [some ⟨7, 2, ((Slots.empty maxThreads Nat).set 0 (some 0)).set 1 (some 1), 0⟩,
      some ⟨0, 1, (Slots.empty maxThreads Nat).set 0 (some 2), 1⟩] }

theorem two_tasks_runnable : Runnable twoTasks where
  process := by decide
  thread := by
    intro h hh
    have hcases : h = 0 ∨ h = 1 := by
      simpa [show twoTasks.processes.members = [0, 1] from rfl] using hh
    rcases hcases with rfl | rfl
    · exact ⟨_, rfl, by decide⟩
    · exact ⟨_, rfl, by decide⟩

theorem scheduler_switch_round_robin_two : SelectsNext twoTasks ∧ TakesTurns twoTasks :=
  scheduler_switch_round_robin twoTasks two_tasks_runnable

/-- The selection of the kernel machine is the same walk. -/
theorem next_process_scan (slots : Slots maxProcesses Nat) (fuel last : Nat) :
    Kernel.nextProcess slots.entries fuel last = slots.scan fuel last := by
  induction fuel generalizing last with
  | zero => rfl
  | succ fuel ih =>
    unfold Kernel.nextProcess Slots.scan
    simp only [Slots.get, Slots.after]
    split <;> simp_all

end Levos.Proofs.RoundRobin
