import Levos.Interrupts
import Levos.Proofs.Sending

namespace Levos.Proofs.Interrupts
open Levos.Library Levos.Interrupts

/-- Interrupts are enabled by the outermost section itself, and a function called
from another one returns with the interrupt state it was entered with. -/
def Kept (s : State) : Act → Prop
  | .interruptCtl true => ∀ d, s.outermost = some d → s.calls.length = d
  | .ret => ∀ e outer rest, s.calls = e :: outer :: rest → s.irqEnabled = e
  | _ => True

/-- Code for use with interrupts off: it leaves them off and returns from what it
calls, and only the mutex of the heap can stop it. -/
structure Quiet (code : List Act) : Prop where
  kept : ∀ s : State, s.irqEnabled = false → Guarded State.step Kept s code
  same : ∀ s t : State, s.irqEnabled = false → run State.step s code = some t →
    t = s ∨ t = { s with heapLock := false }
  ends : ∀ s : State, s.irqEnabled = false → s.taken .heap = false →
    ∃ t, run State.step s code = some t

theorem Quiet.nil : Quiet [] := by
  refine ⟨fun _ _ => trivial, ?_, fun s _ _ => ⟨s, rfl⟩⟩
  intro s t _ h
  cases h
  exact .inl rfl

theorem Quiet.off (h : Quiet code) (hs : s.irqEnabled = false)
    (hr : run State.step s code = some t) : t.irqEnabled = false := by
  rcases h.same s t hs hr with rfl | rfl <;> exact hs

/-- A mutex of the heap that is free stays free. -/
theorem Quiet.free (h : Quiet code) (hs : s.irqEnabled = false) (hf : s.taken .heap = false)
    (hr : run State.step s code = some t) : t.taken .heap = false := by
  rcases h.same s t hs hr with rfl | rfl
  · exact hf
  · rfl

theorem Quiet.append (h : Quiet code) (h' : Quiet code') : Quiet (code ++ code') := by
  refine ⟨?_, ?_, ?_⟩
  · intro s hs
    refine guarded_append_iff.mpr ⟨h.kept s hs, ?_⟩
    intro t ht
    exact h'.kept t (h.off hs ht)
  · intro s t hs hr
    rw [run_append, Option.bind_eq_some_iff] at hr
    obtain ⟨u, hu, ht⟩ := hr
    have hlast := h'.same u t (h.off hs hu) ht
    rcases h.same s u hs hu with rfl | rfl
    · exact hlast
    · rcases hlast with rfl | rfl <;> exact .inr rfl
  · intro s hs hf
    obtain ⟨u, hu⟩ := h.ends s hs hf
    obtain ⟨t, ht⟩ := h'.ends u (h.off hs hu) (h.free hs hf hu)
    refine ⟨t, ?_⟩
    rw [run_append, hu]
    exact ht

/-- The mutex of the heap, taken and given back. -/
theorem run_free (hs : s.irqEnabled = false) : run State.step s free =
    if s.taken .heap then none else some { s with heapLock := false } := by
  by_cases ht : s.taken .heap <;> simp [run, free, State.step, State.setLocked, ht, hs]

theorem quiet_free : Quiet free := by
  refine ⟨?_, ?_, ?_⟩
  · intro s _
    refine ⟨trivial, ?_⟩
    split
    · trivial
    · exact .single trivial
  · intro s t hs hr
    rw [run_free hs] at hr
    split at hr
    · cases hr
    · cases hr
      exact .inr rfl
  · intro s hs hf
    rw [run_free hs, hf]
    exact ⟨_, rfl⟩

theorem quiet_malloc : Quiet malloc := quiet_free

theorem quiet_frees (n : Nat) : Quiet (frees n) := by
  induction n with
  | zero => exact .nil
  | succ n ih => exact quiet_free.append ih

theorem Quiet.ite [Decidable p] (h : Quiet code) (h' : Quiet code') :
    Quiet (if p then code else code') := by
  split
  · exact h
  · exact h'

/-- The state in which code that was called with interrupts off starts. -/
def entered (s : State) : State := { s with calls := false :: s.calls }

theorem run_call (hs : s.irqEnabled = false) (code : List Act) :
    run State.step s ([.call] ++ code) = run State.step (entered s) code := by
  simp only [List.singleton_append, run, State.step, hs, entered]

theorem guarded_call (hs : s.irqEnabled = false) (code : List Act) :
    Guarded State.step Kept s ([.call] ++ code) ↔ Guarded State.step Kept (entered s) code := by
  simp only [List.singleton_append, Guarded, Kept, true_and, State.step, hs, entered]

/-- A call of quiet code. -/
theorem Quiet.call (h : Quiet code) : Quiet ([.call] ++ code ++ [.ret]) := by
  have hoff : ∀ s : State, s.irqEnabled = false → (entered s).irqEnabled = false := fun _ => id
  refine ⟨?_, ?_, ?_⟩
  · intro s hs
    rw [List.append_assoc, guarded_call hs, guarded_append_iff]
    refine ⟨h.kept _ hs, ?_⟩
    intro t ht
    refine .single ?_
    intro e outer rest he
    rw [h.off (hoff s hs) ht]
    rcases h.same _ t (hoff s hs) ht with rfl | rfl <;> exact (List.cons.inj he).1
  · intro s t hs hr
    rw [List.append_assoc, run_call hs, run_append, Option.bind_eq_some_iff] at hr
    obtain ⟨u, hu, ht⟩ := hr
    cases ht
    rcases h.same _ u (hoff s hs) hu with rfl | rfl
    · exact .inl rfl
    · exact .inr rfl
  · intro s hs hf
    obtain ⟨u, hu⟩ := h.ends (entered s) hs hf
    rw [List.append_assoc, run_call hs, run_append, hu]
    exact ⟨_, rfl⟩

theorem quiet_two_mallocs : Quiet (malloc ++ malloc) := quiet_malloc.append quiet_malloc

theorem quiet_thread_body (threadslen : Option Nat) (s : Nat) (fail : Option MallocSite) :
    Quiet (threadBody threadslen s fail) :=
  .ite .nil (.ite .nil (.ite quiet_malloc
    (.ite (quiet_two_mallocs.append quiet_free) quiet_two_mallocs)))

theorem quiet_create_thread (threadslen : Option Nat) (s : Nat) (fail : Option MallocSite) :
    Quiet (Interrupts.createNewThread threadslen s false fail) :=
  (quiet_thread_body threadslen s fail).call

theorem quiet_process_body (addr : Nat) (fail : Option MallocSite) :
    Quiet (processBody addr fail) := by
  have hthread := quiet_malloc.append (quiet_create_thread (some 0) addr fail)
  exact .ite .nil (.ite (quiet_malloc.append quiet_free)
    (.ite (hthread.append (quiet_frees 2)) hthread))

/-- The thread of a new process fails in the model of the kernel exactly where the
process is freed again here. -/
theorem thread_fails_iff {p : Process} (hp : p.threadslen = 0) :
    Levos.createNewThread p s fail = none ↔
      s = 0 ∨ fail = some .thread ∨ fail = some .stack := by
  have hroom : ¬ p.threadslen + 1 > maxThreads := by
    rw [hp]
    decide
  by_cases hs : s = 0
  · simp [Levos.createNewThread, hs]
  · simp only [Levos.createNewThread, hs, hroom, ↓reduceIte, false_or]
    split <;> simp_all

/-- Interrupts are off in a section whose outermost one was entered with `d` calls
open, and now `n` are. -/
structure Off (s : State) (d n : Nat) : Prop where
  off : s.irqEnabled = false
  outermost : s.outermost = some d
  depth : s.calls.length = n

theorem Quiet.keeps_off (h : Quiet code) (hs : Off s d n)
    (hr : run State.step s code = some t) : Off t d n := by
  rcases h.same s t hs.off hr with rfl | rfl
  · exact hs
  · exact ⟨hs.off, hs.outermost, hs.depth⟩

theorem Off.entered (hs : Off s d n) : Off (entered s) d (n + 1) :=
  ⟨hs.off, hs.outermost, congrArg (· + 1) hs.depth⟩

theorem guarded_section (hs : Off s d n) (code : List Act) :
    Guarded State.step Kept s ([.call, .interruptCtl false] ++ code) ↔
      Guarded State.step Kept (entered s) code := by
  simp [Guarded, Kept, State.step, hs.off, hs.outermost, Interrupts.entered]

/-- Quiet code, then interrupts enabled at the depth they were disabled at. -/
theorem closes_kept (hq : Quiet code) (hs : Off s d d)
    (hrest : ∀ t : State, t.calls = s.calls → Guarded State.step Kept t rest) :
    Guarded State.step Kept s (code ++ .interruptCtl true :: rest) := by
  refine guarded_append_iff.mpr ⟨hq.kept s hs.off, ?_⟩
  intro t ht
  have hoff := hq.keeps_off hs ht
  refine .cons rfl ?_ (hrest _ ?_)
  · intro d' hd
    rw [hoff.depth]
    exact Option.some.inj (hoff.outermost.symm.trans hd)
  · rcases hq.same s t hs.off ht with rfl | rfl <;> rfl

theorem closes_inside (hq : Quiet code) (hs : Off s d n) (hne : n ≠ d)
    (hf : s.taken .heap = false) :
    ¬ Guarded State.step Kept s (code ++ .interruptCtl true :: rest) := by
  intro h
  obtain ⟨t, ht⟩ := hq.ends s hs.off hf
  have hoff := hq.keeps_off hs ht
  have hkept := ((guarded_append_iff.mp h).2 t ht).1 d hoff.outermost
  exact hne (hoff.depth.symm.trans hkept)

/-- With the mutex of the heap taken nothing comes after a `malloc` or a `free`. -/
theorem stopped (hs : s.irqEnabled = false) (ht : s.taken .heap = true) (rest : List Act) :
    Guarded State.step Kept s (free ++ rest) := by
  refine guarded_append_iff.mpr ⟨quiet_free.kept s hs, ?_⟩
  intro t hr
  rw [run_free hs, if_pos ht] at hr
  cases hr

/-- A section inside another one: its `interrupt_ctl(1)` comes too early, if it comes. -/
theorem create_inside (hs : Off s d n) (hd : d ≤ n) (addr : Nat) (fail : Option MallocSite)
    (rest : List Act) :
    Guarded State.step Kept s (Interrupts.createNewProcess addr fail ++ rest) ↔
      s.taken .heap = true := by
  rw [Interrupts.createNewProcess, masked, List.append_assoc, List.append_assoc,
    guarded_section hs]
  constructor
  · -- the process is created one call deeper than the section was opened
    intro h
    by_contra hf
    refine closes_inside (quiet_malloc.append (quiet_process_body addr fail)) hs.entered ?_
      (Bool.eq_false_iff.mpr hf) h
    omega
  · intro ht
    rw [List.append_assoc]
    exact stopped hs.entered.off ht _

/-- Some listener waits for the message. -/
def Listened (c : Setting) (msg : Int) : Prop := ∃ l, some l ∈ c.listeners ∧ l.msg = msg

/-- Then a send over that table owes a call to it. -/
theorem listened_iff_owed (c : Setting) (m : Message) :
    Listened c m.msg ↔ ∃ l, l ∈ (Dbus.init c.listeners).listeners.filterMap (owed n m) := by
  constructor
  · rintro ⟨l, hl, hm⟩
    obtain ⟨i, hi⟩ := List.getElem?_of_mem hl
    have hslot := Sending.init_slot c.listeners i
    rw [hi] at hslot
    refine ⟨Entry.call n ⟨i, l⟩, List.mem_filterMap.mpr ⟨_, List.mem_of_getElem? hslot, ?_⟩⟩
    simp only [Option.map_some, owed, hm, ↓reduceIte]
  · rintro ⟨call, hcall⟩
    obtain ⟨slot, hslot, ho⟩ := List.mem_filterMap.mp hcall
    obtain ⟨e, rfl, hm, -⟩ := Dbus.owed_some ho
    obtain ⟨i, hi⟩ := List.getElem?_of_mem hslot
    rw [Sending.init_slot, Option.map_eq_some_iff] at hi
    obtain ⟨own, hown, he⟩ := hi
    obtain ⟨l, rfl, rfl⟩ := Option.map_eq_some_iff.mp he
    exact ⟨l, List.mem_of_getElem? hown, hm⟩

theorem handlers_listened (c : Setting) (msg : Int) (h : ∃ l, some l ∈ slots ∧ l.msg = msg)
    (i : Nat) : ∃ fail rest,
      c.handlers msg i slots = Interrupts.createNewProcess c.stub fail ++ rest := by
  obtain ⟨l, hl, hm⟩ := h
  induction slots generalizing i with
  | nil => cases hl
  | cons slot slots ih =>
    rcases List.mem_cons.mp hl with rfl | hin
    · simp only [Setting.handlers, hm, ↓reduceIte, List.append_assoc]
      exact ⟨_, _, rfl⟩
    · cases slot with
      | none => exact ih (i + 1) hin
      | some l' =>
        simp only [Setting.handlers]
        split
        · rw [List.append_assoc]
          exact ⟨_, _, rfl⟩
        · exact ih (i + 1) hin

theorem handlers_unlistened (c : Setting) (msg : Int) (h : ¬ ∃ l, some l ∈ slots ∧ l.msg = msg)
    (i : Nat) : c.handlers msg i slots = [] := by
  induction slots generalizing i with
  | nil => rfl
  | cons slot slots ih =>
    have hrest := ih (fun ⟨l, hl, hm⟩ => h ⟨l, List.mem_cons_of_mem _ hl, hm⟩) (i + 1)
    cases slot with
    | none => exact hrest
    | some l =>
      have hm : ¬ l.msg = msg := fun hm => h ⟨l, List.mem_cons_self, hm⟩
      simp only [Setting.handlers, hm, ↓reduceIte]
      exact hrest

/-- The state in which the loop of `dbus_send_message` starts. -/
def sending (s : State) : State := { entered s with dbusLock := true }

theorem Off.sending (hs : Off s d n) : Off (sending s) d (n + 1) :=
  ⟨hs.off, hs.outermost, congrArg (· + 1) hs.depth⟩

theorem guarded_sending (hs : Off s d n) (code : List Act) :
    Guarded State.step Kept s ([.call, .mutexLock .dbus] ++ code) ↔
      s.taken .dbus = true ∨ Guarded State.step Kept (sending s) code := by
  have hsame : (entered s).taken .dbus = s.taken .dbus := rfl
  rw [List.cons_append, ← List.singleton_append, guarded_call hs.off]
  by_cases ht : s.taken .dbus <;>
    simp [Guarded, Kept, State.step, hsame, ht, hs.entered.off, State.setLocked,
      Interrupts.sending]

/-- With a listener for the message the send starts a process, and so ends the
section it is called from. -/
theorem send_listened (hs : Off s d n) (hd : d ≤ n) (hl : Listened c msg) (rest : List Act) :
    Guarded State.step Kept s (c.dbusSendMessage msg ++ rest) ↔
      s.taken .dbus = true ∨ s.taken .heap = true := by
  obtain ⟨fail, more, hcode⟩ := handlers_listened c msg hl 0
  rw [Setting.dbusSendMessage, hcode]
  simp only [List.append_assoc]
  rw [guarded_sending hs, create_inside hs.sending (Nat.le_succ_of_le hd)]
  rfl

/-- Without one it waits at its second `mutex_lock`, unless all mutexes are unlocked. -/
theorem send_unlistened (hs : Off s d n) (hl : ¬ Listened c msg) (rest : List Act) :
    Guarded State.step Kept s (c.dbusSendMessage msg ++ rest) ↔
      s.taken .dbus = true ∨ s.allUnlocked = false ∨
        Guarded State.step Kept { s with dbusLock := false } rest := by
  rw [Setting.dbusSendMessage, handlers_unlistened c msg hl 0]
  simp only [List.append_assoc]
  rw [guarded_sending hs]
  refine or_congr_right ?_
  cases ha : s.allUnlocked <;>
    simp [Guarded, Kept, State.step, State.taken, State.locked, State.setLocked, sending, entered,
      hs.off, ha]

theorem kill_tail (hs : Off s d n) (k : Nat) :
    Guarded State.step Kept s (frees (k + 1) ++ [.interruptCtl true]) ↔
      s.taken .heap = true ∨ n = d := by
  by_cases ht : s.taken .heap = true
  · refine iff_of_true ?_ (.inl ht)
    rw [frees, List.replicate_succ, List.flatten_cons, List.append_assoc]
    exact stopped hs.off ht _
  · rw [or_iff_right ht]
    constructor
    · intro h
      by_contra hne
      exact closes_inside (quiet_frees _) hs hne (Bool.eq_false_iff.mpr ht) h
    · rintro rfl
      exact closes_kept (quiet_frees _) hs (fun _ _ => trivial)

/-- What follows `interrupt_ctl(0)` in `scheduler_kill_self`. -/
theorem kill_body (hs : Off s d n) (hd : d ≤ n) (c : Setting) :
    Guarded State.step Kept s
        ((if c.pid = 2 then c.dbusSendMessage dbusEventInitKilled else []) ++
          (frees (c.allocs + 3) ++ [.interruptCtl true])) ↔
      s.taken .heap = true ∨ if c.pid = 2
        then s.taken .dbus = true ∨
          ¬ Listened c dbusEventInitKilled ∧ (s.allUnlocked = false ∨ n = d)
        else n = d := by
  by_cases hpid : c.pid = 2
  · rw [if_pos hpid, if_pos hpid]
    -- with a listener nothing behind the send matters; without one it comes back, if at
    -- all, with the lock free and nothing else changed
    by_cases hl : Listened c dbusEventInitKilled
    · rw [send_listened hs hd hl]
      simp only [hl, not_true_eq_false, false_and, or_false]
      exact or_comm
    · have htail := kill_tail (s := { s with dbusLock := false })
        ⟨hs.off, hs.outermost, hs.depth⟩ (c.allocs + 2)
      rw [send_unlistened hs hl, htail]
      simp only [hl, not_false_eq_true, true_and]
      change _ ∨ _ ∨ s.taken .heap = true ∨ n = d ↔ _
      tauto
  · rw [if_neg hpid, if_neg hpid, List.nil_append]
    exact kill_tail hs (c.allocs + 2)

/-- The state behind the first `interrupt_ctl(0)`. -/
def disabled (s : State) : State :=
  { s with irqEnabled := false, calls := [s.irqEnabled], outermost := some 1 }

theorem disabled_off (s : State) : Off (disabled s) 1 1 := ⟨rfl, rfl, rfl⟩

theorem guarded_start (irq dbus heap all : Bool) (code : List Act) :
    Guarded State.step Kept (.start irq dbus heap all)
        (([.call, .interruptCtl false] : List Act) ++ code) ↔
      Guarded State.step Kept (disabled (.start irq dbus heap all)) code := by
  simp [Guarded, Kept, State.step, State.start, disabled]

theorem single_section_kept (hq : Quiet code) (irq dbus heap all : Bool) :
    Guarded State.step Kept (.start irq dbus heap all) (masked code) := by
  rw [masked, List.append_assoc, guarded_start]
  refine closes_kept hq (disabled_off _) ?_
  intro t ht
  refine .single ?_
  intro e outer rest he
  rw [ht] at he
  cases he

/-- No section is ended from within: the caller does not kill itself by its own pid,
and the exit of process 2 finds no listener to start, unless a mutex stops the
code for ever before interrupts are enabled. -/
def Closed (c : Setting) (s : State) : Section → Prop
  | .schedulerKillSelf => c.pid = 2 → ¬ Listened c dbusEventInitKilled ∨
      s.taken .dbus = true ∨ s.taken .heap = true
  | .schedulerKillPid pid => pid = c.pid → s.taken .heap = true ∨ c.pid = 2 ∧
      (s.taken .dbus = true ∨ ¬ Listened c dbusEventInitKilled ∧ s.allUnlocked = false)
  | _ => True

theorem kill_self_kept_iff (c : Setting) (irq dbus heap all : Bool) :
    Guarded State.step Kept (.start irq dbus heap all) c.schedulerKillSelf ↔
      Closed c (.start irq dbus heap all) .schedulerKillSelf := by
  rw [Setting.schedulerKillSelf, guarded_start, kill_body (disabled_off _) (Nat.le_refl 1)]
  change State.taken (.start irq dbus heap all) .heap = true ∨
    (if _ then State.taken (.start irq dbus heap all) .dbus = true ∨ _ else _) ↔ _
  by_cases hpid : c.pid = 2
  · simp only [Closed, hpid, ↓reduceIte, or_true, and_true, forall_const]
    tauto
  · simp [Closed, hpid]

/-- Killing oneself by pid: the section of `scheduler_kill_pid` is ended by
`scheduler_kill_self`. -/
theorem kill_own_pid_kept_iff (c : Setting) (irq dbus heap all : Bool) :
    Guarded State.step Kept (.start irq dbus heap all) (c.schedulerKillPid c.pid) ↔
      Closed c (.start irq dbus heap all) (.schedulerKillPid c.pid) := by
  rw [Setting.schedulerKillPid, if_pos rfl, guarded_start, Setting.schedulerKillSelf,
    guarded_section (disabled_off _), kill_body (disabled_off _).entered (by decide)]
  change State.taken (.start irq dbus heap all) .heap = true ∨
    (if _ then State.taken (.start irq dbus heap all) .dbus = true ∨
      _ ∧ (State.allUnlocked (.start irq dbus heap all) = false ∨ _) else _) ↔ _
  by_cases hpid : c.pid = 2 <;> simp [Closed, hpid]

theorem kill_pid_kept_iff (c : Setting) (pid : Nat) (irq dbus heap all : Bool) :
    Guarded State.step Kept (.start irq dbus heap all) (c.schedulerKillPid pid) ↔
      Closed c (.start irq dbus heap all) (.schedulerKillPid pid) := by
  by_cases hp : pid = c.pid
  · rw [hp]
    exact kill_own_pid_kept_iff c irq dbus heap all
  · rw [Setting.schedulerKillPid, if_neg hp]
    refine iff_of_true ?_ (fun h => absurd h hp)
    exact single_section_kept .nil irq dbus heap all

/-- From the first `interrupt_ctl(0)` of a section on interrupts stay off until that
section itself enables them, and what it calls returns with them off, if and only
if the section is closed. -/
theorem sections_nested_iff (c : Setting) (irq dbus heap all : Bool) (sec : Section) :
    Guarded State.step Kept (.start irq dbus heap all) (sec.code c) ↔
      Closed c (.start irq dbus heap all) sec := by
  cases sec with
  | createNewThread threadslen s fail =>
    refine iff_of_true ?_ trivial
    exact single_section_kept (quiet_thread_body threadslen s fail) irq dbus heap all
  | createNewProcess addr fail =>
    refine iff_of_true ?_ trivial
    exact single_section_kept (quiet_malloc.append (quiet_process_body addr fail)) irq dbus heap all
  | createNewProcessNothread fail =>
    refine iff_of_true ?_ trivial
    exact single_section_kept (.ite quiet_malloc
      (.ite (quiet_two_mallocs.append quiet_free) quiet_two_mallocs)) irq dbus heap all
  | schedulerAddProcess =>
    refine iff_of_true ?_ trivial
    exact single_section_kept .nil irq dbus heap all
  | schedulerKillPid pid => exact kill_pid_kept_iff c pid irq dbus heap all
  | schedulerKillSelf => exact kill_self_kept_iff c irq dbus heap all

/-- The first process exits while the kernel listens for that. -/
def initExits : Setting :=
  { pid := 2, allocs := 0, stub := 1, fails := fun _ => none
    listeners := some ⟨dbusEventInitKilled, .oneshot⟩ :: List.replicate (dbusMaxLsts - 1) none }

/-- The handler's `create_new_process` enables interrupts before the exiting process
is off the table. -/
theorem init_exit_enables :
    ¬ ∀ c irq dbus heap all (sec : Section),
      Guarded State.step Kept (.start irq dbus heap all) (sec.code c) := by
  intro h
  have hclosed := (kill_self_kept_iff initExits true false false false).mp
    (h initExits true false false false .schedulerKillSelf)
  have hl : Listened initExits dbusEventInitKilled :=
    ⟨⟨dbusEventInitKilled, .oneshot⟩, List.mem_cons_self, rfl⟩
  rcases hclosed rfl with hn | hd | hheap
  · exact hn hl
  · cases hd
  · cases hheap

end Levos.Proofs.Interrupts
