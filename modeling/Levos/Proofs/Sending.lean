import Levos.Proofs.Dbus

namespace Levos.Proofs.Sending
open Levos.Library Levos.Proofs.Dbus

/-- A handler process has yet to give the lock back. -/
def Pending (s : Dbus) : Prop := ∃ h ∈ s.handlers, holding h = true

/-- The sender waits for the taken lock only if a handler will give it back,
and the lock is free when no send is in progress. -/
structure Unblocked (s : Dbus) : Prop where
  wait : s.sender = .wait → s.locked = true → Pending s
  idle : s.sender = .idle → s.locked = false

/-- A pending handler gives the lock back by steps of its own. -/
theorem Pending.releases {s : Dbus} (h : Pending s) :
    ∃ j k t, run Dbus.step s (List.replicate k (.handler j)) = some t ∧ t.locked = false := by
  obtain ⟨x, hx, hold⟩ := h
  obtain ⟨j, hlt, hj⟩ := List.getElem_of_mem hx
  have hget : s.handlers[j]? = some x := by rw [List.getElem?_eq_getElem hlt, hj]
  cases x with
  | start =>
    refine ⟨j, 3, ?_⟩
    simp [run, Dbus.step, Dbus.stubStep, hlt, hj]
  | gotMsg m =>
    refine ⟨j, 2, ?_⟩
    simp [run, Dbus.step, Dbus.stubStep, hlt, hj]
  | gotLst m l =>
    refine ⟨j, 1, ?_⟩
    simp [run, Dbus.step, Dbus.stubStep, hget]
  | unlocked m l | done => cases hold

/-- The bus with a note on the send in progress: a handler has been started for
it, or one of an earlier send was pending when it began. -/
structure Noted where
  dbus : Dbus
  answered : Bool
deriving DecidableEq, Repr

namespace Noted

def note (s : Noted) : DbusOp → Bool
  | .send _ => s.dbus.handlers.any holding
  | .sender placed => match s.dbus.sender with
    | .spawn _ _ _ _ => placed || s.answered
    | _ => s.answered
  | _ => s.answered

def step (s : Noted) (op : DbusOp) : Option Noted := (s.dbus.step op).map (⟨·, s.note op⟩)

def init (table : List (Option Listener)) : Noted := ⟨Dbus.init table, false⟩

end Noted

/-- The loop of a send ends only when a handler has been started for it, or one
of an earlier send was pending when it began. -/
def Answered (s : Noted) : DbusOp → Prop
  | .sender _ => ∀ n m i, s.dbus.sender = .scan n m i → s.dbus.listeners[i]? = none →
      s.answered = true
  | _ => True

/-- In the loop the lock is taken and nothing is pending, until something is. -/
structure Inv (s : Noted) : Prop extends Unblocked s.dbus where
  answered : ¬ Outside s.dbus.sender → s.answered = true → s.dbus.locked = true → Pending s.dbus
  unanswered : ¬ Outside s.dbus.sender → s.answered = false →
    s.dbus.locked = true ∧ ¬ Pending s.dbus

theorem pending_iff {s : Dbus} : Pending s ↔ s.handlers.any holding = true :=
  List.any_eq_true.symm

theorem pending_set {s t : Dbus} (hj : s.handlers[j]? = some x)
    (ht : t.handlers = s.handlers.set j y) (hh : holding y = holding x) :
    Pending t ↔ Pending s := by
  have hset := countP_set_add holding hj y
  rw [hh] at hset
  have hcount : t.handlers.countP holding = s.handlers.countP holding := by
    rw [ht]
    exact Nat.add_right_cancel hset
  unfold Pending
  rw [← List.countP_pos_iff, ← List.countP_pos_iff, hcount]

/-- Only the sender, the lock and the handlers that are pending matter. -/
theorem Inv.congr {s : Noted} {t : Dbus} (h : Inv s) (hsnd : t.sender = s.dbus.sender)
    (hlock : t.locked = s.dbus.locked) (hpend : Pending t ↔ Pending s.dbus) :
    Inv ⟨t, s.answered⟩ := by
  refine ⟨⟨?_, ?_⟩, ?_, ?_⟩
  · intro hw hl
    exact hpend.mpr (h.wait (hsnd ▸ hw) (hlock ▸ hl))
  · intro hi
    exact hlock.trans (h.idle (hsnd ▸ hi))
  · intro hout ha hl
    exact hpend.mpr (h.answered (hsnd ▸ hout) ha (hlock ▸ hl))
  · intro hout ha
    obtain ⟨hl, hp⟩ := h.unanswered (hsnd ▸ hout) ha
    exact ⟨hlock.trans hl, fun hp' => hp (hpend.mp hp')⟩

theorem register_inv {s : Noted} (h : Inv s) (lst : Listener) :
    Inv ⟨s.dbus.dbusRegisterListener lst, s.answered⟩ := by
  unfold Dbus.dbusRegisterListener
  split
  · exact h
  · exact h.congr rfl rfl Iff.rfl

theorem send_inv {s : Noted} (hs : s.dbus.dbusSendMessage m = some t) :
    Inv ⟨t, s.dbus.handlers.any holding⟩ := by
  unfold Dbus.dbusSendMessage at hs
  split at hs
  · cases hs
  · cases hs
    refine ⟨⟨nofun, nofun⟩, ?_, ?_⟩
    · intro _ ha _
      exact pending_iff.mpr ha
    · intro _ ha
      refine ⟨rfl, ?_⟩
      intro hp
      exact Bool.false_ne_true (ha.symm.trans (pending_iff.mp hp))

theorem stub_inv {s : Noted} (h : Inv s) (hs : s.dbus.stubStep j = some t) :
    Inv ⟨t, s.answered⟩ := by
  cases stub_cases hs with
  | gotMsg hj | gotLst hj | called hj => exact h.congr rfl rfl (pending_set hj rfl rfl)
  | unlocked hj =>
    have hpend : Pending s.dbus := ⟨_, List.mem_of_getElem? hj, rfl⟩
    refine ⟨⟨nofun, fun _ => rfl⟩, nofun, ?_⟩
    intro hout ha
    exact absurd hpend (h.unanswered hout ha).2

theorem in_loop {s : Dbus} (h : s.sender = snd) (hn : ¬ Outside snd) : ¬ Outside s.sender := by
  rwa [h]

/-- In the loop the sender changes nothing that matters. -/
theorem loop_inv {s : Noted} {t : Dbus} (h : Inv s) (hin : ¬ Outside s.dbus.sender)
    (hout : ¬ Outside t.sender) (hlock : t.locked = s.dbus.locked)
    (hpend : t.handlers = s.dbus.handlers) : Inv ⟨t, s.answered⟩ := by
  have hsame : Pending t ↔ Pending s.dbus := by
    unfold Pending
    rw [hpend]
  refine ⟨⟨?_, ?_⟩, ?_, ?_⟩
  · intro hw
    change t.sender = _ at hw
    rw [hw] at hout
    exact absurd trivial hout
  · intro hi
    change t.sender = _ at hi
    rw [hi] at hout
    exact absurd trivial hout
  · intro _ ha hl
    exact hsame.mpr (h.answered hin ha (hlock ▸ hl))
  · intro _ ha
    obtain ⟨hl, hp⟩ := h.unanswered hin ha
    exact ⟨hlock.trans hl, fun hp' => hp (hsame.mp hp')⟩

theorem spawn_inv {s : Noted} (h : Inv s) (hsnd : s.dbus.sender = .spawn n m i l)
    (placed : Bool) :
    Inv ⟨{ s.dbus with
      handlers := if placed then s.dbus.handlers ++ [.start] else s.dbus.handlers
      sender := .scan n m (i + 1) }, placed || s.answered⟩ := by
  have hin := in_loop hsnd id
  cases placed with
  | false => exact loop_inv h hin id rfl rfl
  | true =>
    refine ⟨⟨nofun, nofun⟩, ?_, nofun⟩
    intro _ _ _
    exact ⟨.start, List.mem_append_right _ List.mem_cons_self, rfl⟩

theorem sender_inv {s : Noted} {t : Dbus} (h : Inv s) (hg : Answered s (.sender placed))
    (hs : s.dbus.senderStep placed = some t) : Inv ⟨t, s.note (.sender placed)⟩ := by
  cases sender_cases hs with
  | @ended n m i hsnd hi =>
    -- the only step the guard is about: what was pending in the loop is pending here
    simp only [Noted.note, hsnd]
    refine ⟨⟨?_, nofun⟩, fun hout => absurd trivial hout, fun hout => absurd trivial hout⟩
    intro _ hl
    exact h.answered (in_loop hsnd id) (hg n m i hsnd hi) hl
  | passed hsnd | found hsnd | storedMsg hsnd | storedLst hsnd =>
    simp only [Noted.note, hsnd]
    exact loop_inv h (in_loop hsnd id) id rfl rfl
  | spawned hsnd =>
    simp only [Noted.note, hsnd]
    exact spawn_inv h hsnd placed
  | locked | released =>
    exact ⟨⟨nofun, by simp⟩, fun hout => absurd trivial hout, fun hout => absurd trivial hout⟩

theorem step_inv {s t : Noted} {op : DbusOp} (h : Inv s) (hg : Answered s op)
    (hs : s.step op = some t) : Inv t := by
  obtain ⟨u, hu, rfl⟩ := Option.map_eq_some_iff.mp hs
  cases op with
  | register lst =>
    cases hu
    exact register_inv h lst
  | send m => exact send_inv hu
  | sender placed => exact sender_inv h hg hu
  | handler j => exact stub_inv h hu

theorem init_inv (table : List (Option Listener)) : Inv (.init table) :=
  ⟨⟨nofun, fun _ => rfl⟩, fun hout => absurd trivial hout, fun hout => absurd trivial hout⟩

/-- A loop that ends without an answer leaves the sender waiting for ever. -/
theorem unanswered_blocked {s : Noted} {op : DbusOp} (h : Inv s) (hg : ¬ Answered s op) :
    ∃ t, s.step op = some t ∧ ¬ Unblocked t.dbus := by
  cases op with
  | sender placed =>
    simp only [Answered, not_forall] at hg
    obtain ⟨n, m, i, hsnd, hi, ha⟩ := hg
    have hin := in_loop hsnd id
    obtain ⟨hl, hp⟩ := h.unanswered hin (Bool.eq_false_iff.mpr ha)
    refine ⟨⟨{ s.dbus with sender := .wait }, s.note (.sender placed)⟩, ?_, ?_⟩
    · simp only [Noted.step, Dbus.step, Dbus.senderStep, hsnd, hi, Option.map_some]
    · intro hu
      exact hp (hu.wait rfl hl)
  | register lst | send m | handler j => exact absurd trivial hg

/-- The note changes nothing in the run of the bus. -/
theorem noted_unblocked (table : List (Option Listener)) (ops : List DbusOp) :
    Throughout Dbus.step Unblocked (Dbus.init table) ops ↔
      Throughout Noted.step (fun s => Unblocked s.dbus) (.init table) ops := by
  constructor
  · have hsim : ∀ s op t, True → Noted.step s op = some t →
        s.dbus.step op = some t.dbus ∧ True := by
      intro s op t _ hs
      obtain ⟨u, hu, rfl⟩ := Option.map_eq_some_iff.mp hs
      exact ⟨hu, trivial⟩
    exact Throughout.of_image (s := .init table) trivial hsim
  · have hsim : ∀ s op u, True → Dbus.step (Noted.dbus s) op = some u →
        ∃ t, s.step op = some t ∧ t.dbus = u ∧ True := by
      intro s op u _ hu
      refine ⟨⟨u, s.note op⟩, ?_, rfl, trivial⟩
      simp only [Noted.step, hu, Option.map_some]
    exact Throughout.image (s := .init table) trivial hsim

theorem unblocked_iff_answered (table : List (Option Listener)) (ops : List DbusOp) :
    Throughout Dbus.step Unblocked (Dbus.init table) ops ↔
      Guarded Noted.step Answered (.init table) ops :=
  (noted_unblocked table ops).trans
    (throughout_iff_guarded_taken (init_inv table) (fun _ h => h.toUnblocked)
      (fun _ _ _ => step_inv) (fun _ _ => unanswered_blocked))

/-- A step of the one send in progress, with room for its handlers. -/
def Serves : DbusOp → Prop
  | .sender placed => placed = true
  | .handler _ => True
  | _ => False

/-- While the loop has no answer, a listener for the message lies ahead. -/
def Ahead (s : Noted) : Prop :=
  ∀ n m i, s.dbus.sender = .scan n m i → s.answered = false →
    ∃ j l, i ≤ j ∧ s.dbus.listeners[j]? = some (some l) ∧ l.listener.msg = m.msg

theorem Ahead.answered {s : Noted} {op : DbusOp} (h : Ahead s) : Answered s op := by
  cases op with
  | sender placed =>
    intro n m i hsnd hi
    by_contra ha
    obtain ⟨j, l, hle, hj, _⟩ := h n m i hsnd (Bool.eq_false_iff.mpr ha)
    have hend := List.getElem?_eq_none_iff.mp hi
    have hlt := (List.getElem?_eq_some_iff.mp hj).1
    omega
  | register lst | send m | handler j => trivial

theorem stub_frame {s t : Dbus} (hs : s.stubStep j = some t) :
    t.listeners = s.listeners ∧ t.sender = s.sender := by
  cases stub_cases hs <;> exact ⟨rfl, rfl⟩

/-- The slot just looked at was not the one. -/
theorem Ahead.next {s : Noted} (h : Ahead s) (hsnd : s.dbus.sender = .scan n m i)
    (hi : s.dbus.listeners[i]? = some slot) (ho : owed n m slot = none) :
    Ahead ⟨{ s.dbus with sender := .scan n m (i + 1) }, s.answered⟩ := by
  intro n' m' i' he ha
  cases he
  obtain ⟨j, l, hle, hj, hm⟩ := h n m i hsnd ha
  refine ⟨j, l, ?_, hj, hm⟩
  rcases Nat.lt_or_eq_of_le hle with hlt | rfl
  · exact hlt
  · cases hi.symm.trans hj
    simp [owed, hm] at ho

theorem sender_ahead {s : Noted} {t : Dbus} (h : Ahead s) (hs : s.dbus.senderStep true = some t) :
    Ahead ⟨t, s.note (.sender true)⟩ := by
  cases sender_cases hs with
  | passed hsnd hi ho =>
    simp only [Noted.note, hsnd]
    exact h.next hsnd hi ho
  | spawned hsnd =>
    simp only [Noted.note, hsnd]
    exact nofun
  | ended | found | storedMsg | storedLst | locked | released => exact nofun

theorem step_ahead {s t : Noted} {op : DbusOp} (h : Ahead s) (hop : Serves op)
    (hs : s.step op = some t) : Ahead t := by
  obtain ⟨u, hu, rfl⟩ := Option.map_eq_some_iff.mp hs
  cases op with
  | sender placed =>
    cases hop
    exact sender_ahead h hu
  | handler j =>
    obtain ⟨hl, hsnd⟩ := stub_frame hu
    intro n m i he ha
    obtain ⟨k, l, hle, hk, hm⟩ := h n m i (hsnd ▸ he) ha
    exact ⟨k, l, hle, hl ▸ hk, hm⟩
  | register lst | send m => cases hop

/-- The slots of a table as they are before the first send. -/
theorem init_slot (table : List (Option Listener)) (i : Nat) :
    (Dbus.init table).listeners[i]? = table[i]?.map (Option.map (⟨i, ·⟩)) :=
  List.getElem?_mapIdx

theorem send_ahead (hl : some l ∈ table) (hm : l.msg = m.msg)
    (hs : (Noted.init table).step (.send m) = some t) : Ahead t := by
  obtain ⟨u, hu, rfl⟩ := Option.map_eq_some_iff.mp hs
  cases hu
  intro n m' i he _
  cases he
  obtain ⟨j, hj⟩ := List.getElem?_of_mem hl
  refine ⟨j, ⟨j, l⟩, Nat.zero_le j, ?_, hm⟩
  have hslot := init_slot table j
  rw [hj] at hslot
  exact hslot

/-- The loop passes over a table without a listener for the message. -/
theorem run_scan {s : Dbus} (hsnd : s.sender = .scan n m i)
    (hno : ∀ (j : Nat) (l : Entry), s.listeners[j]? = some (some l) → l.listener.msg ≠ m.msg)
    (hk : s.listeners.length = i + k) :
    run Dbus.step s (List.replicate (k + 1) (.sender true)) = some { s with sender := .wait } := by
  induction k generalizing s i with
  | zero =>
    have hi : s.listeners[i]? = none := List.getElem?_eq_none_iff.mpr (Nat.le_of_eq hk)
    simp only [List.replicate, run, Dbus.step, Dbus.senderStep, hsnd, hi]
  | succ k ih =>
    have hstep : s.step (.sender true) = some { s with sender := .scan n m (i + 1) } := by
      simp only [Dbus.step, Dbus.senderStep, hsnd]
      split
      · rename_i hi
        have := List.getElem?_eq_none_iff.mp hi
        omega
      · rfl
      · rename_i l hi
        rw [if_neg (hno i l hi)]
    rw [List.replicate_succ, run, hstep]
    exact ih rfl hno (by simp only; omega)

theorem unmatched_blocked (table : List (Option Listener)) (m : Message)
    (hno : ∀ l, some l ∈ table → l.msg ≠ m.msg) :
    ¬ Throughout Dbus.step Unblocked (Dbus.init table)
      (.send m :: List.replicate (table.length + 1) (.sender true)) := by
  intro h
  have hslots : ∀ (j : Nat) (l : Entry), (Dbus.init table).listeners[j]? = some (some l) →
      l.listener.msg ≠ m.msg := by
    intro j l hj
    rw [init_slot, Option.map_eq_some_iff] at hj
    obtain ⟨slot, hslot, he⟩ := hj
    obtain ⟨l', rfl, rfl⟩ := Option.map_eq_some_iff.mp he
    exact hno l' (List.mem_of_getElem? hslot)
  have hlen : (Dbus.init table).listeners.length = 0 + table.length := by
    rw [Nat.zero_add]
    exact List.length_mapIdx
  have hend := (h.tail rfl).last (run_scan rfl hslots hlen)
  obtain ⟨x, hx, _⟩ := hend.wait rfl rfl
  cases hx

/-- A send is never left waiting for a lock that nobody will give back, and
returns with the lock free, in exactly the runs in which each send has started a
handler by the end of its loop or began while one was pending. Of all the runs of
one send, with room for its handlers, that is so if and only if some listener in
the table waits for the message. -/
theorem sends_unblocked_iff (table : List (Option Listener)) :
    (∀ ops, Throughout Dbus.step Unblocked (Dbus.init table) ops ↔
      Guarded Noted.step Answered (.init table) ops) ∧
    ∀ m : Message, (∀ ops, (∀ op ∈ ops, Serves op) →
        Throughout Dbus.step Unblocked (Dbus.init table) (.send m :: ops)) ↔
      ∃ l, some l ∈ table ∧ l.msg = m.msg := by
  refine ⟨unblocked_iff_answered table, ?_⟩
  intro m
  constructor
  · intro h
    by_contra hno
    refine unmatched_blocked table m ?_ (h _ ?_)
    · intro l hl hm
      exact hno ⟨l, hl, hm⟩
    · intro op hop
      cases List.eq_of_mem_replicate hop
      rfl
  · rintro ⟨l, hl, hm⟩ ops hops
    refine (unblocked_iff_answered table _).mpr (.cons rfl trivial ?_)
    exact Guarded.imp (send_ahead hl hm rfl) (fun _ _ _ => step_ahead)
      (fun _ _ h _ => h.answered) (.of_forall (fun _ => hops) _)

/-- The message that the first process has been killed, with no listener in the
table: the sender waits for ever at its second `mutex_lock`. -/
theorem no_listener_blocked :
    ¬ ∀ table ops, Throughout Dbus.step Unblocked (Dbus.init table) ops := by
  intro h
  refine unmatched_blocked (List.replicate dbusMaxLsts none) ⟨2⟩ ?_ (h _ _)
  intro l hl
  cases List.eq_of_mem_replicate hl

end Levos.Proofs.Sending
