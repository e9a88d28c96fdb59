import Levos.Dbus
import Levos.Library.Lists
import Levos.Library.Runs

namespace Levos.Proofs.Dbus
open Levos.Library

/-- The sender is not in its loop. -/
def Outside : Sender → Prop
  | .idle | .wait | .release => True
  | _ => False

def oneshotCall (r : Nat) (c : Call) : Bool := c.reg = r ∧ c.type = .oneshot

/-- No listener is called twice for one send, none without a send that owes it
the call, and none is left out once the sender has left its loop and all
handlers are through. A one-shot listener is called at most once. -/
structure Delivered (s : Dbus) : Prop where
  once : s.invoked.Nodup
  asked : ∀ c ∈ s.invoked, c ∈ s.due
  all : Outside s.sender → (∀ h ∈ s.handlers, h = .done) → ∀ c ∈ s.due, c ∈ s.invoked
  oneshot : ∀ r, s.invoked.countP (oneshotCall r) ≤ 1

/-- The message of the send in progress. -/
def message : Sender → Option Message
  | .scan _ m _ | .setMsg _ m _ _ | .setLst _ m _ _ | .spawn _ m _ _ => some m
  | _ => none

/-- The sender is about to create a handler. -/
def Starting : Sender → Prop
  | .spawn _ _ _ _ => True
  | _ => False

/-- A message is sent while at most one listener in the table waits for it, no
other is registered for it during the send, and the handler can be started. -/
def Guard (s : Dbus) : DbusOp → Prop
  | .register lst => ∀ m, message s.sender = some m → lst.msg ≠ m.msg
  | .send m => (s.listeners.filterMap (owed s.sends m)).length ≤ 1
  | .sender placed => Starting s.sender → placed = true
  | .handler _ => True

/-- The calls the send in progress has not yet handed to a handler. -/
def todo (listeners : List (Option Entry)) : Sender → List Call
  | .scan n m i => (listeners.drop i).filterMap (owed n m)
  | .setMsg n m i l | .setLst n m i l | .spawn n m i l =>
    l.call n :: (listeners.drop (i + 1)).filterMap (owed n m)
  | _ => []

/-- Those of them whose slot the loop has not reached. -/
def unreached (listeners : List (Option Entry)) : Sender → List Call
  | .scan n m i => todo listeners (.scan n m i)
  | _ => []

/-- The handler has not yet given the lock back. -/
def holding : Handler → Bool
  | .start | .gotMsg _ | .gotLst _ _ => true
  | _ => false

/-- The call a handler is going to make, as things stand. -/
def pending (msg : Option Nat) (lst : Option Entry) : Handler → Option Call
  | .start => Dbus.callOf msg lst
  | .gotMsg m => Dbus.callOf m lst
  | .gotLst m l | .unlocked m l => Dbus.callOf m l
  | .done => none

/-- The lock is taken from the first `mutex_lock` of a send until its handler
has read the globals, and there is never more than one such handler. -/
def Protocol (locked : Bool) (held : Nat) (owes : List Call) : Sender → Prop
  | .idle => held = 0 ∧ locked = false
  | .scan _ _ _ => (held = 0 ∧ locked = true ∧ owes.length ≤ 1) ∨
      (owes = [] ∧ (held = 1 ∧ locked = true ∨ held = 0 ∧ locked = false))
  | .setMsg _ _ _ _ | .setLst _ _ _ _ | .spawn _ _ _ _ =>
    held = 0 ∧ locked = true ∧ owes.length = 1
  | .wait => held = 0 ∨ held = 1 ∧ locked = true
  | .release => held = 0 ∧ locked = true

/-- What the globals hold while the sender prepares a handler. -/
def Stored (msg : Option Nat) (lst : Option Entry) : Sender → Prop
  | .setLst n _ _ _ => msg = some n
  | .spawn n _ _ l => msg = some n ∧ lst = some l
  | _ => True

def oneshotSlot (r : Nat) : Option Entry → Bool
  | none => false
  | some l => l.reg = r ∧ l.listener.type = .oneshot

structure Invariant (s : Dbus) : Prop where
  protocol : Protocol s.locked (s.handlers.countP holding) (todo s.listeners s.sender) s.sender
  stored : Stored s.msg s.lst s.sender
  ledger : ∀ c, s.due.count c = s.invoked.count c +
    (s.handlers.filterMap (pending s.msg s.lst)).count c + (todo s.listeners s.sender).count c
  nodup : s.due.Nodup
  past : ∀ c ∈ s.due, c.send < s.sends
  slots : ∀ l, some l ∈ s.listeners → l.reg < s.registered
  calls : ∀ c ∈ s.due, c.reg < s.registered
  oneshot : ∀ r, s.listeners.countP (oneshotSlot r) + s.due.countP (oneshotCall r) ≤
    1 + (unreached s.listeners s.sender).countP (oneshotCall r)

theorem todo_outside (h : Outside snd) : todo listeners snd = [] := by
  cases snd <;> first | rfl | cases h

theorem Invariant.invoked_le {s : Dbus} (h : Invariant s) (c : Call) :
    s.invoked.count c ≤ s.due.count c := by
  have := h.ledger c
  omega

theorem owed_some (h : owed n m slot = some c) :
    ∃ l, slot = some l ∧ l.listener.msg = m.msg ∧ c = l.call n := by
  cases slot with
  | none => cases h
  | some l =>
    simp only [owed] at h
    by_cases hm : l.listener.msg = m.msg
    · rw [if_pos hm] at h
      cases h
      exact ⟨l, rfl, hm, rfl⟩
    · rw [if_neg hm] at h
      cases h

theorem owed_oneshot (slots : List (Option Entry)) :
    (slots.filterMap (owed n m)).countP (oneshotCall r) ≤ slots.countP (oneshotSlot r) := by
  induction slots with
  | nil => exact Nat.le_refl _
  | cons slot slots ih =>
    rw [List.filterMap_cons, List.countP_cons]
    cases ho : owed n m slot with
    | none => exact Nat.le_trans ih (Nat.le_add_right _ _)
    | some c =>
      obtain ⟨l, rfl, _, rfl⟩ := owed_some ho
      simp only [List.countP_cons]
      exact Nat.add_le_add ih (Nat.le_refl _)

theorem Invariant.due_oneshot {s : Dbus} (h : Invariant s) (r : Nat) :
    s.due.countP (oneshotCall r) ≤ 1 := by
  have hr := h.oneshot r
  have hslots : (unreached s.listeners s.sender).countP (oneshotCall r) ≤
      s.listeners.countP (oneshotSlot r) := by
    cases s.sender with
    | scan n m i =>
      exact Nat.le_trans (owed_oneshot _) ((List.drop_sublist i s.listeners).countP_le)
    | _ => exact Nat.zero_le _
  omega

theorem Invariant.delivered {s : Dbus} (h : Invariant s) : Delivered s := by
  have hsub : s.invoked.Subperm s.due := List.subperm_ext_iff.mpr fun c _ => h.invoked_le c
  refine ⟨?_, hsub.subset, ?_, ?_⟩
  · refine List.nodup_iff_count_le_one.mpr ?_
    intro c
    exact Nat.le_trans (h.invoked_le c) (List.nodup_iff_count_le_one.mp h.nodup c)
  · intro hout hdone c hc
    have hnone : s.handlers.filterMap (pending s.msg s.lst) = [] := by
      refine List.filterMap_eq_nil_iff.mpr ?_
      intro j hj
      rw [hdone j hj]
      rfl
    have hl := h.ledger c
    rw [hnone, todo_outside hout] at hl
    have hpos := List.count_pos_iff.mpr hc
    refine List.count_pos_iff.mp ?_
    simp only [List.count_nil] at hl
    omega
  · intro r
    exact Nat.le_trans (hsub.countP_le _) (h.due_oneshot r)

/-- A new listener for another message does not concern the send in progress. -/
theorem todo_register (hi : listeners[i]? = some none)
    (hm : ∀ m, message snd = some m → l.listener.msg ≠ m.msg) :
    todo (listeners.set i (some l)) snd = todo listeners snd := by
  have hother : ∀ n m, message snd = some m → owed n m (some l) = owed n m none := by
    intro n m hsnd
    simp only [owed, hm m hsnd, ↓reduceIte]
  cases snd with
  | scan n m j => exact filterMap_drop_set hi (hother n m rfl) j
  | setMsg n m j e | setLst n m j e | spawn n m j e =>
    exact congrArg (e.call n :: ·) (filterMap_drop_set hi (hother n m rfl) (j + 1))
  | idle | wait | release => rfl

theorem unreached_register (hi : listeners[i]? = some none)
    (hm : ∀ m, message snd = some m → l.listener.msg ≠ m.msg) :
    unreached (listeners.set i (some l)) snd = unreached listeners snd := by
  cases snd with
  | scan n m j => exact todo_register hi hm
  | _ => rfl

/-- The number of the next registration is in no slot and in no call. -/
theorem Invariant.next_unused {s : Dbus} (h : Invariant s) :
    s.listeners.countP (oneshotSlot s.registered) = 0 ∧
      s.due.countP (oneshotCall s.registered) = 0 := by
  constructor
  · refine List.countP_eq_zero.mpr ?_
    intro slot hslot
    cases slot with
    | none => simp [oneshotSlot]
    | some l =>
      have := h.slots l hslot
      simp only [oneshotSlot, decide_eq_true_eq]
      omega
  · refine List.countP_eq_zero.mpr ?_
    intro c hc
    have := h.calls c hc
    simp only [oneshotCall, decide_eq_true_eq]
    omega

theorem Invariant.register_oneshot {s : Dbus} (h : Invariant s)
    (hi : s.listeners[i]? = some none) (lst : Listener) (r : Nat) :
    (s.listeners.set i (some ⟨s.registered, lst⟩)).countP (oneshotSlot r) +
        s.due.countP (oneshotCall r) ≤
      1 + (unreached s.listeners s.sender).countP (oneshotCall r) := by
  have hset := countP_set_add (oneshotSlot r) hi (some ⟨s.registered, lst⟩)
  have hold := h.oneshot r
  by_cases hr : r = s.registered
  · subst r
    obtain ⟨hslots, hcalls⟩ := h.next_unused
    have hle : (if oneshotSlot s.registered (some ⟨s.registered, lst⟩) then 1 else 0) ≤ 1 := by
      split <;> decide
    omega
  · have hno : oneshotSlot r (some ⟨s.registered, lst⟩) = false := by
      simp only [oneshotSlot, decide_eq_false_iff_not]
      omega
    rw [hno] at hset
    simp only [Bool.false_eq_true, ↓reduceIte] at hset
    omega

theorem register_invariant {s : Dbus} (h : Invariant s)
    (hg : ∀ m, message s.sender = some m → lst.msg ≠ m.msg) :
    Invariant (s.dbusRegisterListener lst) := by
  unfold Dbus.dbusRegisterListener
  split
  · exact h
  · rename_i i hfind
    have hi : s.listeners[i]? = some none := by
      obtain ⟨hlt, hnone, _⟩ := List.findIdx?_eq_some_iff_getElem.mp hfind
      rw [List.getElem?_eq_getElem hlt]
      exact congrArg some (beq_iff_eq.mp hnone)
    have htodo := todo_register (l := ⟨s.registered, lst⟩) hi hg
    refine ⟨?_, h.stored, ?_, h.nodup, h.past, ?_, ?_, ?_⟩
    · simp only [htodo]
      exact h.protocol
    · simp only [htodo]
      exact h.ledger
    · intro l hl
      rcases List.mem_or_eq_of_mem_set hl with hl | he
      · exact Nat.lt_succ_of_lt (h.slots l hl)
      · cases he
        exact Nat.lt_succ_self _
    · intro c hc
      exact Nat.lt_succ_of_lt (h.calls c hc)
    · intro r
      rw [unreached_register (l := ⟨s.registered, lst⟩) hi hg]
      exact h.register_oneshot hi lst r

/-- The calls a send owes carry its number and belong to listeners registered before. -/
theorem owed_new {s : Dbus} (h : Invariant s)
    (hc : c ∈ s.listeners.filterMap (owed s.sends m)) :
    c.send = s.sends ∧ c.reg < s.registered := by
  obtain ⟨slot, hslot, ho⟩ := List.mem_filterMap.mp hc
  obtain ⟨l, rfl, _, rfl⟩ := owed_some ho
  exact ⟨rfl, h.slots l hslot⟩

/-- They are new, and none is owed twice if there is at most one. -/
theorem send_nodup {s : Dbus} (h : Invariant s)
    (hg : (s.listeners.filterMap (owed s.sends m)).length ≤ 1) :
    (s.due ++ s.listeners.filterMap (owed s.sends m)).Nodup := by
  refine List.nodup_append.mpr ⟨h.nodup, ?_, ?_⟩
  · cases hl : s.listeners.filterMap (owed s.sends m) with
    | nil => exact List.nodup_nil
    | cons c cs =>
      rw [hl, List.length_cons] at hg
      rw [List.eq_nil_of_length_eq_zero (l := cs) (by omega)]
      exact List.nodup_singleton c
  · intro c hc d hd he
    have hlt := h.past c hc
    rw [he, (owed_new h hd).1] at hlt
    exact Nat.lt_irrefl _ hlt

theorem send_invariant {s t : Dbus} (h : Invariant s)
    (hg : (s.listeners.filterMap (owed s.sends m)).length ≤ 1)
    (hs : s.dbusSendMessage m = some t) : Invariant t := by
  unfold Dbus.dbusSendMessage at hs
  split at hs
  · cases hs
  · rename_i hfree
    cases hs
    have hidle : s.sender = .idle := by
      by_contra hn
      exact hfree (.inl hn)
    have hprot := h.protocol
    rw [hidle] at hprot
    have htodo : todo s.listeners s.sender = [] := by
      rw [hidle]
      rfl
    have hunreached : unreached s.listeners s.sender = [] := by
      rw [hidle]
      rfl
    refine ⟨.inl ⟨hprot.1, rfl, hg⟩, trivial, ?_, send_nodup h hg, ?_, h.slots, ?_, ?_⟩
    · intro c
      change (s.due ++ _).count c = _ + _ + ((s.listeners.drop 0).filterMap _).count c
      rw [List.drop_zero, List.count_append, h.ledger c, htodo]
      rfl
    · intro c hc
      rcases List.mem_append.mp hc with hc | hc
      · exact Nat.lt_succ_of_lt (h.past c hc)
      · rw [(owed_new h hc).1]
        exact Nat.lt_succ_self _
    · intro c hc
      rcases List.mem_append.mp hc with hc | hc
      · exact h.calls c hc
      · exact (owed_new h hc).2
    · intro r
      have hr := h.oneshot r
      rw [hunreached, List.countP_nil] at hr
      change s.listeners.countP _ + (s.due ++ _).countP _ ≤
        1 + ((s.listeners.drop 0).filterMap _).countP _
      rw [List.drop_zero, List.countP_append]
      omega

/-- Everything one step of the sender can do. -/
inductive Advanced (s : Dbus) (placed : Bool) : Dbus → Prop
  | ended (hsnd : s.sender = .scan n m i) (hi : s.listeners[i]? = none) :
    Advanced s placed { s with sender := .wait }
  | passed (hsnd : s.sender = .scan n m i) (hi : s.listeners[i]? = some slot)
      (ho : owed n m slot = none) : Advanced s placed { s with sender := .scan n m (i + 1) }
  | found (hsnd : s.sender = .scan n m i) (hi : s.listeners[i]? = some (some l))
      (hm : l.listener.msg = m.msg) : Advanced s placed
      { s with
        listeners := if l.listener.type = .oneshot then s.listeners.set i none else s.listeners
        sender := .setMsg n m i l }
  | storedMsg (hsnd : s.sender = .setMsg n m i l) :
    Advanced s placed { s with msg := some n, sender := .setLst n m i l }
  | storedLst (hsnd : s.sender = .setLst n m i l) :
    Advanced s placed { s with lst := some l, sender := .spawn n m i l }
  | spawned (hsnd : s.sender = .spawn n m i l) : Advanced s placed
      { s with
        handlers := if placed then s.handlers ++ [.start] else s.handlers
        sender := .scan n m (i + 1) }
  | locked (hsnd : s.sender = .wait) (hlock : ¬ s.locked = true) :
    Advanced s placed { s with locked := true, sender := .release }
  | released (hsnd : s.sender = .release) :
    Advanced s placed { s with locked := false, sender := .idle }

theorem sender_cases {s t : Dbus} (hs : s.senderStep placed = some t) : Advanced s placed t := by
  unfold Dbus.senderStep at hs
  split at hs
  · cases hs
  · rename_i n m i hsnd
    split at hs
    · rename_i hi
      cases hs
      exact .ended hsnd hi
    · rename_i hi
      cases hs
      exact .passed hsnd hi rfl
    · rename_i l hi
      split at hs
      · rename_i hm
        cases hs
        exact .found hsnd hi hm
      · rename_i hm
        cases hs
        exact .passed hsnd hi (by simp only [owed, hm, ↓reduceIte])
  · rename_i hsnd
    cases hs
    exact .storedMsg hsnd
  · rename_i hsnd
    cases hs
    exact .storedLst hsnd
  · rename_i hsnd
    cases hs
    exact .spawned hsnd
  · rename_i hsnd
    split at hs
    · cases hs
    · rename_i hlock
      cases hs
      exact .locked hsnd hlock
  · rename_i hsnd
    cases hs
    exact .released hsnd

/-- Everything one step of a handler can do. -/
inductive Handled (s : Dbus) (j : Nat) : Dbus → Prop
  | gotMsg (hj : s.handlers[j]? = some .start) :
    Handled s j { s with handlers := s.handlers.set j (.gotMsg s.msg) }
  | gotLst (hj : s.handlers[j]? = some (.gotMsg m)) :
    Handled s j { s with handlers := s.handlers.set j (.gotLst m s.lst) }
  | unlocked (hj : s.handlers[j]? = some (.gotLst m l)) :
    Handled s j { s with handlers := s.handlers.set j (.unlocked m l), locked := false }
  | called (hj : s.handlers[j]? = some (.unlocked m l)) (hc : Dbus.callOf m l = some c) :
    Handled s j { s with handlers := s.handlers.set j .done, invoked := s.invoked ++ [c] }

theorem stub_cases {s t : Dbus} (hs : s.stubStep j = some t) : Handled s j t := by
  unfold Dbus.stubStep at hs
  split at hs
  · rename_i hj
    cases hs
    exact .gotMsg hj
  · rename_i hj
    cases hs
    exact .gotLst hj
  · rename_i hj
    cases hs
    exact .unlocked hj
  · rename_i hj
    obtain ⟨c, hc, rfl⟩ := Option.map_eq_some_iff.mp hs
    exact .called hj hc
  · cases hs

/-- A slot that does not concern the message is passed over. -/
theorem scan_skip (hi : listeners[i]? = some slot) (ho : owed n m slot = none) :
    todo listeners (.scan n m (i + 1)) = todo listeners (.scan n m i) := by
  simp only [todo, drop_eq_cons hi, List.filterMap_cons, ho]

/-- The stores of the sender concern no handler that has read the globals. -/
theorem pending_released {handlers : List Handler} (h : handlers.countP holding = 0)
    (msg msg' : Option Nat) (lst lst' : Option Entry) :
    handlers.filterMap (pending msg lst) = handlers.filterMap (pending msg' lst') := by
  refine List.filterMap_congr ?_
  intro j hj
  have hn := List.countP_eq_zero.mp h j hj
  cases j <;> first | rfl | exact absurd rfl hn

theorem skip_invariant {s : Dbus} (h : Invariant s) (hsnd : s.sender = .scan n m i)
    (hi : s.listeners[i]? = some slot) (ho : owed n m slot = none) :
    Invariant { s with sender := .scan n m (i + 1) } := by
  have hskip := scan_skip hi ho
  obtain ⟨hprot, hstored, hledger, hnodup, hpast, hslots, hcalls, honce⟩ := h
  rw [hsnd] at hprot hstored honce
  refine ⟨?_, trivial, ?_, hnodup, hpast, hslots, hcalls, ?_⟩
  · change Protocol _ _ (todo s.listeners (.scan n m (i + 1))) _
    rw [hskip]
    exact hprot
  · intro c
    change _ = _ + _ + (todo s.listeners (.scan n m (i + 1))).count c
    rw [hskip, ← hsnd]
    exact hledger c
  · intro r
    change _ ≤ 1 + (todo s.listeners (.scan n m (i + 1))).countP _
    rw [hskip]
    exact honce r

/-- A one-shot listener leaves its slot for the call it is owed. -/
theorem found_oneshot {listeners : List (Option Entry)} {l : Entry} {due : Nat}
    (hi : listeners[i]? = some (some l))
    (hr : listeners.countP (oneshotSlot r) + due ≤
      1 + if oneshotCall r (l.call n) then 1 else 0) :
    (if l.listener.type = .oneshot then listeners.set i none else listeners).countP
      (oneshotSlot r) + due ≤ 1 := by
  have hsame : oneshotCall r (l.call n) = oneshotSlot r (some l) := rfl
  rw [hsame] at hr
  split
  · have hset := countP_set_add (oneshotSlot r) hi none
    have hnone : oneshotSlot r none = false := rfl
    rw [hnone] at hset
    simp only [Bool.false_eq_true, ↓reduceIte] at hset
    omega
  · rename_i hcont
    have hno : oneshotSlot r (some l) = false := by simp [oneshotSlot, hcont]
    rw [hno] at hr
    simpa using hr

theorem found_invariant {s : Dbus} (h : Invariant s) (hsnd : s.sender = .scan n m i)
    (hi : s.listeners[i]? = some (some l)) (hm : l.listener.msg = m.msg) :
    Invariant { s with
      listeners := if l.listener.type = .oneshot then s.listeners.set i none else s.listeners
      sender := .setMsg n m i l } := by
  have ho : owed n m (some l) = some (l.call n) := by simp only [owed, hm, ↓reduceIte]
  have hold : todo s.listeners (.scan n m i) = todo s.listeners (.setMsg n m i l) := by
    simp only [todo, drop_eq_cons hi, List.filterMap_cons, ho]
  have hclear : todo (if l.listener.type = .oneshot then s.listeners.set i none else s.listeners)
      (.setMsg n m i l) = todo s.listeners (.setMsg n m i l) := by
    split
    · simp only [todo, List.drop_set_of_lt (Nat.lt_succ_self i)]
    · rfl
  obtain ⟨hprot, hstored, hledger, hnodup, hpast, hslots, hcalls, honce⟩ := h
  rw [hsnd] at hprot hstored hledger honce
  have hone : todo s.listeners (.setMsg n m i l) = [l.call n] := by
    rw [hold] at hprot
    rcases hprot with ⟨_, _, hlen⟩ | ⟨hnil, _⟩
    · simp only [todo, List.length_cons] at hlen ⊢
      rw [List.eq_nil_of_length_eq_zero (Nat.le_zero.mp (Nat.le_of_succ_le_succ hlen))]
    · cases hnil
  refine ⟨?_, trivial, ?_, hnodup, hpast, ?_, hcalls, ?_⟩
  · change Protocol _ _ (todo (if _ then _ else _) (.setMsg n m i l)) _
    rw [hclear, hone]
    rw [hold, hone] at hprot
    rcases hprot with ⟨hheld, hlock, _⟩ | ⟨hnil, _⟩
    · exact ⟨hheld, hlock, rfl⟩
    · cases hnil
  · intro c
    change _ = _ + _ + (todo (if _ then _ else _) (.setMsg n m i l)).count c
    rw [hclear, ← hold]
    exact hledger c
  · intro e he
    change some e ∈ (if _ then _ else _) at he
    split at he
    · rcases List.mem_or_eq_of_mem_set he with he | he
      · exact hslots e he
      · cases he
    · exact hslots e he
  · intro r
    have hr := honce r
    change _ ≤ 1 + (todo s.listeners (.scan n m i)).countP _ at hr
    rw [hold, hone, List.countP_singleton] at hr
    exact found_oneshot hi hr

theorem loop_end_invariant {s : Dbus} (h : Invariant s) (hsnd : s.sender = .scan n m i)
    (hi : s.listeners[i]? = none) : Invariant { s with sender := .wait } := by
  have hend : todo s.listeners (.scan n m i) = [] := by
    simp only [todo, List.drop_eq_nil_of_le (List.getElem?_eq_none_iff.mp hi), List.filterMap_nil]
  obtain ⟨hprot, _, hledger, hnodup, hpast, hslots, hcalls, honce⟩ := h
  rw [hsnd] at hprot hledger honce
  rw [hend] at hledger
  refine ⟨?_, trivial, hledger, hnodup, hpast, hslots, hcalls, ?_⟩
  · rcases hprot with ⟨hheld, _, _⟩ | ⟨_, hheld | ⟨hheld, _⟩⟩
    · exact .inl hheld
    · exact .inr hheld
    · exact .inl hheld
  · intro r
    have hr := honce r
    change _ ≤ 1 + (todo s.listeners (.scan n m i)).countP _ at hr
    rw [hend] at hr
    exact hr

theorem spawn_invariant {s : Dbus} (h : Invariant s) (hsnd : s.sender = .spawn n m i l) :
    Invariant { s with handlers := s.handlers ++ [.start], sender := .scan n m (i + 1) } := by
  obtain ⟨hprot, hstored, hledger, hnodup, hpast, hslots, hcalls, honce⟩ := h
  rw [hsnd] at hprot hstored hledger honce
  obtain ⟨hheld, hlock, hlen⟩ := hprot
  obtain ⟨hmsg, hlst⟩ := hstored
  have hrest : todo s.listeners (.scan n m (i + 1)) = [] :=
    List.eq_nil_of_length_eq_zero (Nat.succ.inj hlen)
  have hlast : [Handler.start].filterMap (pending s.msg s.lst) = [l.call n] := by
    rw [hmsg, hlst]
    rfl
  refine ⟨.inr ⟨hrest, .inl ⟨?_, hlock⟩⟩, trivial, ?_, hnodup, hpast, hslots, hcalls, ?_⟩
  · change (s.handlers ++ [Handler.start]).countP _ = 1
    rw [List.countP_append, hheld]
    rfl
  · intro c
    have hc := hledger c
    change _ = _ + _ + (l.call n :: todo s.listeners (.scan n m (i + 1))).count c at hc
    change _ = _ + ((s.handlers ++ [Handler.start]).filterMap _).count c +
      (todo s.listeners (.scan n m (i + 1))).count c
    rw [List.filterMap_append, hlast, List.count_append, hrest]
    rw [hrest] at hc
    simp only [List.count_nil, Nat.add_zero] at hc ⊢
    rw [hc, Nat.add_assoc]
  · intro r
    exact Nat.le_trans (honce r) (Nat.le_add_right 1 _)

theorem sender_invariant {s t : Dbus} (h : Invariant s) (hs : s.senderStep true = some t) :
    Invariant t := by
  cases sender_cases hs with
  | ended hsnd hi => exact loop_end_invariant h hsnd hi
  | passed hsnd hi ho => exact skip_invariant h hsnd hi ho
  | found hsnd hi hm => exact found_invariant h hsnd hi hm
  | @storedMsg n m i l hsnd =>
    obtain ⟨hprot, _, hledger, hnodup, hpast, hslots, hcalls, honce⟩ := h
    rw [hsnd] at hprot hledger honce
    refine ⟨hprot, rfl, ?_, hnodup, hpast, hslots, hcalls, honce⟩
    rw [pending_released hprot.1 s.msg (some n) s.lst s.lst] at hledger
    exact hledger
  | @storedLst n m i l hsnd =>
    obtain ⟨hprot, hstored, hledger, hnodup, hpast, hslots, hcalls, honce⟩ := h
    rw [hsnd] at hprot hstored hledger honce
    refine ⟨hprot, ⟨hstored, rfl⟩, ?_, hnodup, hpast, hslots, hcalls, honce⟩
    rw [pending_released hprot.1 s.msg s.msg s.lst (some l)] at hledger
    exact hledger
  | spawned hsnd => exact spawn_invariant h hsnd
  | locked hsnd hlock =>
    obtain ⟨hprot, _, hledger, hnodup, hpast, hslots, hcalls, honce⟩ := h
    rw [hsnd] at hprot hledger honce
    refine ⟨?_, trivial, hledger, hnodup, hpast, hslots, hcalls, honce⟩
    rcases hprot with hheld | ⟨_, hl⟩
    · exact ⟨hheld, rfl⟩
    · exact absurd hl hlock
  | released hsnd =>
    obtain ⟨hprot, _, hledger, hnodup, hpast, hslots, hcalls, honce⟩ := h
    rw [hsnd] at hprot hledger honce
    exact ⟨⟨hprot.1, rfl⟩, trivial, hledger, hnodup, hpast, hslots, hcalls, honce⟩

/-- A step of a handler that keeps the lock and reads what is there. -/
theorem read_invariant {s : Dbus} (h : Invariant s) (hj : s.handlers[j]? = some x)
    (hp : pending s.msg s.lst y = pending s.msg s.lst x) (hh : holding y = holding x) :
    Invariant { s with handlers := s.handlers.set j y } := by
  have hcount : (s.handlers.set j y).countP holding = s.handlers.countP holding := by
    have hset := countP_set_add holding hj y
    rw [hh] at hset
    exact Nat.add_right_cancel hset
  obtain ⟨hprot, hstored, hledger, hnodup, hpast, hslots, hcalls, honce⟩ := h
  refine ⟨?_, hstored, ?_, hnodup, hpast, hslots, hcalls, honce⟩
  · change Protocol _ ((s.handlers.set j y).countP holding) _ _
    rw [hcount]
    exact hprot
  · intro c
    change _ = _ + ((s.handlers.set j y).filterMap _).count c + _
    rw [filterMap_set_eq hj hp]
    exact hledger c

/-- The handler gives the lock back; it was the only one that could. -/
theorem unlock_invariant {s : Dbus} (h : Invariant s)
    (hj : s.handlers[j]? = some (.gotLst m l)) :
    Invariant { s with handlers := s.handlers.set j (.unlocked m l), locked := false } := by
  have hcount : (s.handlers.set j (.unlocked m l)).countP holding + 1 =
      s.handlers.countP holding :=
    countP_set_add holding hj (.unlocked m l)
  obtain ⟨hprot, hstored, hledger, hnodup, hpast, hslots, hcalls, honce⟩ := h
  refine ⟨?_, hstored, ?_, hnodup, hpast, hslots, hcalls, honce⟩
  · change Protocol false ((s.handlers.set j (.unlocked m l)).countP holding) _ _
    cases hsnd : s.sender with
    | scan n msg i =>
      rw [hsnd] at hprot
      rcases hprot with ⟨hheld, _, _⟩ | ⟨hnil, ⟨hheld, _⟩ | ⟨hheld, _⟩⟩
      · omega
      · exact .inr ⟨hnil, .inr ⟨by omega, rfl⟩⟩
      · omega
    | wait =>
      rw [hsnd] at hprot
      rcases hprot with hheld | ⟨hheld, _⟩
      · omega
      · exact .inl (by omega)
    | _ =>
      rw [hsnd] at hprot
      have := hprot.1
      omega
  · intro c
    change _ = _ + ((s.handlers.set j (.unlocked m l)).filterMap _).count c + _
    rw [filterMap_set_eq (x := Handler.unlocked m l) hj rfl]
    exact hledger c

theorem callback_invariant {s : Dbus} (h : Invariant s)
    (hj : s.handlers[j]? = some (.unlocked m l)) (hc : Dbus.callOf m l = some c) :
    Invariant { s with handlers := s.handlers.set j .done, invoked := s.invoked ++ [c] } := by
  have hcount : (s.handlers.set j .done).countP holding = s.handlers.countP holding :=
    countP_set_add holding hj .done
  obtain ⟨hprot, hstored, hledger, hnodup, hpast, hslots, hcalls, honce⟩ := h
  refine ⟨?_, hstored, ?_, hnodup, hpast, hslots, hcalls, honce⟩
  · change Protocol _ ((s.handlers.set j .done).countP holding) _ _
    rw [hcount]
    exact hprot
  · intro e
    change _ = (s.invoked ++ [c]).count e +
      ((s.handlers.set j .done).filterMap (pending s.msg s.lst)).count e +
      (todo s.listeners s.sender).count e
    rw [hledger e, List.count_append, List.count_singleton,
      count_filterMap_set (f := pending s.msg s.lst) (x := .done) hj hc rfl e]
    omega

theorem stub_invariant {s t : Dbus} (h : Invariant s) (hs : s.stubStep j = some t) :
    Invariant t := by
  cases stub_cases hs with
  | gotMsg hj | gotLst hj => exact read_invariant h hj rfl rfl
  | unlocked hj => exact unlock_invariant h hj
  | called hj hc => exact callback_invariant h hj hc

/-- Only a handler that is being created can fail to be placed. -/
theorem sender_placed {s : Dbus} (hg : Starting s.sender → placed = true) :
    s.senderStep placed = s.senderStep true := by
  unfold Dbus.senderStep
  cases hsnd : s.sender with
  | spawn =>
    rw [hsnd] at hg
    rw [hg trivial]
  | _ => rfl

theorem step_invariant {s t : Dbus} {op : DbusOp} (h : Invariant s) (hg : Guard s op)
    (hs : s.step op = some t) : Invariant t := by
  cases op with
  | register lst =>
    cases hs
    exact register_invariant h hg
  | send m => exact send_invariant h hg hs
  | sender placed => exact sender_invariant h (hs ▸ (sender_placed hg).symm)
  | handler j => exact stub_invariant h hs

/-- Numbering the slots from `k` on gives every number to one slot at most. -/
theorem numbered_once (table : List (Option Listener)) (k r : Nat) :
    (table.mapIdx (fun i slot => slot.map (fun l => (⟨i + k, l⟩ : Entry)))).countP
      (oneshotSlot r) ≤ if k ≤ r then 1 else 0 := by
  induction table generalizing k with
  | nil => exact Nat.zero_le _
  | cons slot table ih =>
    have htail := ih (k + 1)
    have hshift : ∀ i, i + 1 + k = i + (k + 1) := fun i => by omega
    rw [List.mapIdx_cons, List.countP_cons]
    simp only [hshift, Nat.zero_add]
    have hhead : (if oneshotSlot r (slot.map (fun l => (⟨k, l⟩ : Entry))) then 1 else 0) ≤
        if k = r then 1 else 0 := by
      cases slot with
      | none => exact Nat.zero_le _
      | some l =>
        by_cases hk : k = r
        · rw [if_pos hk]
          split <;> decide
        · simp [oneshotSlot, hk]
    rcases Nat.lt_trichotomy k r with hlt | he | hgt
    · rw [if_neg (Nat.ne_of_lt hlt)] at hhead
      rw [if_pos (Nat.succ_le_of_lt hlt)] at htail
      rw [if_pos (Nat.le_of_lt hlt)]
      omega
    · rw [if_pos he] at hhead
      rw [if_neg (by omega)] at htail
      rw [if_pos (Nat.le_of_eq he)]
      omega
    · rw [if_neg (Nat.ne_of_gt hgt)] at hhead
      rw [if_neg (by omega)] at htail
      rw [if_neg (Nat.not_le.mpr hgt)]
      omega

theorem init_invariant (table : List (Option Listener)) : Invariant (Dbus.init table) := by
  refine ⟨⟨rfl, rfl⟩, trivial, fun c => rfl, List.nodup_nil, List.forall_mem_nil _, ?_,
    List.forall_mem_nil _, ?_⟩
  · intro l hl
    obtain ⟨i, hlt, he⟩ := List.mem_mapIdx.mp hl
    obtain ⟨e, _, rfl⟩ := Option.map_eq_some_iff.mp he
    exact hlt
  · intro r
    have hr := numbered_once table 0 r
    simp only [Nat.zero_le, ↓reduceIte, Nat.add_zero] at hr
    exact hr

/-- In every run in which each message is sent while at most one listener waits
for it, and its handler can be started, every call owed is made exactly once,
in whatever order the handlers run. -/
theorem calls_delivered (table : List (Option Listener)) (ops : List DbusOp)
    (hg : Guarded Dbus.step Guard (Dbus.init table) ops) :
    Throughout Dbus.step Delivered (Dbus.init table) ops :=
  (throughout_of_guarded (init_invariant table) (fun _ _ _ => step_invariant) hg).mono
    (fun _ => Invariant.delivered)

/-- A table with two listeners in it. -/
def tableOf (a b : Listener) : List (Option Listener) :=
  some a :: some b :: List.replicate (dbusMaxLsts - 2) none

/-- One send from its start to its end: the handler runs as soon as it is created, and the
loop then goes on to the end of the table. -/
def wholeSend : List DbusOp :=
  .send ⟨2⟩ :: (List.replicate 5 (DbusOp.sender true) ++ List.replicate 4 (DbusOp.handler 0) ++
    List.replicate 257 (DbusOp.sender true))

set_option maxRecDepth 4000 in
theorem calls_delivered_one :
    Throughout Dbus.step Delivered (Dbus.init (tableOf ⟨1, .continuous⟩ ⟨2, .oneshot⟩))
        wholeSend ∧
      (run Dbus.step (Dbus.init (tableOf ⟨1, .continuous⟩ ⟨2, .oneshot⟩)) wholeSend).map
        (fun s => (s.sender, s.handlers, s.due, s.invoked)) =
          some (.idle, [.done], [⟨0, 1, .oneshot⟩], [⟨0, 1, .oneshot⟩]) := by
  refine ⟨calls_delivered _ _ (.cons rfl (Nat.le_refl 1) (.of_forall ?_ _)), by decide +kernel⟩
  intro s op hop
  simp only [List.mem_append, List.mem_replicate] at hop
  obtain (⟨-, rfl⟩ | ⟨-, rfl⟩) | ⟨-, rfl⟩ := hop
  · exact fun _ => rfl
  · trivial
  · exact fun _ => rfl

set_option maxRecDepth 4000 in
/-- Two listeners for one message: the first handler runs after the second has
been prepared, so the second listener is called twice and the first never. -/
theorem call_delivered_twice :
    ¬ ∀ table ops, Throughout Dbus.step Delivered (Dbus.init table) ops := by
  intro h
  have hd := (h (tableOf ⟨1, .continuous⟩ ⟨1, .continuous⟩)
    [.send ⟨1⟩, .sender true, .sender true, .sender true, .sender true, .sender true,
      .sender true, .sender true, .sender true, .handler 0, .handler 0, .handler 0, .handler 0,
      .handler 1, .handler 1, .handler 1, .handler 1]).last rfl
  exact absurd hd.once (by decide)

end Levos.Proofs.Dbus
