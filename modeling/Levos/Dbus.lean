import Mathlib

namespace Levos

def dbusMaxLsts : Nat := 256

inductive ListenType
  | oneshot
  | continuous
deriving DecidableEq, Repr

structure Listener where
  msg : Int
  type : ListenType
deriving DecidableEq, Repr

structure Message where
  msg : Int
deriving DecidableEq, Repr

/-- A pointer in the table of listeners. Its number is history: the order of
registration. -/
structure Entry where
  reg : Nat
  listener : Listener
deriving DecidableEq, Repr

structure Call where
  send : Nat
  reg : Nat
  type : ListenType
deriving DecidableEq, Repr

/-- Where the sending process is: in the loop of `dbus_send_message` at a slot,
between the stores it makes for a listener it has found, or at its second
`mutex_lock` and the `mutex_unlock` behind it. -/
inductive Sender
  | idle
  | scan (n : Nat) (m : Message) (i : Nat)
  | setMsg (n : Nat) (m : Message) (i : Nat) (l : Entry)
  | setLst (n : Nat) (m : Message) (i : Nat) (l : Entry)
  | spawn (n : Nat) (m : Message) (i : Nat) (l : Entry)
  | wait
  | release
deriving DecidableEq, Repr

/-- Where a handler process is in `__dbus_stub`, with the locals it has read. -/
inductive Handler
  | start
  | gotMsg (m : Option Nat)
  | gotLst (m : Option Nat) (l : Option Entry)
  | unlocked (m : Option Nat) (l : Option Entry)
  | done
deriving DecidableEq, Repr

/-- The globals of `dbus.c`, the sending process and the handlers it has
started. `__msg` is the number of the send that stored it. The last fields are
history: sends begun, listeners registered, the calls those sends owe, and the
calls made. -/
structure Dbus where
  listeners : List (Option Entry)
  msg : Option Nat
  lst : Option Entry
  locked : Bool
  sender : Sender
  handlers : List Handler
  sends : Nat
  registered : Nat
  due : List Call
  invoked : List Call
deriving DecidableEq, Repr

def Entry.call (n : Nat) (l : Entry) : Call := ⟨n, l.reg, l.listener.type⟩

/-- What a send owes to one slot of the table. -/
def owed (n : Nat) (m : Message) : Option Entry → Option Call
  | none => none
  | some l => if l.listener.msg = m.msg then some (l.call n) else none

namespace Dbus

/-- `dbus_register_listener`: the first empty slot. -/
def dbusRegisterListener (s : Dbus) (lst : Listener) : Dbus :=
  match s.listeners.findIdx? (· == none) with
  | none => s
  | some i =>
    { s with
      listeners := s.listeners.set i (some ⟨s.registered, lst⟩)
      registered := s.registered + 1 }

/-- `dbus_send_message` up to its loop; it spins while the lock is taken. -/
def dbusSendMessage (s : Dbus) (m : Message) : Option Dbus :=
  if s.sender ≠ .idle ∨ s.locked then none
  else some
    { s with
      locked := true
      sender := .scan s.sends m 0
      sends := s.sends + 1
      due := s.due ++ s.listeners.filterMap (owed s.sends m) }

/-- The loop of `dbus_send_message` and what follows it, one access to shared
memory at a time. The handler comes to run only if it could be `placed`. -/
def senderStep (s : Dbus) (placed : Bool) : Option Dbus :=
  match s.sender with
  | .idle => none
  | .scan n m i =>
    match s.listeners[i]? with
    | none => some { s with sender := .wait }
    | some none => some { s with sender := .scan n m (i + 1) }
    | some (some l) =>
      if l.listener.msg = m.msg then some
        { s with
          listeners := if l.listener.type = .oneshot then s.listeners.set i none else s.listeners
          sender := .setMsg n m i l }
      else some { s with sender := .scan n m (i + 1) }
  | .setMsg n m i l => some { s with msg := some n, sender := .setLst n m i l }
  | .setLst n m i l => some { s with lst := some l, sender := .spawn n m i l }
  | .spawn n m i _ => some
    { s with
      handlers := if placed then s.handlers ++ [.start] else s.handlers
      sender := .scan n m (i + 1) }
  | .wait => if s.locked then none else some { s with locked := true, sender := .release }
  | .release => some { s with locked := false, sender := .idle }

/-- The call a handler makes with its locals, if they point anywhere. -/
def callOf : Option Nat → Option Entry → Option Call
  | some n, some l => some (l.call n)
  | _, _ => none

/-- `__dbus_stub`: the two reads, the unlock and the callback. -/
def stubStep (s : Dbus) (j : Nat) : Option Dbus :=
  match s.handlers[j]? with
  | some .start => some { s with handlers := s.handlers.set j (.gotMsg s.msg) }
  | some (.gotMsg m) => some { s with handlers := s.handlers.set j (.gotLst m s.lst) }
  | some (.gotLst m l) => some
    { s with handlers := s.handlers.set j (.unlocked m l), locked := false }
  | some (.unlocked m l) => (callOf m l).map (fun c =>
    { s with handlers := s.handlers.set j .done, invoked := s.invoked ++ [c] })
  | _ => none

end Dbus

inductive DbusOp
  | register (lst : Listener)
  | send (m : Message)
  | sender (placed : Bool)
  | handler (j : Nat)
deriving DecidableEq, Repr

namespace Dbus

def step (s : Dbus) : DbusOp → Option Dbus
  | .register lst => some (s.dbusRegisterListener lst)
  | .send m => s.dbusSendMessage m
  | .sender placed => s.senderStep placed
  | .handler j => s.stubStep j

/-- Any table of listeners, before the first send. -/
def init (table : List (Option Listener)) : Dbus :=
  { listeners := table.mapIdx (fun i slot => slot.map (fun l => ⟨i, l⟩))
    msg := none, lst := none, locked := false, sender := .idle, handlers := [], sends := 0,
    registered := table.length, due := [], invoked := [] }

end Dbus

end Levos
