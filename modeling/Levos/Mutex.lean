import Levos.Library.Runs

namespace Levos.Mutex

/-- Where a process stands between `mutex_lock(m)` and `mutex_unlock(m)`. It has
`tested` when the loop of `mutex_lock` has ended and the store is still to come. -/
inductive Phase
  | outside
  | tested
  | inside
deriving DecidableEq, Repr

/-- One mutex, the flag of `unlock_all_mutexes`, and the processes that use the
mutex, any number of them. -/
structure State where
  locked : Bool
  allUnlocked : Bool
  phase : Nat → Phase

/-- The steps of one process between which the timer can switch: a test of the
loop condition of `mutex_lock`, its store, and the store of `mutex_unlock`. -/
inductive Act
  | test
  | store
  | unlock
deriving DecidableEq, Repr

namespace State

/-- The condition of `while(m->locked && !__all_unlocked)`. -/
def waits (s : State) : Bool := s.locked && !s.allUnlocked

def move (s : State) (i : Nat) (ph : Phase) : State :=
  { s with phase := Function.update s.phase i ph }

/-- A step of process `i`. A test that fails leads to `schedule_noirq` and to
the next test. -/
def step (s : State) : Nat × Act → Option State
  | (i, .test) => if s.phase i = .outside then
      some (if s.waits then s else s.move i .tested) else none
  | (i, .store) => if s.phase i = .tested then
      some { s.move i .inside with locked := true } else none
  | (i, .unlock) => if s.phase i = .inside then
      some { s.move i .outside with locked := false } else none

/-- A free mutex that nobody uses, with `unlock_all_mutexes` not called. -/
def start : State := ⟨false, false, fun _ => .outside⟩

end State

end Levos.Mutex
