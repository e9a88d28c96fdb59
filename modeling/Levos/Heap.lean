import Levos.Kernel

namespace Levos

inductive Use
  | struct (h : Nat)
  | name (h : Nat)
  | thread (h : Nat)
  | stack (h : Nat)
  | plain (h : Option Nat)
deriving DecidableEq, Repr

/-- The process a block serves; a plain block serves the one that asked for it. -/
def Use.user : Use → Option Nat
  | .struct h | .name h | .thread h | .stack h => some h
  | .plain h => h

/-- A live block. Its number is history: no two calls of `malloc` share one. -/
structure Block where
  base : Nat
  use : Use
  serial : Nat
deriving DecidableEq, Repr

/-- What the search of `malloc` came to: the address, and whether it was found
in a case that calls `post_allocation`, which the end of a major block is not. -/
structure Placed where
  base : Nat
  recorded : Bool
deriving DecidableEq, Repr

inductive Origin
  | created
  | nothread
  | forked
deriving DecidableEq, Repr

/-- The pointers of a process to blocks of its own. The last two fields are
history: how it was made, and what `post_allocation` has recorded for it. -/
structure Home where
  self : Nat
  namebuf : Nat
  stackbot : Nat
  origin : Origin
  records : List Block
deriving DecidableEq, Repr

/-- The processes and the heap. The frames of a process are left alone here. -/
structure Heap where
  kernel : Kernel
  homes : List Home
  blocks : List Block
  serial : Nat

/-- The entries `scheduler_kill_self` reads from the table. The 33rd, if there
is one, is the field behind it. -/
def Process.recorded (p : Process) : List Nat :=
  (p.allocationTable ++ [p.filehandles]).take p.allocs

namespace Heap

/-- `post_allocation(get_process(), ..)`. -/
def record (s : Heap) (b : Block) : Heap :=
  match s.kernel.getProcess with
  | none => s
  | some (h, p) => match postAllocation p b.base with
    | none => s
    | some p' =>
      { s with
        kernel := s.kernel.setProc h p'
        homes := s.homes.modify h (fun m => { m with records := m.records ++ [b] }) }

/-- `malloc`; the second component is `none` when no memory is left. An address
at which a block is live is not a possible answer of the search. -/
def malloc (s : Heap) (use : Use) : Option Placed → Option (Heap × Option Block)
  | none => some (s, none)
  | some pl =>
    if pl.base = 0 ∨ pl.base ∈ s.blocks.map Block.base then none
    else
      let b := ⟨pl.base, use, s.serial⟩
      let s' := { s with blocks := b :: s.blocks, serial := s.serial + 1 }
      some (if pl.recorded then s'.record b else s', some b)

/-- `free` of each address; one at which no block is live is refused. -/
def freeAll (s : Heap) (addrs : List Nat) : Heap :=
  { s with blocks := s.blocks.filter (fun b => b.base ∉ addrs) }

/-- A sequence of `malloc` calls that ends with the first failure. -/
def mallocs (s : Heap) : List (Use × Option Placed) → Option (Heap × List Block × Bool)
  | [] => some (s, [], true)
  | (use, o) :: rest => match s.malloc use o with
    | none => none
    | some (s, none) => some (s, [], false)
    | some (s, some b) => (s.mallocs rest).map (fun (s, bs, ok) => (s, b :: bs, ok))

/-- `create_new_process`. Its error labels free what has been allocated so far;
the pid is used up once there are a struct and a name. -/
def createNewProcess (s : Heap) (addr : Nat) (process name thread stack : Option Placed) :
    Option Heap :=
  let h := s.kernel.procs.length
  let calls := [(.struct h, process), (.name h, name)] ++
    if addr = 0 then [] else [(.thread h, thread), (.stack h, stack)]
  match s.mallocs calls with
  | none => none
  | some (s, [p, n, _, st], true) => some
    { s with
      kernel := s.kernel.createNewProcess addr none
      homes := s.homes ++ [⟨p.base, n.base, st.base, .created, []⟩] }
  | some (s, bs, _) => some
    { s.freeAll (bs.map Block.base) with
      kernel := if bs.length < 2 then s.kernel else s.kernel.nextPid }

def createNewProcessNothread (s : Heap) (process name : Option Placed) : Option Heap :=
  let h := s.kernel.procs.length
  match s.mallocs [(.struct h, process), (.name h, name)] with
  | none => none
  | some (s, [p, n], true) => (s.kernel.createNewProcessNothread none).map (fun k =>
    { s with kernel := k, homes := s.homes ++ [⟨p.base, n.base, 0, .nothread, []⟩] })
  | some (s, bs, _) => some (s.freeAll (bs.map Block.base))

/-- `sys_fork`: a struct and a name, two blocks for the page directory, a buffer
that is given back at once, a thread and its stack. The child's `stackbot`
stays null. A failing `malloc` makes the source follow a null pointer. -/
def sysFork (s : Heap) (process name pd pt buf thread stack : Option Placed) : Option Heap :=
  let h := s.kernel.procs.length
  let parent := s.kernel.current
  match s.mallocs [(.struct h, process), (.name h, name), (.plain parent, pd),
      (.plain parent, pt), (.plain parent, buf)] with
  | some (s, [p, n, _, _, b], true) =>
    match (s.freeAll [b.base]).mallocs [(.thread h, thread), (.stack h, stack)] with
    | some (s, [_, _], true) => some
      { s with
        kernel := ((s.kernel.nextPid.pushProcess
          { s.kernel.newProcess with threadslen := 1 }).schedulerAddProcess h).1
        homes := s.homes ++ [⟨p.base, n.base, 0, .forked, []⟩] }
    | _ => none
  | _ => none

/-- The pointers `scheduler_kill_self` passes to `free`, in its order. -/
def killFrees (m : Home) (p : Process) : List Nat :=
  m.namebuf :: m.stackbot :: p.recorded ++ [m.self]

def schedulerKillSelf (s : Heap) : Option Heap :=
  match s.kernel.getProcess with
  | none => none
  | some (h, p) => s.homes[h]?.map (fun m =>
    { s.freeAll (killFrees m p) with kernel := s.kernel.leaveTable h })

def schedulerKillPid (s : Heap) (pid : Nat) : Option Heap :=
  match s.kernel.getProcess with
  | none => none
  | some (_, p) =>
    if pid = p.pid then s.schedulerKillSelf
    else (s.kernel.step (.schedulerKillPid pid)).map (fun k => { s with kernel := k })

/-- `free` by the running process, of a block it has asked for. -/
def free (s : Heap) (a : Nat) : Option Heap :=
  match s.blocks.find? (fun b => b.base = a), s.kernel.current with
  | some b, some h => if b.use = .plain (some h) then some (s.freeAll [a]) else none
  | _, _ => none

end Heap

inductive HeapOp
  | createNewProcess (addr : Nat) (process name thread stack : Option Placed)
  | createNewProcessNothread (process name : Option Placed)
  | schedulerAddProcess (h : Nat)
  | sysFork (process name pd pt buf thread stack : Option Placed)
  | malloc (o : Option Placed)
  | free (a : Nat)
  | schedulerSwitch
  | schedulerKillSelf
  | schedulerKillPid (pid : Nat)

namespace Heap

def step (s : Heap) : HeapOp → Option Heap
  | .createNewProcess addr process name thread stack =>
    s.createNewProcess addr process name thread stack
  | .createNewProcessNothread process name => s.createNewProcessNothread process name
  | .schedulerAddProcess h =>
    (s.kernel.step (.schedulerAddProcess h)).map (fun k => { s with kernel := k })
  | .sysFork process name pd pt buf thread stack =>
    s.sysFork process name pd pt buf thread stack
  | .malloc o => (s.malloc (.plain s.kernel.current) o).map Prod.fst
  | .free a => s.free a
  | .schedulerSwitch => (s.kernel.step .schedulerSwitch).map (fun k => { s with kernel := k })
  | .schedulerKillSelf => s.schedulerKillSelf
  | .schedulerKillPid pid => s.schedulerKillPid pid

def boot (k : Kernel) : Heap := ⟨k, [], [], 0⟩

end Heap

end Levos
