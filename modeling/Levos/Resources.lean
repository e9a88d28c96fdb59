import Levos.Heap

namespace Levos

/-- The process a block is a part of: its struct, its name or its stack. -/
def Use.partOf : Use → Option Nat
  | .struct h | .name h | .stack h => some h
  | .thread _ | .plain _ => none

/-- The steps that take or give back frames and heap blocks together; the
others are those of the heap. -/
inductive ResourceOp
  | createNewProcess (addr : Nat) (process name thread stack : Option Placed)
  | createNewProcessNothread (process name : Option Placed)
  | schedulerAddProcess (h : Nat)
  | malloc (o : Option Placed)
  | free (a : Nat)
  | schedulerSwitch
  | elfStart (img : Image) (rest : PageDirectory) (pd pt : Option Placed)
  | sysFork (f : ForkSite) (process name pd pt buf thread stack : Option Placed)
  | schedulerKillSelf
  | schedulerKillPid (pid : Nat)

namespace Resources

/-- `elf_start`: the frames, and two blocks for the page directory. A call that ends in
a page fault is not followed. -/
def elfStart (s : Heap) (img : Image) (rest : PageDirectory) (pd pt : Option Placed) :
    Option Heap :=
  if img.eType ≠ 2 then some s
  else if (s.kernel.effect (.elfStart img rest)).fault then none
  else match s.kernel.step (.elfStart img rest) with
    | none => none
    | some k =>
      match Heap.mallocs { s with kernel := k }
          [(.plain k.current, pd), (.plain k.current, pt)] with
      | some (s, [_, _], true) => some s
      | _ => none

/-- `sys_fork`: the blocks as in `Heap.sysFork`, and the frames of the child. A call that
ends in a page fault is not followed. -/
def sysFork (s : Heap) (f : ForkSite)
    (process name pd pt buf thread stack : Option Placed) : Option Heap :=
  let h := s.kernel.procs.length
  let parent := s.kernel.current
  match s.mallocs [(.struct h, process), (.name h, name), (.plain parent, pd),
      (.plain parent, pt), (.plain parent, buf)] with
  | some (s, [p, n, _, _, b], true) =>
    match (s.freeAll [b.base]).mallocs [(.thread h, thread), (.stack h, stack)] with
    | some (s, [_, _], true) =>
      if (s.kernel.effect (.sysFork f)).fault then none
      else (s.kernel.step (.sysFork f)).map (fun k =>
        { s with kernel := k, homes := s.homes ++ [⟨p.base, n.base, 0, .forked, []⟩] })
    | _ => none
  | _ => none

/-- `scheduler_kill_self`: the frames and the heap blocks of the running process. -/
def schedulerKillSelf (s : Heap) : Option Heap :=
  match s.kernel.getProcess with
  | none => none
  | some (h, p) => match s.homes[h]?, s.kernel.step .schedulerKillSelf with
    | some m, some k => some { s.freeAll (Heap.killFrees m p) with kernel := k }
    | _, _ => none

/-- `scheduler_kill_pid`: another process is only taken off the table. -/
def schedulerKillPid (s : Heap) (pid : Nat) : Option Heap :=
  match s.kernel.getProcess with
  | none => none
  | some (_, p) =>
    if pid = p.pid then schedulerKillSelf s
    else (s.kernel.step (.schedulerKillPid pid)).map (fun k => { s with kernel := k })

def step (s : Heap) : ResourceOp → Option Heap
  | .createNewProcess addr process name thread stack =>
    s.step (.createNewProcess addr process name thread stack)
  | .createNewProcessNothread process name => s.step (.createNewProcessNothread process name)
  | .schedulerAddProcess h => s.step (.schedulerAddProcess h)
  | .malloc o => s.step (.malloc o)
  | .free a => s.step (.free a)
  | .schedulerSwitch => s.step .schedulerSwitch
  | .elfStart img rest pd pt => elfStart s img rest pd pt
  | .sysFork f process name pd pt buf thread stack =>
    sysFork s f process name pd pt buf thread stack
  | .schedulerKillSelf => schedulerKillSelf s
  | .schedulerKillPid pid => schedulerKillPid s pid

end Resources

end Levos
