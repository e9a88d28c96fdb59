import Levos.Kernel

namespace Levos

/-- What comes of a call with a descriptor: it returns an error, or it returns without
having done anything, or it is carried out on the tty or on what a word is taken to
point to. -/
inductive Done
  | failed (rc : Int)
  | nothing
  | tty (buf : Nat) (len : Int)
  | file (fl buf : Nat) (len : Int)
  | directory (dirp : Nat)
deriving DecidableEq, Repr

/-- A call, with the entry of `filehandles` it has looked at. -/
structure FdResult where
  entry : Option Int
  done : Done
deriving DecidableEq, Repr

namespace Kernel

def vfsRead (fl buf : Nat) (len : Int) : Done :=
  if fl = 0 then .failed (-einval) else .file fl buf len

/-- `vfs_write` does not look for a null pointer. -/
def vfsWrite (fl buf : Nat) (len : Int) : Done := .file fl buf len

def vfsReaddir (dirp : Nat) : Done :=
  if dirp = 0 then .failed (-einval) else .directory dirp

/-- The word in `filehandles[index]`, wherever that is. -/
def handle (k : Kernel) (p : Process) (index : Int) : Nat :=
  k.memory (((p.filehandles : Int) + 4 * index) % 2 ^ 32).toNat

/-- The loop over the tty is not entered for a length that is not positive. -/
def sysRead (k : Kernel) (p : Process) (fd : Int) (buf : Nat) (len : Int) : FdResult :=
  if fd = 0 then ⟨none, if 0 < len then .tty buf len else .nothing⟩
  else ⟨some (fd - 3), vfsRead (k.handle p (fd - 3)) buf len⟩

/-- The tty is flushed whatever the length is. -/
def sysWrite (k : Kernel) (p : Process) (fd : Int) (buf : Nat) (len : Int) : FdResult :=
  if fd = 1 then ⟨none, .tty buf len⟩
  else ⟨some (fd - 3), vfsWrite (k.handle p (fd - 3)) buf len⟩

def sysReaddir (k : Kernel) (p : Process) (workdir : Nat) (dd : Int) : FdResult :=
  if dd = 0xFF then ⟨none, vfsReaddir workdir⟩
  else ⟨some (dd - 3), vfsReaddir (k.handle p (dd - 3))⟩

end Kernel

/-- The three calls, with their arguments but the descriptor. -/
inductive FdCall
  | read (buf : Nat) (len : Int)
  | write (buf : Nat) (len : Int)
  | readdir
deriving DecidableEq, Repr

/-- One of the calls by process `p`, whose `workdir` is given. -/
def Kernel.fdCall (k : Kernel) (p : Process) (workdir : Nat) (fd : Int) : FdCall → FdResult
  | .read buf len => k.sysRead p fd buf len
  | .write buf len => k.sysWrite p fd buf len
  | .readdir => k.sysReaddir p workdir fd

end Levos
