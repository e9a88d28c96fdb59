import Levos.FullRead
import Levos.Kernel
import Levos.Procfs
import Levos.Search

namespace Levos

inductive FileSystem
  | ext2 (v : Volume)
  | procfs

structure Mounted where
  loc : CString
  fs : FileSystem

/-- The entries of `mount_points` up to the first null one, with their file systems.
There is one procfs at most: `procfs_probe` refuses a second. -/
structure Hosts where
  entries : List Mounted
  fits : entries.length ≤ maxMounts
  once : ∀ (i j : Nat) (m n : Mounted), entries[i]? = some m → entries[j]? = some n →
    m.fs = .procfs → n.fs = .procfs → i = j

def Hosts.table (t : Hosts) : MountTable where
  locs := t.entries.map Mounted.loc
  fits := by rw [List.length_map]; exact t.fits

namespace CString

def rest (str : CString) (n : Nat) : CString :=
  ⟨str.bytes.drop n, fun h => str.terminated (List.mem_of_mem_drop h)⟩

def append (str more : CString) : CString where
  bytes := str.bytes ++ more.bytes
  terminated h := (List.mem_append.mp h).elim str.terminated more.terminated

def slashed (str : CString) : CString := str.append rootPath

end CString

def dot : CString := ⟨[46], by decide⟩

def dotSlash : CString := ⟨[46, 47], by decide⟩

structure Opened where
  mountid : Nat
  file : File
deriving DecidableEq

section

variable (after : Bytes)

/-- `findinode`: its result and what it stores through `out`. -/
def FileSystem.findinode : FileSystem → CString → Option (Int × Nat)
  | .ext2 v, fn => (ext2FindFileInode v after fn.bytes).map (fun (node, _) =>
    (if node = 0 then 1 else 0, node))
  | .procfs, fn => some (procfsFindinode fn)

/-- `isdir`, which ext2 has as a stub. -/
def FileSystem.isdir : FileSystem → File → Bool
  | .ext2 _, _ => false
  | .procfs, f => procfsIsdir f

/-- `ext2_exist`: its result and the copies made from address 0 on; `none` is a call
that does not return. -/
def ext2Exist (v : Volume) (file : CString) : Option (Nat × List FullRead.Copy) :=
  match FullRead.ext2ReadFileFull v after file.bytes with
  | none => none
  | some none => some (0, [])
  | some (some (copies, returns)) => if returns then some (1, copies) else none

/-- `exist`. That of procfs is a null pointer, and the call does not return. -/
def FileSystem.exist : FileSystem → CString → Option (Nat × List FullRead.Copy)
  | .ext2 v, file => ext2Exist after v file
  | .procfs, _ => none

namespace Hosts

variable (t : Hosts)

/-- The mount `__find_mount` answers with and the path handed to it; `none` is a search
that does not end, a null entry or a path that would begin in front of the filename. -/
def resolve (filename : CString) : Option (Nat × Mounted × CString) :=
  match findMount t.table filename with
  | none => none
  | some (i, adjust) => match t.entries[i]? with
    | none => none
    | some m =>
      if adjust.getD 0 < 0 then none else some (i, m, filename.rest (adjust.getD 0).toNat)

def vfsIsdir (fl : Opened) : Option Bool :=
  (t.entries[fl.mountid]?).map (fun m => m.fs.isdir fl.file)

/-- `vfs_open` by a process with a working directory; `some none` is its error return,
`none` a panic or a call that does not return. -/
def vfsOpen (workdir : Option Opened) (filename : CString) : Option (Option Opened) :=
  if strcmp dotSlash filename = 0 then workdir.map some
  else match t.resolve filename with
    | none => none
    | some (i, m, respath) => (m.fs.findinode after respath).map (fun (rc, inode) =>
      if rc ≠ 0 then none else some ⟨i, ⟨respath.bytes, inode, 0, 0⟩⟩)

end Hosts

inductive DirResult
  | returned (rc : Int)
  | nullFile
  | lost
deriving DecidableEq, Repr

/-- A call of `sys_opendir`: how it ends, the size of its copy of the path and the
places of the copy it stores to. -/
structure Opendir where
  result : DirResult
  size : Nat
  stored : List Nat

namespace Hosts

variable (t : Hosts) (workdir : Option Opened) (openHandles : Nat)

/-- The `sys_open` at the end of `sys_opendir`, by a process with so many handles. -/
def opendirOpen (fn : CString) : DirResult :=
  if openHandles ≥ maxFilehandles then .returned (-emfile)
  else match t.vfsOpen after workdir fn with
    | none => .lost
    | some none => .returned (-enoent)
    | some (some _) => .returned (openHandles + 3)

/-- `sys_opendir` once it has copied the path. The answer of `vfs_open` is not looked
at before `vfs_isdir` follows it. -/
def opendirCopy (fn : CString) : DirResult :=
  match t.vfsOpen after workdir fn with
  | none => .lost
  | some none => .nullFile
  | some (some fl) => match t.vfsIsdir fl with
    | none => .lost
    | some false => .returned (-enotdir)
    | some true => t.opendirOpen after workdir openHandles fn

/-- `sys_opendir`, where a null pointer is `none`. Its test for a slash at the end looks
at the terminator, so the path is always copied, into a block that has room for the
path alone. -/
def sysOpendir : Option CString → Opendir
  | none => ⟨.returned (-einval), 0, []⟩
  | some fn =>
    if strcmp dot fn = 0 then ⟨.returned 0xFF, 0, []⟩
    else
      { result := t.opendirCopy after workdir openHandles fn.slashed
        size := fn.bytes.length + 1
        stored := List.range (fn.bytes.length + 1) ++ [fn.bytes.length, fn.bytes.length + 1] }

/-- `vfs_exist_in_dir`: its result and the copies made from address 0 on. -/
def vfsExistInDir (wd fn : CString) : Option (Nat × List FullRead.Copy) :=
  match existLoop t.table ((existName wd fn).bytes.length + 1) (existName wd fn) with
  | none => none
  | some none => some (0, [])
  | some (some i) => match t.entries[i]? with
    | none => none
    | some m => m.fs.exist after ((existName wd fn).rest (m.loc.bytes.length - 1))

end Hosts

end

end Levos
