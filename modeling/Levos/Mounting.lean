import Levos.Disk
import Levos.Errno
import Levos.Vfs

namespace Levos
open Library

/-- The fields of `struct device` the probes look at: a null `read` is `none`. -/
structure Device where
  address : Nat
  valid : Bool
  id : UInt32
  read : Option Disk

/-- `mount_info_t`, with the address of its device. -/
structure Mount where
  loc : CString
  dev : Nat
deriving DecidableEq

/-- The globals of the mount table. `mountPoints` are the words from the table on, a
null pointer being `none`, also behind its `MAX_MOUNTS` entries. `stored` is
history: the indices stored to. -/
@[ext]
structure MountPoints where
  mountPoints : Nat → Option Mount
  lastMountId : Nat
  procfsMounted : Bool
  stored : List Nat

/-- `vfs_init`, which leaves in the table what `malloc` left there. -/
def vfsInit (cells : Nat → Option Mount) : MountPoints :=
  { mountPoints := cells, lastMountId := 0, procfsMounted := false, stored := [] }

/-- The loop of `check_mount` from index `i` on; `none` is a null entry, which it
follows. -/
def checkLoop (cells : Nat → Option Mount) (loc : CString) : Nat → Nat → Option Bool
  | 0, _ => some false
  | left + 1, i => match cells i with
    | none => none
    | some m => if strcmp loc m.loc = 0 then some true else checkLoop cells loc left (i + 1)

/-- Whether `check_mount` finds a device. -/
def checkMount (s : MountPoints) (loc : CString) : Option Bool :=
  checkLoop s.mountPoints loc s.lastMountId 0

/-- The loop over the table that `list_mount`, `__find_mount`, `vfs_ls` and
`vfs_exist_in_dir` share: it ends at a null entry. -/
def scanLoop (cells : Nat → Option Mount) : Nat → Nat → List Mount
  | 0, _ => []
  | left + 1, i => match cells i with
    | none => []
    | some m => m :: scanLoop cells left (i + 1)

def MountPoints.seen (s : MountPoints) : List Mount := scanLoop s.mountPoints maxMounts 0

def procfsId : UInt32 := 0x1337

/-- `procfs_probe` of a device that is not null. -/
def procfsProbe (mounted : Bool) (dev : Device) : Int :=
  if dev.valid = false ∨ dev.id ≠ procfsId then -einval
  else if mounted then -ebusy
  else 0

/-- The result of `ext2_probe`; `none` is a division by zero. -/
def ext2ProbeResult (dev : Device) : Option Int := match dev.read with
  | none => some 1
  | some disk =>
    if ofBytes (((disk.read 2 2).drop 56).take 2) ≠ ext2Signature then some 1
    else (ext2Probe disk).map (fun _ => 0)

/-- `dummyfs_probe` returns before it does anything. -/
def dummyfsProbe (_ : Device) : Int := 1

/-- The insertion, of which `device_try_to_mount` has three copies. -/
def MountPoints.insert (s : MountPoints) (dev : Device) (loc : CString) : MountPoints :=
  { s with
    mountPoints := Function.update s.mountPoints s.lastMountId (some ⟨loc, dev.address⟩)
    lastMountId := s.lastMountId + 1
    stored := s.stored ++ [s.lastMountId] }

/-- `device_try_to_mount`; the `mount` calls of the three filesystems return 0. -/
def deviceTryToMount (s : MountPoints) (dev : Option Device) (loc : CString) :
    Option (Int × MountPoints) :=
  match dev with
  | none => some (-einval, s)
  | some dev => match checkMount s loc with
    | none => none
    | some true => some (-enodev, s)
    | some false =>
      if procfsProbe s.procfsMounted dev = 0 then
        some (0, { s.insert dev loc with procfsMounted := true })
      else match ext2ProbeResult dev with
        | none => none
        | some rc =>
          if rc = 0 then some (0, s.insert dev loc)
          else if dummyfsProbe dev = 0 then some (0, s.insert dev loc)
          else some (-enosys, s)

def MountPoints.step (s : MountPoints) (call : Option Device × CString) : Option MountPoints :=
  (deviceTryToMount s call.1 call.2).map Prod.snd

theorem scan_length (cells : Nat → Option Mount) (left i : Nat) :
    (scanLoop cells left i).length ≤ left := by
  induction left generalizing i with
  | zero => exact Nat.le_refl 0
  | succ left ih =>
    unfold scanLoop
    split
    · exact Nat.zero_le _
    · exact Nat.succ_le_succ (ih (i + 1))

def MountPoints.table (s : MountPoints) : MountTable :=
  ⟨s.seen.map Mount.loc, by rw [List.length_map]; exact scan_length _ _ _⟩

end Levos
