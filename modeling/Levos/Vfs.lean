import Levos.Ext2

namespace Levos

def maxMounts : Nat := 16

/-- The bytes of a C string in front of its terminator. -/
@[ext]
structure CString where
  bytes : Bytes
  terminated : (0 : UInt8) ∉ bytes
deriving DecidableEq

/-- The string a `0` stored behind its first `n` bytes leaves. -/
def CString.cut (str : CString) (n : Nat) : CString :=
  ⟨str.bytes.take n, fun h => str.terminated (List.mem_of_mem_take h)⟩

def rootPath : CString := ⟨[slash], by decide⟩

/-- The loop of `strcmp`: the difference at the first place where the strings
differ, or zero at a common terminator. -/
def strcmpLoop : Bytes → Bytes → Nat
  | [], [] => 0
  | a :: _, [] => a.toNat
  | [], b :: _ => 2 ^ 32 - b.toNat
  | a :: as, b :: bs =>
    if a = b then strcmpLoop as bs else (a.toNat + 2 ^ 32 - b.toNat) % 2 ^ 32

def strcmp (str1 str2 : CString) : Nat := strcmpLoop str1.bytes str2.bytes

/-- The loop of `str_backspace`: the last `c` in front of place `i`. -/
def backspaceLoop (str : Bytes) (c : UInt8) : Nat → Option Nat
  | 0 => none
  | i + 1 => if str[i]? = some c then some i else backspaceLoop str c i

/-- `str_backspace`: the string after it and the result. The last byte is never
looked at, and on the empty string the count wraps and the loop goes through
all of memory, which is `none`. -/
def strBackspace (str : CString) (c : UInt8) : Option (CString × Nat) :=
  if str.bytes = [] then none
  else match backspaceLoop str.bytes c (str.bytes.length - 1) with
    | none => some (str, 0)
    | some i => some (str.cut (i + 1), 1)

/-- The locations in `mount_points`, up to its first null entry. -/
structure MountTable where
  locs : List CString
  fits : locs.length ≤ maxMounts

def findLoc (mounts : MountTable) (orig : CString) : Option Nat :=
  mounts.locs.findIdx? (fun loc => strcmp loc orig == 0)

/-- The outer loop of `__find_mount`: the index returned and what is stored
through `adjust`, if anything is. Rounds that do not shorten `orig` repeat for
ever. -/
def findMountLoop (mounts : MountTable) : Nat → CString → Option (Nat × Option Int)
  | 0, _ => none
  | fuel + 1, orig =>
    match findLoc mounts orig with
    | some i => some (i, some (orig.bytes.length - 1))
    | none =>
      if strcmp orig rootPath = 0 then some (0, none)
      else match strBackspace orig slash with
        | none => none
        | some (orig', _) => findMountLoop mounts fuel orig'

/-- `__find_mount`. Its test of `orig[strlen(orig)]` looks at the terminator,
so the copy is searched as it is. -/
def findMount (mounts : MountTable) (filename : CString) : Option (Nat × Option Int) :=
  findMountLoop mounts (filename.bytes.length + 1) filename

end Levos
