import Levos.Vfs

namespace Levos

inductive Listed
  | readDir (mount : Nat) (offset : Int)
  | line (text : Bytes)
deriving DecidableEq

def lsMounted (dir : CString) : List CString → Option (List Listed)
  | [] => some []
  | loc :: locs => match strBackspace loc slash with
    | none => none
    | some (mount, _) =>
      let p := loc.bytes.drop dir.bytes.length
      (lsMounted dir locs).map (fun out =>
        if strcmp mount dir = 0 ∧ p.length ≠ 0 ∧ p.length ≠ 1 then .line p :: out else out)

/-- The outer loop of `vfs_ls`. A host that is found does not end it. -/
def vfsLsLoop (mounts : MountTable) (dir : CString) : Nat → CString → Option (List Listed)
  | 0, _ => none
  | fuel + 1, orig =>
    let host := match findLoc mounts orig with
      | none => some []
      | some i => (lsMounted dir mounts.locs).map (.readDir i (orig.bytes.length - 1) :: ·)
    match host with
    | none => none
    | some out =>
      if strcmp orig rootPath = 0 then some out
      else match strBackspace orig slash with
        | none => none
        | some (orig', _) => (vfsLsLoop mounts dir fuel orig').map (out ++ ·)

/-- The path `vfs_exist_in_dir` puts together. Its test for a slash at the end looks at
the terminator, so one is always added. -/
def existName (wd fn : CString) : CString where
  bytes := wd.bytes ++ fn.bytes ++ [slash]
  terminated h := by
    rcases List.mem_append.mp h with h | h
    · rcases List.mem_append.mp h with h | h
      · exact wd.terminated h
      · exact fn.terminated h
    · exact absurd h (by decide)

def existLoop (mounts : MountTable) : Nat → CString → Option (Option Nat)
  | 0, _ => none
  | fuel + 1, o =>
    match mounts.locs.findIdx? (fun loc => strcmp o loc == 0) with
    | some i => some (some i)
    | none =>
      -- the search leaves the loop with no mount to ask
      if strcmp o rootPath = 0 then some none
      else match strBackspace o slash with
        | none => none
        | some (o', _) => existLoop mounts fuel o'

end Levos
