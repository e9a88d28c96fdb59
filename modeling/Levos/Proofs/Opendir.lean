import Levos.Opening
import Levos.Proofs.Lookup
import Levos.Proofs.Paths

namespace Levos.Proofs.Opendir
open Levos Levos.Library Lookup Mounts Paths

variable {t : Hosts} {after : Bytes} {workdir : Option Opened} {openHandles : Nat}
  {path rest : CString} {m : Mounted}

theorem resolve_entry (h : t.resolve path = some (i, m, rest)) : t.entries[i]? = some m := by
  unfold Hosts.resolve at h
  split at h
  · cases h
  · split at h
    · cases h
    · rename_i hm
      split at h
      · cases h
      · cases h
        exact hm

/-- The path handed to a mount is `/` only if the whole path is its location, or is `/`
itself and nothing is mounted there. -/
theorem resolve_root (h : t.resolve path = some (i, m, rootPath)) (hne : path.bytes ≠ []) :
    m.loc = path ∨ (i = 0 ∧ path = rootPath ∧ rootPath ∉ t.table.locs) := by
  have hentry := resolve_entry h
  unfold Hosts.resolve at h
  split at h
  · cases h
  · rename_i j adjust hfind
    split at h
    · cases h
    · rename_i n hn
      split at h
      · cases h
      · simp only [Option.some.injEq, Prod.mk.injEq] at h
        obtain ⟨rfl, rfl, hrest⟩ := h
        have hbytes := congrArg CString.bytes hrest
        rcases find_mount_cases hfind with ⟨orig, hstage, hloc, rfl⟩ | ⟨hi, rfl, hroot⟩
        · left
          have hloc' : n.loc = orig := by
            simpa [Hosts.table, hentry] using hloc
          have hpos := List.length_pos_of_ne_nil (hstage.nonempty hne)
          have hlen := congrArg List.length hbytes
          simp only [CString.rest, Option.getD_some, List.length_drop, rootPath,
            List.length_singleton] at hlen
          have hle := hstage.start.length_le
          rw [hloc']
          exact CString.ext (hstage.start.eq_of_length (by omega))
        · exact .inr ⟨hi, CString.ext (by simpa [CString.rest] using hbytes), hroot⟩

/-- An absolute path is not the one that stands for the working directory. -/
theorem absolute_ne_dot_slash (h : Absolute path) : ¬ strcmp dotSlash path = 0 := by
  intro hz
  rw [← strcmp_eq_zero.mp hz] at h
  simp [Absolute, dotSlash, slash] at h

/-- A file that `vfs_open` returns was found on the mount of its path. -/
theorem open_found (h : t.vfsOpen after workdir path = some (some fl)) (hne : path ≠ dotSlash) :
    ∃ m rest inode, t.resolve path = some (fl.mountid, m, rest) ∧
      m.fs.findinode after rest = some (0, inode) ∧ fl.file = ⟨rest.bytes, inode, 0, 0⟩ := by
  unfold Hosts.vfsOpen at h
  rw [if_neg (fun hz => hne (strcmp_eq_zero.mp hz).symm)] at h
  split at h
  · cases h
  · rename_i i m rest hr
    simp only [Option.map_eq_some_iff] at h
    obtain ⟨⟨rc, inode⟩, hfind, hfile⟩ := h
    simp only [ne_eq, ite_not, Option.ite_none_right_eq_some, Option.some.injEq] at hfile
    obtain ⟨rfl, rfl⟩ := hfile
    exact ⟨m, rest, inode, hr, hfind, rfl⟩

/-- Only the root of procfs is ever taken for a directory. -/
theorem isdir_root (hf : m.fs.findinode after rest = some (0, inode))
    (hd : m.fs.isdir ⟨rest.bytes, inode, 0, 0⟩ = true) : m.fs = .procfs ∧ rest = rootPath := by
  obtain ⟨loc, fs⟩ := m
  cases fs with
  | ext2 v => cases hd
  | procfs =>
    refine ⟨rfl, ?_⟩
    simp only [FileSystem.isdir, procfsIsdir, beq_iff_eq] at hd
    subst hd
    simp only [FileSystem.findinode, procfsFindinode, Option.some.injEq] at hf
    split_ifs at hf with hdev hroot
    · cases hf
    · exact strcmp_eq_zero.mp hroot
    · cases hf

/-- What stands behind a handle. -/
theorem opendir_handle (h : t.opendirCopy after workdir openHandles path = .returned rc)
    (hrc : 0 ≤ rc) (hne : path ≠ dotSlash) :
    rc = openHandles + 3 ∧ openHandles < maxFilehandles ∧
      ∃ i m, t.resolve path = some (i, m, rootPath) ∧ m.fs = .procfs := by
  unfold Hosts.opendirCopy at h
  split at h
  · cases h
  · cases h
  · rename_i fl hopen
    obtain ⟨m, rest, inode, hres, hfind, hfile⟩ := open_found hopen hne
    have hisdir : t.vfsIsdir fl = some (m.fs.isdir fl.file) := by
      rw [Hosts.vfsIsdir, resolve_entry hres, Option.map_some]
    split at h
    · cases h
    · cases h
      exact absurd hrc (by decide)
    · rename_i hd
      rw [hisdir, Option.some.injEq, hfile] at hd
      obtain ⟨hproc, rfl⟩ := isdir_root hfind hd
      simp only [Hosts.opendirOpen, hopen] at h
      split at h
      · cases h
        exact absurd hrc (by decide)
      · rename_i hroom
        cases h
        exact ⟨rfl, Nat.lt_of_not_le hroom, _, m, hres, hproc⟩

/-- The end of the call is `sys_open`, by the process that makes it. -/
theorem opendir_open_eq {k : Kernel} {p : Process} (hp : k.getProcess = some (h, p))
    (ho : t.vfsOpen after workdir path = some fl) (address : Opened → Nat) :
    ∃ k' rc, k.sysOpen Kernel.oRdonly (fl.map address) = some (k', rc) ∧
      t.opendirOpen after workdir p.openHandles path = .returned rc := by
  simp only [Kernel.sysOpen, hp, Hosts.opendirOpen, ho, ne_eq, not_true_eq_false, ↓reduceIte]
  split
  · exact ⟨k, -9, rfl, rfl⟩
  · cases fl with
    | none => exact ⟨k, -7, rfl, rfl⟩
    | some fl => exact ⟨_, _, rfl, rfl⟩

/-- A table with one ext2 volume at `/`. -/
def rootOnly (v : Volume) : Hosts where
  entries := [⟨rootPath, .ext2 v⟩]
  fits := by simp [maxMounts]
  once i j m n hi hj hm _ := by
    match i, hi with
    | 0, hi =>
      cases hi
      cases hm
    | _ + 1, hi => cases hi

/-- With one volume mounted, an absolute path is opened as on the volume alone. -/
theorem open_root_only (v : Volume) (habs : Absolute path) :
    ((rootOnly v).vfsOpen after workdir path).map (Option.map Opened.file) =
      vfsOpen v after path.bytes := by
  have hproper : Proper (rootOnly v).table := ⟨by simp [Hosts.table, rootOnly],
    by simp [Hosts.table, rootOnly, rootPath], by simp [Hosts.table, rootOnly]⟩
  obtain ⟨i, loc, hfind, hloc, -⟩ := find_mount_loop hproper (.refl (absolute_iff.mp habs)) _
    (Nat.lt_succ_self _)
  obtain ⟨rfl, rfl⟩ : i = 0 ∧ rootPath = loc := by
    cases i with
    | zero =>
      cases hloc
      exact ⟨rfl, rfl⟩
    | succ i => cases hloc
  have hres : (rootOnly v).resolve path = some (0, ⟨rootPath, .ext2 v⟩, path) := by
    have hmount : findMount (rootOnly v).table path = some (0, some 0) := hfind
    simp only [Hosts.resolve, hmount]
    rfl
  simp only [Hosts.vfsOpen, if_neg (absolute_ne_dot_slash habs), hres, FileSystem.findinode,
    vfsOpen]
  cases ext2FindFileInode v after path.bytes with
  | none => rfl
  | some r =>
    obtain ⟨n, j⟩ := r
    by_cases hn : n = 0 <;> simp [hn]

/-- What a call owes its caller, whatever it is that `names` takes for directories: a
handle for each of them and for nothing else, the same with and without a slash at the
end, and a proper refusal otherwise. -/
structure Right (names : CString → Prop) (call : CString → Opendir) (path : CString) : Prop where
  handle : names path ↔ ∃ h, 0 ≤ h ∧ (call path).result = .returned h
  same : (call path).result = (call path.slashed).result
  refused : ¬ names path → (∃ e, e < 0 ∧ (call path).result = .returned e) ∧
    ∀ i ∈ (call path).stored, i < (call path).size

def slashes : CString := rootPath.slashed

/-- The empty path, with nothing mounted at `/` and procfs in the first place, at `//`. -/
structure Stray (t : Hosts) (path : CString) : Prop where
  empty : path = emptyPath
  unrooted : rootPath ∉ t.table.locs
  first : t.entries[0]? = some ⟨slashes, .procfs⟩

theorem slashed_ne_nil (path : CString) : path.slashed.bytes ≠ [] := by
  simp [CString.slashed, CString.append, rootPath]

theorem slashed_inj {a b : CString} (h : a.slashed = b.slashed) : a = b :=
  CString.ext (List.append_cancel_right (congrArg CString.bytes h))

theorem slashed_empty : emptyPath.slashed = rootPath := rfl

theorem dot_slashed : dot.slashed = dotSlash := rfl

theorem slashed_ne (h : path ≠ dot) : path.slashed ≠ dotSlash :=
  fun he => h (slashed_inj (he.trans dot_slashed.symm))

theorem slashed_ne_dot (path : CString) : path.slashed ≠ dot := by
  intro he
  have hlast := congrArg (fun s => s.bytes.getLast?) he
  simp [CString.slashed, CString.append, rootPath, dot, slash] at hlast

theorem opendir_copied (h : path ≠ dot) :
    t.sysOpendir after workdir openHandles (some path) =
      { result := t.opendirCopy after workdir openHandles path.slashed
        size := path.bytes.length + 1
        stored := List.range (path.bytes.length + 1) ++
          [path.bytes.length, path.bytes.length + 1] } :=
  if_neg (fun hz => h (strcmp_eq_zero.mp hz).symm)

/-- No handle is the one that stands for the working directory. -/
theorem opendir_copy_ne (path : CString) (hne : path ≠ dotSlash) :
    t.opendirCopy after workdir openHandles path ≠ .returned 0xFF := by
  intro h
  obtain ⟨hrc, hroom, -⟩ := opendir_handle h (by decide) hne
  simp only [maxFilehandles] at hroom
  omega

/-- A handle for a path with and one without a slash at the end come from one procfs,
and that has one location. -/
theorem handles_stray (h : t.opendirCopy after workdir openHandles path.slashed = .returned rc)
    (h' : t.opendirCopy after workdir openHandles path.slashed.slashed = .returned rc)
    (hrc : 0 ≤ rc) (hne : path ≠ dot) : Stray t path ∧ openHandles < maxFilehandles := by
  obtain ⟨-, hroom, i, m, hres, hproc⟩ := opendir_handle h hrc (slashed_ne hne)
  obtain ⟨-, -, j, n, hres', hproc'⟩ := opendir_handle h' hrc
    (slashed_ne (slashed_ne_dot path))
  have hm := resolve_entry hres
  have hn := resolve_entry hres'
  cases t.once i j m n hm hn hproc hproc'
  cases hm.symm.trans hn
  have hlong : path.slashed.slashed ≠ rootPath := by
    intro he
    exact slashed_ne_nil path (congrArg CString.bytes (slashed_inj (he.trans slashed_empty.symm)))
  rcases resolve_root hres' (slashed_ne_nil _) with hloc' | ⟨-, hroot, -⟩
  · rcases resolve_root hres (slashed_ne_nil _) with hloc | ⟨rfl, hroot, hfree⟩
    · have hsame := congrArg (fun s => s.bytes.length) (hloc.symm.trans hloc')
      simp [CString.slashed, CString.append, rootPath] at hsame
    · refine ⟨⟨slashed_inj (hroot.trans slashed_empty.symm), hfree, ?_⟩, hroom⟩
      obtain ⟨loc, fs⟩ := m
      rw [hm, ← show loc = slashes from hloc'.trans (congrArg CString.slashed hroot)]
      exact congrArg (fun fs => some (Mounted.mk loc fs)) hproc
  · exact absurd hroot hlong

theorem opendir_procfs (h : t.resolve path = some (i, m, rootPath)) (hproc : m.fs = .procfs)
    (hroom : openHandles < maxFilehandles) (hne : path ≠ dotSlash) :
    t.opendirCopy after workdir openHandles path = .returned (openHandles + 3) := by
  have hopen : t.vfsOpen after workdir path = some (some ⟨i, ⟨rootPath.bytes, 99, 0, 0⟩⟩) := by
    rw [Hosts.vfsOpen, if_neg (fun hz => hne (strcmp_eq_zero.mp hz).symm), h]
    simp only [hproc]
    rfl
  have hdir : t.vfsIsdir ⟨i, ⟨rootPath.bytes, 99, 0, 0⟩⟩ = some true := by
    rw [Hosts.vfsIsdir, resolve_entry h, Option.map_some, hproc]
    rfl
  simp only [Hosts.opendirCopy, hopen, hdir, Hosts.opendirOpen, if_neg (Nat.not_le.mpr hroom)]

theorem Stray.resolves (h : Stray t path) :
    t.resolve rootPath = some (0, ⟨slashes, .procfs⟩, rootPath) ∧
      t.resolve slashes = some (0, ⟨slashes, .procfs⟩, rootPath) := by
  have hnone : findLoc t.table rootPath = none := by
    cases hl : findLoc t.table rootPath with
    | none => rfl
    | some i => exact absurd (List.mem_of_getElem? (find_loc_some hl)) h.unrooted
  have hfirst : findLoc t.table slashes = some 0 := by
    obtain ⟨rest, hrest⟩ : ∃ rest, t.entries = ⟨slashes, .procfs⟩ :: rest := by
      cases he : t.entries with
      | nil =>
        have hentry := h.first
        rw [he] at hentry
        cases hentry
      | cons e rest =>
        have hentry := h.first
        rw [he] at hentry
        cases hentry
        exact ⟨rest, rfl⟩
    have hself : strcmp slashes slashes = 0 := strcmp_eq_zero.mpr rfl
    simp [findLoc, Hosts.table, hrest, List.findIdx?_cons, hself]
  constructor
  · have hfind : findMount t.table rootPath = some (0, none) := by
      simp only [findMount, findMountLoop, hnone, strcmp_eq_zero, ↓reduceIte]
    simp only [Hosts.resolve, hfind, h.first]
    rfl
  · have hfind : findMount t.table slashes = some (0, some 1) := by
      simp only [findMount, findMountLoop, hfirst]
      rfl
    simp only [Hosts.resolve, hfind, h.first]
    rfl

/-- `sys_opendir` does right by a path for no table with a mount at `/`, whatever is
taken for a directory: only by the empty path on a stray procfs. -/
theorem opendir_right_iff (t : Hosts) (after : Bytes) (workdir : Option Opened) (openHandles : Nat)
    (names : CString → Prop) (path : CString) :
    Right names (fun p => t.sysOpendir after workdir openHandles (some p)) path ↔
      Stray t path ∧ names path ∧ openHandles < maxFilehandles := by
  constructor
  · intro h
    have hsame := h.same
    simp only [opendir_copied (slashed_ne_dot path)] at hsame
    by_cases hpath : path = dot
    · subst hpath
      exact absurd hsame.symm (opendir_copy_ne _ (slashed_ne (slashed_ne_dot dot)))
    · rw [opendir_copied hpath] at hsame
      by_cases hn : names path
      · obtain ⟨rc, hrc, hhandle⟩ := h.handle.mp hn
        rw [opendir_copied hpath] at hhandle
        obtain ⟨hstray, hroom⟩ := handles_stray hhandle (hsame.symm.trans hhandle) hrc hpath
        exact ⟨hstray, hn, hroom⟩
      · -- the last store is the terminator, one behind the end of the copy
        have hstores := (h.refused hn).2
        rw [opendir_copied hpath] at hstores
        exact absurd (hstores (path.bytes.length + 1) (by simp)) (Nat.lt_irrefl _)
  · rintro ⟨hstray, hn, hroom⟩
    obtain ⟨hroot, hslashes⟩ := hstray.resolves
    have hempty := hstray.empty
    subst hempty
    have hcall : (t.sysOpendir after workdir openHandles (some emptyPath)).result =
        .returned (openHandles + 3) := by
      rw [opendir_copied (by decide), slashed_empty]
      exact opendir_procfs hroot rfl hroom (by decide)
    have hslashed : (t.sysOpendir after workdir openHandles (some emptyPath.slashed)).result =
        .returned (openHandles + 3) := by
      rw [opendir_copied (slashed_ne_dot emptyPath), slashed_empty]
      exact opendir_procfs hslashes rfl hroom (by decide)
    refine ⟨⟨fun _ => ⟨openHandles + 3, by omega, hcall⟩, fun _ => hn⟩, hcall.trans hslashed.symm,
      fun hno => absurd hn hno⟩

/-- The mounts `main` makes, with a root volume. -/
def kernelHosts (v : Volume) : Hosts where
  entries := [⟨rootPath, .ext2 v⟩, ⟨procPath, .procfs⟩]
  fits := by simp [maxMounts]
  once i j m n hi hj hm hn := by
    have hproc : ∀ (i : Nat) (m : Mounted),
        [Mounted.mk rootPath (.ext2 v), ⟨procPath, .procfs⟩][i]? = some m → m.fs = .procfs →
          i = 1 := by
      intro i m hi hm
      match i, hi with
      | 0, hi =>
        cases hi
        cases hm
      | 1, _ => rfl
      | _ + 2, hi => cases hi
    rw [hproc i m hi hm, hproc j n hj hn]

/-- The path `/proc`. -/
def procName : CString := ⟨[47, 112, 114, 111, 99], by decide⟩

/-- `/proc` is opened as a directory, and for `/proc/` a null pointer is followed. -/
theorem proc_slash_null :
    ¬ ∀ (t : Hosts) (after : Bytes) (workdir : Option Opened) (openHandles : Nat)
      (names : CString → Prop) (path : CString),
      Right names (fun p => t.sysOpendir after workdir openHandles (some p)) path := by
  intro h
  have hsame := (h (kernelHosts (volumeOf [] [])) [] none 0 (fun _ => True) procName).same
  have hplain : ((kernelHosts (volumeOf [] [])).sysOpendir [] none 0 (some procName)).result =
      .returned 3 := rfl
  have hslash : ((kernelHosts (volumeOf [] [])).sysOpendir [] none 0
      (some procName.slashed)).result = .nullFile := rfl
  rw [hplain, hslash] at hsame
  cases hsame

end Levos.Proofs.Opendir
