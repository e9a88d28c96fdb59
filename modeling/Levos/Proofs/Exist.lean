import Levos.Proofs.Opendir

namespace Levos.Proofs.Exist
open Levos Lookup Mounts Paths Opendir

section

variable (t : Hosts) (after : Bytes) (workdir : Option Opened)

/-- `vfs_open` returns a file. -/
def Opens (path : CString) : Prop := ∃ fl, t.vfsOpen after workdir path = some (some fl)

/-- `vfs_exist_in_dir` returns, says whether the path can be opened, and has stored
nothing. -/
def Agrees (wd fn : CString) : Prop :=
  ∃ rc, t.vfsExistInDir after wd fn = some (rc, []) ∧
    (rc ≠ 0 ↔ Opens t after workdir (wd.append fn))

/-- The mount that is asked about a path, with what it is asked; `some none` if the
search meets no location. -/
def asked (q : CString) : Option (Option (Mounted × CString)) :=
  (existLoop t.table (q.bytes.length + 1) q).map (fun found =>
    found.bind (fun i => (t.entries[i]?).map (fun m => (m, q.rest (m.loc.bytes.length - 1)))))

/-- The path with a slash behind it belongs to an ext2 volume and leads to nothing there,
like the path itself, or to an inode without a first block while the path leads to
something. Where no location is met, the path leads to nothing. -/
def Spared (wd fn : CString) : Prop :=
  (asked t (existName wd fn) = some none ∧ ¬ Opens t after workdir (wd.append fn)) ∨
  ∃ loc v rest, asked t (existName wd fn) = some (some (⟨loc, .ext2 v⟩, rest)) ∧
    ∃ n j, ext2FindFileInode v after rest.bytes = some (n, j) ∧
      (n = 0 ∧ ¬ Opens t after workdir (wd.append fn) ∨
        n ≠ 0 ∧ (v.inode n).firstBlock = 0 ∧ Opens t after workdir (wd.append fn))

end

variable {t : Hosts} {after : Bytes} {workdir : Option Opened} {v : Volume} {wd fn : CString}

/-- `ext2_read_file_full` copies nothing only from an inode without a first block. -/
theorem read_inode_nothing (v : Volume) (i : Inode) :
    FullRead.readInode v i = ([], true) ↔ i.firstBlock = 0 := by
  obtain ⟨bs, hbs⟩ := dbp_cons i
  rw [FullRead.readInode, hbs, FullRead.readFullLoop]
  split_ifs with hzero hrange <;> simp [hzero]

theorem ext2_exist_nothing (file : CString) :
    ext2Exist after v file = some (rc, []) ↔
      ∃ n j, ext2FindFileInode v after file.bytes = some (n, j) ∧
        (n = 0 ∧ rc = 0 ∨ n ≠ 0 ∧ (v.inode n).firstBlock = 0 ∧ rc = 1) := by
  unfold ext2Exist FullRead.ext2ReadFileFull
  cases hfind : ext2FindFileInode v after file.bytes with
  | none => simp
  | some r =>
    obtain ⟨n, j⟩ := r
    by_cases hn : n = 0
    · simp [hn, eq_comm]
    · have hnothing := read_inode_nothing v (v.inode n)
      cases hread : FullRead.readInode v (v.inode n) with
      | mk copies returns =>
        rw [hread, Prod.mk.injEq] at hnothing
        simp only [Option.map_some, if_neg hn, hread]
        constructor
        · intro h
          cases returns with
          | false => cases h
          | true =>
            cases h
            exact ⟨n, j, rfl, .inr ⟨hn, hnothing.mp ⟨rfl, rfl⟩, rfl⟩⟩
        · rintro ⟨n', j', he, hcase⟩
          cases he
          rcases hcase with ⟨hz, -⟩ | ⟨-, hblock, rfl⟩
          · exact absurd hz hn
          · obtain ⟨rfl, rfl⟩ := hnothing.mpr hblock
            rfl

/-- The call in terms of the mount it asks. -/
theorem exist_asked (wd fn : CString) :
    t.vfsExistInDir after wd fn = match asked t (existName wd fn) with
      | none => none
      | some none => some (0, [])
      | some (some (m, rest)) => m.fs.exist after rest := by
  unfold Hosts.vfsExistInDir asked
  cases hloop : existLoop t.table ((existName wd fn).bytes.length + 1) (existName wd fn) with
  | none => rfl
  | some found =>
    cases found with
    | none => rfl
    | some i =>
      simp only [Option.map_some, Option.bind_some]
      cases hentry : t.entries[i]? with
      | some m => rfl
      | none =>
        -- the index was found in the table
        rw [exist_loop_eq, Option.map_eq_some_iff] at hloop
        obtain ⟨⟨k, adjust⟩, hfind, hi⟩ := hloop
        rcases find_mount_cases hfind with ⟨orig, -, hloc, rfl⟩ | ⟨-, rfl, -⟩
        · cases hi
          simp [Hosts.table, hentry] at hloc
        · cases hi

/-- The exact condition, for any table. -/
theorem agrees_iff_spared (t : Hosts) (after : Bytes) (workdir : Option Opened) (wd fn : CString) :
    Agrees t after workdir wd fn ↔ Spared t after workdir wd fn := by
  unfold Agrees Spared
  rw [exist_asked]
  cases hasked : asked t (existName wd fn) with
  | none => simp
  | some found =>
    cases found with
    | none => simp
    | some r =>
      obtain ⟨⟨loc, fs⟩, rest⟩ := r
      cases fs with
      | procfs => simp [FileSystem.exist]
      | ext2 v =>
        simp only [FileSystem.exist, ext2_exist_nothing]
        constructor
        · rintro ⟨rc, ⟨n, j, hfind, hcase⟩, hopen⟩
          refine .inr ⟨loc, v, rest, rfl, n, j, hfind, ?_⟩
          rcases hcase with ⟨hn, rfl⟩ | ⟨hn, hblock, rfl⟩
          · exact .inl ⟨hn, fun ho => hopen.mpr ho rfl⟩
          · exact .inr ⟨hn, hblock, hopen.mp (by decide)⟩
        · rintro (⟨hnone, -⟩ | ⟨loc', v', rest', he, n, j, hfind, hcase⟩)
          · cases hnone
          · cases he
            rcases hcase with ⟨hn, hclosed⟩ | ⟨hn, hblock, hopen⟩
            · exact ⟨0, ⟨n, j, hfind, .inl ⟨hn, rfl⟩⟩, by simpa using hclosed⟩
            · exact ⟨1, ⟨n, j, hfind, .inr ⟨hn, hblock, rfl⟩⟩, by simpa using hopen⟩

/-! What a slash behind a path does to a lookup on ext2. -/

theorem strsplit_snoc (x : Bytes) :
    strsplit (x ++ [slash]) slash = strsplit x slash ++ [[]] := by
  induction x with
  | nil => rfl
  | cons c x ih =>
    rw [List.cons_append]
    by_cases hc : c = slash
    · subst hc
      rw [strsplit_slash, strsplit_slash, ih, List.cons_append]
    · rw [strsplit_other _ hc, strsplit_other _ hc, ih]
      obtain ⟨name, rest, hsplit⟩ := List.exists_cons_of_ne_nil (strsplit_ne_nil x)
      rw [hsplit]
      rfl

/-- One more component without a name, looked up in inode `n`. -/
def slashLook (v : Volume) (after : Bytes) (n : Nat) : Option (Nat × Inode) :=
  (searchBlocks v after [] (v.inode n).dbp.toList).map (fun
    | .found e => (e, v.inode e)
    | _ => (n, v.inode n))

theorem search_found (h : searchBlocks v after name bs = some (.found e)) : e ≠ 0 := by
  cases bs with
  | nil => cases h
  | cons b bs =>
    simp only [searchBlocks] at h
    split at h
    · cases h
    · split at h <;> cases h
      simp_all

/-- From an inode on, the walk with a slash behind the path ends as the one without,
or goes on from where that ended. -/
theorem find_loop_slash (hff : ff ≠ [slash]) (hff' : ff' ≠ [slash]) (hr : r ≠ 0)
    (h : findLoop v after ff names r (v.inode r) = some (n, j)) :
    (n = 0 ∧ ∃ j', findLoop v after ff' (names ++ [[]]) r (v.inode r) = some (0, j')) ∨
    (n ≠ 0 ∧ findLoop v after ff' (names ++ [[]]) r (v.inode r) = slashLook v after n) := by
  induction names generalizing r with
  | nil =>
    cases h
    refine .inr ⟨hr, ?_⟩
    simp only [List.nil_append, findLoop, slashLook]
    cases searchBlocks v after [] (v.inode n).dbp.toList with
    | none => rfl
    | some found => cases found <;> simp [hff']
  | cons name names ih =>
    simp only [List.cons_append, findLoop] at h ⊢
    cases hsearch : searchBlocks v after name (v.inode r).dbp.toList with
    | none =>
      rw [hsearch] at h
      cases h
    | some found =>
      cases found with
      | skipped =>
        rw [hsearch] at h
        exact ih hr h
      | found e =>
        rw [hsearch] at h
        exact ih (search_found hsearch) h
      | missing =>
        simp only [hsearch] at h ⊢
        by_cases hname : name = []
        · subst hname
          simp only [↓reduceIte, if_neg hff, Option.some.injEq, Prod.mk.injEq] at h
          obtain ⟨rfl, -⟩ := h
          refine .inr ⟨hr, ?_⟩
          simp [slashLook, hsearch, hff']
        · rw [if_neg hname] at h ⊢
          cases h
          exact .inl ⟨rfl, _, rfl⟩

/-- The same from the root of a volume whose root directory has a block. -/
theorem find_slash (hroot : (v.inode 2).firstBlock ≠ 0) (hx : x ≠ [])
    (h : ext2FindFileInode v after (slash :: x) = some (n, j)) :
    (n = 0 ∧ ∃ j', ext2FindFileInode v after (slash :: x ++ [slash]) = some (0, j')) ∨
    (n ≠ 0 ∧ ext2FindFileInode v after (slash :: x ++ [slash]) = slashLook v after n) := by
  have hff : slash :: x ≠ [slash] := by simpa using hx
  have hff' : slash :: (x ++ [slash]) ≠ [slash] := by simp
  rw [find_absolute] at h
  rw [List.cons_append, find_absolute, strsplit_snoc]
  obtain ⟨name, names, hsplit⟩ := List.exists_cons_of_ne_nil (strsplit_ne_nil x)
  rw [hsplit] at h ⊢
  simp only [List.cons_append, findLoop] at h ⊢
  rw [search_first after name hroot] at h ⊢
  cases hdir : ext2ReadDirectory name (v.block (v.inode 2).firstBlock ++ after) with
  | none =>
    rw [hdir] at h
    cases h
  | some e =>
    by_cases he : e = 0
    · simp only [hdir, Option.map_some, if_pos he, if_neg hff, if_neg hff', ite_self] at h ⊢
      cases h
      exact .inl ⟨rfl, _, rfl⟩
    · simp only [hdir, Option.map_some, if_neg he] at h ⊢
      exact find_loop_slash hff hff' he h

/-- An absolute path in a table like the kernel's own, where the path with a slash
behind it is not a location. -/
structure Ordinary (t : Hosts) (path : CString) : Prop where
  proper : Proper t.table
  absolute : Absolute path
  apart : path.slashed ∉ t.table.locs

/-- The first block of inode `n`, read as a directory, has an entry without a name for
inode `e`. -/
def Nameless (v : Volume) (after : Bytes) (n e : Nat) : Prop :=
  e ≠ 0 ∧ ext2ReadDirectory [] (v.block (v.inode n).firstBlock ++ after) = some e

/-- Nothing is there, or what is there has no first block, or it has an entry without a
name for an inode that has none. -/
def Bare (v : Volume) (after : Bytes) (n : Nat) : Prop :=
  n = 0 ∨ (v.inode n).firstBlock = 0 ∨
    ∃ e, Nameless v after n e ∧ (v.inode e).firstBlock = 0

variable {path rest : CString} {m : Mounted}

theorem Ordinary.slashed_absolute (ho : Ordinary t path) : Absolute path.slashed := by
  have hhead := ho.absolute
  simp only [Absolute, CString.slashed, CString.append] at hhead ⊢
  rw [List.head?_append, hhead, Option.some_or]

/-- The longest location a path starts with is also the longest one with a slash behind
the path. -/
theorem Ordinary.same_location (ho : Ordinary t path) (hmem : loc ∈ t.table.locs)
    (hmem' : loc' ∈ t.table.locs) (hc : Candidate t.table path loc)
    (hc' : Candidate t.table path.slashed loc') : loc' = loc := by
  have hpre : loc.bytes <+: path.slashed.bytes := hc.start.trans (List.prefix_append _ _)
  have hpre' : loc'.bytes <+: path.bytes := by
    rcases List.prefix_concat_iff.mp hc'.start with heq | hlt
    · have hself : loc' = path.slashed := CString.ext heq
      exact absurd (hself ▸ hmem') ho.apart
    · exact hlt
  have hlen : loc'.bytes.length = loc.bytes.length :=
    Nat.le_antisymm (hc.longest loc' hmem' hpre') (hc'.longest loc hmem hpre)
  exact CString.ext ((List.prefix_of_prefix_length_le hpre' hc.start hlen.le).eq_of_length hlen)

/-- With and without a slash behind it the path belongs to one mount. -/
theorem Ordinary.same_mount (ho : Ordinary t path) :
    ∃ i loc, findMountLoop t.table (path.bytes.length + 1) path =
        some (i, some ((loc.bytes.length : Int) - 1)) ∧
      findMountLoop t.table (path.slashed.bytes.length + 1) path.slashed =
        some (i, some ((loc.bytes.length : Int) - 1)) ∧
      t.table.locs[i]? = some loc ∧ Candidate t.table path loc := by
  obtain ⟨i, loc, hfind, hloc, hc⟩ := find_mount_loop ho.proper
    (.refl (absolute_iff.mp ho.absolute)) _ (Nat.lt_succ_self _)
  obtain ⟨j, loc', hfind', hloc', hc'⟩ := find_mount_loop ho.proper
    (.refl (absolute_iff.mp ho.slashed_absolute)) _ (Nat.lt_succ_self _)
  cases ho.same_location (List.mem_of_getElem? hloc) (List.mem_of_getElem? hloc') hc hc'
  obtain ⟨hlt, hget⟩ := List.getElem?_eq_some_iff.mp hloc
  obtain ⟨hlt', hget'⟩ := List.getElem?_eq_some_iff.mp hloc'
  have hij : j = i := ho.proper.distinct.getElem_inj_iff.mp (hget'.trans hget.symm)
  subst hij
  exact ⟨j, _, hfind, hfind', hloc, hc⟩

theorem asked_ordinary (ho : Ordinary t path) (hres : t.resolve path = some (i, m, rest)) :
    asked t path.slashed = some (some (m, rest.slashed)) ∧ rest.bytes.head? = some slash := by
  obtain ⟨l, loc, hfind, hfind', hloc, hc⟩ := ho.same_mount
  have hpos := (List.getElem?_eq_some_iff.mp hc.absolute).1
  obtain ⟨front, hfront⟩ := List.getLast?_eq_some_iff.mp
    (ho.proper.slashed loc (List.mem_of_getElem? hloc))
  cases hentry : t.entries[l]? with
  | none => simp [Hosts.table, hentry] at hloc
  | some n =>
    have hn : n.loc = loc := by simpa [Hosts.table, hentry] using hloc
    have hadjust : ¬ ((loc.bytes.length : Int) - 1 < 0) := by omega
    have htoNat : ((loc.bytes.length : Int) - 1).toNat = loc.bytes.length - 1 := by omega
    simp only [Hosts.resolve, findMount, hfind, hentry, Option.getD_some, if_neg hadjust, htoNat,
      Option.some.injEq, Prod.mk.injEq] at hres
    obtain ⟨-, rfl, rfl⟩ := hres
    constructor
    · simp only [asked, exist_loop_eq, hfind', Option.map_some, Option.bind_some, hentry, hn]
      congr 3
      refine CString.ext (List.drop_append_of_le_length ?_)
      have hle := hc.start.length_le
      omega
    · obtain ⟨rest, hrest⟩ := hc.start
      simp [CString.rest, ← hrest, hfront]

/-- A path on an ext2 volume can be opened if the lookup finds something. -/
theorem opens_iff (workdir : Option Opened) (habs : Absolute path)
    (hres : t.resolve path = some (i, ⟨loc, .ext2 v⟩, rest))
    (hfind : ext2FindFileInode v after rest.bytes = some (n, j)) :
    Opens t after workdir path ↔ n ≠ 0 := by
  simp only [Opens, Hosts.vfsOpen, if_neg (absolute_ne_dot_slash habs), hres,
    FileSystem.findinode, hfind, Option.map_some]
  by_cases hn : n = 0 <;> simp [hn]

/-- What a slash behind the path leads to, where the path leads to inode `n`. -/
theorem slash_look_bare (hn : n ≠ 0) :
    (∃ n' j, slashLook v after n = some (n', j) ∧ n' ≠ 0 ∧ (v.inode n').firstBlock = 0) ↔
      Bare v after n := by
  by_cases hblock : (v.inode n).firstBlock = 0
  · refine iff_of_true ⟨n, v.inode n, ?_, hn, hblock⟩ (.inr (.inl hblock))
    rw [slashLook, search_empty after [] hblock]
    rfl
  · rw [slashLook, search_first after [] hblock, Bare]
    unfold Nameless
    cases hdir : ext2ReadDirectory [] (v.block (v.inode n).firstBlock ++ after) with
    | none => simp [hn, hblock]
    | some e =>
      by_cases he : e = 0
      · simp [hn, hblock, he]
      · simp only [Option.map_some, if_neg he, hn, hblock, false_or]
        constructor
        · rintro ⟨n', j, hlook, -, hfirst⟩
          cases hlook
          exact ⟨e, ⟨he, rfl⟩, hfirst⟩
        · rintro ⟨e', ⟨-, hsame⟩, hfirst⟩
          cases hsame
          exact ⟨e, _, rfl, he, hfirst⟩

/-- Where an ext2 volume is asked, its answer decides. -/
theorem agrees_asked (hasked : asked t (existName wd fn) = some (some (⟨loc, .ext2 v⟩, rest))) :
    Agrees t after workdir wd fn ↔
      ∃ n j, ext2FindFileInode v after rest.bytes = some (n, j) ∧
        (n = 0 ∧ ¬ Opens t after workdir (wd.append fn) ∨
          n ≠ 0 ∧ (v.inode n).firstBlock = 0 ∧ Opens t after workdir (wd.append fn)) := by
  rw [agrees_iff_spared, Spared, hasked]
  constructor
  · rintro (⟨hnone, -⟩ | ⟨loc', v', rest', he, hanswer⟩)
    · cases hnone
    · cases he
      exact hanswer
  · exact fun hanswer => .inr ⟨loc, v, rest, rfl, hanswer⟩

/-- Asking procfs is a call through a null pointer. -/
theorem procfs_disagrees
    (hasked : asked t (existName wd fn) = some (some (⟨loc, .procfs⟩, rest))) :
    ¬ Agrees t after workdir wd fn := by
  rintro ⟨rc, hcall, -⟩
  rw [exist_asked, hasked] at hcall
  cases hcall

/-- Below the root of a volume the call does right by a path if and only if nothing with a
block is there. -/
theorem agrees_below (ho : Ordinary t (wd.append fn))
    (hres : t.resolve (wd.append fn) = some (i, ⟨loc, .ext2 v⟩, rest)) (hrest : rest ≠ rootPath)
    (hroot : (v.inode 2).firstBlock ≠ 0)
    (hfind : ext2FindFileInode v after rest.bytes = some (n, j)) :
    Agrees t after workdir wd fn ↔ Bare v after n := by
  obtain ⟨hasked, hhead⟩ := asked_ordinary ho hres
  have hopens := opens_iff workdir ho.absolute hres hfind
  obtain ⟨x, hx⟩ : ∃ x, rest.bytes = slash :: x := by
    cases hb : rest.bytes with
    | nil =>
      rw [hb] at hhead
      cases hhead
    | cons c x =>
      rw [hb] at hhead
      cases hhead
      exact ⟨x, rfl⟩
  have hne : x ≠ [] := by
    rintro rfl
    exact hrest (CString.ext hx)
  have hslashed : rest.slashed.bytes = slash :: x ++ [slash] := by
    show rest.bytes ++ [slash] = _
    rw [hx]
  rw [agrees_asked hasked, hopens, hslashed]
  rw [hx] at hfind
  rcases find_slash hroot hne hfind with ⟨rfl, j', hlook⟩ | ⟨hn, hlook⟩
  · exact iff_of_true ⟨0, j', hlook, .inl ⟨rfl, by simp⟩⟩ (.inl rfl)
  · rw [← slash_look_bare hn, hlook]
    simp [hn]

/-! At the root of a volume the last component is empty already. -/

theorem strsplit_empty : strsplit [] slash = [[]] := rfl

/-- "/" leads to an entry without a name, if the root directory has one, and to the root
directory otherwise. -/
theorem find_root (hroot : (v.inode 2).firstBlock ≠ 0) :
    ext2FindFileInode v after [slash] =
      (ext2ReadDirectory [] (v.block (v.inode 2).firstBlock ++ after)).map
        (fun e => if e = 0 then (2, v.inode 2) else (e, v.inode e)) := by
  rw [find_absolute, strsplit_empty]
  simp only [findLoop, search_first after [] hroot]
  cases ext2ReadDirectory [] (v.block (v.inode 2).firstBlock ++ after) with
  | none => rfl
  | some e => by_cases he : e = 0 <;> simp [he]

/-- "//" leads from there on, or nowhere. -/
theorem find_root_slash (hroot : (v.inode 2).firstBlock ≠ 0) :
    ext2FindFileInode v after [slash, slash] =
      (ext2ReadDirectory [] (v.block (v.inode 2).firstBlock ++ after)).bind
        (fun e => if e = 0 then some (0, v.inode 2) else slashLook v after e) := by
  rw [find_absolute, strsplit_slash, strsplit_empty]
  simp only [findLoop, search_first after [] hroot, slashLook]
  cases ext2ReadDirectory [] (v.block (v.inode 2).firstBlock ++ after) with
  | none => rfl
  | some e =>
    by_cases he : e = 0
    · simp [he]
    · simp only [Option.map_some, Option.bind_some, if_neg he]
      cases searchBlocks v after [] (v.inode e).dbp.toList with
      | none => rfl
      | some found => cases found <;> simp

/-- At the root of a volume the call is wrong, unless the root directory has an entry
without a name. -/
theorem agrees_root (ho : Ordinary t (wd.append fn))
    (hres : t.resolve (wd.append fn) = some (i, ⟨loc, .ext2 v⟩, rootPath))
    (hroot : (v.inode 2).firstBlock ≠ 0) :
    Agrees t after workdir wd fn ↔ ∃ e, Nameless v after 2 e ∧ Bare v after e := by
  have hlook : ext2FindFileInode v after rootPath.slashed.bytes = _ := find_root_slash hroot
  have hfind : ext2FindFileInode v after rootPath.bytes = _ := find_root hroot
  rw [agrees_asked (asked_ordinary ho hres).1, hlook]
  unfold Nameless
  cases hdir : ext2ReadDirectory [] (v.block (v.inode 2).firstBlock ++ after) with
  | none => simp
  | some e =>
    rw [hdir, Option.map_some] at hfind
    by_cases he : e = 0
    · have hopens := opens_iff workdir ho.absolute hres (hfind.trans (by rw [if_pos he]))
      simp [he, hopens]
    · have hopens := opens_iff workdir ho.absolute hres (hfind.trans (by rw [if_neg he]))
      simp only [Option.bind_some, if_neg he, hopens, ne_eq, not_not]
      constructor
      · rintro ⟨n, j, hslash, ⟨-, hzero⟩ | hbare⟩
        · exact absurd hzero he
        · exact ⟨e, ⟨he, rfl⟩, (slash_look_bare he).mp ⟨n, j, hslash, hbare.1, hbare.2.1⟩⟩
      · rintro ⟨e', ⟨-, hsame⟩, hbare⟩
        cases hsame
        obtain ⟨n, j, hslash, hn, hblock⟩ := (slash_look_bare he).mpr hbare
        exact ⟨n, j, hslash, .inr ⟨hn, hblock, he⟩⟩

/-- A path that a slash makes a location belongs to another mount than with the slash. -/
theorem asked_location (hd : t.table.locs.Nodup) (hm : ⟨path.slashed, fs⟩ ∈ t.entries) :
    asked t path.slashed = some (some (⟨path.slashed, fs⟩, rootPath)) := by
  have hmem : path.slashed ∈ t.table.locs := List.mem_map.mpr ⟨_, hm, rfl⟩
  cases hfind : findLoc t.table path.slashed with
  | none => exact absurd hmem (find_loc_none hfind)
  | some i =>
    obtain ⟨k, hk⟩ := List.mem_iff_getElem?.mp hm
    have hloc : t.table.locs[k]? = some path.slashed := by simp [Hosts.table, hk]
    obtain ⟨hlt, hget⟩ := List.getElem?_eq_some_iff.mp (find_loc_some hfind)
    obtain ⟨hlt', hget'⟩ := List.getElem?_eq_some_iff.mp hloc
    have hik : i = k := hd.getElem_inj_iff.mp (hget.trans hget'.symm)
    subst hik
    have hrest : path.slashed.rest (path.slashed.bytes.length - 1) = rootPath := by
      refine CString.ext ?_
      simp [CString.rest, CString.slashed, CString.append, rootPath]
    simp only [asked, exist_loop_eq, findMountLoop, hfind, Option.map_some, Option.bind_some, hk,
      hrest]

/-- There the call is right only if an entry without a name leads to an inode without a
block. -/
theorem agrees_location (hd : t.table.locs.Nodup)
    (hm : ⟨(wd.append fn).slashed, .ext2 v⟩ ∈ t.entries) (hroot : (v.inode 2).firstBlock ≠ 0) :
    Agrees t after workdir wd fn ↔
      (∃ e, Nameless v after 2 e ∧ (v.inode e).firstBlock = 0) ∧
        Opens t after workdir (wd.append fn) := by
  have hfind : ext2FindFileInode v after rootPath.bytes = _ := find_root hroot
  rw [agrees_asked (asked_location hd hm), hfind]
  unfold Nameless
  cases hdir : ext2ReadDirectory [] (v.block (v.inode 2).firstBlock ++ after) with
  | none => simp
  | some e =>
    by_cases he : e = 0
    · simp [he, hroot]
    · simp [he]

/-- Below the root of an ext2 volume `vfs_exist_in_dir` does right by a path if and only if
nothing with a block is there. At the root of a volume, and where a slash makes the path a
location, it is wrong unless the directory has an entry without a name, and where procfs
would have to answer it is always wrong. For any table, it is right exactly where it is
spared a copy. -/
theorem exist_agrees_iff (t : Hosts) (after : Bytes) (workdir : Option Opened) (wd fn : CString) :
    (∀ i loc v rest n j, Ordinary t (wd.append fn) →
      t.resolve (wd.append fn) = some (i, ⟨loc, .ext2 v⟩, rest) → rest ≠ rootPath →
      (v.inode 2).firstBlock ≠ 0 → ext2FindFileInode v after rest.bytes = some (n, j) →
      (Agrees t after workdir wd fn ↔ Bare v after n)) ∧
    (∀ i loc v, Ordinary t (wd.append fn) →
      t.resolve (wd.append fn) = some (i, ⟨loc, .ext2 v⟩, rootPath) →
      (v.inode 2).firstBlock ≠ 0 →
      (Agrees t after workdir wd fn ↔ ∃ e, Nameless v after 2 e ∧ Bare v after e)) ∧
    (∀ v, t.table.locs.Nodup → ⟨(wd.append fn).slashed, .ext2 v⟩ ∈ t.entries →
      (v.inode 2).firstBlock ≠ 0 →
      (Agrees t after workdir wd fn ↔
        (∃ e, Nameless v after 2 e ∧ (v.inode e).firstBlock = 0) ∧
          Opens t after workdir (wd.append fn))) ∧
    (∀ i loc rest, Ordinary t (wd.append fn) →
      t.resolve (wd.append fn) = some (i, ⟨loc, .procfs⟩, rest) →
      ¬ Agrees t after workdir wd fn) ∧
    (t.table.locs.Nodup → ⟨(wd.append fn).slashed, .procfs⟩ ∈ t.entries →
      ¬ Agrees t after workdir wd fn) ∧
    (Agrees t after workdir wd fn ↔ Spared t after workdir wd fn) :=
  ⟨fun _ _ _ _ _ _ ho hres hrest hroot hfind => agrees_below ho hres hrest hroot hfind,
    fun _ _ _ ho hres hroot => agrees_root ho hres hroot,
    fun _ hd hm hroot => agrees_location hd hm hroot,
    fun _ _ _ ho hres => procfs_disagrees (asked_ordinary ho hres).1,
    fun hd hm => procfs_disagrees (asked_location hd hm),
    agrees_iff_spared t after workdir wd fn⟩

theorem kernel_hosts_ordinary (v : Volume) (c : UInt8) (hz : (0 : UInt8) ∉ [47, c]) :
    Ordinary (kernelHosts v) ⟨[47, c], hz⟩ where
  proper := kernel_mounts_proper
  absolute := rfl
  apart := by
    simp [Hosts.table, kernelHosts, CString.slashed, CString.append, rootPath, procPath]

/-- The name "b" is not there, "/" is the root of the volume and "/proc" a location. -/
theorem exist_agrees_missing :
    Agrees (kernelHosts shownVolume) [] none rootPath ⟨[98], by decide⟩ ∧
    ¬ Agrees (kernelHosts shownVolume) [] none rootPath ⟨[], by decide⟩ ∧
    ¬ Agrees (kernelHosts shownVolume) [] none rootPath ⟨[112, 114, 111, 99], by decide⟩ := by
  have hfind : ext2FindFileInode shownVolume [] [47, 98] = some (0, shownVolume.inode 2) := by
    decide +kernel
  have hroot : ext2ReadDirectory [] (shownVolume.block (shownVolume.inode 2).firstBlock ++ []) =
      some 0 := by
    decide +kernel
  have hordinary : Ordinary (kernelHosts shownVolume) rootPath :=
    ⟨kernel_mounts_proper, rfl, by decide⟩
  refine ⟨?_, fun hagrees => ?_, ?_⟩
  · exact ((exist_agrees_iff (kernelHosts shownVolume) [] none rootPath ⟨[98], by decide⟩).1
      0 rootPath shownVolume ⟨[47, 98], by decide⟩ 0 _
      (kernel_hosts_ordinary shownVolume 98 (by decide)) rfl (by decide) (by decide)
      hfind).mpr (.inl rfl)
  · obtain ⟨e, ⟨he, hentry⟩, -⟩ :=
      ((exist_agrees_iff (kernelHosts shownVolume) [] none rootPath ⟨[], by decide⟩).2.1
        0 rootPath shownVolume hordinary rfl (by decide)).mp hagrees
    rw [hroot] at hentry
    cases hentry
    exact he rfl
  · exact (exist_agrees_iff (kernelHosts shownVolume) [] none rootPath
      ⟨[112, 114, 111, 99], by decide⟩).2.2.2.2.1 kernel_mounts_proper.distinct
      (List.mem_cons_of_mem _ (List.mem_singleton.mpr rfl))

/-- The root directory has the file "a", with one block. -/
def fileVolume : Volume :=
  volumeOf [[], entryBytes 2 12 [46] ++ entryBytes 2 12 [46, 46] ++ entryBytes 11 12 [97] ++
      entryBytes 0 988 []]
    [(2, ⟨0x4000, 1024, directs [1], 0, 0⟩), (11, ⟨0x8000, 1024, directs [2], 0, 0⟩)]

/-- To find out that the file "a" exists, its block is copied to address 0. -/
theorem existing_file_copied :
    ¬ ∀ (t : Hosts) (after : Bytes) (workdir : Option Opened) (wd fn : CString),
      wd.bytes.getLast? = some slash → Agrees t after workdir wd fn := by
  intro h
  obtain ⟨rc, hcall, -⟩ := h (kernelHosts fileVolume) [] none rootPath ⟨[97], by decide⟩ rfl
  have hcopied : (kernelHosts fileVolume).vfsExistInDir [] rootPath ⟨[97], by decide⟩ =
      some (1, [⟨0, 2⟩]) := by
    decide +kernel
  rw [hcopied] at hcall
  cases hcall

end Levos.Proofs.Exist
