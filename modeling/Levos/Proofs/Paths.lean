import Levos.Proofs.Mounts
import Levos.Search

namespace Levos.Proofs.Paths
open Levos Mounts

def emptyPath : CString := ⟨[], by simp⟩

def Absolute (path : CString) : Prop := path.bytes.head? = some slash

/-- The strings a search goes through, from one to the next by `str_backspace`. -/
inductive Stage : CString → CString → Prop
  | here (path : CString) : Stage path path
  | cut (h : strBackspace path slash = some (orig, rc)) (rest : Stage orig loc) : Stage path loc

variable {mounts : MountTable} {path orig dir : CString} {fuel : Nat}

/-- The three searches for a path: each comes to an end, and no truncation on the way
leaves its string. `vfs_exist_in_dir` gets the path in two parts. -/
structure Searched (mounts : MountTable) (path : CString) : Prop where
  find : ∃ fuel, (findMountLoop mounts fuel path).isSome
  ls : ∃ fuel, (vfsLsLoop mounts path fuel path).isSome
  exist : ∀ wd fn : CString, wd.bytes ++ fn.bytes = path.bytes →
    ∃ fuel, (existLoop mounts fuel (existName wd fn)).isSome

theorem absolute_iff : Absolute path ↔ path.bytes[0]? = some slash := by
  rw [Absolute, List.head?_eq_getElem?]

/-- A truncation does not touch the first byte. -/
theorem backspace_absolute (h : strBackspace path slash = some (orig, rc)) :
    Absolute orig ↔ Absolute path := by
  unfold strBackspace at h
  split at h
  · cases h
  · split at h
    · cases h
      exact Iff.rfl
    · cases h
      simp [absolute_iff, CString.cut]

theorem backspace_some (h : path ≠ emptyPath) : (strBackspace path slash).isSome := by
  have hne : path.bytes ≠ [] := fun he => h (CString.ext he)
  unfold strBackspace
  rw [if_neg hne]
  split <;> rfl

theorem backspace_empty : strBackspace emptyPath slash = none := if_pos rfl

/-- An absolute path gets shorter until it is `/`. -/
theorem backspace_shorter (h : Absolute path) (hne : path ≠ rootPath) :
    ∃ orig, strBackspace path slash = some (orig, 1) ∧ Absolute orig ∧
      orig.bytes.length < path.bytes.length := by
  obtain ⟨i, hb, hi, -⟩ := str_backspace_absolute (absolute_iff.mp h) hne
  refine ⟨_, hb, (backspace_absolute hb).mpr h, ?_⟩
  simp only [CString.cut, List.length_take]
  omega

/-- The two copies of the search find the same mount. -/
theorem exist_loop_eq (mounts : MountTable) (fuel : Nat) (o : CString) :
    existLoop mounts fuel o =
      (findMountLoop mounts fuel o).map (fun r => r.2.map (fun _ => r.1)) := by
  have hloc : ∀ o, mounts.locs.findIdx? (fun loc => strcmp o loc == 0) = findLoc mounts o := by
    intro o
    unfold findLoc
    congr 1
    funext loc
    rw [Bool.eq_iff_iff, beq_iff_eq, beq_iff_eq, strcmp_eq_zero, strcmp_eq_zero, eq_comm]
  induction fuel generalizing o with
  | zero => rfl
  | succ fuel ih =>
    simp only [existLoop, findMountLoop, hloc]
    cases findLoc mounts o with
    | some i => rfl
    | none =>
      by_cases hroot : strcmp o rootPath = 0
      · simp only [hroot, ↓reduceIte, Option.map_some, Option.map_none]
      · simp only [hroot, ↓reduceIte]
        cases strBackspace o slash with
        | none => rfl
        | some r => exact ih r.1

theorem find_absolute_ends (h : Absolute path) (hf : path.bytes.length < fuel) :
    (findMountLoop mounts fuel path).isSome := by
  induction fuel generalizing path with
  | zero => omega
  | succ fuel ih =>
    unfold findMountLoop
    split
    · rfl
    · split
      · rfl
      · rename_i hne
        obtain ⟨orig, hb, ha, hlt⟩ := backspace_shorter h (fun he => hne (strcmp_eq_zero.mpr he))
        simp only [hb]
        exact ih ha (by omega)

/-- On its way through a path the search of `__find_mount` meets a location, or it comes
down to `/`; otherwise it does not end. -/
theorem find_mount_ends_iff :
    (∃ fuel, (findMountLoop mounts fuel path).isSome) ↔
      Absolute path ∨ ∃ loc ∈ mounts.locs, Stage path loc := by
  constructor
  · rintro ⟨fuel, h⟩
    induction fuel generalizing path with
    | zero => cases h
    | succ fuel ih =>
      unfold findMountLoop at h
      split at h
      · rename_i i hl
        exact .inr ⟨path, List.mem_of_getElem? (find_loc_some hl), .here path⟩
      · split at h
        · rename_i hroot
          rw [strcmp_eq_zero.mp hroot]
          exact .inl rfl
        · split at h
          · cases h
          · rename_i orig rc hb
            refine (ih h).imp (backspace_absolute hb).mp ?_
            rintro ⟨loc, hloc, hstage⟩
            exact ⟨loc, hloc, .cut hb hstage⟩
  · rintro (ha | ⟨loc, hloc, hstage⟩)
    · exact ⟨_, find_absolute_ends ha (Nat.lt_succ_self _)⟩
    · induction hstage with
      | here path =>
        refine ⟨1, ?_⟩
        cases hl : findLoc mounts path with
        | some i => simp [findMountLoop, hl]
        | none => exact absurd hloc (find_loc_none hl)
      | cut hb rest ih =>
        obtain ⟨fuel, hfuel⟩ := ih hloc
        refine ⟨fuel + 1, ?_⟩
        unfold findMountLoop
        split
        · rfl
        · split
          · rfl
          · simpa only [hb] using hfuel

theorem Stage.start (h : Stage path orig) : orig.bytes <+: path.bytes := by
  induction h with
  | here path => exact List.prefix_rfl
  | cut hb rest ih =>
    refine ih.trans ?_
    unfold strBackspace at hb
    split at hb
    · cases hb
    · split at hb
      · cases hb
        exact List.prefix_rfl
      · cases hb
        exact List.take_prefix _ _

theorem Stage.nonempty (h : Stage path orig) (hne : path.bytes ≠ []) : orig.bytes ≠ [] := by
  induction h with
  | here path => exact hne
  | cut hb rest ih =>
    refine ih ?_
    unfold strBackspace at hb
    split at hb
    · cases hb
    · split at hb
      · cases hb
        exact hne
      · cases hb
        simpa [CString.cut] using hne

/-- What the search has found: a location on the way, or nothing on the way to `/`. -/
theorem find_mount_cases {mounts : MountTable}
    (h : findMountLoop mounts fuel path = some (i, adjust)) :
    (∃ orig, Stage path orig ∧ mounts.locs[i]? = some orig ∧
      adjust = some ((orig.bytes.length : Int) - 1)) ∨
    (i = 0 ∧ adjust = none ∧ rootPath ∉ mounts.locs) := by
  induction fuel generalizing path with
  | zero => cases h
  | succ fuel ih =>
    unfold findMountLoop at h
    split at h
    · rename_i j hl
      cases h
      exact .inl ⟨path, .here path, find_loc_some hl, rfl⟩
    · rename_i hl
      split at h
      · rename_i hroot
        cases h
        refine .inr ⟨rfl, rfl, ?_⟩
        rw [← strcmp_eq_zero.mp hroot]
        exact find_loc_none hl
      · split at h
        · cases h
        · rename_i next rc hb
          refine (ih h).imp_left ?_
          rintro ⟨orig, hstage, hloc, hadj⟩
          exact ⟨orig, .cut hb hstage, hloc, hadj⟩

theorem backspace_le (h : strBackspace path slash = some (orig, rc)) :
    orig = path ∨ orig.bytes.length < path.bytes.length := by
  unfold strBackspace at h
  split at h
  · cases h
  · split at h
    · cases h
      exact .inl rfl
    · rename_i i hl
      cases h
      have hi := (backspace_loop_some hl).1
      right
      simp only [CString.cut, List.length_take]
      omega

/-- More rounds than the path has bytes make no difference: a round that does not
shorten it repeats for ever. -/
theorem find_mount_enough {mounts : MountTable} (h : findMountLoop mounts fuel path = some r)
    (hn : path.bytes.length < n) : findMountLoop mounts n path = some r := by
  induction fuel generalizing path n with
  | zero => cases h
  | succ fuel ih =>
    have hround := h
    unfold findMountLoop at hround
    obtain ⟨n, rfl⟩ : ∃ k, n = k + 1 := ⟨n - 1, by omega⟩
    split at hround
    · rename_i i hl
      simpa only [findMountLoop, hl] using hround
    · rename_i hl
      split at hround
      · rename_i hroot
        simpa only [findMountLoop, hl, if_pos hroot] using hround
      · rename_i hroot
        split at hround
        · cases hround
        · rename_i next rc hb
          rcases backspace_le hb with rfl | hlt
          · exact ih hround hn
          · simpa only [findMountLoop, hl, if_neg hroot, hb] using ih hround (by omega)

/-- `__find_mount` answers if its search ends at all. -/
theorem find_mount_isSome {mounts : MountTable} :
    (findMount mounts path).isSome ↔ ∃ fuel, (findMountLoop mounts fuel path).isSome := by
  constructor
  · intro h
    exact ⟨_, h⟩
  · rintro ⟨fuel, h⟩
    obtain ⟨r, hr⟩ := Option.isSome_iff_exists.mp h
    rw [findMount, find_mount_enough hr (Nat.lt_succ_self _)]
    rfl

theorem ls_mounted_some (dir : CString) (locs : List CString) :
    (lsMounted dir locs).isSome ↔ emptyPath ∉ locs := by
  induction locs with
  | nil => simp [lsMounted]
  | cons loc locs ih =>
    by_cases hloc : loc = emptyPath
    · simp [lsMounted, hloc, backspace_empty]
    · obtain ⟨r, hr⟩ := Option.isSome_iff_exists.mp (backspace_some hloc)
      simp only [lsMounted, hr, Option.isSome_map, ih, List.mem_cons, not_or]
      exact (and_iff_right (Ne.symm hloc)).symm

/-- With locations that all have a byte, `vfs_ls` follows an absolute path to `/`. -/
theorem ls_absolute_ends (h : Absolute orig) (he : emptyPath ∉ mounts.locs)
    (hf : orig.bytes.length < fuel) : (vfsLsLoop mounts dir fuel orig).isSome := by
  induction fuel generalizing orig with
  | zero => omega
  | succ fuel ih =>
    obtain ⟨out, hout⟩ := Option.isSome_iff_exists.mp ((ls_mounted_some dir _).mpr he)
    -- whether a host was found does not matter: the search goes on to `/`
    by_cases hroot : strcmp orig rootPath = 0
    · cases hl : findLoc mounts orig <;>
        simp only [vfsLsLoop, hl, hout, Option.map_some, if_pos hroot, Option.isSome_some]
    · obtain ⟨next, hb, ha, hlt⟩ := backspace_shorter h (fun he => hroot (strcmp_eq_zero.mpr he))
      have hnext := ih ha (by omega)
      cases hl : findLoc mounts orig <;>
        simp only [vfsLsLoop, hl, hout, Option.map_some, if_neg hroot, hb, Option.isSome_map, hnext]

/-- From a path that is not absolute `vfs_ls` never comes to `/`. -/
theorem ls_relative (h : ¬ Absolute orig) : vfsLsLoop mounts dir fuel orig = none := by
  induction fuel generalizing orig with
  | zero => rfl
  | succ fuel ih =>
    have hroot : strcmp orig rootPath ≠ 0 := by
      intro hz
      rw [strcmp_eq_zero.mp hz] at h
      exact h rfl
    simp only [vfsLsLoop, if_neg hroot]
    split
    · rfl
    · split
      · rfl
      · rename_i orig' rc hb
        rw [ih (fun ha => h ((backspace_absolute hb).mp ha)), Option.map_none]

/-- The host found at `/` has every location truncated, also an empty one. -/
theorem ls_empty_location (hroot : rootPath ∈ mounts.locs) (he : emptyPath ∈ mounts.locs) :
    vfsLsLoop mounts dir fuel orig = none := by
  induction fuel generalizing orig with
  | zero => rfl
  | succ fuel ih =>
    have hout : lsMounted dir mounts.locs = none := by
      have hsome := (ls_mounted_some dir mounts.locs).not.mpr (not_not.mpr he)
      simpa using hsome
    simp only [vfsLsLoop]
    cases hl : findLoc mounts orig with
    | some i => simp only [hout, Option.map_none]
    | none =>
      have hne : strcmp orig rootPath ≠ 0 := by
        intro hz
        rw [strcmp_eq_zero.mp hz] at hl
        exact find_loc_none hl hroot
      simp only [if_neg hne]
      split
      · rfl
      · rw [ih, Option.map_none]

theorem ls_ends_iff (hroot : rootPath ∈ mounts.locs) :
    (∃ fuel, (vfsLsLoop mounts dir fuel path).isSome) ↔
      Absolute path ∧ emptyPath ∉ mounts.locs := by
  constructor
  · rintro ⟨fuel, h⟩
    constructor
    · by_contra ha
      rw [ls_relative ha] at h
      cases h
    · intro he
      rw [ls_empty_location hroot he] at h
      cases h
  · rintro ⟨ha, he⟩
    exact ⟨_, ls_absolute_ends ha he (Nat.lt_succ_self _)⟩

/-- For a table with `/` in it, the searches for a path end without leaving a string if
and only if the path is absolute and no location is empty. -/
theorem searches_end_iff (mounts : MountTable) (hroot : rootPath ∈ mounts.locs) (path : CString) :
    Searched mounts path ↔ Absolute path ∧ emptyPath ∉ mounts.locs := by
  constructor
  · intro h
    exact (ls_ends_iff hroot).mp h.ls
  · rintro ⟨ha, he⟩
    refine ⟨⟨_, find_absolute_ends ha (Nat.lt_succ_self _)⟩, (ls_ends_iff hroot).mpr ⟨ha, he⟩, ?_⟩
    intro wd fn hpath
    have habs : Absolute (existName wd fn) := by
      simp only [Absolute, existName, hpath] at ha ⊢
      rw [List.head?_append, ha, Option.some_or]
    refine ⟨(existName wd fn).bytes.length + 1, ?_⟩
    rw [exist_loop_eq, Option.isSome_map]
    exact find_absolute_ends habs (Nat.lt_succ_self _)

theorem searches_end_devconf :
    rootPath ∈ kernelMounts.locs ∧ Searched kernelMounts procDevconf := by
  have hroot : rootPath ∈ kernelMounts.locs := by decide
  exact ⟨hroot, (searches_end_iff kernelMounts hroot procDevconf).mpr ⟨rfl, by decide⟩⟩

/-- A name without a slash in the kernel's own table. -/
theorem relative_path_searched_forever :
    ¬ ∀ (mounts : MountTable) (path : CString), rootPath ∈ mounts.locs →
      Searched mounts path := by
  intro h
  obtain ⟨fuel, hfuel⟩ := (h kernelMounts ⟨[97], by decide⟩ (by decide)).find
  have hstuck : ∀ fuel, findMountLoop kernelMounts fuel ⟨[97], by decide⟩ = none := by
    intro fuel
    induction fuel with
    | zero => rfl
    | succ fuel ih => exact ih
  rw [hstuck fuel] at hfuel
  cases hfuel

end Levos.Proofs.Paths
