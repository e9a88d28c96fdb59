import Levos.Vfs

namespace Levos.Proofs.Mounts
open Levos

theorem strcmp_loop_eq_zero {as bs : Bytes} (ha : (0 : UInt8) ∉ as) (hb : (0 : UInt8) ∉ bs) :
    strcmpLoop as bs = 0 ↔ as = bs := by
  have hword (a : UInt8) : a.toNat = 0 ↔ 0 = a := by
    rw [eq_comm, ← UInt8.toNat_inj]
    rfl
  induction as generalizing bs with
  | nil =>
    cases bs with
    | nil => simp [strcmpLoop]
    | cons b bs =>
      have := b.toNat_lt
      simp only [strcmpLoop, reduceCtorEq, iff_false]
      omega
  | cons a as ih =>
    simp only [List.mem_cons, not_or] at ha
    cases bs with
    | nil => simpa [strcmpLoop, hword] using ha.1
    | cons b bs =>
      simp only [List.mem_cons, not_or] at hb
      by_cases hab : a = b
      · simp [strcmpLoop, hab, ih ha.2 hb.2]
      · have hne : a.toNat ≠ b.toNat := fun h => hab (UInt8.toNat_inj.mp h)
        have := a.toNat_lt
        have := b.toNat_lt
        simp only [strcmpLoop, hab, if_false, List.cons.injEq, false_and, iff_false]
        omega

/-- The test of `strcmp` against zero is equality of the strings. -/
theorem strcmp_eq_zero {a b : CString} : strcmp a b = 0 ↔ a = b := by
  obtain ⟨as, ha⟩ := a
  obtain ⟨bs, hb⟩ := b
  simp [strcmp, strcmp_loop_eq_zero ha hb]

theorem find_loc_some {mounts : MountTable} (h : findLoc mounts orig = some i) :
    mounts.locs[i]? = some orig := by
  obtain ⟨hi, hl, -⟩ := List.findIdx?_eq_some_iff_getElem.mp h
  rw [beq_iff_eq, strcmp_eq_zero] at hl
  rw [List.getElem?_eq_getElem hi, hl]

theorem find_loc_none {mounts : MountTable} (h : findLoc mounts orig = none) :
    orig ∉ mounts.locs := by
  intro hm
  have := List.findIdx?_eq_none_iff.mp h orig hm
  simp [strcmp_eq_zero] at this

/-- The place the loop of `str_backspace` stops at: a `c` with no further `c`
between it and where the loop began. -/
theorem backspace_loop_some (h : backspaceLoop str c n = some i) :
    i < n ∧ str[i]? = some c ∧ ∀ j, i < j → j < n → str[j]? ≠ some c := by
  induction n with
  | zero => cases h
  | succ n ih =>
    by_cases hn : str[n]? = some c
    · rw [backspaceLoop, if_pos hn] at h
      cases h
      exact ⟨Nat.lt_succ_self _, hn, fun j hij hj => by omega⟩
    · rw [backspaceLoop, if_neg hn] at h
      obtain ⟨hi, hc, hlast⟩ := ih h
      refine ⟨Nat.lt_succ_of_lt hi, hc, ?_⟩
      intro j hij hj
      rcases Nat.lt_succ_iff_lt_or_eq.mp hj with hlt | rfl
      · exact hlast j hij hlt
      · exact hn

theorem backspace_loop_none (h : backspaceLoop str c n = none) (hj : j < n) :
    str[j]? ≠ some c := by
  induction n with
  | zero => cases hj
  | succ n ih =>
    by_cases hn : str[n]? = some c
    · rw [backspaceLoop, if_pos hn] at h
      cases h
    · rw [backspaceLoop, if_neg hn] at h
      rcases Nat.lt_succ_iff_lt_or_eq.mp hj with hlt | rfl
      · exact ih h hlt
      · exact hn

/-- On an absolute path other than `/` the call cuts the string behind the last
slash that is not its last byte. -/
theorem str_backspace_absolute {str : CString} (h0 : str.bytes[0]? = some slash)
    (hne : str ≠ rootPath) :
    ∃ i, strBackspace str slash = some (str.cut (i + 1), 1) ∧ i + 1 < str.bytes.length ∧
      ∀ j, i < j → j + 1 < str.bytes.length → str.bytes[j]? ≠ some slash := by
  obtain ⟨bytes, hz⟩ := str
  match bytes, hz, h0, hne with
  | [b], hz, h0, hne =>
    cases h0
    exact absurd rfl hne
  | b :: c :: bs, hz, h0, _ =>
    cases hl : backspaceLoop (b :: c :: bs) slash (bs.length + 1) with
    | none => exact absurd h0 (backspace_loop_none hl (Nat.succ_pos _))
    | some i =>
      obtain ⟨hi, -, hlast⟩ := backspace_loop_some hl
      refine ⟨i, ?_, Nat.succ_lt_succ hi, fun j hij hj => hlast j hij (Nat.lt_of_succ_lt_succ hj)⟩
      simp [strBackspace, hl]

/-- What the kernel's own mounts have in common. -/
structure Proper (mounts : MountTable) : Prop where
  distinct : mounts.locs.Nodup
  slashed : ∀ loc ∈ mounts.locs, loc.bytes.getLast? = some slash
  rooted : rootPath ∈ mounts.locs

/-- The paths `__find_mount` goes through: a start of the filename that is still
absolute, with no location left that is a longer start of it. -/
structure Candidate (mounts : MountTable) (filename orig : CString) : Prop where
  start : orig.bytes <+: filename.bytes
  absolute : orig.bytes[0]? = some slash
  longest : ∀ loc ∈ mounts.locs, loc.bytes <+: filename.bytes →
    loc.bytes.length ≤ orig.bytes.length

/-- One truncation goes from candidate to candidate. -/
theorem Candidate.backspace {mounts : MountTable} {filename orig : CString}
    (hc : Candidate mounts filename orig) (hm : Proper mounts) (hn : orig ∉ mounts.locs) :
    ∃ i, strBackspace orig slash = some (orig.cut (i + 1), 1) ∧ i + 1 < orig.bytes.length ∧
      Candidate mounts filename (orig.cut (i + 1)) := by
  have hroot : orig ≠ rootPath := by
    rintro rfl
    exact hn hm.rooted
  obtain ⟨i, hb, hi, hlast⟩ := str_backspace_absolute hc.absolute hroot
  refine ⟨i, hb, hi, (List.take_prefix _ _).trans hc.start, ?_, ?_⟩
  · simpa [CString.cut] using hc.absolute
  · intro loc hloc hpre
    have hle := hc.longest loc hloc hpre
    have hin : loc.bytes <+: orig.bytes := List.prefix_of_prefix_length_le hpre hc.start hle
    have hlt : loc.bytes.length < orig.bytes.length := by
      refine lt_of_le_of_ne hle ?_
      intro he
      exact hn (CString.ext (hin.eq_of_length he) ▸ hloc)
    have hend := hm.slashed loc hloc
    rw [List.getLast?_eq_getElem?] at hend
    have hpos := (List.getElem?_eq_some_iff.mp hend).1
    have hat : orig.bytes[loc.bytes.length - 1]? = some slash := by
      obtain ⟨rest, hrest⟩ := hin
      rw [← hrest, List.getElem?_append_left hpos, hend]
    simp only [CString.cut, List.length_take]
    by_contra hlong
    exact hlast (loc.bytes.length - 1) (by omega) (by omega) hat

theorem Candidate.refl {mounts : MountTable} {filename : CString}
    (h : filename.bytes[0]? = some slash) : Candidate mounts filename filename where
  start := List.prefix_rfl
  absolute := h
  longest := fun _ _ hpre => hpre.length_le

/-- The loop ends at a candidate that is a location. -/
theorem find_mount_loop {mounts : MountTable} {filename orig : CString} (hm : Proper mounts)
    (hc : Candidate mounts filename orig) (fuel : Nat) (hf : orig.bytes.length < fuel) :
    ∃ i loc, findMountLoop mounts fuel orig = some (i, some ((loc.bytes.length : Int) - 1)) ∧
      mounts.locs[i]? = some loc ∧ Candidate mounts filename loc := by
  induction fuel generalizing orig with
  | zero => omega
  | succ fuel ih =>
    cases hl : findLoc mounts orig with
    | some i => exact ⟨i, orig, by simp [findMountLoop, hl], find_loc_some hl, hc⟩
    | none =>
      have hn := find_loc_none hl
      have hroot : strcmp orig rootPath ≠ 0 := by
        rw [Ne, strcmp_eq_zero]
        rintro rfl
        exact hn hm.rooted
      obtain ⟨i, hb, hi, hc'⟩ := hc.backspace hm hn
      have hlen : (orig.cut (i + 1)).bytes.length < fuel := by
        simp only [CString.cut, List.length_take]
        omega
      simpa only [findMountLoop, hl, if_neg hroot, hb] using ih hc' hlen

/-- The rest of the filename begins with the slash the location ends in. -/
theorem Candidate.remainder {mounts : MountTable} {filename loc : CString}
    (hc : Candidate mounts filename loc) (hs : loc.bytes.getLast? = some slash) :
    ∃ rest, filename.bytes.drop (loc.bytes.length - 1) = slash :: rest ∧
      loc.bytes ++ rest = filename.bytes := by
  obtain ⟨rest, hrest⟩ := hc.start
  refine ⟨rest, ?_, hrest⟩
  obtain ⟨front, hfront⟩ := List.getLast?_eq_some_iff.mp hs
  rw [← hrest, hfront]
  simp

/-- `__find_mount` answers with the longest location the filename starts with,
and the rest of the filename begins at the last slash of that location. -/
theorem find_mount_longest (mounts : MountTable) (filename : CString) (hm : Proper mounts)
    (ha : filename.bytes.head? = some slash) :
    ∃ (i adjust : Nat) (loc : CString) (rest : Bytes),
      findMount mounts filename = some (i, some (adjust : Int)) ∧
      mounts.locs[i]? = some loc ∧ loc.bytes <+: filename.bytes ∧
      (∀ (j : Nat) (other : CString), mounts.locs[j]? = some other →
        other.bytes <+: filename.bytes → j = i ∨ other.bytes.length < loc.bytes.length) ∧
      filename.bytes.drop adjust = slash :: rest ∧ loc.bytes ++ rest = filename.bytes := by
  rw [List.head?_eq_getElem?] at ha
  obtain ⟨i, loc, hfind, hloc, hc⟩ := find_mount_loop hm (.refl ha) _ (Nat.lt_succ_self _)
  have hmem := List.mem_of_getElem? hloc
  obtain ⟨rest, hdrop, hwhole⟩ := hc.remainder (hm.slashed loc hmem)
  have hpos := (List.getElem?_eq_some_iff.mp hc.absolute).1
  have hadj : ((loc.bytes.length - 1 : Nat) : Int) = loc.bytes.length - 1 := by omega
  refine ⟨i, loc.bytes.length - 1, loc, rest, ?_, hloc, hc.start, ?_, hdrop, hwhole⟩
  · rw [hadj]
    exact hfind
  · intro j other hj hpre
    rcases (hc.longest other (List.mem_of_getElem? hj) hpre).lt_or_eq with hlt | heq
    · exact .inr hlt
    · have hsame : other = loc := CString.ext
        ((List.prefix_of_prefix_length_le hpre hc.start heq.le).eq_of_length heq)
      obtain ⟨hlt, hget⟩ := List.getElem?_eq_some_iff.mp hj
      obtain ⟨hlt', hget'⟩ := List.getElem?_eq_some_iff.mp hloc
      exact .inl ((hm.distinct.getElem_inj_iff).mp (hget.trans (hsame.trans hget'.symm)))

/-- The mounts `main` makes. -/
def procPath : CString := ⟨[47, 112, 114, 111, 99, 47], by decide⟩

def kernelMounts : MountTable := ⟨[rootPath, procPath], by decide⟩

theorem kernel_mounts_proper : Proper kernelMounts where
  distinct := by decide
  slashed := by simp [kernelMounts, rootPath, procPath, slash]
  rooted := by simp [kernelMounts]

/-- `/proc/devconf`. -/
def procDevconf : CString :=
  ⟨[47, 112, 114, 111, 99, 47, 100, 101, 118, 99, 111, 110, 102], by decide⟩

theorem find_mount_longest_devconf :
    procDevconf.bytes.head? = some slash ∧
    ∃ (i adjust : Nat) (loc : CString) (rest : Bytes),
      findMount kernelMounts procDevconf = some (i, some (adjust : Int)) ∧
      kernelMounts.locs[i]? = some loc ∧ loc.bytes <+: procDevconf.bytes ∧
      (∀ (j : Nat) (other : CString), kernelMounts.locs[j]? = some other →
        other.bytes <+: procDevconf.bytes → j = i ∨ other.bytes.length < loc.bytes.length) ∧
      procDevconf.bytes.drop adjust = slash :: rest ∧ loc.bytes ++ rest = procDevconf.bytes :=
  ⟨rfl, find_mount_longest kernelMounts procDevconf kernel_mounts_proper rfl⟩

end Levos.Proofs.Mounts
