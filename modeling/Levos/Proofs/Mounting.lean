import Levos.Library.Runs
import Levos.Mounting
import Levos.Proofs.Mounts

namespace Levos.Proofs.Mounting
open Library Mounts

variable {cells : Nat → Option Mount} {s t : MountPoints} {dev : Option Device} {loc : CString}

/-- The entries below `last_mount_id` are not null and are those the lookups see,
their locations differ, and every store was inside the table. -/
structure Tabled (s : MountPoints) : Prop where
  entries : slice s.mountPoints 0 s.lastMountId = s.seen.map some
  distinct : (s.seen.map Mount.loc).Nodup
  stored : ∀ i ∈ s.stored, i < maxMounts

/-- A call that fails leaves the table as it was. -/
def Unchanged (s : MountPoints) (call : Option Device × CString) : Prop :=
  ∀ rc t, deviceTryToMount s call.1 call.2 = some (rc, t) → rc ≠ 0 →
    t.mountPoints = s.mountPoints ∧ t.lastMountId = s.lastMountId

/-- The location is free and one of the filesystems knows the device. -/
def Mountable (s : MountPoints) : Option Device → CString → Prop
  | none, _ => False
  | some dev, loc => checkMount s loc = some false ∧
    (procfsProbe s.procfsMounted dev = 0 ∨ ext2ProbeResult dev = some 0)

/-- What is mounted has an entry left in the table, and the word behind that entry,
if it is still in the table, is null. -/
def Room (s : MountPoints) (call : Option Device × CString) : Prop :=
  Mountable s call.1 call.2 → s.lastMountId < maxMounts ∧
    (s.lastMountId + 1 < maxMounts → s.mountPoints (s.lastMountId + 1) = none)

/-- The lookups see these entries if they stand there and a null pointer, or the
end of the table, is behind them. -/
theorem scan_iff (cells : Nat → Option Mount) (left i : Nat) (ms : List Mount) :
    scanLoop cells left i = ms ↔
      slice cells i ms.length = ms.map some ∧ ms.length ≤ left ∧
      (ms.length < left → cells (i + ms.length) = none) := by
  induction left generalizing i ms with
  | zero =>
    cases ms with
    | nil => simp [scanLoop, slice]
    | cons m ms => simp [scanLoop]
  | succ left ih =>
    unfold scanLoop
    cases ms with
    | nil =>
      cases hc : cells i <;> simp [slice]
    | cons m ms =>
      cases hc : cells i with
      | none => simp [slice_succ, hc]
      | some k =>
        have hplace : i + (ms.length + 1) = i + 1 + ms.length := by omega
        simp [slice_succ, hc, ih, hplace, and_assoc]

/-- The location is looked for among the entries in front of `last_mount_id`. -/
theorem check_loop_eq {ms : List Mount} (h : slice cells i n = ms.map some) :
    checkLoop cells loc n i = some (ms.any (fun m => strcmp loc m.loc == 0)) := by
  induction ms generalizing i n with
  | nil =>
    have hn := congrArg List.length h
    rw [slice_length] at hn
    cases hn
    rfl
  | cons m ms ih =>
    cases n with
    | zero => cases h
    | succ n =>
      rw [slice_succ, List.map_cons, List.cons.injEq] at h
      simp only [checkLoop, h.1, List.any_cons]
      split
      · simp [*]
      · simp [ih h.2, *]

theorem Tabled.last (h : Tabled s) : s.lastMountId = s.seen.length := by
  have hlen := congrArg List.length h.entries
  rwa [slice_length, List.length_map] at hlen

theorem check_free (h : Tabled s) (hc : checkMount s loc = some false) :
    loc ∉ s.seen.map Mount.loc := by
  rw [checkMount, check_loop_eq h.entries] at hc
  intro hm
  obtain ⟨m, hseen, rfl⟩ := List.mem_map.mp hm
  have hnone := List.any_eq_false.mp (Option.some.inj hc) m hseen
  exact hnone (beq_iff_eq.mpr (strcmp_eq_zero.mpr rfl))

/-- What a call does: it inserts, or it fails and leaves everything alone. -/
theorem try_cases (h : deviceTryToMount s dev loc = some (rc, t)) :
    (Mountable s dev loc ∧ rc = 0 ∧ ∃ d p, t = { s.insert d loc with procfsMounted := p }) ∨
    (¬ Mountable s dev loc ∧ rc ≠ 0 ∧ t = s) := by
  unfold deviceTryToMount at h
  split at h
  · cases h
    exact .inr ⟨id, by decide, rfl⟩
  rename_i d
  split at h
  · cases h
  · rename_i htaken
    cases h
    refine .inr ⟨?_, by decide, rfl⟩
    rintro ⟨hfree, -⟩
    rw [htaken] at hfree
    cases hfree
  rename_i hfree
  split at h
  case isTrue hproc =>
    cases h
    exact .inl ⟨⟨hfree, .inl hproc⟩, rfl, d, true, rfl⟩
  case isFalse hproc =>
    split at h
    · cases h
    rename_i rc hext
    split at h
    case isTrue hzero =>
      cases h
      exact .inl ⟨⟨hfree, .inr (hzero ▸ hext)⟩, rfl, d, s.procfsMounted, rfl⟩
    case isFalse hne =>
      rw [if_neg (show ¬ dummyfsProbe d = 0 from Int.one_ne_zero)] at h
      cases h
      refine .inr ⟨?_, by decide, rfl⟩
      rintro ⟨-, hok | hok⟩
      · exact hproc hok
      · rw [hext] at hok
        exact hne (Option.some.inj hok)

/-- A mountable device is mounted. -/
theorem try_mountable (h : Mountable s dev loc) :
    ∃ t, deviceTryToMount s dev loc = some (0, t) := by
  cases dev with
  | none => exact h.elim
  | some d =>
    obtain ⟨hfree, hok⟩ := h
    unfold deviceTryToMount
    simp only [hfree]
    split
    case isTrue => exact ⟨_, rfl⟩
    case isFalse hproc =>
      rw [hok.resolve_left hproc]
      exact ⟨_, rfl⟩

theorem insert_tabled (h : Tabled s) (hfree : loc ∉ s.seen.map Mount.loc)
    (hlast : s.lastMountId < maxMounts)
    (hnull : s.lastMountId + 1 < maxMounts → s.mountPoints (s.lastMountId + 1) = none)
    (d : Device) (p : Bool) : Tabled { s.insert d loc with procfsMounted := p } := by
  have hold : slice (Function.update s.mountPoints s.lastMountId (some ⟨loc, d.address⟩)) 0
      s.lastMountId = slice s.mountPoints 0 s.lastMountId :=
    slice_congr (fun i hi => Function.update_of_ne (by omega) _ _)
  have hentries : slice (Function.update s.mountPoints s.lastMountId (some ⟨loc, d.address⟩)) 0
      (s.lastMountId + 1) = (s.seen ++ [(⟨loc, d.address⟩ : Mount)]).map some := by
    rw [slice_append, hold, h.entries, List.map_append]
    simp [slice]
  have hseen : MountPoints.seen { s.insert d loc with procfsMounted := p } =
      s.seen ++ [⟨loc, d.address⟩] := by
    refine (scan_iff _ maxMounts 0 _).mpr ?_
    rw [List.length_append, List.length_singleton, ← h.last]
    refine ⟨hentries, hlast, ?_⟩
    intro hroom
    show Function.update s.mountPoints s.lastMountId _ (0 + (s.lastMountId + 1)) = none
    rw [Nat.zero_add, Function.update_of_ne (by omega)]
    exact hnull hroom
  refine ⟨by rw [hseen]; exact hentries, ?_, ?_⟩
  · rw [hseen, List.map_append, List.nodup_append]
    refine ⟨h.distinct, List.nodup_singleton _, ?_⟩
    rintro a ha b hb rfl
    have hloc : a = loc := List.mem_singleton.mp hb
    exact hfree (hloc ▸ ha)
  · intro i hi
    rcases List.mem_append.mp hi with hm | hm
    · exact h.stored i hm
    · rwa [List.mem_singleton.mp hm]

/-- An insertion without room is past the table, or an entry that is not there is
seen behind it. -/
theorem insert_overflow (d : Device) (p : Bool)
    (ht : Tabled { s.insert d loc with procfsMounted := p }) :
    s.lastMountId < maxMounts ∧
      (s.lastMountId + 1 < maxMounts → s.mountPoints (s.lastMountId + 1) = none) := by
  refine ⟨ht.stored _ (List.mem_append_right _ (List.mem_singleton.mpr rfl)), ?_⟩
  intro hroom
  have hlast : s.lastMountId + 1 = _ := ht.last
  obtain ⟨-, -, hend⟩ := (scan_iff _ maxMounts 0 _).mp (rfl :
    MountPoints.seen { s.insert d loc with procfsMounted := p } = _)
  rw [← hlast] at hend
  have hnull := hend hroom
  have hcell : Function.update s.mountPoints s.lastMountId (some ⟨loc, d.address⟩)
      (0 + (s.lastMountId + 1)) = none := hnull
  rwa [Nat.zero_add, Function.update_of_ne (by omega)] at hcell

theorem step_tabled (h : Tabled s) (hr : Room s call) (ht : s.step call = some t) : Tabled t := by
  obtain ⟨⟨rc, t⟩, hcall, rfl⟩ := Option.map_eq_some_iff.mp ht
  rcases try_cases hcall with ⟨hm, -, d, p, rfl⟩ | ⟨-, -, rfl⟩
  · obtain ⟨hlast, hnull⟩ := hr hm
    refine insert_tabled h ?_ hlast hnull d p
    obtain ⟨dev, loc⟩ := call
    cases dev with
    | none => exact hm.elim
    | some dev => exact check_free h hm.1
  · exact h

theorem step_unroomy (hr : ¬ Room s call) : ∃ t, s.step call = some t ∧ ¬ Tabled t := by
  obtain ⟨hm, hno⟩ := Classical.not_imp.mp hr
  obtain ⟨t, ht⟩ := try_mountable hm
  refine ⟨t, by rw [MountPoints.step, ht]; rfl, ?_⟩
  intro htab
  rcases try_cases ht with ⟨-, -, d, p, rfl⟩ | ⟨hn, -, -⟩
  · exact hno (insert_overflow d p htab)
  · exact hn hm

theorem init_tabled (cells : Nat → Option Mount) : Tabled (vfsInit cells) ↔ cells 0 = none := by
  constructor
  · intro h
    have hnil : (vfsInit cells).seen = [] := List.length_eq_zero_iff.mp h.last.symm
    exact ((scan_iff cells maxMounts 0 []).mp hnil).2.2 (by decide)
  · intro h
    have hnil : (vfsInit cells).seen = [] :=
      (scan_iff cells maxMounts 0 []).mpr ⟨rfl, Nat.zero_le _, fun _ => h⟩
    refine ⟨by rw [hnil]; rfl, by rw [hnil]; exact List.nodup_nil, ?_⟩
    intro i hi
    cases hi

theorem calls_unchanged (s : MountPoints) (calls : List (Option Device × CString)) :
    Guarded MountPoints.step Unchanged s calls := by
  refine Guarded.of_forall ?_ s
  intro s call _ rc t ht hne
  rcases try_cases ht with ⟨-, hrc, -⟩ | ⟨-, -, rfl⟩
  · exact absurd hrc hne
  · exact ⟨rfl, rfl⟩

theorem tabled_iff_room (h : Tabled s) {calls : List (Option Device × CString)} :
    Throughout MountPoints.step Tabled s calls ↔ Guarded MountPoints.step Room s calls :=
  throughout_iff_guarded_taken h (fun _ hs => hs) (fun _ _ _ hs hr => step_tabled hs hr)
    (fun _ _ _ hr => step_unroomy hr)

theorem mount_table_iff (cells : Nat → Option Mount) (calls : List (Option Device × CString)) :
    Throughout MountPoints.step Tabled (vfsInit cells) calls ∧
        Guarded MountPoints.step Unchanged (vfsInit cells) calls ↔
      cells 0 = none ∧ Guarded MountPoints.step Room (vfsInit cells) calls := by
  rw [and_iff_left (calls_unchanged _ _)]
  constructor
  · intro h
    exact ⟨(init_tabled cells).mp h.head, (tabled_iff_room h.head).mp h⟩
  · rintro ⟨hnull, hroom⟩
    exact (tabled_iff_room ((init_tabled cells).mpr hnull)).mpr hroom

/-- A disk with an ext2 superblock: its signature and blocks in a group. -/
def ext2Disk : Disk := fun i =>
  if i = 1080 then 0x53 else if i = 1081 then 0xEF else if i = 1056 then 1 else 0

def ext2Device : Device := ⟨0xC0400000, true, 1, some ext2Disk⟩

theorem ext2_device_probed : ext2ProbeResult ext2Device = some 0 := by decide

/-- Locations of any number: one slash, two slashes and so on. -/
def slashes (i : Nat) : CString :=
  ⟨List.replicate (i + 1) slash, fun h => absurd (List.mem_replicate.mp h).2 (by decide)⟩

theorem slashes_injective (h : slashes i = slashes j) : i = j := by
  have hlen := congrArg (fun l => l.bytes.length) h
  simpa [slashes] using hlen

/-- The table after the device has been mounted `n` times. -/
def mounted (n : Nat) : MountPoints :=
  { mountPoints := fun i => if i < n then some ⟨slashes i, ext2Device.address⟩ else none
    lastMountId := n
    procfsMounted := false
    stored := List.range n }

theorem mounted_free (n : Nat) : checkMount (mounted n) (slashes n) = some false := by
  have hentries : slice (mounted n).mountPoints 0 n =
      ((List.range n).map (fun i => (⟨slashes i, ext2Device.address⟩ : Mount))).map some := by
    rw [slice, List.map_map, List.range_eq_range']
    refine List.map_congr_left ?_
    intro i hi
    have hlt : i < n := by simpa using List.mem_range'_1.mp hi
    simp [mounted, hlt]
  refine (check_loop_eq hentries).trans (congrArg some (List.any_eq_false.mpr ?_))
  intro m hm heq
  obtain ⟨i, hi, rfl⟩ := List.mem_map.mp hm
  have hsame := slashes_injective (strcmp_eq_zero.mp (beq_iff_eq.mp heq))
  exact absurd (List.mem_range.mp hi) (hsame ▸ Nat.lt_irrefl n)

theorem mounted_step (n : Nat) :
    (mounted n).step (some ext2Device, slashes n) = some (mounted (n + 1)) := by
  have hcells : ((mounted n).insert ext2Device (slashes n)).mountPoints =
      (mounted (n + 1)).mountPoints := by
    funext i
    rcases Nat.lt_trichotomy i n with hlt | rfl | hgt
    · simp [MountPoints.insert, mounted, Function.update_of_ne hlt.ne, hlt, hlt.le]
    · simp [MountPoints.insert, mounted]
    · simp [MountPoints.insert, mounted, Function.update_of_ne hgt.ne', Nat.not_lt_of_gt hgt, hgt]
  have hinsert : (mounted n).insert ext2Device (slashes n) = mounted (n + 1) :=
    MountPoints.ext hcells rfl rfl List.range_succ.symm
  have hproc : procfsProbe (mounted n).procfsMounted ext2Device ≠ 0 :=
    show procfsProbe false ext2Device ≠ 0 by decide
  simp only [MountPoints.step, deviceTryToMount, mounted_free, ext2_device_probed, hproc, if_false,
    if_true, hinsert]
  rfl

theorem run_mounted (n : Nat) :
    run MountPoints.step (vfsInit (fun _ => none))
      ((List.range n).map (fun i => (some ext2Device, slashes i))) = some (mounted n) := by
  induction n with
  | zero => rfl
  | succ n ih =>
    rw [List.range_succ, List.map_append, run_append, ih, Option.bind_some, List.map_singleton, run,
      mounted_step]
    rfl

theorem seventeenth_mount :
    ∃ calls, ¬ (Throughout MountPoints.step Tabled (vfsInit (fun _ => none)) calls ∧
      Guarded MountPoints.step Unchanged (vfsInit (fun _ => none)) calls) := by
  refine ⟨(List.range 17).map (fun i => (some ext2Device, slashes i)), ?_⟩
  rintro ⟨h, -⟩
  have hlast := (h.last (run_mounted 17)).stored 16 (by decide)
  exact absurd hlast (by decide)

end Levos.Proofs.Mounting
