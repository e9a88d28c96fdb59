import Levos.Stat
import Levos.Proofs.Reading

namespace Levos.Proofs.Stat
open Lookup Reading
open Levos.Stat (checkTypes typeChecks)

/-- The code in `struct stat` for the types of inodes there are. -/
def fileType (type : Nat) : Option UInt32 :=
  match type &&& 0xF000 with
  | 0x1000 => some Stat.sIfifo
  | 0x2000 => some Stat.sIfchr
  | 0x4000 => some Stat.sIfdir
  | 0x6000 => some Stat.sIfblk
  | 0x8000 => some Stat.sIfreg
  | 0xA000 => some Stat.sIflnk
  | 0xC000 => some Stat.sIfsock
  | _ => none

/-- A call says that it failed exactly when the path led nowhere, and then leaves the
struct alone; otherwise the struct has the number, the size and the type of the inode. -/
structure Reported (node : Nat) (inode : Inode) (st : Stat) (result : UInt8) (st' : Stat) :
    Prop where
  failed : result ≠ 0 ↔ node = 0
  unchanged : node = 0 → st' = st
  number : node ≠ 0 → st'.stIno.toNat = node
  size : node ≠ 0 → st'.stSize = inode.size
  type : node ≠ 0 → ∀ code, fileType inode.type = some code → st'.stMode &&& 0xF000 = code

/-- The type is none of the known ones, or that of a fifo with no bit of another type in
the mode before. -/
def TypeKept (type : Nat) (mode : UInt32) : Prop :=
  fileType type = none ∨ (type &&& 0xF000 = 0x1000 ∧ mode &&& 0xE000 = 0)

theorem check_types_high (type : Nat) (mode : UInt32) :
    checkTypes type mode = checkTypes (type &&& 0xF000) mode := by
  have hmask : ∀ c ∈ typeChecks, 0xF000 &&& c.1 = c.1 := by decide
  rw [checkTypes, checkTypes]
  refine List.foldl_ext _ _ _ ?_
  intro m c hc
  rw [Nat.and_assoc, hmask c hc]

/-- What is added to the mode does not depend on it. -/
theorem check_types_or (type : Nat) (mode : UInt32) :
    checkTypes type mode = mode ||| checkTypes type 0 := by
  have hadd : ∀ (cs : List (Nat × UInt32)) (m : UInt32),
      cs.foldl (fun m c => if type &&& c.1 ≠ 0 then m ||| c.2 else m) (mode ||| m) =
        mode ||| cs.foldl (fun m c => if type &&& c.1 ≠ 0 then m ||| c.2 else m) m := by
    intro cs
    induction cs with
    | nil => exact fun _ => rfl
    | cons c cs ih =>
      intro m
      simp only [List.foldl_cons]
      by_cases hc : type &&& c.1 ≠ 0
      · rw [if_pos hc, if_pos hc, UInt32.or_assoc, ih]
      · rw [if_neg hc, if_neg hc, ih]
  have hzero := hadd typeChecks 0
  rwa [UInt32.or_zero] at hzero

theorem and_or_right (a b c : UInt32) : (a ||| b) &&& c = a &&& c ||| b &&& c := by
  rw [← UInt32.toNat_inj]
  simp only [UInt32.toNat_and, UInt32.toNat_or, Nat.and_or_distrib_right]

theorem and_or_absorb (a c : UInt32) : a &&& c ||| c = c := by
  rw [← UInt32.toNat_inj, UInt32.toNat_or, UInt32.toNat_and]
  refine Nat.eq_of_testBit_eq ?_
  intro i
  rw [Nat.testBit_or, Nat.testBit_and]
  cases a.toNat.testBit i <;> simp

/-- A known type other than a fifo's adds the bits of all of them. -/
theorem check_types_mixed (hcode : fileType type = some code) (hfifo : type &&& 0xF000 ≠ 0x1000) :
    checkTypes type 0 = 0xE000 ∧ code &&& 0xE000 = code ∧ code ≠ 0xE000 := by
  rw [check_types_high]
  unfold fileType at hcode
  split at hcode
  case h_1 h => exact absurd h hfifo
  case h_8 => cases hcode
  all_goals
    rename_i h
    cases hcode
    rw [h]
    decide

theorem check_types_fifo (h : type &&& 0xF000 = 0x1000) :
    checkTypes type 0 = 0x1000 ∧ fileType type = some Stat.sIfifo := by
  rw [check_types_high, fileType, h]
  decide

/-- The mode has the code of the type, whatever it is, in just this case. -/
theorem type_kept_iff (type : Nat) (mode : UInt32) :
    (∀ code, fileType type = some code → checkTypes type mode &&& 0xF000 = code) ↔
      TypeKept type mode := by
  rw [check_types_or, and_or_right]
  cases hcode : fileType type with
  | none => simp [TypeKept, hcode]
  | some code =>
    simp only [TypeKept, hcode, reduceCtorEq, false_or, Option.some.injEq, forall_eq']
    by_cases hfifo : type &&& 0xF000 = 0x1000
    · obtain ⟨hadd, hcode'⟩ := check_types_fifo hfifo
      obtain rfl : code = 0x1000 := Option.some.inj (hcode.symm.trans hcode')
      rw [hadd, show (0x1000 : UInt32) &&& 0xF000 = 0x1000 from rfl]
      simp only [hfifo, true_and]
      constructor
      · intro h
        have hhigh := congrArg (· &&& 0xE000) h
        simp only [and_or_right, UInt32.and_assoc] at hhigh
        exact (UInt32.or_zero (a := mode &&& 0xE000)).symm.trans hhigh
      · intro h
        have hsplit : mode &&& 0xF000 = mode &&& 0xE000 ||| mode &&& 0x1000 := by
          rw [UInt32.and_comm mode, UInt32.and_comm mode, UInt32.and_comm mode, ← and_or_right]
          rfl
        rw [hsplit, h, UInt32.zero_or]
        exact and_or_absorb mode 0x1000
    · obtain ⟨hadd, hin, hne⟩ := check_types_mixed hcode hfifo
      rw [hadd]
      simp only [hfifo, false_and, iff_false]
      intro h
      have hhigh := congrArg (· &&& 0xE000) h
      simp only [and_or_right, UInt32.and_assoc, hin] at hhigh
      exact hne (hhigh.symm.trans (and_or_absorb mode 0xE000))

/-- The result and the struct of a call are as said exactly when the path leads to an
inode whose number has 16 bits and whose type is kept. -/
theorem stat_reported_iff (v : Volume) (devId : UInt32) (after path : Bytes) (st : Stat)
    (node : Nat) (record : Inode)
    (hfind : ext2FindFileInode v after path = some (node, record)) :
    (∃ result st', Stat.ext2Stat v devId after path st = some (result, st') ∧
      Reported node (v.inode node) st result st') ↔
      node ≠ 0 ∧ node < 2 ^ 16 ∧ TypeKept (v.inode node).type st.stMode := by
  simp only [Stat.ext2Stat, hfind, Option.map_some]
  by_cases hnode : node = 0
  · simp only [hnode, ↓reduceIte, Option.some.injEq, Prod.mk.injEq]
    refine ⟨?_, fun h => absurd rfl h.1⟩
    rintro ⟨result, st', ⟨rfl, rfl⟩, h⟩
    exact absurd rfl (h.failed.mpr rfl)
  · obtain rfl := find_record hfind hnode
    simp only [hnode, ↓reduceIte, Option.some.injEq, Prod.mk.injEq, ne_eq, not_false_eq_true,
      true_and, ← type_kept_iff]
    constructor
    · rintro ⟨result, st', ⟨rfl, rfl⟩, h⟩
      have hnumber := h.number hnode
      refine ⟨?_, h.type hnode⟩
      rw [← hnumber]
      exact UInt16.toNat_lt _
    · rintro ⟨hlt, htype⟩
      refine ⟨0, _, ⟨rfl, rfl⟩, ?_⟩
      exact
        { failed := ⟨fun h => absurd rfl h, fun h => absurd h hnode⟩
          unchanged := fun h => absurd h hnode
          number := fun _ => Nat.mod_eq_of_lt hlt
          size := fun _ => rfl
          type := fun _ => htype }

/-- The root directory has the fifo "a". -/
def fifoVolume : Volume :=
  volumeOf [[], entryBytes 2 12 [46] ++ entryBytes 2 12 [46, 46] ++ entryBytes 11 12 [97] ++
      entryBytes 0 988 []]
    [(2, ⟨0x4000, 1024, directs [1], 0, 0⟩), (11, ⟨0x11A4, 0, directs [], 0, 0⟩)]

theorem stat_reported_fifo :
    ∃ result st', Stat.ext2Stat fifoVolume 1 [] [slash, 97] ⟨0, 0, 0, 0, 0, 0, 0, 0⟩ =
        some (result, st') ∧
      Reported 11 (fifoVolume.inode 11) ⟨0, 0, 0, 0, 0, 0, 0, 0⟩ result st' :=
  (stat_reported_iff fifoVolume 1 [] [slash, 97] ⟨0, 0, 0, 0, 0, 0, 0, 0⟩ 11
    (fifoVolume.inode 11) (by decide +kernel)).mpr
    ⟨by decide, by decide, .inr ⟨by decide, by decide⟩⟩

/-- A regular file is reported with the bits of other types, too. -/
theorem stat_regular_mixed :
    ¬ ∀ v devId after path st node record,
      ext2FindFileInode v after path = some (node, record) →
        ∃ result st', Stat.ext2Stat v devId after path st = some (result, st') ∧
          Reported node (v.inode node) st result st' := by
  intro h
  have hfind : ext2FindFileInode fiveBytes [] [slash, 97] = some (11, fiveBytes.inode 11) := by
    decide +kernel
  obtain ⟨result, st', hstat, hreported⟩ :=
    h fiveBytes 1 [] [slash, 97] ⟨0, 0, 0, 0, 0, 0, 0, 0⟩ 11 _ hfind
  have hmode := hreported.type (by decide) Stat.sIfreg (by decide)
  have hmixed : (Stat.ext2Stat fiveBytes 1 [] [slash, 97] ⟨0, 0, 0, 0, 0, 0, 0, 0⟩).map
      (fun r => r.2.stMode) = some 0xE000 := by decide +kernel
  rw [hstat, Option.map_some, Option.some.injEq] at hmixed
  rw [hmixed] at hmode
  exact absurd hmode (by decide)

/-- The size that the calls which only ask for it get. -/
theorem stat_size (v : Volume) (devId : UInt32) (after path : Bytes) (st : Stat) :
    (Stat.ext2Stat v devId after path st).map (fun r => r.2.stSize) =
      (ext2Stat v after path).map (fun size => size.getD st.stSize) := by
  rw [Stat.ext2Stat, ext2Stat, Option.map_map, Option.map_map]
  refine congrArg (Option.map · _) (funext ?_)
  rintro ⟨node, inode⟩
  by_cases hnode : node = 0 <;> simp [hnode]

end Levos.Proofs.Stat
