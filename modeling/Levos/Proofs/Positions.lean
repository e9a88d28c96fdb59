import Levos.Library.Runs
import Levos.Proofs.Reading

namespace Levos.Proofs.Positions
open Library Lookup Reading

/-- One call of `ext2_read_file` and the file it leaves. -/
def readStep (v : Volume) (after : Bytes) (fl : File) (len : UInt32) : Option File :=
  (ext2ReadFile v after fl len).map (fun r => r.2.2)

/-- The call runs into the panic about the position. -/
def Overloaded (size : UInt32) (fl : File) (len : UInt32) : Prop := len ≠ 0 ∧ fl.lpos > size

/-- Where a call ends, within the file. -/
def finalpos (size lpos len : UInt32) : UInt32 :=
  if lpos + len > size then size else lpos + len

/-- What a call does to the position in a file of this size; `none` is the panic. -/
def advance (v : Volume) (size lpos len : UInt32) : Option UInt32 :=
  if len = 0 then some lpos
  else if lpos > size then none
  else if (finalpos size lpos len).toNat / v.blocksize < 12 then some (lpos + len)
  else some lpos

/-- A call that keeps the position within the file: it asks for nothing, for no more
than there is, or the file is so long that a call for more is not served. -/
def Kept (v : Volume) (size lpos len : UInt32) : Prop :=
  len = 0 ∨ lpos + len ≤ size ∨ 12 * v.blocksize ≤ size.toNat

variable {v : Volume} {size lpos len : UInt32}

theorem advance_kept (hpos : lpos ≤ size) (h : Kept v size lpos len) :
    ∃ p, advance v size lpos len = some p ∧ p ≤ size := by
  rw [advance]
  by_cases hlen : len = 0
  · exact ⟨lpos, if_pos hlen, hpos⟩
  rw [if_neg hlen, if_neg (UInt32.not_lt.mpr hpos)]
  by_cases hnear : (finalpos size lpos len).toNat / v.blocksize < 12
  · refine ⟨lpos + len, if_pos hnear, ?_⟩
    rcases h.resolve_left hlen with hle | hlong
    · exact hle
    · by_contra hmore
      rw [finalpos, if_pos (UInt32.not_le.mp hmore),
        Nat.div_lt_iff_lt_mul (blocksize_pos v)] at hnear
      omega
  · exact ⟨lpos, if_neg hnear, hpos⟩

theorem advance_lost (hpos : lpos ≤ size) (h : ¬ Kept v size lpos len) :
    ∃ p, advance v size lpos len = some p ∧ ¬ p ≤ size := by
  simp only [Kept, not_or] at h
  obtain ⟨hlen, hmore, hshort⟩ := h
  have hnear : (finalpos size lpos len).toNat / v.blocksize < 12 := by
    rw [finalpos, if_pos (UInt32.not_le.mp hmore), Nat.div_lt_iff_lt_mul (blocksize_pos v)]
    exact Nat.lt_of_not_le hshort
  refine ⟨lpos + len, ?_, hmore⟩
  rw [advance, if_neg hlen, if_neg (UInt32.not_lt.mpr hpos), if_pos hnear]

/-- Along the calls the position stays within the file exactly when every call is such
a one. -/
theorem advance_iff (hpos : lpos ≤ size) (lens : List UInt32) :
    Throughout (advance v size) (· ≤ size) lpos lens ↔
      Guarded (advance v size) (Kept v size) lpos lens := by
  refine throughout_iff_guarded_taken hpos (show ∀ p : UInt32, p ≤ size → p ≤ size from
    fun _ h => h) ?_ (fun _ _ h hg => advance_lost h hg)
  intro p len q h hg hq
  obtain ⟨r, hr, hle⟩ := advance_kept h hg
  rw [hq] at hr
  cases hr
  exact hle

/-- A file whose path leads to a record with this size. -/
def Sized (v : Volume) (after : Bytes) (size : UInt32) (fl : File) : Prop :=
  vfsStat v after fl = some (some size)

/-- The file after a call on one that is not empty. -/
theorem read_step_eq (hsize : size ≠ 0) (hfl : Sized v after size fl) (len : UInt32) :
    readStep v after fl len =
      if len = 0 then some fl
      else if fl.lpos > size then none
      else if (finalpos size fl.lpos len).toNat / v.blocksize < 12 then
        if v.blocksize + after.length < fl.lpos.toNat + len.toNat then none
        else some { fl with lpos := fl.lpos + len }
      else some fl := by
  have hstat : vfsStat v after fl = some (some size) := hfl
  simp only [readStep, ext2ReadFile, hstat, if_neg hsize, finalpos, List.length_append, block_size]
  split_ifs <;> rfl

/-- A call that is followed to its end moves the position as said. -/
theorem read_advances (hsize : size ≠ 0) (fl : File) (len : UInt32) (fl' : File)
    (hfl : Sized v after size fl) (h : readStep v after fl len = some fl') :
    advance v size fl.lpos len = some fl'.lpos ∧ Sized v after size fl' := by
  rw [read_step_eq hsize hfl] at h
  rw [advance]
  split_ifs at h ⊢
  all_goals
    cases h
    exact ⟨rfl, hfl⟩

/-- With memory enough behind the block every call that does not panic is followed. -/
theorem advance_read (hsize : size ≠ 0) (hmem : 2 ^ 33 ≤ after.length) (fl : File) (len p : UInt32)
    (hfl : Sized v after size fl) (h : advance v size fl.lpos len = some p) :
    ∃ fl', readStep v after fl len = some fl' ∧ fl'.lpos = p ∧ Sized v after size fl' := by
  have hlt := fl.lpos.toNat_lt
  have hlt' := len.toNat_lt
  rw [read_step_eq hsize hfl, if_neg (show ¬ v.blocksize + after.length < _ by omega)]
  rw [advance] at h
  split_ifs at h ⊢
  all_goals
    cases h
    exact ⟨_, rfl, rfl, hfl⟩

theorem sized_opened (hopen : vfsOpen v after path = some (some f)) (more : Bytes) :
    Sized v (after ++ more) (v.inode f.inode).size f := by
  obtain ⟨hf, hid, hfind⟩ := open_found hopen
  have hpath : f.respath = path := by rw [hf]
  have hmore := find_file_inode_append more hfind
  simp only [Sized, vfsStat, hpath, ext2Stat, hmore, Option.map_some, if_neg hid]

/-- The position stays within the file, and no call panics, exactly when every call asks
for no more than there is, unless the file is too long for such a call to be served.
`after` is the memory the lookup of the path may read, `more` what comes behind it. -/
theorem position_within_iff (v : Volume) (after path : Bytes) (f : File) (lens : List UInt32)
    (hopen : vfsOpen v after path = some (some f)) (hsize : (v.inode f.inode).size ≠ 0) :
    (∀ more,
      Throughout (readStep v (after ++ more)) (fun g => g.lpos ≤ (v.inode f.inode).size) f lens ∧
      Guarded (readStep v (after ++ more))
        (fun g len => ¬ Overloaded (v.inode f.inode).size g len) f lens) ↔
      Guarded (advance v (v.inode f.inode).size) (Kept v (v.inode f.inode).size) 0 lens := by
  have hstart : f.lpos = 0 := by rw [(open_found hopen).1]
  rw [← advance_iff UInt32.zero_le, ← hstart]
  constructor
  · intro h
    have hmem : 2 ^ 33 ≤ (after ++ List.replicate (2 ^ 33) 0).length := by
      rw [List.length_append, List.length_replicate]
      omega
    exact Throughout.image (sized_opened hopen _) (advance_read hsize hmem) (h _).1
  · intro h more
    have hreads : Throughout (readStep v (after ++ more))
        (fun g => g.lpos ≤ (v.inode f.inode).size) f lens :=
      Throughout.of_image (sized_opened hopen more) (read_advances hsize) h
    refine ⟨hreads, hreads.guarded ?_⟩
    intro g len hle hover
    exact UInt32.not_lt.mpr hle hover.2

theorem position_within_five :
    vfsOpen fiveBytes [] [slash, 97] = some (some openedFive) ∧
      ∀ more, Throughout (readStep fiveBytes more) (fun g => g.lpos ≤ 5) openedFive [2, 0, 3] :=
  ⟨open_five [], fun more => ((position_within_iff fiveBytes [] [slash, 97] openedFive [2, 0, 3]
    (open_five []) (by decide)).mpr (by
      refine .cons (t := 2) rfl (.inr (.inl (by decide))) (.cons (t := 2) rfl (.inl rfl) ?_)
      exact .single (.inr (.inl (by decide)))) more).1⟩

/-- A read of ten bytes moves the position of a file of five bytes to ten. -/
theorem position_past_end :
    ¬ ∀ v after path f lens, vfsOpen v after path = some (some f) →
      (v.inode f.inode).size ≠ 0 → ∀ more,
        Throughout (readStep v (after ++ more)) (fun g => g.lpos ≤ (v.inode f.inode).size) f lens ∧
        Guarded (readStep v (after ++ more))
          (fun g len => ¬ Overloaded (v.inode f.inode).size g len) f lens := by
  intro h
  have hreads := (h fiveBytes [] [slash, 97] openedFive [10] (open_five []) (by decide) []).1
  have hstep : readStep fiveBytes [] openedFive 10 = some { openedFive with lpos := 10 } := by
    decide +kernel
  exact absurd (hreads.tail hstep).head (by decide)

end Levos.Proofs.Positions
