import Levos.Proofs.Lookup

namespace Levos.Proofs.Listing
open Levos.Proofs.Entries Levos.Proofs.Lookup

/-- The returned struct has the number of the entry and, as a string that ends
within `d_name`, its name. -/
structure Shows (e : DirEntry) (de : Dirent) : Prop where
  ino : de.dIno = e.inode
  name : cstr de.dName = e.name
  ends : 0 ∈ de.dName

/-- Successive calls return the entries one by one and then zero. Every call
gets its own struct from `malloc`, with `fresh` in `d_name`. -/
def Listed (v : Volume) (after : Bytes) (fresh : Nat → Vector UInt8 dNameSize) :
    File → List DirEntry → Prop
  | f, [] => ext2ListDirectory v after (fresh f.dpos) f = some (none, f)
  | f, e :: es => ∃ de f', ext2ListDirectory v after (fresh f.dpos) f = some (some de, f') ∧
    Shows e de ∧ Listed v after fresh f' es

/-- The entries of a block up to the first, other than the very first, that has
no name. -/
def leading : List DirEntry → List DirEntry
  | [] => []
  | e :: es => e :: es.takeWhile (·.name ≠ [])

/-- What `malloc` left behind the name of `e` completes it to that of `u`, and
`u` has the number `d` as far as `d_ino` holds it. -/
structure Completes (d : Nat) (fresh : Vector UInt8 dNameSize) (e u : DirEntry) : Prop where
  ino : u.inode = d % 2 ^ 16
  name : e.name ++ cstr (fresh.toList.drop e.name.length) = u.name
  ends : 0 ∈ fresh.toList.drop e.name.length

/-- The first block of the directory has an entry without a name that is not its
first entry. The entries before it are as many as the entries in use, and each
shows the name and number of the entry in use at its place. -/
structure Listable (v : Volume) (d : Nat) (fresh : Nat → Vector UInt8 dNameSize) : Prop where
  ended : (leading (entriesOf v (v.inode d).firstBlock)).length <
    (entriesOf v (v.inode d).firstBlock).length
  count : (leading (entriesOf v (v.inode d).firstBlock)).length = (inUse v (v.inode d)).length
  completes : ∀ (k : Nat) (e u : DirEntry),
    (leading (entriesOf v (v.inode d).firstBlock))[k]? = some e →
    (inUse v (v.inode d))[k]? = some u → Completes d (fresh k) e u

theorem name_length (h : entryAt mem = some e) :
    ∃ x : UInt8, mem[6]? = some x ∧ x.toNat = e.name.length := by
  obtain ⟨_, _, x, hx, hlen, hname⟩ := entry_at_iff.mp h
  refine ⟨x, hx, ?_⟩
  rw [← hname, List.length_take, List.length_drop]
  omega

section Walk
variable {mem : Bytes} {e e' : DirEntry} {es : List DirEntry} {size dpos j read : Nat}

/-- The cursor moves over an entry and looks at the name length of what follows. -/
theorem list_step (h : Filled mem (e :: es)) (hread : read + mem.length = size)
    (hj : j < dpos) (fuel : Nat) (after : Bytes)
    (hx : (mem.drop e.size ++ after)[6]? = some x) :
    listLoop size dpos (fuel + 1) j read (mem ++ after) =
      if x = 0 then some none
      else listLoop size dpos fuel (j + 1) (read + e.size) (mem.drop e.size ++ after) := by
  obtain ⟨he, hl, _⟩ := h.cons_inv
  have hpos : j < dpos ∧ read < size := by
    have := hl.holds
    have := hl.within
    omega
  have hsize := (entry_at_iff.mp (entry_at_append after he)).2.1
  rw [listLoop, if_pos hpos, hsize]
  simp only [List.drop_append_of_le_length hl.within, hx]

/-- Behind the last entry of a block there is nothing known to look at. -/
theorem list_step_last (h : Filled mem [e]) (hread : read + mem.length = size)
    (hj : j < dpos) (fuel : Nat) : listLoop size dpos (fuel + 1) j read mem = none := by
  obtain ⟨he, hl, hes⟩ := h.cons_inv
  have hpos : j < dpos ∧ read < size := by
    have := hl.holds
    have := hl.within
    omega
  rw [listLoop, if_pos hpos, (entry_at_iff.mp he).2.1]
  simp only [hes.nil_inv, List.getElem?_nil]

theorem list_step_named (h : Filled mem (e :: e' :: es)) (hname : e'.name ≠ [])
    (hread : read + mem.length = size) (hj : j < dpos) (fuel : Nat) (after : Bytes) :
    listLoop size dpos (fuel + 1) j read (mem ++ after) =
      listLoop size dpos fuel (j + 1) (read + e.size) (mem.drop e.size ++ after) := by
  obtain ⟨_, _, hes⟩ := h.cons_inv
  obtain ⟨x, hx, hlen⟩ := name_length hes.cons_inv.1
  have hne : x ≠ 0 := by
    rintro rfl
    exact hname (List.length_eq_zero_iff.mp hlen.symm)
  rw [list_step h hread hj fuel after (byte_append after hx)]
  simp only [hne, ↓reduceIte]

theorem list_step_unnamed (h : Filled mem (e :: e' :: es)) (hname : e'.name = [])
    (hread : read + mem.length = size) (hj : j < dpos) (fuel : Nat) (after : Bytes) :
    listLoop size dpos (fuel + 1) j read (mem ++ after) = some none := by
  obtain ⟨_, _, hes⟩ := h.cons_inv
  obtain ⟨x, hx, hlen⟩ := name_length hes.cons_inv.1
  have hz : x = 0 := by
    rw [hname] at hlen
    exact UInt8.toNat_inj.mp hlen
  rw [list_step h hread hj fuel after (byte_append after hx)]
  simp only [hz, ↓reduceIte]

theorem drop_room (h : Filled mem (e :: es)) (hread : read + mem.length = size) :
    read + e.size + (mem.drop e.size).length = size := by
  have := h.cons_inv.2.1.within
  rw [List.length_drop]
  omega

/-- The cursor gets to each of the leading entries. -/
theorem list_reaches (k : Nat) (h : Filled mem (e :: es)) (hread : read + mem.length = size)
    (hk : k ≤ (es.takeWhile (·.name ≠ [])).length) (hfuel : k < fuel) (after : Bytes) :
    ∃ mem' x, (leading (e :: es))[k]? = some x ∧ entryAt mem' = some x ∧
      listLoop size (j + k) fuel j read (mem ++ after) = some (some (j + k, mem' ++ after)) := by
  obtain ⟨fuel, rfl⟩ := Nat.exists_eq_add_of_lt hfuel
  induction k generalizing mem e es j read with
  | zero =>
    refine ⟨mem, e, rfl, h.cons_inv.1, ?_⟩
    rw [listLoop, if_neg (by omega)]
    rfl
  | succ k ih =>
    cases es with
    | nil => exact absurd hk (Nat.not_succ_le_zero k)
    | cons e' es =>
      by_cases hname : e'.name = []
      · simp [hname] at hk
      · have htake : (e' :: es).takeWhile (fun e => decide (e.name ≠ [])) =
            e' :: es.takeWhile (fun e => decide (e.name ≠ [])) := by
          rw [List.takeWhile_cons, if_pos (by simpa using hname)]
        rw [htake] at hk
        obtain ⟨mem', x, hx, hentry, hloop⟩ := ih (j := j + 1) h.cons_inv.2.2
          (drop_room h hread) (Nat.le_of_succ_le_succ hk) (by omega)
        refine ⟨mem', x, ?_, hentry, ?_⟩
        · simp only [leading] at hx ⊢
          rw [htake]
          exact hx
        · rw [show k + 1 + fuel + 1 = (k + fuel + 1) + 1 by omega,
            list_step_named h hname hread (by omega), ← Nat.add_assoc, Nat.add_right_comm]
          exact hloop

/-- Behind them an entry without a name makes the call return zero. -/
theorem list_ends (k : Nat) (h : Filled mem (e :: es)) (hread : read + mem.length = size)
    (hk : (es.takeWhile (·.name ≠ [])).length < k)
    (hend : (es.takeWhile (·.name ≠ [])).length < es.length) (hfuel : k < fuel)
    (after : Bytes) : listLoop size (j + k) fuel j read (mem ++ after) = some none := by
  obtain ⟨fuel, rfl⟩ := Nat.exists_eq_add_of_lt hfuel
  induction es generalizing mem e j read k with
  | nil => exact absurd hend (Nat.not_lt_zero _)
  | cons e' es ih =>
    obtain ⟨k, rfl⟩ : ∃ m, k = m + 1 := ⟨k - 1, by omega⟩
    rw [show k + 1 + fuel + 1 = (k + fuel + 1) + 1 by omega]
    by_cases hname : e'.name = []
    · exact list_step_unnamed h hname hread (by omega) _ after
    · rw [List.takeWhile_cons, if_pos (by simpa using hname)] at hk hend
      rw [list_step_named h hname hread (by omega), ← Nat.add_assoc, Nat.add_right_comm]
      exact ih k h.cons_inv.2.2 (drop_room h hread) (Nat.lt_of_succ_lt_succ hk)
        (Nat.lt_of_succ_lt_succ hend) (by omega)

/-- Without one the call reads on behind the block. -/
theorem list_overruns (k : Nat) (h : Filled mem (e :: es)) (hread : read + mem.length = size)
    (hall : es.takeWhile (·.name ≠ []) = es) (hk : es.length < k) (hfuel : k < fuel) :
    listLoop size (j + k) fuel j read mem = none := by
  obtain ⟨fuel, rfl⟩ := Nat.exists_eq_add_of_lt hfuel
  rw [← List.append_nil mem]
  induction es generalizing mem e j read k with
  | nil =>
    obtain ⟨k, rfl⟩ : ∃ m, k = m + 1 := ⟨k - 1, by omega⟩
    rw [List.append_nil]
    exact list_step_last h hread (by omega) _
  | cons e' es ih =>
    obtain ⟨k, rfl⟩ : ∃ m, k = m + 1 := ⟨k - 1, by omega⟩
    have hname : e'.name ≠ [] := by
      simpa using List.takeWhile_eq_self_iff.mp hall e' List.mem_cons_self
    rw [List.takeWhile_cons, if_pos (by simpa using hname)] at hall
    rw [show k + 1 + fuel + 1 = (k + fuel + 1) + 1 by omega,
      list_step_named h hname hread (by omega), ← Nat.add_assoc, Nat.add_right_comm]
    exact ih k h.cons_inv.2.2 (drop_room h hread) (List.cons.inj hall).2
      (Nat.lt_of_succ_lt_succ hk) (by omega)

end Walk

section Call
variable {v : Volume} {d : Nat} {f : File} {after : Bytes}

theorem first_cons (hv : WellFormed v) (hd : (v.inode d).isDirectory) :
    ∃ e es, entriesOf v (v.inode d).firstBlock = e :: es := by
  have hfill := first_filled hv hd
  cases hes : entriesOf v (v.inode d).firstBlock with
  | nil =>
    rw [hes] at hfill
    have hlen := v.block_length (v.inode d).firstBlock
    rw [hfill.nil_inv, Nat.shiftLeft_eq] at hlen
    have := Nat.mul_pos (show 0 < 1024 by decide) (Nat.two_pow_pos v.blocksizeHint)
    change 0 = _ at hlen
    omega
  | cons e es => exact ⟨e, es, rfl⟩

theorem blocks_first (after : Bytes) (dpos : Nat) {i : Inode} (hb : i.firstBlock ≠ 0) :
    ∃ bs, listBlocks v after dpos i.dbp.toList 0 =
      match listLoop v.blocksize dpos (dpos + 1) 0 0 (v.block i.firstBlock ++ after) with
      | none => none
      | some none => some none
      | some (some (j, dirp)) =>
        if j = dpos then some (some dirp) else listBlocks v after dpos bs j := by
  obtain ⟨bs, hbs⟩ := dbp_cons i
  exact ⟨bs, by rw [hbs, listBlocks, if_neg hb]; rfl⟩

/-- There are never too many entries for the check on the position. -/
theorem position_checked (hv : WellFormed v) (hd : (v.inode d).isDirectory)
    (hk : k < (entriesOf v (v.inode d).firstBlock).length) : k < 12 * (v.blocksize / 8) := by
  have hlen := (first_filled hv hd).length_le
  have hsize : (v.block (v.inode d).firstBlock).length = v.blocksize := v.block_length _
  rw [hsize] at hlen
  omega

/-- The walk of a block begins with all of it ahead. -/
theorem first_block_length (v : Volume) (b : Nat) : 0 + (v.block b).length = v.blocksize := by
  rw [Nat.zero_add]
  exact v.block_length b

/-- The call at the position of a leading entry returns its name. -/
theorem call_leading (hv : WellFormed v) (hd : (v.inode d).isDirectory)
    (hfind : ext2FindFileInode v after f.respath = some (d, v.inode d))
    (fresh : Vector UInt8 dNameSize)
    (hk : f.dpos < (leading (entriesOf v (v.inode d).firstBlock)).length) :
    ∃ e, (leading (entriesOf v (v.inode d).firstBlock))[f.dpos]? = some e ∧
      ext2ListDirectory v after fresh f =
        if e.name.length > dNameSize then none
        else some (some ⟨d % 2 ^ 16, e.name ++ fresh.toList.drop e.name.length⟩,
          { f with dpos := f.dpos + 1 }) := by
  obtain ⟨e, es, hes⟩ := first_cons hv hd
  have hfill := first_filled hv hd
  have hlimit : f.dpos < 12 * (v.blocksize / 8) := by
    refine position_checked hv hd (Nat.lt_of_lt_of_le hk ?_)
    rw [hes]
    exact Nat.succ_le_succ (List.takeWhile_prefix _).length_le
  rw [hes] at hfill hk ⊢
  have hsize := first_block_length v (v.inode d).firstBlock
  obtain ⟨mem, x, hx, hentry, hloop⟩ := list_reaches (j := 0) f.dpos hfill hsize
    (Nat.le_of_lt_succ hk) (Nat.lt_succ_self _) after
  rw [Nat.zero_add] at hloop
  obtain ⟨bs, hblocks⟩ := blocks_first (v := v) after f.dpos (hv.first d hd)
  rw [hloop] at hblocks
  simp only [↓reduceIte] at hblocks
  obtain ⟨_, _, y, hy, hlen, hname⟩ := entry_at_iff.mp (entry_at_append after hentry)
  have hcount : y.toNat = x.name.length := by
    rw [← hname, List.length_take, List.length_drop]
    omega
  rw [hcount] at hname hlen
  refine ⟨x, hx, ?_⟩
  unfold ext2ListDirectory
  rw [hfind]
  simp only [hlimit, ↓reduceIte, hblocks, hy, hname, hcount]
  by_cases hlong : x.name.length > dNameSize
  · rw [if_pos (.inl hlong), if_pos hlong]
  · rw [if_neg (by omega), if_neg hlong]

theorem call_ended (hv : WellFormed v) (hd : (v.inode d).isDirectory)
    (hfind : ext2FindFileInode v after f.respath = some (d, v.inode d))
    (fresh : Vector UInt8 dNameSize)
    (hk : (leading (entriesOf v (v.inode d).firstBlock)).length ≤ f.dpos)
    (hend : (leading (entriesOf v (v.inode d).firstBlock)).length <
      (entriesOf v (v.inode d).firstBlock).length) :
    ext2ListDirectory v after fresh f =
      if f.dpos < 12 * (v.blocksize / 8) then some (none, f) else none := by
  obtain ⟨e, es, hes⟩ := first_cons hv hd
  have hfill := first_filled hv hd
  rw [hes] at hfill hk hend
  have hsize := first_block_length v (v.inode d).firstBlock
  have hloop := list_ends (j := 0) f.dpos hfill hsize hk (Nat.lt_of_succ_lt_succ hend)
    (Nat.lt_succ_self _) after
  rw [Nat.zero_add] at hloop
  obtain ⟨bs, hblocks⟩ := blocks_first (v := v) after f.dpos (hv.first d hd)
  rw [hloop] at hblocks
  unfold ext2ListDirectory
  rw [hfind]
  simp only [hblocks]

theorem call_overruns (hv : WellFormed v) (hd : (v.inode d).isDirectory)
    (hfind : ext2FindFileInode v [] f.respath = some (d, v.inode d))
    (fresh : Vector UInt8 dNameSize)
    (hk : (leading (entriesOf v (v.inode d).firstBlock)).length ≤ f.dpos)
    (hend : ¬ (leading (entriesOf v (v.inode d).firstBlock)).length <
      (entriesOf v (v.inode d).firstBlock).length) :
    ext2ListDirectory v [] fresh f = none := by
  obtain ⟨e, es, hes⟩ := first_cons hv hd
  have hfill := first_filled hv hd
  rw [hes] at hfill hk hend
  have hsize := first_block_length v (v.inode d).firstBlock
  have hall : es.takeWhile (fun e => decide (e.name ≠ [])) = es :=
    (List.takeWhile_prefix _).eq_of_length_le
      (Nat.le_of_succ_le_succ (Nat.le_of_not_lt hend))
  have hlt : es.length < f.dpos := by
    have hlen : (leading (e :: es)).length = es.length + 1 := by
      simp only [leading, hall, List.length_cons]
    omega
  have hloop := list_overruns (j := 0) f.dpos hfill hsize hall hlt (Nat.lt_succ_self _)
  rw [Nat.zero_add, ← List.append_nil (v.block _)] at hloop
  obtain ⟨bs, hblocks⟩ := blocks_first (v := v) [] f.dpos (hv.first d hd)
  rw [hloop] at hblocks
  unfold ext2ListDirectory
  rw [hfind]
  simp only [hblocks, ite_self]

end Call

theorem leading_terminator (h : Filled mem es) (he : e ∈ leading es) : 0 ∉ e.name := by
  cases es with
  | nil => cases he
  | cons d es =>
    refine h.terminator e ?_
    rcases List.mem_cons.mp he with rfl | he
    · exact List.mem_cons_self
    · exact List.mem_cons_of_mem _ ((List.takeWhile_prefix _).mem he)

/-- The struct made from a leading entry shows what it is completed to. -/
theorem shows_iff (h : 0 ∉ e.name) :
    Shows u ⟨d % 2 ^ 16, e.name ++ fresh.toList.drop e.name.length⟩ ↔ Completes d fresh e u := by
  constructor
  · intro hs
    refine ⟨hs.ino.symm, ?_, (List.mem_append.mp hs.ends).resolve_left h⟩
    rw [← cstr_append _ _ h]
    exact hs.name
  · intro hc
    refine ⟨hc.ino.symm, ?_, List.mem_append_right _ hc.ends⟩
    exact (cstr_append _ _ h).trans hc.name

theorem Completes.fits (h : Completes d fresh e u) : ¬ e.name.length > dNameSize := by
  have hpos := List.length_pos_of_mem h.ends
  rw [List.length_drop, fresh.length_toList] at hpos
  omega

section Run
variable {v : Volume} {d : Nat} {f : File} {after : Bytes}
  {fresh : Nat → Vector UInt8 dNameSize} {us : List DirEntry}

theorem listed_of_completes (hv : WellFormed v) (hd : (v.inode d).isDirectory)
    (hfind : ext2FindFileInode v after f.respath = some (d, v.inode d))
    (hend : (leading (entriesOf v (v.inode d).firstBlock)).length <
      (entriesOf v (v.inode d).firstBlock).length)
    (hcount : f.dpos + us.length = (leading (entriesOf v (v.inode d).firstBlock)).length)
    (hall : ∀ (k : Nat) (e u : DirEntry),
      (leading (entriesOf v (v.inode d).firstBlock))[f.dpos + k]? = some e →
      us[k]? = some u → Completes d (fresh (f.dpos + k)) e u) :
    Listed v after fresh f us := by
  induction us generalizing f with
  | nil =>
    change f.dpos = _ at hcount
    have hcall := call_ended hv hd hfind (fresh f.dpos) (by omega) hend
    rw [if_pos (position_checked hv hd (by omega))] at hcall
    exact hcall
  | cons u us ih =>
    rw [List.length_cons] at hcount
    obtain ⟨e, he, hcall⟩ := call_leading hv hd hfind (fresh f.dpos) (by omega)
    have hc : Completes d (fresh f.dpos) e u := hall 0 e u he rfl
    rw [if_neg hc.fits] at hcall
    have hname := leading_terminator (first_filled hv hd) (List.mem_of_getElem? he)
    refine ⟨_, _, hcall, (shows_iff hname).mpr hc,
      ih (f := { f with dpos := f.dpos + 1 }) hfind ?_ ?_⟩
    · change f.dpos + 1 + us.length = _
      omega
    · intro k e' u' he' hu'
      change (leading _)[f.dpos + 1 + k]? = _ at he'
      change Completes d (fresh (f.dpos + 1 + k)) e' u'
      rw [Nat.add_assoc, Nat.add_comm 1 k] at he' ⊢
      exact hall (k + 1) e' u' he' hu'

/-- A call that returns no entry has come to the end of the leading ones, and there is
an entry behind them. -/
theorem ended_of_call (hv : WellFormed v) (hd : (v.inode d).isDirectory)
    (hfind : ext2FindFileInode v [] f.respath = some (d, v.inode d))
    {fresh : Vector UInt8 dNameSize} (h : ext2ListDirectory v [] fresh f = some (none, f)) :
    (leading (entriesOf v (v.inode d).firstBlock)).length ≤ f.dpos ∧
      (leading (entriesOf v (v.inode d).firstBlock)).length <
        (entriesOf v (v.inode d).firstBlock).length := by
  have hk : (leading (entriesOf v (v.inode d).firstBlock)).length ≤ f.dpos := by
    by_contra hlt
    obtain ⟨e, _, he⟩ := call_leading hv hd hfind fresh (Nat.lt_of_not_le hlt)
    rw [h] at he
    split at he <;> cases he
  refine ⟨hk, ?_⟩
  by_contra hend
  rw [call_overruns hv hd hfind fresh hk hend] at h
  cases h

/-- A call that returns an entry returns the leading one at the position. -/
theorem leading_of_call (hv : WellFormed v) (hd : (v.inode d).isDirectory)
    (hfind : ext2FindFileInode v [] f.respath = some (d, v.inode d))
    {fresh : Vector UInt8 dNameSize} (h : ext2ListDirectory v [] fresh f = some (some de, f')) :
    ∃ e, (leading (entriesOf v (v.inode d).firstBlock))[f.dpos]? = some e ∧
      de = ⟨d % 2 ^ 16, e.name ++ fresh.toList.drop e.name.length⟩ ∧
      f' = { f with dpos := f.dpos + 1 } := by
  have hk : f.dpos < (leading (entriesOf v (v.inode d).firstBlock)).length := by
    by_contra hge
    have hge := Nat.le_of_not_lt hge
    by_cases hend : (leading (entriesOf v (v.inode d).firstBlock)).length <
        (entriesOf v (v.inode d).firstBlock).length
    · rw [call_ended hv hd hfind fresh hge hend] at h
      split at h <;> cases h
    · rw [call_overruns hv hd hfind fresh hge hend] at h
      cases h
  obtain ⟨e, he, hcall⟩ := call_leading hv hd hfind fresh hk
  rw [h] at hcall
  split at hcall
  · cases hcall
  · cases hcall
    exact ⟨e, he, rfl, rfl⟩

theorem completes_of_listed (hv : WellFormed v) (hd : (v.inode d).isDirectory)
    (hfind : ext2FindFileInode v [] f.respath = some (d, v.inode d))
    (hpos : f.dpos ≤ (leading (entriesOf v (v.inode d).firstBlock)).length)
    (h : Listed v [] fresh f us) :
    (leading (entriesOf v (v.inode d).firstBlock)).length <
        (entriesOf v (v.inode d).firstBlock).length ∧
      f.dpos + us.length = (leading (entriesOf v (v.inode d).firstBlock)).length ∧
      ∀ (k : Nat) (e u : DirEntry),
        (leading (entriesOf v (v.inode d).firstBlock))[f.dpos + k]? = some e →
        us[k]? = some u → Completes d (fresh (f.dpos + k)) e u := by
  induction us generalizing f with
  | nil =>
    obtain ⟨hk, hend⟩ := ended_of_call hv hd hfind h
    refine ⟨hend, Nat.le_antisymm hpos hk, ?_⟩
    intro k e u _ hu
    cases hu
  | cons u us ih =>
    obtain ⟨de, f', hcall, hshows, hrest⟩ := h
    obtain ⟨e, he, rfl, rfl⟩ := leading_of_call hv hd hfind hcall
    have hname := leading_terminator (first_filled hv hd) (List.mem_of_getElem? he)
    have hk := (List.getElem?_eq_some_iff.mp he).1
    obtain ⟨hend, hcount, hall⟩ := ih (f := { f with dpos := f.dpos + 1 }) hfind hk hrest
    change f.dpos + 1 + us.length = _ at hcount
    refine ⟨hend, by rw [List.length_cons]; omega, ?_⟩
    intro k e' u' he' hu'
    cases k with
    | zero =>
      rw [Nat.add_zero, he] at he'
      cases he'
      cases hu'
      exact (shows_iff hname).mp hshows
    | succ k =>
      rw [Nat.add_comm k 1, ← Nat.add_assoc] at he' ⊢
      exact hall k e' u' he' hu'

/-- Whatever is listed carries the number of the directory. -/
theorem listed_number (hv : WellFormed v) (hd : (v.inode d).isDirectory)
    (hfind : ext2FindFileInode v [] f.respath = some (d, v.inode d)) (hstart : f.dpos = 0)
    (h : Listed v [] fresh f us) : ∀ u ∈ us, u.inode = d % 2 ^ 16 := by
  obtain ⟨_, hcount, hall⟩ := completes_of_listed hv hd hfind (by omega) h
  intro u hu
  obtain ⟨k, hk, hget⟩ := List.getElem_of_mem hu
  exact (hall k _ u (List.getElem?_eq_getElem (by omega))
    (List.getElem?_eq_some_iff.mpr ⟨hk, hget⟩)).ino

end Run

theorem open_start (hopen : ∀ after, vfsOpen v after path = some (some f)) : f.dpos = 0 := by
  rw [(open_found (hopen [])).1]

/-- Successive calls list a directory, in whatever memory they run, if and only
if the names of its first block, up to one that is empty, are the listing. -/
theorem directory_listed_iff (v : Volume) (path : Bytes) (f : File)
    (fresh : Nat → Vector UInt8 dNameSize) (hv : WellFormed v)
    (hopen : ∀ after, vfsOpen v after path = some (some f))
    (hd : (v.inode f.inode).isDirectory) :
    (∀ after, Listed v after fresh f (inUse v (v.inode f.inode))) ↔
      Listable v f.inode fresh := by
  have hfind := open_finds hopen
  have hstart := open_start hopen
  constructor
  · intro h
    obtain ⟨hend, hcount, hall⟩ := completes_of_listed hv hd (hfind [])
      (by rw [hstart]; exact Nat.zero_le _) (h [])
    simp only [hstart, Nat.zero_add] at hcount hall
    exact ⟨hend, hcount.symm, hall⟩
  · intro h after
    refine listed_of_completes hv hd (hfind after) h.ended ?_ ?_
    · rw [hstart, Nat.zero_add]
      exact h.count.symm
    · simp only [hstart, Nat.zero_add]
      exact h.completes

/-- An empty root directory: both its entries name itself, and an unused entry
follows them. -/
def bareRoot : Volume :=
  volumeOf [[], entryBytes 2 12 [46] ++ entryBytes 2 12 [46, 46] ++ entryBytes 0 1000 []]
    [(2, ⟨0x4000, 1024, directs [1], 0, 0⟩)]

def zeroed : Vector UInt8 dNameSize := Vector.replicate dNameSize 0

def openedRoot : File := ⟨[slash], 2, 0, 0⟩

theorem open_bare (after : Bytes) : vfsOpen bareRoot after [slash] = some (some openedRoot) :=
  open_within (by decide +kernel) after

theorem bare_entries : entriesOf bareRoot (bareRoot.inode openedRoot.inode).firstBlock =
    [⟨2, 12, [46]⟩, ⟨2, 12, [46, 46]⟩, ⟨0, 1000, []⟩] := by
  decide +kernel

theorem bare_in_use : inUse bareRoot (bareRoot.inode openedRoot.inode) =
    [⟨2, 12, [46]⟩, ⟨2, 12, [46, 46]⟩] := by
  decide +kernel

theorem bare_listable : Listable bareRoot openedRoot.inode (fun _ => zeroed) := by
  refine ⟨?_, ?_, ?_⟩
  · rw [bare_entries]
    decide
  · rw [bare_entries, bare_in_use]
    decide
  · intro k e u he hu
    rw [bare_entries] at he
    rw [bare_in_use] at hu
    match k with
    | 0 =>
      cases he
      cases hu
      exact ⟨rfl, by decide, by decide⟩
    | 1 =>
      cases he
      cases hu
      exact ⟨rfl, by decide, by decide⟩
    | k + 2 => cases hu

theorem directory_listed_bare :
    WellFormed bareRoot ∧ ∀ after, Listed bareRoot after (fun _ => zeroed) openedRoot
      (inUse bareRoot (bareRoot.inode openedRoot.inode)) := by
  have hv : WellFormed bareRoot := volume_of_well_formed _ _ rfl (by decide +kernel)
  refine ⟨hv, ?_⟩
  rw [directory_listed_iff bareRoot [slash] openedRoot (fun _ => zeroed) hv open_bare
    (by decide)]
  exact bare_listable

/-- The file "a" of the root directory, inode 11, is listed as inode 2. -/
theorem listing_shows_directory :
    ¬ ∀ v path f fresh, WellFormed v → (∀ after, vfsOpen v after path = some (some f)) →
      (v.inode f.inode).isDirectory →
      ∀ after, Listed v after fresh f (inUse v (v.inode f.inode)) := by
  intro h
  have hnumber : ∀ v path f, WellFormed v → (∀ after, vfsOpen v after path = some (some f)) →
      (v.inode f.inode).isDirectory →
      ∀ u ∈ inUse v (v.inode f.inode), u.inode = f.inode % 2 ^ 16 :=
    fun v path f hv hopen hd =>
      listed_number hv hd (open_finds hopen []) (open_start hopen)
        (h v path f (fun _ => zeroed) hv hopen hd [])
  have hv : WellFormed shownVolume := volume_of_well_formed _ _ rfl (by decide +kernel)
  have hopen : ∀ after, vfsOpen shownVolume after [slash] = some (some openedRoot) :=
    open_within (by decide +kernel)
  have hused : ⟨11, 12, [97]⟩ ∈ inUse shownVolume (shownVolume.inode openedRoot.inode) := by
    decide +kernel
  exact absurd (hnumber shownVolume [slash] openedRoot hv hopen (by decide) _ hused)
    (by decide)

end Levos.Proofs.Listing
