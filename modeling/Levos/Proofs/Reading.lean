import Levos.Proofs.Lookup

namespace Levos.Proofs.Reading
open Levos.Proofs.Entries Levos.Proofs.Lookup

/-- Successive reads: each returns what is left of the file up to the length
asked for and moves the position by as much; `out` is all they return. -/
def Reads (v : Volume) (after : Bytes) (size : Nat) : File → List UInt32 → Bytes → Prop
  | _, [], out => out = []
  | f, len :: lens, out => ∃ n buf f' rest, vfsRead v after f len = some (n, buf, f') ∧
    n.toNat = min len.toNat (size - f.lpos.toNat) ∧ f'.lpos.toNat = f.lpos.toNat + n.toNat ∧
    out = buf.take n.toNat ++ rest ∧ Reads v after size f' lens rest

/-- The byte at a position of the buffer after some copies into it. -/
def loaded (copies : List (Nat × Bytes)) (i : Nat) : Option UInt8 :=
  copies.reverse.findSome? (fun (offset, bytes) => if offset ≤ i then bytes[i - offset]? else none)

/-- The reads return a prefix of what `ext2_read_file_full` loads. -/
def Agrees (v : Volume) (after : Bytes) (f : File) (lens : List UInt32) : Prop :=
  ∃ out copies, Reads v after (v.inode f.inode).size.toNat f lens out ∧
    ext2ReadFileFull v after f.respath = some (some copies) ∧
    ∀ i, i < out.length → out[i]? = loaded copies i

/-- A file in direct and singly indirect blocks: all the blocks its size needs
are there, and their numbers are in range. -/
structure Stored (v : Volume) (i : Inode) : Prop where
  range : ∀ b ∈ i.dbp.toList, b ≤ v.blocks
  direct : ∀ k (h : k < 12), k * v.blocksize < i.size.toNat → i.dbp[k] ≠ 0
  singly : 12 * v.blocksize < i.size.toNat → i.singlyBlock ≠ 0 ∧
    ∀ k, (12 + k) * v.blocksize < i.size.toNat →
      k < v.blocksize / 4 ∧ le (v.block i.singlyBlock) (4 * k) 4 ≠ some 0
  doubly : i.doublyBlock = 0

def total (lens : List UInt32) : Nat := (lens.map UInt32.toNat).sum

/-- All reads together stay within the file and within its first block, and
one that ends with the block finds the same bytes in the second one. -/
def Within (v : Volume) (i : Inode) (lens : List UInt32) : Prop :=
  i.size = 0 ∨ total lens ≤ i.size.toNat ∧ (total lens < v.blocksize ∨
    total lens = v.blocksize ∧ ∀ k, total lens.dropLast ≤ k → k < v.blocksize →
      (v.block i.secondBlock)[k]? = (v.block i.firstBlock)[k]?)

theorem blocksize_pos (v : Volume) : 0 < v.blocksize := by
  unfold Volume.blocksize
  rw [Nat.shiftLeft_eq]
  exact Nat.mul_pos (by decide) (Nat.two_pow_pos _)

theorem block_size (v : Volume) (b : Nat) : (v.block b).length = v.blocksize := v.block_length b

section Loaded
variable {v : Volume} {i : Inode}

theorem loaded_cons (h : ∀ c ∈ copies, k < c.1) (bytes : Bytes) :
    loaded ((0, bytes) :: copies) k = bytes[k]? := by
  have hnone : copies.reverse.findSome?
      (fun c : Nat × Bytes => if c.1 ≤ k then c.2[k - c.1]? else none) = none := by
    refine List.findSome?_eq_none_iff.mpr ?_
    intro c hc
    exact if_neg (Nat.not_le.mpr (h c (List.mem_reverse.mp hc)))
  unfold loaded
  rw [List.reverse_cons, List.findSome?_append, hnone]
  simp

theorem singly_copies (table : Bytes) (buf left k : Nat) (h : 4 * (k + left) ≤ table.length) :
    ∃ copies, readSinglyLoop v table buf left k = some copies ∧ ∀ c ∈ copies, buf ≤ c.1 := by
  induction left generalizing k with
  | zero => exact ⟨[], rfl, List.forall_mem_nil _⟩
  | succ left ih =>
    obtain ⟨n, hn⟩ := le_some table (4 * k) 4 (by omega)
    obtain ⟨copies, hc, hbuf⟩ := ih (k + 1) (by omega)
    cases n with
    | zero => exact ⟨[], by simp [readSinglyLoop, hn], List.forall_mem_nil _⟩
    | succ n =>
      refine ⟨(buf + k * v.blocksize, v.block (n + 1)) :: copies, ?_, ?_⟩
      · simp [readSinglyLoop, hn, hc]
      · exact List.forall_mem_cons.mpr ⟨Nat.le_add_right _ _, hbuf⟩

theorem indirect_copies (h : Stored v i) :
    ∃ copies, readIndirect v i = some copies ∧ ∀ c ∈ copies, 12 * v.blocksize ≤ c.1 := by
  by_cases hs : i.singlyBlock = 0
  · exact ⟨[], by simp [readIndirect, hs, h.doubly], List.forall_mem_nil _⟩
  · have hlen : 4 * (0 + v.blocksize / 4) ≤ (v.block i.singlyBlock).length := by
      rw [block_size, Nat.zero_add]
      exact Nat.mul_div_le _ _
    obtain ⟨copies, hc, hbuf⟩ := singly_copies (v := v) _ (12 * v.blocksize) _ 0 hlen
    refine ⟨copies, ?_, hbuf⟩
    simp [readIndirect, hs, h.doubly, ext2ReadSinglyLinked, hc]

theorem full_copies (h : Stored v i) (bs : List Nat) (k : Nat) (hr : ∀ b ∈ bs, b ≤ v.blocks)
    (hk : k ≤ 12) (hlen : k + bs.length = 12) :
    ∃ copies, readFullLoop v i bs k = some copies ∧ ∀ c ∈ copies, k * v.blocksize ≤ c.1 := by
  induction bs generalizing k with
  | nil =>
    obtain ⟨copies, hc, hbuf⟩ := indirect_copies h
    refine ⟨copies, hc, fun c hm => Nat.le_trans (Nat.mul_le_mul_right _ hk) (hbuf c hm)⟩
  | cons b bs ih =>
    rw [List.length_cons] at hlen
    rw [readFullLoop]
    by_cases hb : b = 0
    · rw [if_pos hb]
      exact ⟨[], rfl, List.forall_mem_nil _⟩
    · obtain ⟨copies, hc, hbuf⟩ := ih (k + 1) (fun b hm => hr b (List.mem_cons_of_mem _ hm))
        (by omega) (by omega)
      rw [if_neg hb, if_neg (Nat.not_lt.mpr (hr b List.mem_cons_self)), hc]
      refine ⟨_, rfl, List.forall_mem_cons.mpr ⟨Nat.le_refl _, ?_⟩⟩
      intro c hm
      exact Nat.le_trans (Nat.mul_le_mul_right _ (Nat.le_succ k)) (hbuf c hm)

/-- The first block of the buffer is the first block of the file. -/
theorem full_first (h : Stored v i) :
    ∃ copies, readFullLoop v i i.dbp.toList 0 = some copies ∧
      (i.size ≠ 0 → ∀ k, k < v.blocksize → loaded copies k = (v.block i.firstBlock)[k]?) := by
  obtain ⟨bs, hbs⟩ := dbp_cons i
  have hlen : bs.length = 11 := by
    have hl := i.dbp.length_toList
    rw [hbs] at hl
    exact Nat.succ.inj hl
  have hrange := h.range
  rw [hbs] at hrange ⊢
  by_cases hsize : i.size = 0
  · obtain ⟨copies, hc, _⟩ := full_copies h _ 0 hrange (by omega) (by simp [hlen])
    exact ⟨copies, hc, fun hne => absurd hsize hne⟩
  · have hb : i.firstBlock ≠ 0 := h.direct 0 (by omega) (by
      rw [Nat.zero_mul]
      exact Nat.pos_of_ne_zero (fun hz => hsize (UInt32.toNat_inj.mp hz)))
    obtain ⟨copies, hc, hoff⟩ := full_copies h bs 1
      (fun b hm => hrange b (List.mem_cons_of_mem _ hm)) (by omega) (by omega)
    refine ⟨(0 * v.blocksize, v.block i.firstBlock) :: copies, ?_, ?_⟩
    · rw [readFullLoop, if_neg hb, if_neg (Nat.not_lt.mpr (hrange _ List.mem_cons_self)), hc]
      rfl
    · intro _ k hk
      rw [Nat.zero_mul]
      refine loaded_cons ?_ _
      intro c hm
      have := hoff c hm
      omega

end Loaded

/-- The bytes reads within the first block return, from position `p` on. -/
def served (v : Volume) (i : Inode) : Nat → List UInt32 → Bytes
  | _, [] => []
  | p, len :: lens =>
    ((v.block i.dbp[(p + len.toNat) / v.blocksize % 12]).drop p).take len.toNat ++
      served v i (p + len.toNat) lens

theorem add_toNat {a b : UInt32} (h : a.toNat + b.toNat < 2 ^ 32) :
    (a + b).toNat = a.toNat + b.toNat := by
  rw [UInt32.toNat_add]
  exact Nat.mod_eq_of_lt h

theorem quotient_small (v : Volume) (h : p ≤ v.blocksize) : p / v.blocksize < 12 := by
  have hb := blocksize_pos v
  exact (Nat.div_lt_iff_lt_mul hb).mpr (by omega)

section Read
variable {v : Volume} {f : File} {i : Inode} {len : UInt32} {lens : List UInt32}

/-- A read that stays within the file and within one block. -/
theorem read_within (hi : v.inode f.inode = i) (hstat : vfsStat v after f = some (some i.size))
    (hlen : len ≠ 0) (hsize : f.lpos.toNat + len.toNat ≤ i.size.toNat)
    (hblock : f.lpos.toNat + len.toNat ≤ v.blocksize) :
    vfsRead v after f len = some (len,
      ((v.block i.dbp[(f.lpos.toNat + len.toNat) / v.blocksize % 12]).drop
        f.lpos.toNat).take len.toNat, { f with lpos := f.lpos + len }) := by
  subst hi
  have hpos : 0 < len.toNat := Nat.pos_of_ne_zero (fun h => hlen (UInt32.toNat_inj.mp h))
  have hlt := (v.inode f.inode).size.toNat_lt
  have hadd : (f.lpos + len).toNat = f.lpos.toNat + len.toNat := add_toNat (by omega)
  have hne : (v.inode f.inode).size ≠ 0 := by
    intro h
    rw [h] at hsize
    change f.lpos.toNat + len.toNat ≤ 0 at hsize
    omega
  have hfinal : ¬ f.lpos + len > (v.inode f.inode).size := by
    rw [gt_iff_lt, UInt32.lt_iff_toNat_lt, hadd]
    omega
  have hpast : ¬ f.lpos > (v.inode f.inode).size := by
    rw [gt_iff_lt, UInt32.lt_iff_toNat_lt]
    omega
  unfold vfsRead ext2ReadFile
  rw [if_neg hlen, hstat]
  simp only [hne, hpast, hfinal, hadd, ↓reduceIte, quotient_small v hblock, List.length_append,
    block_size]
  rw [if_neg (by omega), List.drop_append_of_le_length (by rw [block_size]; omega),
    List.take_append_of_le_length (by rw [List.length_drop, block_size]; omega)]

/-- A read that returns the right count without reading past its block. -/
theorem read_exact (hstat : vfsStat v [] f = some (some i.size))
    (hlen : len ≠ 0) (hne : i.size ≠ 0) (hsize : f.lpos.toNat ≤ i.size.toNat)
    (hblock : f.lpos.toNat ≤ v.blocksize) (hr : vfsRead v [] f len = some (n, buf, f'))
    (hn : n.toNat = min len.toNat (i.size.toNat - f.lpos.toNat)) :
    f.lpos.toNat + len.toNat ≤ i.size.toNat ∧ f.lpos.toNat + len.toNat ≤ v.blocksize := by
  have hpos : 0 < len.toNat := Nat.pos_of_ne_zero (fun h => hlen (UInt32.toNat_inj.mp h))
  have hpast : ¬ f.lpos > i.size := by
    rw [gt_iff_lt, UInt32.lt_iff_toNat_lt]
    omega
  obtain ⟨final, hfinal, hle⟩ : ∃ final,
      (if f.lpos + len > i.size then i.size else f.lpos + len) = final ∧
        final.toNat ≤ i.size.toNat := by
    refine ⟨_, rfl, ?_⟩
    split
    · exact Nat.le_refl _
    · rename_i h
      rw [gt_iff_lt, UInt32.lt_iff_toNat_lt] at h
      exact Nat.le_of_not_lt h
  unfold vfsRead ext2ReadFile at hr
  rw [if_neg hlen, hstat] at hr
  simp only [hne, hpast, hfinal, ↓reduceIte] at hr
  by_cases hnear : final.toNat / v.blocksize < 12
  · rw [if_pos hnear] at hr
    split at hr
    · cases hr
    · rename_i hbuf
      cases hr
      rw [List.append_nil, block_size] at hbuf
      omega
  · rw [if_neg hnear] at hr
    cases hr
    change 0 = _ at hn
    exact absurd (quotient_small v (by omega)) hnear

theorem total_cons (len : UInt32) (lens : List UInt32) :
    total (len :: lens) = len.toNat + total lens := by
  simp [total]

/-- Reads within the file and the first block, whatever is behind the block. -/
theorem reads_served (after : Bytes) (hi : v.inode f.inode = i)
    (hstat : vfsStat v after f = some (some i.size)) (hlens : ∀ len ∈ lens, len ≠ 0)
    (hsize : f.lpos.toNat + total lens ≤ i.size.toNat)
    (hblock : f.lpos.toNat + total lens ≤ v.blocksize) :
    Reads v after i.size.toNat f lens (served v i f.lpos.toNat lens) := by
  induction lens generalizing f with
  | nil => rfl
  | cons len lens ih =>
    rw [total_cons] at hsize hblock
    have hlt := i.size.toNat_lt
    have hadd : (f.lpos + len).toNat = f.lpos.toNat + len.toNat := add_toNat (by omega)
    obtain ⟨hlen, hlens⟩ := List.forall_mem_cons.mp hlens
    refine ⟨len, _, _, _, read_within hi hstat hlen (by omega) (by omega), by omega, hadd, ?_,
      ih (f := { f with lpos := f.lpos + len }) hi hstat hlens ?_ ?_⟩
    · rw [served, List.take_take, Nat.min_self]
      exact congrArg _ (congrArg (served v _ · lens) hadd.symm)
    · change (f.lpos + len).toNat + _ ≤ _
      omega
    · change (f.lpos + len).toNat + _ ≤ _
      omega

theorem reads_bounds (hi : v.inode f.inode = i) (hstat : vfsStat v [] f = some (some i.size))
    (hlens : ∀ len ∈ lens, len ≠ 0) (hne : i.size ≠ 0) (hsize : f.lpos.toNat ≤ i.size.toNat)
    (hblock : f.lpos.toNat ≤ v.blocksize) (hr : Reads v [] i.size.toNat f lens out) :
    f.lpos.toNat + total lens ≤ i.size.toNat ∧ f.lpos.toNat + total lens ≤ v.blocksize ∧
      out = served v i f.lpos.toNat lens := by
  induction lens generalizing f out with
  | nil => exact ⟨hsize, hblock, hr⟩
  | cons len lens ih =>
    obtain ⟨hlen, hlens⟩ := List.forall_mem_cons.mp hlens
    obtain ⟨n, buf, f', rest, hread, hn, _, rfl, hrest⟩ := hr
    obtain ⟨hs, hb⟩ := read_exact hstat hlen hne hsize hblock hread hn
    have hlt := i.size.toNat_lt
    have hadd : (f.lpos + len).toNat = f.lpos.toNat + len.toNat := add_toNat (by omega)
    rw [read_within hi hstat hlen hs hb] at hread
    cases hread
    obtain ⟨hs', hb', rfl⟩ := ih (f := { f with lpos := f.lpos + len }) hi hstat hlens
      (by rw [hadd]; exact hs) (by rw [hadd]; exact hb) hrest
    change (f.lpos + len).toNat + total lens ≤ _ at hs' hb'
    rw [total_cons]
    refine ⟨by omega, by omega, ?_⟩
    rw [served, List.take_take, Nat.min_self]
    exact congrArg _ (congrArg (served v _ · lens) hadd)

/-- An empty file is read as such. -/
theorem reads_empty (after : Bytes) (hstat : vfsStat v after f = some (some 0))
    (hlens : ∀ len ∈ lens, len ≠ 0) : Reads v after 0 f lens [] := by
  induction lens with
  | nil => rfl
  | cons len lens ih =>
    obtain ⟨hlen, hlens⟩ := List.forall_mem_cons.mp hlens
    have hread : vfsRead v after f len = some (0, [], f) := by
      simp [vfsRead, ext2ReadFile, hlen, hstat]
    exact ⟨0, [], f, [], hread, by simp, rfl, rfl, ih hlens⟩

end Read

section Served
variable {v : Volume} {i : Inode} {lens : List UInt32}

theorem served_append (p : Nat) (lens more : List UInt32) :
    served v i p (lens ++ more) = served v i p lens ++ served v i (p + total lens) more := by
  induction lens generalizing p with
  | nil => rfl
  | cons len lens ih =>
    rw [List.cons_append, served, served, ih, total_cons, List.append_assoc, Nat.add_assoc]

theorem served_first (h : p + total lens < v.blocksize) :
    served v i p lens = ((v.block i.firstBlock).drop p).take (total lens) := by
  induction lens generalizing p with
  | nil => simp [served, total]
  | cons len lens ih =>
    rw [total_cons] at h ⊢
    have hzero : (p + len.toNat) / v.blocksize % 12 = 0 := by
      rw [Nat.div_eq_of_lt (by omega)]
    simp only [served, hzero]
    rw [ih (by omega), List.take_add, List.drop_drop]
    rfl

/-- Reads that end with the first block: the last of them is served from the second. -/
theorem served_to_end (hlast : 0 < last.toNat) (htotal : total front + last.toNat = v.blocksize)
    (hk : k < v.blocksize) : (served v i 0 (front ++ [last]))[k]? =
      if k < total front then (v.block i.firstBlock)[k]? else (v.block i.secondBlock)[k]? := by
  have hone : (total front + last.toNat) / v.blocksize % 12 = 1 := by
    rw [htotal, Nat.div_self (blocksize_pos v)]
  have hlen : ((v.block i.firstBlock).take (total front)).length = total front := by
    rw [List.length_take, block_size]
    omega
  rw [served_append, served_first (by omega), List.drop_zero, Nat.zero_add]
  simp only [served, hone, List.append_nil]
  by_cases hkf : k < total front
  · rw [if_pos hkf, List.getElem?_append_left (by omega), List.getElem?_take, if_pos hkf]
  · rw [if_neg hkf, List.getElem?_append_right (by omega), hlen, List.getElem?_take,
      if_pos (by omega), List.getElem?_drop, Nat.add_sub_of_le (by omega)]
    rfl

/-- The bytes served agree with the first block exactly if the chunk that ends
with the block, if there is one, finds them in the second. -/
theorem served_agrees_iff (hlens : ∀ len ∈ lens, len ≠ 0) (h : total lens ≤ v.blocksize) :
    (∀ k, k < total lens → (served v i 0 lens)[k]? = (v.block i.firstBlock)[k]?) ↔
      total lens < v.blocksize ∨ total lens = v.blocksize ∧
        ∀ k, total lens.dropLast ≤ k → k < v.blocksize →
          (v.block i.secondBlock)[k]? = (v.block i.firstBlock)[k]? := by
  by_cases hlt : total lens < v.blocksize
  · refine ⟨fun _ => .inl hlt, fun _ k hk => ?_⟩
    rw [served_first (by omega), List.drop_zero, List.getElem?_take, if_pos hk]
  · have hpos := blocksize_pos v
    have htotal : total lens = v.blocksize := by omega
    have hne : lens ≠ [] := by
      rintro rfl
      change 0 = _ at htotal
      omega
    obtain ⟨front, last, rfl⟩ := (List.eq_nil_or_concat' lens).resolve_left hne
    rw [List.dropLast_concat]
    have hlast : total (front ++ [last]) = total front + last.toNat := by simp [total]
    have hlastpos : 0 < last.toNat := Nat.pos_of_ne_zero (fun h =>
      hlens last (by simp) (UInt32.toNat_inj.mp h))
    rw [hlast] at htotal
    rw [hlast, htotal]
    constructor
    · intro hall
      refine .inr ⟨rfl, fun k hkf hk => ?_⟩
      have hbyte := served_to_end (i := i) hlastpos htotal hk
      rw [hall k hk, if_neg (by omega)] at hbyte
      exact hbyte.symm
    · intro hor k hk
      obtain ⟨_, hsame⟩ := hor.resolve_left (Nat.lt_irrefl _)
      rw [served_to_end hlastpos htotal hk]
      split
      · rfl
      · rename_i hkf
        exact hsame k (by omega) hk

theorem served_length (h : p + total lens ≤ v.blocksize) :
    (served v i p lens).length = total lens := by
  induction lens generalizing p with
  | nil => rfl
  | cons len lens ih =>
    rw [total_cons] at h ⊢
    rw [served, List.length_append, ih (by omega), List.length_take, List.length_drop, block_size]
    omega

end Served

theorem stat_found {v : Volume} {f : File}
    (hfind : ext2FindFileInode v after f.respath = some (f.inode, v.inode f.inode))
    (hnode : f.inode ≠ 0) : vfsStat v after f = some (some (v.inode f.inode).size) := by
  unfold vfsStat ext2Stat
  rw [hfind, Option.map_some]
  simp only [hnode, ↓reduceIte]

theorem full_found {v : Volume} {f : File}
    (hfind : ext2FindFileInode v after f.respath = some (f.inode, v.inode f.inode))
    (hnode : f.inode ≠ 0)
    (hcopies : readFullLoop v (v.inode f.inode) (v.inode f.inode).dbp.toList 0 = some copies) :
    ext2ReadFileFull v after f.respath = some (some copies) := by
  unfold ext2ReadFileFull
  rw [hfind]
  cases hn : f.inode with
  | zero => exact absurd hn hnode
  | succ n =>
    rw [hn] at hcopies
    simp only [hcopies, Option.map_some]

/-- Reads of a freshly opened file return the counts they should and a prefix
of the file if and only if they stay within its first block. -/
theorem reads_agree_iff (v : Volume) (path : Bytes) (f : File) (lens : List UInt32)
    (hopen : ∀ after, vfsOpen v after path = some (some f))
    (hfile : Stored v (v.inode f.inode)) (hlens : ∀ len ∈ lens, len ≠ 0) :
    (∀ after, Agrees v after f lens) ↔ Within v (v.inode f.inode) lens := by
  obtain ⟨hf, hnode, _⟩ := open_found (hopen [])
  have hstart : f.lpos.toNat = 0 := by rw [hf]; rfl
  have hfind := open_finds hopen
  have hstat := fun after => stat_found (hfind after) hnode
  obtain ⟨copies, hcopies, hloaded⟩ := full_first hfile
  have hfull := fun after => full_found (hfind after) hnode hcopies
  by_cases hempty : (v.inode f.inode).size = 0
  · refine ⟨fun _ => .inl hempty, fun _ after => ⟨[], copies, ?_, hfull after, ?_⟩⟩
    · have hs := hstat after
      rw [hempty] at hs ⊢
      exact reads_empty after hs hlens
    · intro k hk
      exact absurd hk (Nat.not_lt_zero k)
  · constructor
    · intro h
      obtain ⟨out, copies', hreads, hfull', hsame⟩ := h []
      rw [hfull []] at hfull'
      cases hfull'
      obtain ⟨hs, hb, rfl⟩ := reads_bounds rfl (hstat []) hlens hempty (by omega) (by omega) hreads
      rw [hstart, Nat.zero_add] at hs hb
      refine .inr ⟨hs, (served_agrees_iff hlens hb).mp ?_⟩
      intro k hk
      rw [hstart, served_length (by omega)] at hsame
      rw [hsame k hk, hloaded hempty k (by omega)]
    · intro h after
      obtain ⟨hs, hor⟩ := h.resolve_left hempty
      have hb : total lens ≤ v.blocksize := by
        rcases hor with h | h
        · exact Nat.le_of_lt h
        · exact Nat.le_of_eq h.1
      refine ⟨_, copies, reads_served after rfl (hstat after) hlens (by omega) (by omega),
        hfull after, ?_⟩
      intro k hk
      rw [hstart] at hk ⊢
      rw [served_length (by omega)] at hk
      rw [(served_agrees_iff hlens hb).mpr hor k hk, hloaded hempty k (by omega)]

/-- The root directory has the file "a" of five bytes, in block 2. -/
def fiveBytes : Volume :=
  volumeOf [[], entryBytes 2 12 [46] ++ entryBytes 2 12 [46, 46] ++ entryBytes 11 12 [97] ++
      entryBytes 0 988 [], [104, 101, 108, 108, 111]]
    [(2, ⟨0x4000, 1024, directs [1], 0, 0⟩), (11, ⟨0x8000, 5, directs [2], 0, 0⟩)]

def openedFive : File := ⟨[slash, 97], 11, 0, 0⟩

theorem open_five (after : Bytes) :
    vfsOpen fiveBytes after [slash, 97] = some (some openedFive) :=
  open_within (by decide +kernel) after

theorem stored_five : Stored fiveBytes (fiveBytes.inode openedFive.inode) := by
  have hsize : (fiveBytes.inode openedFive.inode).size.toNat = 5 := by decide
  have hblock : fiveBytes.blocksize = 1024 := rfl
  refine ⟨by decide, ?_, ?_, rfl⟩
  · intro k hk hlt
    rw [hsize, hblock] at hlt
    obtain rfl : k = 0 := by omega
    exact Nat.succ_ne_zero 1
  · intro hlt
    rw [hsize, hblock] at hlt
    omega

theorem reads_agree_five :
    Stored fiveBytes (fiveBytes.inode openedFive.inode) ∧
      ∀ after, Agrees fiveBytes after openedFive [2, 3] :=
  ⟨stored_five, (reads_agree_iff fiveBytes [slash, 97] openedFive [2, 3] open_five stored_five
    (by simp)).mpr (.inr ⟨by decide, .inl (by decide)⟩)⟩

/-- A read that asks for more than the file has is told that it got it all. -/
theorem read_count_past_end :
    ¬ ∀ v path f lens, (∀ after, vfsOpen v after path = some (some f)) →
      Stored v (v.inode f.inode) → (∀ len ∈ lens, len ≠ 0) → ∀ after, Agrees v after f lens := by
  intro h
  obtain ⟨out, copies, hreads, _⟩ := h fiveBytes [slash, 97] openedFive [10] open_five stored_five
    (by simp) []
  obtain ⟨n, buf, f', rest, hread, hn, _⟩ := hreads
  have hten : (vfsRead fiveBytes [] openedFive 10).map Prod.fst = some 10 := by decide +kernel
  have hfive : min (UInt32.toNat 10) ((fiveBytes.inode openedFive.inode).size.toNat -
      openedFive.lpos.toNat) = 5 := by decide
  rw [hread] at hten
  cases hten
  rw [hfive] at hn
  cases hn

end Levos.Proofs.Reading
