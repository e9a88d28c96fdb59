import Levos.Library.Lists
import Levos.Library.Spaced
import Levos.Proofs.Malloc

namespace Levos.Proofs.Blocks
open Library Liballoc Levos.Proofs.Malloc

/-- A chunk reaches from its header to the end of its memory. -/
def lo (c : Minor) : Nat := c.addr.toNat
def hi (c : Minor) : Nat := c.addr.toNat + 24 + c.size.toNat

/-- Where the chunks of a block may lie. -/
def base (m : Major) : Nat := m.addr.toNat + 24
def top (m : Major) : Nat := m.addr.toNat + m.size.toNat

/-- A block whose chunks lie in it in order and are counted. -/
structure SoundBlock (m : Major) : Prop where
  nonnull : m.addr ≠ 0
  inside : top m ≤ 2 ^ 32
  spaced : Spaced lo hi (base m) (top m) m.minors
  usage : m.usage.toNat = 24 + covered lo hi m.minors
  sized : ∀ c ∈ m.minors, c.reqSize.toNat + 32 ≤ c.size.toNat

/-- Blocks that do not overlap. -/
structure Sound (majors : List Major) : Prop where
  block : ∀ m ∈ majors, SoundBlock m
  apart : majors.Pairwise (fun m n => top m ≤ n.addr.toNat ∨ top n ≤ m.addr.toNat)

variable {m : Major} {c x : Minor} {as bs minors : List Minor} {majors pre post : List Major}
  {size reqSize : UInt32}

theorem need_toNat (h : size.toNat + 24 < 2 ^ 32) : (need size).toNat = size.toNat + 24 := by
  rw [need, UInt32.toNat_add]
  exact Nat.mod_eq_of_lt h

theorem hi_sub_lo (c : Minor) : hi c - lo c = 24 + c.size.toNat := by
  simp only [hi, lo]
  omega

theorem lo_le_hi (c : Minor) : lo c ≤ hi c := by
  simp only [hi, lo]
  omega

/-- The distance between two places of the address space. -/
theorem sub_toNat {a b : UInt32} (h : b.toNat ≤ a.toNat) : (a - b).toNat = a.toNat - b.toNat :=
  UInt32.toNat_sub_of_le a b (UInt32.le_iff_toNat_le.mpr h)

theorem SoundBlock.addr_pos (h : SoundBlock m) : 0 < m.addr.toNat := by
  refine Nat.pos_of_ne_zero ?_
  intro hz
  exact h.nonnull (UInt32.toNat_inj.mp hz)

/-- The free memory of a block is what its chunks leave. -/
theorem SoundBlock.free_toNat (h : SoundBlock m) :
    (free m).toNat = top m - base m - covered lo hi m.minors := by
  have htaken := h.spaced.covered_le
  have husage := h.usage
  simp only [top, base] at htaken ⊢
  rw [free, sub_toNat (by omega)]
  omega

/-- The gap in front of the first chunk. -/
theorem SoundBlock.front_gap (h : SoundBlock m) (hm : m.minors = c :: bs) :
    (frontGap m c).toNat = lo c - base m := by
  have hspaced := h.spaced
  rw [hm] at hspaced
  have hfirst := hspaced.1
  have hheader : headerSize.toNat = 24 := rfl
  simp only [base, lo] at hfirst ⊢
  rw [frontGap, sub_toNat (by rw [sub_toNat (by omega)]; omega), sub_toNat (by omega)]
  omega

/-- The gap between two chunks. -/
theorem SoundBlock.inner_gap (h : SoundBlock m) (hm : m.minors = as ++ c :: x :: bs) :
    (x.addr - c.addr - headerSize - c.size).toNat = lo x - hi c := by
  have hspaced := h.spaced
  rw [hm] at hspaced
  have hnext := (spaced_append.mp hspaced).2.2.2.1
  have hheader : headerSize.toNat = 24 := rfl
  have hfirst : (x.addr - c.addr).toNat = x.addr.toNat - c.addr.toNat := by
    refine sub_toNat ?_
    simp only [lo, hi] at hnext
    omega
  simp only [lo, hi] at hnext ⊢
  rw [sub_toNat (by rw [sub_toNat (by omega)]; omega), sub_toNat (by omega)]
  omega

/-- The room behind the last chunk. The end of the block may be that of the address
space, where the sum wraps to zero. -/
theorem SoundBlock.end_gap (h : SoundBlock m) (hm : m.minors = as ++ [c]) :
    (endGap m c).toNat = top m - hi c := by
  have hspaced := h.spaced
  rw [hm] at hspaced
  have hlast := (spaced_append.mp hspaced).2
  have hlow := hlast.1
  have hend : hi c ≤ top m := hlast.2.2
  have hinside := h.inside
  have hheader : headerSize.toNat = 24 := rfl
  have hsize := m.size.toNat_lt
  have haddr := m.addr.toNat_lt
  simp only [top, hi] at hend hinside ⊢
  simp only [endGap, UInt32.toNat_sub, UInt32.toNat_add, hheader]
  omega

/-- The address behind a chunk. -/
theorem behind_toNat (h : hi c < 2 ^ 32) : (c.addr + headerSize + c.size).toNat = hi c := by
  have hheader : headerSize.toNat = 24 := rfl
  simp only [hi] at h ⊢
  simp only [UInt32.toNat_add, hheader]
  omega

theorem base_toNat (h : base m < 2 ^ 32) : (m.addr + headerSize).toNat = base m := by
  have hheader : headerSize.toNat = 24 := rfl
  simp only [base] at h ⊢
  simp only [UInt32.toNat_add, hheader]
  omega

/-- A chunk has been put into a gap of a block. -/
structure Inserted (m : Major) (as bs : List Minor) (x : Minor) (m' : Major) : Prop where
  old : m.minors = as ++ bs
  new : m' = { m with usage := m.usage + need x.size, minors := as ++ x :: bs }
  place : lo x = endOf hi (base m) as
  room : hi x ≤ startOf lo (top m) bs

/-- What the loop over the chunks has measured is the room behind the chunk. -/
theorem SoundBlock.scan_room (h : SoundBlock m) (hsize : size.toNat + 24 < 2 ^ 32)
    (hm : m.minors = as ++ c :: bs)
    (hcase : exit = Exit.behind ∧ bs = [] ∧ need size ≤ endGap m c ∨
      exit = .between ∧ ∃ x xs, bs = x :: xs ∧
        need size ≤ x.addr - c.addr - headerSize - c.size) :
    hi c + 24 + size.toNat ≤ startOf lo (top m) bs := by
  have hneed := need_toNat hsize
  have hspaced := h.spaced
  rw [hm] at hspaced
  have hstart := (spaced_append.mp hspaced).2.2.2.start_le
  rcases hcase with ⟨-, rfl, hroom⟩ | ⟨-, x, xs, rfl, hroom⟩
  · have hgap := UInt32.le_iff_toNat_le.mp hroom
    rw [h.end_gap hm, hneed] at hgap
    simp only [startOf, List.head?_nil, Option.map_none, Option.getD_none] at hstart ⊢
    omega
  · have hgap := UInt32.le_iff_toNat_le.mp hroom
    rw [h.inner_gap hm, hneed] at hgap
    simp only [startOf, List.head?_cons, Option.map_some, Option.getD_some] at hstart ⊢
    omega

theorem SoundBlock.start_le (h : SoundBlock m) (hm : m.minors = as ++ bs) :
    startOf lo (top m) bs ≤ top m := by
  cases bs with
  | nil => exact Nat.le_refl _
  | cons c bs =>
    have := (h.spaced.mem (x := c) (by simp [hm]))
    simp only [startOf, List.head?_cons, Option.map_some, Option.getD_some]
    omega

/-- Free memory of a block: so many bytes that no chunk reaches into. -/
structure Gap (m : Major) (len a : Nat) : Prop where
  low : base m ≤ a
  high : a + len ≤ top m
  free : ∀ c ∈ m.minors, hi c ≤ a ∨ a + len ≤ lo c

theorem inner_gap_mem (as bs : List Minor) (c x : Minor) :
    x.addr - c.addr - headerSize - c.size ∈ innerGaps (as ++ c :: x :: bs) := by
  induction as with
  | nil => exact List.mem_cons_self
  | cons d as ih =>
    cases as with
    | nil => exact List.mem_cons_of_mem _ ih
    | cons e as => exact List.mem_cons_of_mem _ ih

/-- A full block has no gap for the request and its header. -/
theorem SoundBlock.no_gap (h : SoundBlock m) (hsize : size.toNat + 24 < 2 ^ 32)
    (hfull : Full m size) (a : Nat) : ¬ Gap m (size.toNat + 24) a := by
  intro hgap
  have hneed := need_toNat hsize
  obtain ⟨as, bs, hsplit, hend, hstart⟩ := h.spaced.split hgap.low hgap.high hgap.free
  have hspaced := h.spaced
  rw [hsplit] at hspaced
  rcases hfull with hlow | ⟨hpacked, last, hlast, hendgap⟩
  · have hfree := UInt32.lt_iff_toNat_lt.mp hlow
    have hgaps := hspaced.gap_le
    rw [h.free_toNat, hneed, hsplit] at hfree
    omega
  · rcases List.eq_nil_or_concat' as with rfl | ⟨as, c, rfl⟩
    · cases bs with
      | nil => simp [hsplit] at hlast
      | cons x bs =>
        have hfront := UInt32.lt_iff_toNat_lt.mp (hpacked.front x (by simp [hsplit]))
        rw [h.front_gap (by simpa using hsplit), hneed] at hfront
        simp only [endOf, startOf, List.getLast?_nil, List.head?_cons, Option.map_none,
          Option.map_some, Option.getD_none, Option.getD_some] at hend hstart
        omega
    · simp only [endOf, List.getLast?_append, List.getLast?_singleton, Option.some_or,
        Option.map_some, Option.getD_some] at hend
      cases bs with
      | nil =>
        rw [List.append_nil] at hsplit
        have hlc : last = c := by simpa [hsplit] using hlast.symm
        subst hlc
        have hroom := UInt32.lt_iff_toNat_lt.mp hendgap
        rw [h.end_gap hsplit, hneed] at hroom
        simp only [startOf, List.head?_nil, Option.map_none, Option.getD_none] at hstart
        omega
      | cons x bs =>
        have hsplit' : m.minors = as ++ c :: x :: bs := by simpa using hsplit
        have hin := hpacked.inner _ (hsplit' ▸ inner_gap_mem as bs c x)
        have hroom := UInt32.lt_iff_toNat_lt.mp hin
        rw [h.inner_gap hsplit', hneed] at hroom
        simp only [startOf, List.head?_cons, Option.map_some, Option.getD_some] at hstart
        omega

section Inserted

variable {m' : Major}

/-- The gap a new chunk has been put into. -/
theorem Inserted.gap (hins : Inserted m as bs x m') (h : SoundBlock m) :
    Gap m (x.size.toNat + 24) (lo x) := by
  have hspaced := h.spaced
  rw [hins.old] at hspaced
  have hnew : Spaced lo hi (base m) (top m) (as ++ x :: bs) :=
    hspaced.insert (Nat.le_of_eq hins.place.symm) (lo_le_hi x) hins.room
  have hx := hnew.mem (x := x) (by simp)
  have hhi : hi x = lo x + (x.size.toNat + 24) := by
    simp only [hi, lo]
    omega
  refine ⟨hx.1, by omega, ?_⟩
  intro c hc
  have hpair := hnew.pairwise
  rw [List.pairwise_append, List.pairwise_cons] at hpair
  rw [hins.old] at hc
  rcases List.mem_append.mp hc with hc | hc
  · exact .inl (hpair.2.2 c hc x List.mem_cons_self)
  · exact .inr (hhi ▸ hpair.2.1.1 c hc)

theorem Inserted.addr_eq (h : Inserted m as bs x m') : m'.addr = m.addr := by rw [h.new]

theorem Inserted.top_eq (h : Inserted m as bs x m') : top m' = top m := by
  rw [h.new]
  rfl

theorem Inserted.front_addr (hins : Inserted m [] bs x m') : x.addr = m.addr + headerSize := by
  have hplace : x.addr.toNat = base m := hins.place
  have hlt := x.addr.toNat_lt
  exact UInt32.toNat_inj.mp (hplace.trans (base_toNat (by omega)).symm)

theorem Inserted.behind_addr (hins : Inserted m (as ++ [c]) bs x m') :
    x.addr = c.addr + headerSize + c.size := by
  have hplace : x.addr.toNat = hi c := by simpa [lo, endOf] using hins.place
  have hlt := x.addr.toNat_lt
  exact UInt32.toNat_inj.mp (hplace.trans (behind_toNat (by omega)).symm)

/-- The new chunk keeps its block sound. -/
theorem Inserted.sound (hins : Inserted m as bs x m') (h : SoundBlock m)
    (hsize : x.reqSize.toNat + 32 ≤ x.size.toNat) : SoundBlock m' := by
  have hspaced := h.spaced
  rw [hins.old] at hspaced
  have hnew : Spaced lo hi (base m) (top m) (as ++ x :: bs) :=
    hspaced.insert (Nat.le_of_eq hins.place.symm) (lo_le_hi x) hins.room
  have hfits := hnew.covered_le
  have husage := h.usage
  have hinside := h.inside
  have hpos := h.addr_pos
  have hx := hi_sub_lo x
  have hneed : (need x.size).toNat = x.size.toNat + 24 := by
    refine need_toNat ?_
    have := (hnew.mem (x := x) (by simp)).2.2
    have := (hnew.mem (x := x) (by simp)).1
    simp only [base, lo, hi] at *
    omega
  rw [covered_append, covered_cons] at hfits
  rw [hins.old, covered_append] at husage
  refine ⟨by rw [hins.addr_eq]; exact h.nonnull, by rw [hins.top_eq]; exact hinside, ?_, ?_, ?_⟩
  · rw [hins.new]
    exact hnew
  · rw [hins.new]
    simp only [covered_append, covered_cons, UInt32.toNat_add]
    simp only [base] at hfits
    omega
  · rw [hins.new]
    intro c hc
    rcases List.mem_append.mp hc with hc | hc
    · exact h.sized c (by simp [hins.old, hc])
    · rcases List.mem_cons.mp hc with rfl | hc
      · exact hsize
      · exact h.sized c (by simp [hins.old, hc])

end Inserted

/-- One block is replaced by another at the same place. -/
theorem Sound.replace {m' : Major} (h : Sound (pre ++ m :: post)) (hm : SoundBlock m')
    (haddr : m'.addr = m.addr) (htop : top m' = top m) : Sound (pre ++ m' :: post) := by
  have hpair := h.apart
  refine ⟨?_, ?_⟩
  · intro n hn
    rcases List.mem_append.mp hn with hn | hn
    · exact h.block n (by simp [hn])
    · rcases List.mem_cons.mp hn with rfl | hn
      · exact hm
      · exact h.block n (by simp [hn])
  · rw [List.pairwise_append, List.pairwise_cons] at hpair ⊢
    simp only [List.mem_cons, forall_eq_or_imp] at hpair ⊢
    rw [haddr, htop]
    exact hpair

/-- A block that overlaps no other one is put behind them. -/
theorem Sound.concat (h : Sound majors) (hm : SoundBlock m)
    (happart : ∀ n ∈ majors, top n ≤ m.addr.toNat ∨ top m ≤ n.addr.toNat) :
    Sound (majors ++ [m]) := by
  refine ⟨?_, ?_⟩
  · intro n hn
    rcases List.mem_append.mp hn with hn | hn
    · exact h.block n hn
    · rw [List.mem_singleton.mp hn]
      exact hm
  · rw [List.pairwise_append]
    refine ⟨h.apart, List.pairwise_singleton _ _, ?_⟩
    intro n hn k hk
    rw [List.mem_singleton.mp hk]
    exact happart n hn

theorem Sound.drop (h : Sound (pre ++ m :: post)) : Sound (pre ++ post) := by
  have hsub : (pre ++ post).Sublist (pre ++ m :: post) :=
    List.Sublist.append_left (List.sublist_cons_self m post) pre
  exact ⟨fun n hn => h.block n (hsub.subset hn), h.apart.sublist hsub⟩

/-- A chunk is taken out of its block. -/
theorem SoundBlock.remove (h : SoundBlock m) (hm : m.minors = as ++ c :: bs) :
    SoundBlock { m with usage := m.usage - need c.size, minors := as ++ bs } := by
  have hspaced := h.spaced
  have husage := h.usage
  rw [hm] at hspaced
  rw [hm, covered_append, covered_cons, hi_sub_lo] at husage
  have hinside := hspaced.mem (x := c) (by simp)
  have htop := h.inside
  have hneed : (need c.size).toNat = c.size.toNat + 24 := by
    refine need_toNat ?_
    simp only [base, lo, hi] at hinside
    omega
  refine ⟨h.nonnull, htop, hspaced.remove, ?_, ?_⟩
  · rw [sub_toNat (by omega), hneed, covered_append]
    omega
  · intro d hd
    refine h.sized d ?_
    rw [hm]
    rcases List.mem_append.mp hd with hd | hd
    · simp [hd]
    · simp [hd]

/-- Headers that do not overlap. -/
def Far (a b : UInt32) : Prop := a.toNat + 24 ≤ b.toNat ∨ b.toNat + 24 ≤ a.toNat

theorem Far.symm {a b : UInt32} (h : Far a b) : Far b a := Or.symm h

instance : Std.Symm Far := ⟨fun _ _ => Far.symm⟩

theorem Far.ne {a b : UInt32} (h : Far a b) : a ≠ b := by
  rintro rfl
  rcases h with h | h <;> omega

/-- The headers of the chunks of a block. -/
def addrs (m : Major) : List UInt32 := m.minors.map (·.addr)

/-- All headers, those of a block before those of its chunks. -/
def headers (majors : List Major) : List UInt32 := majors.flatMap (fun m => m.addr :: addrs m)

theorem mem_headers {a : UInt32} :
    a ∈ headers majors ↔ ∃ m ∈ majors, a = m.addr ∨ ∃ c ∈ m.minors, c.addr = a := by
  simp [headers, addrs]

/-- A header of a block lies in it. -/
theorem SoundBlock.header (h : SoundBlock m) {a : UInt32} (hlarge : base m ≤ top m)
    (ha : a ∈ m.addr :: addrs m) : m.addr.toNat ≤ a.toNat ∧ a.toNat + 24 ≤ top m := by
  rcases List.mem_cons.mp ha with rfl | ha
  · exact ⟨Nat.le_refl _, hlarge⟩
  · obtain ⟨c, hc, rfl⟩ := List.mem_map.mp ha
    have := h.spaced.mem hc
    simp only [base, lo, hi] at this
    exact ⟨by omega, by omega⟩

theorem SoundBlock.headers_far (h : SoundBlock m) : (m.addr :: addrs m).Pairwise Far := by
  refine List.pairwise_cons.mpr ⟨?_, ?_⟩
  · intro a ha
    obtain ⟨c, hc, rfl⟩ := List.mem_map.mp ha
    have := (h.spaced.mem hc).1
    exact .inl this
  · rw [addrs, List.pairwise_map]
    refine h.spaced.pairwise.imp ?_
    intro c d hcd
    simp only [lo, hi] at hcd
    exact .inl (by omega)

/-- No two headers overlap. -/
theorem Sound.headers_far (h : Sound majors) : (headers majors).Pairwise Far := by
  rw [headers, List.pairwise_flatMap]
  refine ⟨fun m hm => (h.block m hm).headers_far, ?_⟩
  refine List.Pairwise.imp_of_mem ?_ h.apart
  intro m n hm hn hmn a ha b hb
  have ham := (h.block m hm).header (h.block m hm).spaced.bounds ha
  have hbn := (h.block n hn).header (h.block n hn).spaced.bounds hb
  rcases hmn with hmn | hmn
  · exact .inl (by omega)
  · exact .inr (by omega)

theorem Sound.header_ne_zero (h : Sound majors) {a : UInt32} (ha : a ∈ headers majors) :
    a ≠ 0 := by
  obtain ⟨m, hm, hcase⟩ := mem_headers.mp ha
  have hb := h.block m hm
  rcases hcase with rfl | ⟨c, hc, rfl⟩
  · exact hb.nonnull
  · have := (hb.spaced.mem hc).1
    intro hz
    rw [base, lo, hz] at this
    have hzero : (0 : UInt32).toNat = 0 := rfl
    omega

/-- Two headers are the same or far from each other. -/
theorem Sound.same_or_far (h : Sound majors) {a b : UInt32} (ha : a ∈ headers majors)
    (hb : b ∈ headers majors) : a = b ∨ Far a b := by
  by_cases hab : a = b
  · exact .inl hab
  · exact .inr (h.headers_far.forall ha hb hab)

end Levos.Proofs.Blocks
