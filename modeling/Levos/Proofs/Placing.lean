import Levos.Proofs.Headers

namespace Levos.Proofs.Placing
open Library Pool Levos.Proofs.Malloc Levos.Proofs.Blocks Levos.Proofs.Views Levos.Proofs.Headers
open Liballoc (headerSize need Exit Chosen scanMinors visit)

variable {s : Pool} {m : Major} {c d : Minor} {as bs : List Minor} {size reqSize : UInt32}
  {fuel : Nat} {view : UInt32 → Fin 6 → UInt32}

theorem chunk_ne_zero (hz : 0 ∉ addrs m) (hm : m.minors = as ++ c :: bs) : c.addr ≠ 0 := by
  intro h0
  exact hz (List.mem_map.mpr ⟨c, by simp [hm], h0⟩)

/-- The heap each exit of `malloc` leaves. -/
def placed (size reqSize : UInt32) (s : Pool) (maj min : UInt32) : Exit → Pool
  | .fresh => s.case2 size reqSize maj
  | .front => s.case3 size reqSize maj
  | .behind => s.case41 size reqSize maj min
  | .between => s.case42 size reqSize maj min

theorem minor_loop_last (h : Chunked s.get m) (hz : 0 ∉ addrs m) (hm : m.minors = as ++ [c]) :
    minorLoop size reqSize m.addr (fuel + 1) s c.addr =
      if endGap m c ≥ need size then
        some (some ⟨.behind, c.addr + headerSize + c.size,
          placed size reqSize s m.addr c.addr .behind⟩)
      else minorLoop size reqSize m.addr fuel s 0 := by
  rw [minorLoop, if_neg (chunk_ne_zero hz hm), h.next_eq hm, h.size_eq hm, h.size]
  rfl

theorem minor_loop_inner (h : Chunked s.get m) (hz : 0 ∉ addrs m)
    (hm : m.minors = as ++ c :: d :: bs) :
    minorLoop size reqSize m.addr (fuel + 1) s c.addr =
      if d.addr - c.addr - headerSize - c.size ≥ need size then
        some (some ⟨.between, c.addr + headerSize + c.size,
          placed size reqSize s m.addr c.addr .between⟩)
      else minorLoop size reqSize m.addr fuel s d.addr := by
  have hsplit : m.minors = (as ++ [c]) ++ d :: bs := by simp [hm]
  have hd : d.addr ≠ 0 := chunk_ne_zero hz hsplit
  have hnext : s.get c.addr nextAt = d.addr := h.next_eq hm
  rw [minorLoop, if_neg (chunk_ne_zero hz hm)]
  simp only [hnext, if_neg hd, h.size_eq hm]
  rfl

/-- The loop over the chunks from one of them on, when none has room behind it. -/
theorem minor_loop_none (h : Chunked s.get m) (hz : 0 ∉ addrs m) (hm : m.minors = as ++ c :: bs)
    (hfuel : bs.length + 1 < fuel) (hscan : scanMinors size reqSize m (c :: bs) = none) :
    minorLoop size reqSize m.addr fuel s c.addr = some none := by
  induction bs generalizing as c fuel with
  | nil =>
    obtain ⟨n, rfl⟩ := Nat.exists_eq_add_of_le' hfuel
    unfold scanMinors at hscan
    split at hscan
    case isTrue => cases hscan
    case isFalse hroom => exact (minor_loop_last h hz hm).trans (if_neg hroom)
  | cons d rest ih =>
    obtain ⟨n, rfl⟩ := Nat.exists_eq_add_of_le' (Nat.zero_lt_of_lt hfuel)
    have hm' : m.minors = (as ++ [c]) ++ d :: rest := by simp [hm]
    unfold scanMinors at hscan
    split at hscan
    case isTrue => cases hscan
    case isFalse hroom =>
      refine (minor_loop_inner h hz hm).trans ((if_neg hroom).trans ?_)
      exact ih hm' (Nat.lt_of_succ_lt_succ hfuel) (Option.map_eq_none_iff.mp hscan)

/-- The loop over the chunks from one of them on, when one has room: where the new chunk
is put, and how much room there is. -/
theorem minor_loop_some {addr : UInt32} {minors : List Minor} (h : Chunked s.get m)
    (hz : 0 ∉ addrs m) (hm : m.minors = as ++ c :: bs) (hfuel : bs.length < fuel)
    (hscan : scanMinors size reqSize m (c :: bs) = some (exit, addr, minors)) :
    ∃ as' d bs', c :: bs = as' ++ d :: bs' ∧ addr = d.addr + headerSize + d.size ∧
      minors = as' ++ d :: ⟨addr, size, reqSize⟩ :: bs' ∧
      (exit = .behind ∧ bs' = [] ∧ need size ≤ endGap m d ∨
        exit = .between ∧ ∃ x xs, bs' = x :: xs ∧
          need size ≤ x.addr - d.addr - headerSize - d.size) ∧
      minorLoop size reqSize m.addr fuel s c.addr =
        some (some ⟨exit, addr, placed size reqSize s m.addr d.addr exit⟩) := by
  induction bs generalizing as c fuel minors with
  | nil =>
    obtain ⟨n, rfl⟩ := Nat.exists_eq_add_of_le' hfuel
    unfold scanMinors at hscan
    split at hscan
    case isTrue hroom =>
      cases hscan
      refine ⟨[], c, [], rfl, rfl, rfl, .inl ⟨rfl, rfl, hroom⟩, ?_⟩
      exact (minor_loop_last h hz hm).trans (if_pos hroom)
    case isFalse => cases hscan
  | cons x rest ih =>
    obtain ⟨n, rfl⟩ := Nat.exists_eq_add_of_le' (Nat.zero_lt_of_lt hfuel)
    have hm' : m.minors = (as ++ [c]) ++ x :: rest := by simp [hm]
    rw [minor_loop_inner h hz hm]
    unfold scanMinors at hscan
    split at hscan
    case isTrue hroom =>
      cases hscan
      exact ⟨[], c, x :: rest, rfl, rfl, rfl, .inr ⟨rfl, x, rest, rfl, hroom⟩, if_pos hroom⟩
    case isFalse hroom =>
      obtain ⟨⟨exit', addr', rest'⟩, hrest, heq⟩ := Option.map_eq_some_iff.mp hscan
      cases heq
      obtain ⟨as', d, bs', hsplit, haddr, hminors, hcase, hloop⟩ :=
        ih hm' (Nat.lt_of_succ_lt_succ hfuel) hrest
      refine ⟨c :: as', d, bs', by rw [hsplit]; rfl, haddr, by rw [hminors]; rfl, hcase, ?_⟩
      rw [if_neg hroom]
      exact hloop

/-- Which exit is taken says on which sides of the new chunk there are others. -/
def Between (as bs : List Minor) : Exit → Prop
  | .fresh => as = [] ∧ bs = []
  | .front => as = [] ∧ bs ≠ []
  | .behind => as ≠ [] ∧ bs = []
  | .between => as ≠ [] ∧ bs ≠ []

/-- A block without a gap for the request is left. -/
theorem place_none (h : Chunked s.get m) (hz : 0 ∉ addrs m) (hfuel : m.minors.length < fuel)
    (hroom : ¬ Liballoc.free m < need size) (hv : visit size reqSize m = none) :
    place size reqSize fuel s m.addr = some none := by
  unfold visit at hv
  rw [if_neg hroom] at hv
  split at hv
  · cases hv
  · rename_i c bs hm
    have hfirst : s.get m.addr firstAt = c.addr := by rw [h.first, addrs, hm]; rfl
    have hall : m.minors = [] ++ c :: bs := hm
    have hc : c.addr ≠ 0 := chunk_ne_zero hz hall
    split at hv
    case isTrue => cases hv
    case isFalse hfront =>
      rw [place, hfirst, if_neg hc, if_neg hfront]
      rw [hm] at hfuel hv
      exact minor_loop_none h hz hall hfuel (Option.map_eq_none_iff.mp hv)

/-- A block that serves a request has the new chunk in one of its gaps, and the loop over
its chunks finds that gap. -/
theorem place_some {ch : Chosen} (hb : SoundBlock m) (h : Chunked s.get m) (hz : 0 ∉ addrs m)
    (hsize : size.toNat + 24 < 2 ^ 32) (hfuel : m.minors.length < fuel)
    (hv : visit size reqSize m = some ch) :
    ∃ as bs, Inserted m as bs ⟨ch.min, size, reqSize⟩ ch.maj ∧ Between as bs ch.exit ∧
      place size reqSize fuel s m.addr = some (some ⟨ch.exit, ch.min,
        placed size reqSize s m.addr ((as.map (·.addr)).getLast?.getD 0) ch.exit⟩) := by
  have hneed := need_toNat hsize
  have hinside := hb.inside
  unfold visit at hv
  split at hv
  · cases hv
  rename_i henough
  have henough := UInt32.le_iff_toNat_le.mp (UInt32.not_lt.mp henough)
  rw [hb.free_toNat, hneed] at henough
  have hbase := base_toNat (m := m) (by omega)
  split at hv
  · rename_i hm
    cases hv
    have hfirst : s.get m.addr firstAt = 0 := by rw [h.first, addrs, hm]; rfl
    rw [hm] at henough
    simp only [covered, List.map_nil, List.sum_nil] at henough
    refine ⟨[], [], ⟨hm, by rw [Liballoc.first, hm]; rfl, hbase, ?_⟩, ⟨rfl, rfl⟩, ?_⟩
    · simp only [hi, Liballoc.first, hbase, startOf, List.head?_nil, Option.map_none,
        Option.getD_none]
      omega
    · rw [place, if_pos hfirst]
      rfl
  · rename_i d ds hm
    have hfirst : s.get m.addr firstAt = d.addr := by rw [h.first, addrs, hm]; rfl
    have hall : m.minors = [] ++ d :: ds := hm
    have hd : d.addr ≠ 0 := chunk_ne_zero hz hall
    rw [place, hfirst, if_neg hd]
    split at hv
    · rename_i hfront
      cases hv
      have hgap := UInt32.le_iff_toNat_le.mp hfront
      have hroom := hb.front_gap hm
      rw [frontGap] at hroom
      rw [hroom, hneed] at hgap
      refine ⟨[], d :: ds, ⟨hm, by rw [Liballoc.first, hm]; rfl, hbase, ?_⟩,
        ⟨rfl, List.cons_ne_nil _ _⟩, if_pos hfront⟩
      simp only [hi, Liballoc.first, hbase, startOf, List.head?_cons, Option.map_some,
        Option.getD_some]
      omega
    · rename_i hfront
      obtain ⟨⟨exit, addr, minors'⟩, hscan, heq⟩ := Option.map_eq_some_iff.mp hv
      cases heq
      rw [hm] at hfuel hscan
      obtain ⟨as, e, bs, hsplit, rfl, rfl, hcase, hloop⟩ :=
        minor_loop_some h hz hall (Nat.lt_of_succ_lt hfuel) hscan
      rw [← hm] at hsplit
      have hroom := hb.scan_room hsize hsplit hcase
      have hbehind : m.minors = as ++ [e] ++ bs := by simp [hsplit]
      have htop := hb.start_le hbehind
      have hplace := behind_toNat (c := e) (by omega)
      refine ⟨as ++ [e], bs, ⟨hbehind, by simp, ?_, ?_⟩, ?_, ?_⟩
      · simp [lo, hplace, endOf]
      · simp only [hi, hplace]
        simp only [hi] at hroom
        omega
      · rcases hcase with ⟨rfl, rfl, -⟩ | ⟨rfl, x, xs, rfl, -⟩
        · exact ⟨by simp, rfl⟩
        · exact ⟨by simp, List.cons_ne_nil _ _⟩
      · rw [if_neg hfront, hloop]
        simp

section Placed

variable {m' : Major} {x : Minor} {pre post : List Major} {exit : Exit}

/-- The words of the headers after each of the exits. -/
theorem placed_shows (h : Chunked s.get m) (hins : Inserted m as bs x m')
    (hexit : Between as bs exit) (hs : Spread (headers (pre ++ m' :: post))) :
    Shows { s with inuse := s.inuse + x.size.toUInt64 } (headers (pre ++ m' :: post))
      (inserted s.get m.addr x.addr ((as.map (·.addr)).getLast?.getD 0)
        ((bs.map (·.addr)).head?.getD 0) x.size x.reqSize)
      (placed x.size x.reqSize s m.addr ((as.map (·.addr)).getLast?.getD 0) exit) := by
  have hnew : addrs m' = as.map (·.addr) ++ x.addr :: bs.map (·.addr) := by
    simp [addrs, hins.new]
  have hown := own_nodup hs
  have hmem : ∀ a ∈ m'.addr :: addrs m', a ∈ headers (pre ++ m' :: post) :=
    fun a ha => header_of_block (by simp) ha
  rw [hins.addr_eq, hnew] at hown hmem
  have hmaj := hmem m.addr List.mem_cons_self
  have hx := hmem x.addr (by simp)
  obtain ⟨hnotin, hnd⟩ := List.nodup_cons.mp hown
  have hmx : m.addr ≠ x.addr := fun he => hnotin (by simp [he])
  cases exit with
  | fresh =>
    obtain ⟨rfl, rfl⟩ := hexit
    exact case2_shows s _ _ hs hmaj hx hmx hins.front_addr
  | front =>
    obtain ⟨rfl, hbs⟩ := hexit
    obtain ⟨d, ds, rfl⟩ := List.exists_cons_of_ne_nil hbs
    have hfirst : s.get m.addr firstAt = d.addr := by rw [h.first, addrs, hins.old]; rfl
    refine case3_shows s _ _ hs hmaj hx (hmem d.addr (by simp)) hmx ?_ ?_ hins.front_addr hfirst
    · exact fun he => hnotin (by simp [he])
    · exact fun he => (List.nodup_cons.mp hnd).1 (by simp [he])
  | behind =>
    obtain ⟨has, rfl⟩ := hexit
    obtain ⟨fs, c, rfl⟩ := (List.eq_nil_or_concat' as).resolve_left has
    have hlast : ((fs ++ [c]).map (·.addr)).getLast?.getD 0 = c.addr := by simp
    have hold : m.minors = fs ++ c :: [] := by simp [hins.old]
    rw [hlast]
    refine case41_shows s _ _ hs hmaj hx (hmem c.addr (by simp)) hmx ?_ ?_ ?_
    · exact (old_chunk hown (by simp)).2.2.symm
    · exact (old_chunk hown (by simp)).2.1.symm
    · rw [hins.behind_addr, h.size_eq hold]
  | between =>
    obtain ⟨has, hbs⟩ := hexit
    obtain ⟨fs, c, rfl⟩ := (List.eq_nil_or_concat' as).resolve_left has
    obtain ⟨d, ds, rfl⟩ := List.exists_cons_of_ne_nil hbs
    have hlast : ((fs ++ [c]).map (·.addr)).getLast?.getD 0 = c.addr := by simp
    have hold : m.minors = fs ++ c :: d :: ds := by simp [hins.old]
    have hc := old_chunk (b := c.addr) hown (by simp)
    have hd := old_chunk (b := d.addr) hown (by simp)
    rw [hlast]
    refine case42_shows s _ _ hs hmaj hx (hmem c.addr (by simp)) (hmem d.addr (by simp)) hmx
      ?_ ?_ ?_ ?_ ?_ ?_ (h.next_eq hold)
    · exact hc.2.2.symm
    · exact hd.2.2.symm
    · exact hc.2.1.symm
    · exact (List.nodup_append.mp hnd).2.2 c.addr (by simp) d.addr (by simp)
    · exact hd.2.1.symm
    · rw [hins.behind_addr, h.size_eq hold]

end Placed

end Levos.Proofs.Placing
