import Levos.Proofs.Placing

namespace Levos.Proofs.Searching
open Library Pool Levos.Proofs.Malloc Levos.Proofs.Blocks Levos.Proofs.Views Levos.Proofs.Headers
open Levos.Proofs.Placing
open Liballoc (headerSize need Exit Chosen scanMinors visit searchLoop Search)

variable {s : Pool} {m : Major} {size reqSize : UInt32} {page : Nat → UInt32} {fuel asked : Nat}
  {bet : Option UInt32} {best : UInt32} {started : Bool} {i : Nat} {ch : Chosen}
  {order : List (Major × Nat)} {majors : List Major}

/-- The heap with another best bet. -/
def withBet (s : Pool) (bet : Option UInt32) : Pool := { s with bestBet := bet.getD 0 }

@[simp] theorem get_with_bet (s : Pool) (bet : Option UInt32) (p : UInt32) (k : Fin 6) :
    (withBet s bet).get p k = s.get p k := rfl

/-- The best bet once a block has been looked at. -/
def newBet (m : Major) (bet : Option UInt32) (best : UInt32) : Option UInt32 :=
  if best < Liballoc.free m then some m.addr else bet

def newBest (m : Major) (best : UInt32) : UInt32 :=
  if best < Liballoc.free m then Liballoc.free m else best

theorem search_loop_some (hv : visit size reqSize m = some ch) :
    searchLoop size reqSize ((m, i) :: order) bet best =
      ⟨some (i, ch), newBet m bet best, newBest m best⟩ := by
  rw [searchLoop, hv, newBet, newBest]
  split <;> rfl

theorem search_loop_none (hv : visit size reqSize m = none) :
    searchLoop size reqSize ((m, i) :: order) bet best =
      searchLoop size reqSize order (newBet m bet best) (newBest m best) := by
  rw [searchLoop, hv, newBet, newBest]
  split <;> rfl

theorem room_eq (h : Chunked s.get m) : s.room m.addr = Liballoc.free m := by
  rw [room, h.size, h.usage, Liballoc.free]

/-- The variables of the loop when it has come to a block. -/
def visiting (s : Pool) (bet : Option UInt32) (best : UInt32) (started : Bool) (asked : Nat)
    (maj : UInt32) : Locals :=
  ⟨withBet s bet, maj, started, best, asked⟩

theorem bet_eq (h : Chunked s.get m) :
    (visiting s bet best started asked m.addr).bet =
      visiting s (newBet m bet best) (newBest m best) started asked m.addr := by
  rw [Locals.bet, visiting, newBet, newBest, visiting]
  simp only [room_eq (s := withBet s bet) h]
  split <;> rfl

section Round

variable (h : Chunked s.get m) (hz : 0 ∉ addrs m) (hfuel : m.minors.length < fuel)

include h

theorem visiting_room :
    (visiting s bet best started asked m.addr).heap.room m.addr = Liballoc.free m :=
  room_eq (s := withBet s bet) h

theorem low_iff : (visiting s bet best started asked m.addr).heap.room m.addr < need size ↔
    Liballoc.free m < need size := by
  rw [visiting_room h]

/-- A round begins with the bet, and goes on with a block that has enough free. -/
theorem round_enough (hroom : ¬ Liballoc.free m < need size) :
    Locals.round size reqSize page fuel (visiting s bet best started asked m.addr) =
      Locals.serve size reqSize page fuel
        (visiting s (newBet m bet best) (newBest m best) started asked m.addr) := by
  rw [Locals.round, bet_eq h]
  exact if_neg (mt (low_iff h).mp hroom)

/-- Case 1 on a block that is not the last one. -/
theorem round_low_next (hlow : Liballoc.free m < need size) (hnext : s.get m.addr nextAt ≠ 0) :
    Locals.round size reqSize page fuel (visiting s bet best started asked m.addr) =
      some (.again (visiting s (newBet m bet best) (newBest m best) started asked
        (s.get m.addr nextAt))) := by
  rw [Locals.round, bet_eq h]
  exact (if_pos ((low_iff h).mpr hlow)).trans (if_pos hnext)

include hz hfuel

/-- A block that serves the request. -/
theorem round_found (hb : SoundBlock m) (hsize : size.toNat + 24 < 2 ^ 32)
    (hv : visit size reqSize m = some ch) :
    ∃ as bs, Inserted m as bs ⟨ch.min, size, reqSize⟩ ch.maj ∧ Between as bs ch.exit ∧
      Locals.round size reqSize page fuel (visiting s bet best started asked m.addr) =
        some (.made ⟨ch.exit, ch.min, placed size reqSize (withBet s (newBet m bet best)) m.addr
          ((as.map (·.addr)).getLast?.getD 0) ch.exit⟩) := by
  obtain ⟨as, bs, hins, hbetween, hplace⟩ :=
    place_some (s := withBet s (newBet m bet best)) hb h hz hsize hfuel hv
  have hroom : ¬ Liballoc.free m < need size := by
    intro hlow
    rw [visit, if_pos hlow] at hv
    cases hv
  refine ⟨as, bs, hins, hbetween, ?_⟩
  rw [round_enough h hroom]
  simp only [Locals.serve, visiting, hplace]

/-- A block that does not serve the request is followed by the next one. -/
theorem round_next (hv : visit size reqSize m = none) (hnext : s.get m.addr nextAt ≠ 0) :
    Locals.round size reqSize page fuel (visiting s bet best started asked m.addr) =
      some (.again (visiting s (newBet m bet best) (newBest m best) started asked
        (s.get m.addr nextAt))) := by
  by_cases hroom : Liballoc.free m < need size
  · exact round_low_next h hroom hnext
  · have hplace := place_none (s := withBet s (newBet m bet best)) h hz hfuel hroom hv
    rw [round_enough h hroom]
    simp only [Locals.serve, visiting, hplace]
    exact if_neg hnext

/-- At the end of the list a search that began at the best bet starts all over again. -/
theorem round_restart (hv : visit size reqSize m = none) (hnext : s.get m.addr nextAt = 0) :
    Locals.round size reqSize page fuel (visiting s bet best true asked m.addr) =
      some (.again (visiting s (newBet m bet best) (newBest m best) false asked s.memRoot)) := by
  by_cases hroom : Liballoc.free m < need size
  · rw [Locals.round, bet_eq h]
    exact (if_pos ((low_iff h).mpr hroom)).trans ((if_neg (not_not.mpr hnext)).trans (if_pos rfl))
  · have hplace := place_none (s := withBet s (newBet m bet best)) h hz hfuel hroom hv
    rw [round_enough h hroom]
    simp only [Locals.serve, visiting, hplace]
    exact (if_pos hnext).trans (if_pos trivial)

/-- At the end of any other search there is a new block, or no memory. -/
theorem round_no_memory {s' : Pool} (hv : visit size reqSize m = none)
    (hnext : s.get m.addr nextAt = 0)
    (hnew : (visiting s (newBet m bet best) (newBest m best) false asked m.addr).newBlock size
      page = (s', none)) :
    Locals.round size reqSize page fuel (visiting s bet best false asked m.addr) =
      some (.noMemory s') := by
  by_cases hroom : Liballoc.free m < need size
  · rw [Locals.round, bet_eq h, hnew]
    exact (if_pos ((low_iff h).mpr hroom)).trans ((if_neg (not_not.mpr hnext)).trans (if_neg nofun))
  · have hplace := place_none (s := withBet s (newBet m bet best)) h hz hfuel hroom hv
    rw [round_enough h hroom, Locals.serve, hnew]
    simp only [visiting, hplace]
    exact (if_pos hnext).trans (if_neg nofun)

omit hz hfuel in
theorem round_new_low {s' : Pool} {w : Locals} (hroom : Liballoc.free m < need size)
    (hnext : s.get m.addr nextAt = 0)
    (hnew : (visiting s (newBet m bet best) (newBest m best) false asked m.addr).newBlock size
      page = (s', some w)) :
    Locals.round size reqSize page fuel (visiting s bet best false asked m.addr) =
      Locals.serve size reqSize page fuel { w with maj := w.heap.get w.maj nextAt } := by
  rw [Locals.round, bet_eq h, hnew]
  exact (if_pos ((low_iff h).mpr hroom)).trans ((if_neg (not_not.mpr hnext)).trans (if_neg nofun))

theorem round_new_full {s' : Pool} {w : Locals} (hroom : ¬ Liballoc.free m < need size)
    (hv : visit size reqSize m = none) (hnext : s.get m.addr nextAt = 0)
    (hnew : (visiting s (newBet m bet best) (newBest m best) false asked m.addr).newBlock size
      page = (s', some w)) :
    Locals.round size reqSize page fuel (visiting s bet best false asked m.addr) =
      some (.again { w with maj := w.heap.get w.maj nextAt }) := by
  have hplace := place_none (s := withBet s (newBet m bet best)) h hz hfuel hroom hv
  rw [round_enough h hroom, Locals.serve, hnew]
  simp only [visiting, hplace]
  exact (if_pos hnext).trans (if_neg nofun)

end Round

/-- What is left of the blocks in the order of the search: those from the current one
on, and then all of them once more when the search began at the best bet. -/
def Left (majors : List Major) (started : Bool) (order : List (Major × Nat)) : Prop :=
  ∃ front rest, majors.zipIdx = front ++ rest ∧ (started = true → rest ≠ []) ∧
    order = rest ++ if started then majors.zipIdx else []

theorem split_zipIdx {front rest : List (Major × Nat)}
    (h : majors.zipIdx = front ++ (m, i) :: rest) :
    majors = front.map Prod.fst ++ m :: rest.map Prod.fst ∧ i = front.length := by
  have hmap := congrArg (List.map Prod.fst) h
  rw [List.zipIdx_map_fst, List.map_append, List.map_cons] at hmap
  have hget : majors.zipIdx[front.length]? = some (m, i) := by simp [h]
  rw [List.getElem?_zipIdx] at hget
  obtain ⟨n, -, heq⟩ := Option.map_eq_some_iff.mp hget
  cases heq
  exact ⟨hmap, (Nat.zero_add _)⟩

/-- A step of the order: to the next block, from the last one back to the first, or to
the end. -/
theorem Left.step (h : Left majors started ((m, i) :: order)) :
    ∃ pre post, majors = pre ++ m :: post ∧ i = pre.length ∧
      ((∃ n j rest, order = (n, j) :: rest ∧ post.head? = some n ∧ Left majors started order) ∨
        (started = true ∧ post = [] ∧ order = majors.zipIdx) ∨
        (started = false ∧ post = [] ∧ order = [])) := by
  obtain ⟨front, rest, hidx, hne, horder⟩ := h
  cases rest with
  | nil =>
    cases started with
    | true => exact absurd rfl (hne rfl)
    | false => cases horder
  | cons x rest =>
    obtain ⟨rfl, hrest⟩ := List.cons.inj horder
    obtain ⟨hmajors, hi⟩ := split_zipIdx hidx
    refine ⟨front.map Prod.fst, rest.map Prod.fst, hmajors, by simp [hi], ?_⟩
    cases rest with
    | nil =>
      cases started with
      | true => exact .inr (.inl ⟨rfl, rfl, hrest⟩)
      | false => exact .inr (.inr ⟨rfl, rfl, hrest⟩)
    | cons y rest =>
      refine .inl ⟨y.1, y.2, _, hrest, rfl, front ++ [(m, i)], y :: rest, ?_, ?_, hrest⟩
      · simp [hidx]
      · exact fun _ => List.cons_ne_nil _ _

section Loop

variable {v w : Locals} {made : Made}

theorem major_loop_again (hv : v.maj ≠ 0)
    (hr : Locals.round size reqSize page fuel v = some (.again w)) :
    majorLoop size reqSize page (fuel + 1) v = majorLoop size reqSize page fuel w := by
  rw [majorLoop, if_neg hv, hr]

theorem major_loop_made (hv : v.maj ≠ 0)
    (hr : Locals.round size reqSize page fuel v = some (.made made)) :
    majorLoop size reqSize page (fuel + 1) v = some (made.heap, some made) := by
  rw [majorLoop, if_neg hv, hr]

theorem major_loop_no_memory {s' : Pool} (hv : v.maj ≠ 0)
    (hr : Locals.round size reqSize page fuel v = some (.noMemory s')) :
    majorLoop size reqSize page (fuel + 1) v = some (s', none) := by
  rw [majorLoop, if_neg hv, hr]

end Loop

/-- The first block of an order. -/
def headAddr (order : List (Major × Nat)) : UInt32 := (order.map (·.1.addr)).head?.getD 0

theorem left_all (majors : List Major) : Left majors false majors.zipIdx :=
  ⟨[], majors.zipIdx, rfl, nofun, (List.append_nil _).symm⟩

theorem head_all (majors : List Major) :
    headAddr majors.zipIdx = (majors.map (·.addr)).head?.getD 0 := by
  have hmap : majors.zipIdx.map (·.1.addr) = majors.map (·.addr) := by
    have hcomp := List.map_map (f := Prod.fst) (g := Major.addr) (l := majors.zipIdx)
    rw [List.zipIdx_map_fst] at hcomp
    exact hcomp.symm
  rw [headAddr, hmap]

section Blocks

variable {n : Nat} (hsound : Sound majors) (hrep : Represents s.get majors)
  (hroot : s.memRoot = (majors.map (·.addr)).head?.getD 0)
  (hchunks : ∀ m ∈ majors, m.minors.length ≤ n)

theorem next_block {pre post : List Major} (hrep : Represents s.get majors)
    (hm : majors = pre ++ m :: post) :
    s.get m.addr nextAt = (post.map (·.addr)).head?.getD 0 :=
  (hrep.links (pre.map (·.addr)) m.addr (post.map (·.addr)) (by simp [hm])).1

theorem chunks_nonnull (hsound : Sound majors) (hm : m ∈ majors) : 0 ∉ addrs m := by
  intro h0
  exact hsound.header_ne_zero (header_of_block hm (List.mem_cons_of_mem _ h0)) rfl

include hsound hrep hroot hchunks

/-- The loop stays with the order as long as no block serves the request. -/
theorem loop_step (hleft : Left majors started ((m, i) :: order)) (hne : order ≠ [])
    (hv : visit size reqSize m = none) (hfuel : n < fuel) :
    ∃ started', Left majors started' order ∧
      majorLoop size reqSize page (fuel + 1) (visiting s bet best started asked m.addr) =
        majorLoop size reqSize page fuel
          (visiting s (newBet m bet best) (newBest m best) started' asked (headAddr order)) := by
  obtain ⟨pre, post, hsplit, -, hcase⟩ := hleft.step
  have hm : m ∈ majors := by simp [hsplit]
  have hnext := next_block hrep hsplit
  have hz := (hsound.block m hm).nonnull
  have hsmall : m.minors.length < fuel := Nat.lt_of_le_of_lt (hchunks m hm) hfuel
  rcases hcase with ⟨k, j, rest, rfl, hhead, hleft⟩ | ⟨rfl, rfl, rfl⟩ | ⟨-, -, hnil⟩
  · have hk : s.get m.addr nextAt = k.addr := by
      rw [hnext, List.head?_map, hhead]
      rfl
    have hkm : k ∈ majors := by
      rw [hsplit]
      exact List.mem_append_right _ (List.mem_cons_of_mem _ (List.mem_of_mem_head? hhead))
    refine ⟨started, hleft, ?_⟩
    have hkz : s.get m.addr nextAt ≠ 0 := by
      rw [hk]
      exact (hsound.block k hkm).nonnull
    refine (major_loop_again hz (round_next (hrep.block m hm) (chunks_nonnull hsound hm) hsmall hv
      hkz)).trans ?_
    rw [hk]
    rfl
  · refine ⟨false, left_all majors, ?_⟩
    refine (major_loop_again hz (round_restart (hrep.block m hm) (chunks_nonnull hsound hm) hsmall
      hv hnext)).trans ?_
    rw [hroot, head_all]
  · exact absurd hnil hne

/-- The loop finds the block and the gap the list of the blocks says. -/
theorem loop_found {bet' : Option UInt32} {best' : UInt32} (hsize : size.toNat + 24 < 2 ^ 32)
    (hleft : Left majors started order) (hfuel : order.length + n < fuel)
    (hs : searchLoop size reqSize order bet best = ⟨some (i, ch), bet', best'⟩) :
    ∃ pre m post as bs, majors = pre ++ m :: post ∧ i = pre.length ∧
      visit size reqSize m = some ch ∧ Inserted m as bs ⟨ch.min, size, reqSize⟩ ch.maj ∧
      Between as bs ch.exit ∧
      majorLoop size reqSize page fuel (visiting s bet best started asked (headAddr order)) =
        some (placed size reqSize (withBet s bet') m.addr ((as.map (·.addr)).getLast?.getD 0)
            ch.exit,
          some ⟨ch.exit, ch.min, placed size reqSize (withBet s bet') m.addr
            ((as.map (·.addr)).getLast?.getD 0) ch.exit⟩) := by
  induction order generalizing started bet best fuel with
  | nil => cases hs
  | cons x order ih =>
    obtain ⟨m, j⟩ := x
    obtain ⟨pre, post, hsplit, hj, -⟩ := hleft.step
    have hm : m ∈ majors := by simp [hsplit]
    obtain ⟨f, rfl⟩ := Nat.exists_eq_add_of_le' (Nat.zero_lt_of_lt hfuel)
    have hrestfuel : order.length + n < f := by
      simp only [List.length_cons] at hfuel
      omega
    have hlow : n < f := by omega
    cases hv : visit size reqSize m with
    | some c =>
      rw [search_loop_some hv] at hs
      cases hs
      obtain ⟨as, bs, hins, hbetween, hround⟩ := round_found (hrep.block m hm)
        (chunks_nonnull hsound hm) (Nat.lt_of_le_of_lt (hchunks m hm) hlow) (hsound.block m hm)
        hsize hv
      exact ⟨pre, m, post, as, bs, hsplit, hj, hv, hins, hbetween,
        major_loop_made (hsound.block m hm).nonnull hround⟩
    | none =>
      rw [search_loop_none hv] at hs
      have hne : order ≠ [] := by
        rintro rfl
        cases hs
      obtain ⟨started', hleft', hloop⟩ := loop_step hsound hrep hroot hchunks hleft hne hv hlow
      obtain ⟨pre', m', post', as, bs, hsplit', hi, hvisit, hins, hbetween, hrest⟩ :=
        ih hleft' hrestfuel hs
      exact ⟨pre', m', post', as, bs, hsplit', hi, hvisit, hins, hbetween, hloop.trans hrest⟩

/-- The loop comes to the last block when no block serves the request. -/
theorem loop_to_last {bet' : Option UInt32} {best' : UInt32} (hne : order ≠ [])
    (hleft : Left majors started order) (hfuel : order.length + n < fuel)
    (hs : searchLoop size reqSize order bet best = ⟨none, bet', best'⟩) :
    ∃ pre m f bet₀ best₀, majors = pre ++ [m] ∧ visit size reqSize m = none ∧ n < f ∧
      order.getLast? = some (m, pre.length) ∧ newBet m bet₀ best₀ = bet' ∧
      newBest m best₀ = best' ∧
      majorLoop size reqSize page fuel (visiting s bet best started asked (headAddr order)) =
        majorLoop size reqSize page (f + 1) (visiting s bet₀ best₀ false asked m.addr) := by
  induction order generalizing started bet best fuel with
  | nil => exact absurd rfl hne
  | cons x order ih =>
    obtain ⟨m, j⟩ := x
    obtain ⟨f, rfl⟩ := Nat.exists_eq_add_of_le' (Nat.zero_lt_of_lt hfuel)
    have hrestfuel : order.length + n < f := by
      simp only [List.length_cons] at hfuel
      omega
    have hlow : n < f := by omega
    cases hv : visit size reqSize m with
    | some c =>
      rw [search_loop_some hv] at hs
      cases hs
    | none =>
      rw [search_loop_none hv] at hs
      by_cases hne' : order = []
      · subst hne'
        cases hs
        obtain ⟨pre, post, hsplit, hj, hcase⟩ := hleft.step
        rcases hcase with ⟨k, l, rest, hcons, -⟩ | ⟨-, -, hall⟩ | ⟨rfl, rfl, -⟩
        · cases hcons
        · have hnil := List.zipIdx_eq_nil_iff.mp hall.symm
          simp [hnil] at hsplit
        · exact ⟨pre, m, f, bet, best, hsplit, hv, hlow, by simp [hj], rfl, rfl, rfl⟩
      · obtain ⟨started', hleft', hloop⟩ := loop_step hsound hrep hroot hchunks hleft hne' hv hlow
        obtain ⟨pre, l, g, bet₀, best₀, hsplit, hnone, hg, hlast, hbet, hbest, hrest⟩ :=
          ih hne' hleft' hrestfuel hs
        refine ⟨pre, l, g, bet₀, best₀, hsplit, hnone, hg, ?_, hbet, hbest, hloop.trans hrest⟩
        rw [List.getLast?_cons_of_ne_nil hne', hlast]

end Blocks

end Levos.Proofs.Searching
