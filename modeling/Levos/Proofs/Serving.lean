import Levos.Proofs.Searching

namespace Levos.Proofs.Serving
open Library Pool Levos.Proofs.Malloc Levos.Proofs.Blocks Levos.Proofs.Views Levos.Proofs.Headers
open Levos.Proofs.Placing Levos.Proofs.Searching
open Liballoc (headerSize need Exit Chosen visit searchLoop pagesWanted lPageSize lPageCount)

/-- The chunks of all blocks. -/
def chunks (majors : List Major) : List Minor := majors.flatMap (·.minors)

/-- What the chunks take without their headers, and what the blocks take. -/
def usedBytes (majors : List Major) : Nat := ((chunks majors).map (·.size.toNat)).sum
def acquired (majors : List Major) : Nat := (majors.map (·.size.toNat)).sum

/-- The pointers, the headers and the counters of the heap are those of a list of blocks. -/
structure Kept (s : Pool) (h : Liballoc) : Prop where
  sound : Sound h.majors
  shown : Represents s.get h.majors
  root : s.memRoot = (h.majors.map (·.addr)).head?.getD 0
  bet : s.bestBet = h.bestBet.getD 0
  betBlock : ∀ b, h.bestBet = some b → b ∈ h.majors.map (·.addr)
  inuse : s.inuse = UInt64.ofNat (usedBytes h.majors)
  allocated : s.allocated = UInt64.ofNat (acquired h.majors)

/-- Outside of the headers nothing has changed. -/
def Framed (s s' : Pool) (majors : List Major) : Prop :=
  ∀ a, (∀ b ∈ headers majors, Off b a) → s'.mem a = s.mem a

variable {s s' : Pool} {h h' : Liballoc} {m m' : Major} {c x : Minor} {as bs : List Minor}
  {majors majors' pre post : List Major} {size reqSize : UInt32} {page : Nat → UInt32} {fuel : Nat}
  {exit : Exit} {bet : Option UInt32}

theorem Framed.trans {s₁ s₂ : Pool} (h₁ : Framed s s₁ majors)
    (h₂ : Framed s₁ s₂ majors') (hsub : ∀ a ∈ headers majors, a ∈ headers majors') :
    Framed s s₂ majors' := by
  intro a ha
  exact (h₂ a ha).trans (h₁ a (fun b hb => ha b (hsub b hb)))

/-- The frame does not look at `bestBet`. -/
theorem Framed.of_bet (h : Framed (withBet s bet) s' majors) : Framed s s' majors := h

theorem spread (h : Sound majors) : Spread (headers majors) :=
  ⟨fun h0 => h.header_ne_zero h0 rfl, h.headers_far⟩

theorem chunks_split : chunks (pre ++ m :: post) = chunks pre ++ (m.minors ++ chunks post) := by
  simp [chunks]

/-- The chunks after one has been put in. -/
theorem inserted_chunks (hins : Inserted m as bs x m') (pre post : List Major) :
    (chunks (pre ++ m' :: post)).Perm (x :: chunks (pre ++ m :: post)) := by
  rw [chunks_split, chunks_split, hins.new, hins.old]
  simp only [List.append_assoc, List.cons_append]
  rw [← List.append_assoc, ← List.append_assoc]
  exact List.perm_middle

theorem inserted_headers (hins : Inserted m as bs x m') (pre post : List Major) :
    ∀ a ∈ headers (pre ++ m :: post), a ∈ headers (pre ++ m' :: post) := by
  intro a ha
  rw [headers_split] at ha ⊢
  have hsub : ∀ a ∈ addrs m, a ∈ addrs m' := by
    rw [addrs, addrs, hins.new, hins.old]
    intro a ha
    rw [List.map_append] at ha
    rw [List.map_append, List.map_cons]
    exact (List.Sublist.append_left (List.sublist_cons_self _ _) _).subset ha
  rcases List.mem_append.mp ha with ha | ha
  · exact List.mem_append_left _ ha
  · refine List.mem_append_right _ ?_
    rw [hins.addr_eq]
    rcases List.mem_append.mp ha with ha | ha
    · rcases List.mem_cons.mp ha with rfl | ha
      · simp
      · exact List.mem_append_left _ (List.mem_cons_of_mem _ (hsub a ha))
    · exact List.mem_append_right _ ha

theorem inserted_in_use (hins : Inserted m as bs x m') (pre post : List Major) :
    usedBytes (pre ++ m' :: post) = usedBytes (pre ++ m :: post) + x.size.toNat := by
  have hsum := ((inserted_chunks hins pre post).map (·.size.toNat)).sum_eq
  rw [List.map_cons, List.sum_cons] at hsum
  rw [usedBytes, hsum, usedBytes, Nat.add_comm]

theorem to_uint64 (n : UInt32) : n.toUInt64 = UInt64.ofNat n.toNat := by
  apply UInt64.toNat_inj.mp
  simp

/-- A chunk is put into a block. -/
theorem Kept.place (hk : Kept s ⟨pre ++ m :: post, bet⟩) (hins : Inserted m as bs x m')
    (hexit : Between as bs exit) (hx : x.reqSize.toNat + 32 ≤ x.size.toNat) :
    Kept (placed x.size x.reqSize s m.addr ((as.map (·.addr)).getLast?.getD 0) exit)
        ⟨pre ++ m' :: post, bet⟩ ∧
      Framed s (placed x.size x.reqSize s m.addr ((as.map (·.addr)).getLast?.getD 0) exit)
        (pre ++ m' :: post) := by
  have hm : m ∈ pre ++ m :: post := by simp
  have hsound : Sound (pre ++ m' :: post) := hk.sound.replace
    (hins.sound (hk.sound.block m hm) hx) hins.addr_eq hins.top_eq
  have hshows := placed_shows (hk.shown.block m hm) hins hexit (spread hsound)
  generalize placed x.size x.reqSize s m.addr _ exit = s' at hshows ⊢
  have haddr : (pre ++ m' :: post).map (·.addr) = (pre ++ m :: post).map (·.addr) := by
    simp [hins.addr_eq]
  refine ⟨⟨hsound, ?_, ?_, ?_, ?_, ?_, ?_⟩, hshows.off⟩
  · exact hk.shown.insert hins (spread hsound) hshows.view
  · rw [haddr, hshows.rest]
    exact hk.root
  · rw [hshows.rest]
    exact hk.bet
  · rw [haddr]
    exact hk.betBlock
  · rw [hshows.rest, inserted_in_use hins, UInt64.ofNat_add, ← to_uint64, ← hk.inuse]
  · have hsize : acquired (pre ++ m' :: post) = acquired (pre ++ m :: post) := by
      simp [acquired, hins.new]
    rw [hshows.rest, hsize]
    exact hk.allocated

theorem Kept.with_bet (hk : Kept s ⟨majors, bet⟩) {bet' : Option UInt32}
    (hb : ∀ b, bet' = some b → b ∈ majors.map (·.addr)) : Kept (withBet s bet') ⟨majors, bet'⟩ :=
  ⟨hk.sound, hk.shown, hk.root, rfl, hb, hk.inuse, hk.allocated⟩

theorem Kept.with_bet_self (hk : Kept s ⟨majors, bet⟩) : withBet s bet = s := by
  rw [withBet, ← hk.bet]

/-- A bet is always one of the blocks. -/
theorem new_bet_mem (best : UInt32) (hm : m ∈ majors)
    (hb : ∀ a, bet = some a → a ∈ majors.map (·.addr)) :
    ∀ a, newBet m bet best = some a → a ∈ majors.map (·.addr) := by
  intro a ha
  rw [newBet] at ha
  split at ha
  case isTrue =>
    cases ha
    exact List.mem_map_of_mem hm
  case isFalse => exact hb a ha

/-- A block as `allocate_new_page` makes it. -/
def newMajor (size page : UInt32) : Major := ⟨page, pagesWanted size * lPageSize, headerSize, []⟩

/-- Pages that overlap no block. -/
structure FreshPages (majors : List Major) (size page : UInt32) : Prop where
  nonnull : page ≠ 0
  inside : top (newMajor size page) ≤ 2 ^ 32
  apart : ∀ n ∈ majors, top n ≤ page.toNat ∨ top (newMajor size page) ≤ n.addr.toNat

/-- There are enough pages for the request with both headers. -/
theorem pages_enough (hsize : size.toNat + 4144 ≤ 2 ^ 32) :
    size.toNat + 48 ≤ (pagesWanted size * lPageSize).toNat := by
  have hh : headerSize.toNat = 24 := rfl
  have hst : (size + headerSize + headerSize).toNat = size.toNat + 48 := by
    simp only [UInt32.toNat_add, hh]
    omega
  have hp : lPageSize.toNat = 4096 := rfl
  have hc : lPageCount.toNat = 16 := rfl
  rw [pagesWanted]
  generalize size + headerSize + headerSize = st at hst ⊢
  have hmod : st % lPageSize = 0 ↔ st.toNat % 4096 = 0 := by
    rw [← UInt32.toNat_inj, UInt32.toNat_mod, hp]
    rfl
  have hround : (if st % lPageSize = 0 then st / lPageSize else st / lPageSize + 1).toNat =
      (st.toNat + 4095) / 4096 := by
    split
    case isTrue h0 =>
      have := hmod.mp h0
      rw [UInt32.toNat_div, hp]
      omega
    case isFalse h0 =>
      have := mt hmod.mpr h0
      simp only [UInt32.toNat_add, UInt32.toNat_div, hp, UInt32.toNat_one]
      omega
  generalize (if st % lPageSize = 0 then st / lPageSize else st / lPageSize + 1) = n at hround ⊢
  split
  case isTrue hlt =>
    have := UInt32.lt_iff_toNat_lt.mp hlt
    simp only [UInt32.toNat_mul, hp, hc] at this ⊢
    omega
  case isFalse =>
    simp only [UInt32.toNat_mul, hp]
    omega

section NewBlock

variable {p : UInt32} (hsize : size.toNat + 4144 ≤ 2 ^ 32)
include hsize

theorem new_sound (hf : FreshPages majors size p) : SoundBlock (newMajor size p) := by
  have henough := pages_enough hsize
  refine ⟨hf.nonnull, hf.inside, ?_, rfl, nofun⟩
  change base (newMajor size p) ≤ top (newMajor size p)
  simp only [base, top, newMajor]
  omega

theorem sound_append (hs : Sound majors) (hf : FreshPages majors size p) :
    Sound (majors ++ [newMajor size p]) :=
  hs.concat (new_sound hsize hf) hf.apart

/-- A new block serves the request it was made for. -/
theorem visit_new_block (reqSize : UInt32) (hf : FreshPages majors size p) :
    visit size reqSize (newMajor size p) =
      some (Liballoc.first size reqSize (newMajor size p) .fresh) := by
  have henough := pages_enough hsize
  have hneed : (need size).toNat = size.toNat + 24 := need_toNat (by omega)
  have hfree := (new_sound hsize hf).free_toNat
  have hroom : ¬ Liballoc.free (newMajor size p) < need size := by
    rw [UInt32.lt_iff_toNat_lt, hfree, hneed]
    simp only [top, base, newMajor, covered, List.map_nil, List.sum_nil]
    omega
  rw [visit, if_neg hroom]
  rfl

/-- Its first chunk. -/
theorem new_inserted (reqSize : UInt32) (hf : FreshPages majors size p) :
    Inserted (newMajor size p) [] [] ⟨p + headerSize, size, reqSize⟩
      (Liballoc.first size reqSize (newMajor size p) .fresh).maj := by
  have henough := pages_enough hsize
  have hinside := hf.inside
  have hplace : (p + headerSize).toNat = base (newMajor size p) := by
    refine base_toNat (m := newMajor size p) ?_
    simp only [base, top, newMajor] at hinside ⊢
    omega
  refine ⟨rfl, rfl, hplace, ?_⟩
  change (p + headerSize).toNat + 24 + size.toNat ≤ top (newMajor size p)
  rw [hplace]
  simp only [base, top, newMajor]
  omega

end NewBlock

/-- A new block behind the others. -/
theorem Kept.append {p : UInt32} (hk : Kept s ⟨majors, bet⟩) (hne : majors ≠ [])
    (hsound : Sound (majors ++ [newMajor size p]))
    (hshows : Shows { s with
        allocated := s.allocated + (pagesWanted size * lPageSize).toUInt64 }
      (headers (majors ++ [newMajor size p])) (appended s.get
        ((majors.map (·.addr)).getLast?.getD 0) p (pagesWanted size) (pagesWanted size * lPageSize))
      s') :
    Kept s' ⟨majors ++ [newMajor size p], bet⟩ := by
  have hhead :
      ((majors ++ [newMajor size p]).map (·.addr)).head? = (majors.map (·.addr)).head? := by
    rw [List.map_append, List.head?_append_of_ne_nil]
    exact fun hmap => hne (List.map_eq_nil_iff.mp hmap)
  refine ⟨hsound, hk.shown.append (spread hsound) hshows.view, ?_, ?_, ?_, ?_, ?_⟩
  · rw [hhead, hshows.rest]
    exact hk.root
  · rw [hshows.rest]
    exact hk.bet
  · intro b hb
    rw [List.map_append]
    exact List.mem_append_left _ (hk.betBlock b hb)
  · have hsame : usedBytes (majors ++ [newMajor size p]) = usedBytes majors := by
      simp [usedBytes, chunks, newMajor]
    rw [hshows.rest, hsame]
    exact hk.inuse
  · have hsum : acquired (majors ++ [newMajor size p]) =
        acquired majors + (pagesWanted size * lPageSize).toNat := by
      simp [acquired, newMajor]
    rw [hshows.rest, hsum, UInt64.ofNat_add, ← to_uint64, ← hk.allocated]

section AtTheEnd

variable {b bet : Option UInt32} {best : UInt32} {asked : Nat} (hk : Kept s ⟨pre ++ [m], b⟩)
  (hv : visit size reqSize m = none) (hfuel : m.minors.length < fuel)
  (hb : ∀ a, newBet m bet best = some a → a ∈ (pre ++ [m]).map (·.addr))
include hk hv hfuel hb

/-- No block has room and there is no memory. -/
theorem end_no_memory (hpage : page asked = 0) :
    ∃ s', majorLoop size reqSize page (fuel + 1) (visiting s bet best false asked m.addr) =
        some (s', none) ∧
      Kept s' ⟨pre ++ [m], newBet m bet best⟩ ∧ Framed s s' (pre ++ [m]) := by
  have hm : m ∈ pre ++ [m] := by simp
  have hnext : s.get m.addr nextAt = 0 := next_block hk.shown rfl
  have hheader : m.addr ∈ headers (pre ++ [m]) := header_of_block hm List.mem_cons_self
  have hkept := hk.with_bet hb
  obtain ⟨s', hnew, hshows⟩ := new_block_none_shows size
    (visiting s (newBet m bet best) (newBest m best) false asked m.addr) (spread hk.sound) hheader
    hpage hnext
  have hround := round_no_memory (hk.shown.block m hm) (chunks_nonnull hk.sound hm) hfuel hv hnext
    hnew
  refine ⟨s', major_loop_no_memory (hk.sound.block m hm).nonnull hround, ?_, hshows.off⟩
  refine ⟨hk.sound, hk.shown.congr hshows.view, ?_, ?_, hb, ?_, ?_⟩
  · rw [hshows.rest]
    exact hk.root
  · rw [hshows.rest]
    rfl
  · rw [hshows.rest]
    exact hk.inuse
  · rw [hshows.rest]
    exact hk.allocated

omit hv hfuel in
/-- The heap with the new block, and the variables of the loop once it is there. -/
theorem new_block_kept (hsize : size.toNat + 4144 ≤ 2 ^ 32)
    (hpage : FreshPages (pre ++ [m]) size (page asked)) :
    ∃ s' w, (visiting s (newBet m bet best) (newBest m best) false asked m.addr).newBlock size
        page = (s', some w) ∧
      { w with maj := w.heap.get w.maj nextAt } =
        visiting s' (newBet m bet best) (newBest m best) false (asked + 1) (page asked) ∧
      Kept s' ⟨pre ++ [m] ++ [newMajor size (page asked)], newBet m bet best⟩ ∧
      Framed s s' (pre ++ [m] ++ [newMajor size (page asked)]) := by
  have hsound := sound_append hsize hk.sound hpage
  have hheader : m.addr ∈ headers (pre ++ [m] ++ [newMajor size (page asked)]) :=
    header_of_block (by simp) List.mem_cons_self
  have hnewheader : page asked ∈ headers (pre ++ [m] ++ [newMajor size (page asked)]) :=
    header_of_block (n := newMajor size (page asked)) (by simp) List.mem_cons_self
  have hne : m.addr ≠ page asked := by
    have hnd := block_nodup (spread hsound)
    rw [List.map_append] at hnd
    exact (List.nodup_append.mp hnd).2.2 m.addr (by simp) (page asked) (by simp [newMajor])
  obtain ⟨s', hnew, hshows⟩ := new_block_shows size
    (visiting s (newBet m bet best) (newBest m best) false asked m.addr) (spread hsound) hheader
    hnewheader hne
  have hlast : ((pre ++ [m]).map (·.addr)).getLast?.getD 0 = m.addr := by simp
  have hkept := (hk.with_bet hb).append (by simp) hsound (by rw [hlast]; exact hshows)
  refine ⟨s', _, hnew, ?_, hkept, hshows.off⟩
  have hsplit : pre ++ [m] ++ [newMajor size (page asked)] =
      pre ++ m :: [newMajor size (page asked)] := by simp
  have hnext : s'.get m.addr nextAt = page asked := next_block hkept.shown hsplit
  simp only [visiting, hnext, hkept.with_bet_self]

/-- No block has room, and the chunk is the first one of a new block. When the last block
has been left by case 1 the new one is not looked at as a bet. -/
theorem end_new_block (hsize : size.toNat + 4144 ≤ 2 ^ 32)
    (hreq : reqSize.toNat + 32 ≤ size.toNat) (hpage : FreshPages (pre ++ [m]) size (page asked)) :
    ∃ s', majorLoop size reqSize page (fuel + 2) (visiting s bet best false asked m.addr) =
        some (s', some ⟨.fresh, page asked + headerSize, s'⟩) ∧
      Kept s' ⟨pre ++ [m] ++
          [(Liballoc.first size reqSize (newMajor size (page asked)) .fresh).maj],
        if Liballoc.free m < need size then newBet m bet best
        else newBet (newMajor size (page asked)) (newBet m bet best) (newBest m best)⟩ ∧
      Framed s s'
        (pre ++ [m] ++
          [(Liballoc.first size reqSize (newMajor size (page asked)) .fresh).maj]) := by
  have hm : m ∈ pre ++ [m] := by simp
  have hnext : s.get m.addr nextAt = 0 := next_block hk.shown rfl
  have hz := (hk.sound.block m hm).nonnull
  obtain ⟨s₁, w, hnew, hw, hkept, hframed⟩ := new_block_kept hk hb hsize hpage
  have hn : newMajor size (page asked) ∈ pre ++ [m] ++ [newMajor size (page asked)] := by simp
  have hvisit := visit_new_block hsize reqSize hpage
  have hnb := hkept.sound.block _ hn
  have hnch := hkept.shown.block _ hn
  have hnz := chunks_nonnull hkept.sound hn
  have hpos : 0 < fuel := Nat.zero_lt_of_lt hfuel
  split
  case isTrue hlow =>
    obtain ⟨as, bs, hins, hexit, hplace⟩ := place_some hnb hnch hnz (by omega)
      (Nat.lt_succ_of_lt hpos) hvisit
    obtain ⟨hfinal, hframe⟩ := hkept.place hins hexit hreq
    have hround : Locals.round size reqSize page (fuel + 1)
        (visiting s bet best false asked m.addr) = some (.made ⟨.fresh, page asked + headerSize,
          placed size reqSize s₁ (page asked) ((as.map (·.addr)).getLast?.getD 0) .fresh⟩) := by
      rw [round_new_low (hk.shown.block m hm) hlow hnext hnew, hw, Locals.serve]
      simp only [visiting, hkept.with_bet_self]
      rw [show page asked = (newMajor size (page asked)).addr from rfl, hplace]
      rfl
    exact ⟨_, major_loop_made hz hround, hfinal,
      hframed.trans hframe (inserted_headers hins (pre ++ [m]) [])⟩
  case isFalse hlow =>
    have hround := round_new_full (hk.shown.block m hm) (chunks_nonnull hk.sound hm)
      (Nat.lt_succ_of_lt hfuel) hlow hv hnext hnew
    rw [hw] at hround
    obtain ⟨as, bs, hins, hexit, hfound⟩ := round_found hnch hnz hpos hnb (by omega) hvisit
    obtain ⟨hfinal, hframe⟩ :=
      (hkept.with_bet (new_bet_mem _ hn hkept.betBlock)).place hins hexit hreq
    refine ⟨_, (major_loop_again hz hround).trans (major_loop_made hpage.nonnull hfound), hfinal,
      ?_⟩
    exact hframed.trans hframe.of_bet (inserted_headers hins (pre ++ [m]) [])

end AtTheEnd

/-- `bestSize` at the beginning is what the best bet has free. -/
theorem Kept.initial_best (hk : Kept s h) {b : UInt32} (hb : h.bestBet = some b) :
    h.initialBestSize = s.room b := by
  rw [Liballoc.initialBestSize, hb]
  cases hf : h.majors.find? (fun maj => some maj.addr == some b) with
  | none =>
    obtain ⟨m, hm, hmb⟩ := List.mem_map.mp (hk.betBlock b hb)
    exact absurd hmb (by simpa using List.find?_eq_none.mp hf m hm)
  | some m =>
    have hmb : m.addr = b := by simpa using List.find?_some hf
    rw [← hmb, room_eq (hk.shown.block m (List.mem_of_find?_eq_some hf))]

theorem head_append {x : Major × Nat} {rest order : List (Major × Nat)} :
    headAddr (x :: rest ++ order) = x.1.addr := rfl

/-- The loop begins where the list of the blocks says, and has the same order before it. -/
theorem Kept.start_visits (hk : Kept s h) (hne : h.majors ≠ []) (size : UInt32) :
    ∃ order started, h.searched size = some order ∧ Left h.majors started order ∧ order ≠ [] ∧
      order.length ≤ 2 * h.majors.length ∧ h.majors.zipIdx ⊆ order ∧
      s.start size = visiting s h.bestBet h.initialBestSize started 1 (headAddr order) := by
  have hidx : h.majors.zipIdx ≠ [] := fun hnil => hne (List.zipIdx_eq_nil_iff.mp hnil)
  have hlen : h.majors.zipIdx.length = h.majors.length := List.length_zipIdx
  have hself : withBet s h.bestBet = s := by
    rw [withBet, ← hk.bet]
  have hfrom : visiting s h.bestBet h.initialBestSize false 1 (headAddr h.majors.zipIdx) =
      ⟨s, s.memRoot, false, h.initialBestSize, 1⟩ := by
    rw [visiting, hself, head_all, ← hk.root]
  cases hb : h.bestBet with
  | none =>
    refine ⟨h.majors.zipIdx, false, by rw [Liballoc.searched, hb], left_all _, hidx, by omega,
      List.Subset.refl _, ?_⟩
    have hz : s.bestBet = 0 := by rw [hk.bet, hb]; rfl
    have hbest : h.initialBestSize = 0 := by
      have hf : h.majors.find? (fun maj => some maj.addr == none) = none :=
        List.find?_eq_none.mpr (by simp)
      rw [Liballoc.initialBestSize, hb, hf]
    rw [← hb, hfrom, hbest, start, if_pos hz]
  | some b =>
    have hbz : b ≠ 0 := by
      obtain ⟨m, hm, rfl⟩ := List.mem_map.mp (hk.betBlock b hb)
      exact (hk.sound.block m hm).nonnull
    have hbet : s.bestBet = b := by rw [hk.bet, hb]; rfl
    have hbest := hk.initial_best hb
    cases hf : h.majors.zipIdx.find? (fun x => x.1.addr == b) with
    | none =>
      obtain ⟨m, hm, hmb⟩ := List.mem_map.mp (hk.betBlock b hb)
      rw [← List.zipIdx_map_fst 0 h.majors] at hm
      obtain ⟨x, hx, rfl⟩ := List.mem_map.mp hm
      exact absurd hmb (by simpa using List.find?_eq_none.mp hf x hx)
    | some x =>
      obtain ⟨m, i⟩ := x
      have hmb : m.addr = b := by simpa using List.find?_some hf
      obtain ⟨front, rest, hsplit⟩ := List.append_of_mem (List.mem_of_find?_eq_some hf)
      obtain ⟨hmajors, hi⟩ := split_zipIdx hsplit
      have hm : m ∈ h.majors := by rw [hmajors]; simp
      have hroom : s.room b = Liballoc.free m := by
        rw [← hmb, room_eq (hk.shown.block m hm)]
      have hdrop : h.majors.zipIdx.drop i = (m, i) :: rest := by simp [hsplit, hi]
      have hstart : s.start size = if s.room b > need size then ⟨s, b, true, s.room b, 1⟩
          else ⟨s, s.memRoot, false, s.room b, 1⟩ := by
        rw [start, hbet, if_neg hbz]
      have hsearched : h.searched size = if Liballoc.free m > need size then
          some (h.majors.zipIdx.drop i ++ h.majors.zipIdx) else some h.majors.zipIdx := by
        simp only [Liballoc.searched, hb, hf]
      rw [hstart, hsearched, hroom, ← hb]
      split
      case isTrue =>
        refine ⟨_, true, rfl, ⟨front, (m, i) :: rest, hsplit, ?_, by rw [hdrop]; rfl⟩, ?_, ?_,
          List.subset_append_right _ _, ?_⟩
        · exact fun _ => List.cons_ne_nil _ _
        · exact fun hnil => hidx (List.append_eq_nil_iff.mp hnil).2
        · have hle := List.length_drop (i := i) (l := h.majors.zipIdx)
          rw [List.length_append]
          omega
        · rw [hdrop, head_append, visiting, hself, hbest, hroom, hmb]
      case isFalse =>
        refine ⟨_, false, rfl, left_all _, hidx, by omega, List.Subset.refl _, ?_⟩
        rw [hfrom, hbest, hroom]

/-- What the calls of `liballoc_alloc` return. -/
def answers (page : Nat → UInt32) (n : Nat) : Option UInt32 :=
  if page n = 0 then none else some (page n)

/-- How a search ends: with a chunk in a gap of one of the blocks, with one in a new block
behind them when none of them has a gap, or with nothing. -/
inductive Outcome (majors majors' : List Major) (size reqSize : UInt32) (page : Nat → UInt32)
    (s' : Pool) : Option Chosen → Option Made → Prop
  | served (pre : List Major) (m : Major) (post : List Major) (as bs : List Minor) (ch : Chosen)
      (hold : majors = pre ++ m :: post) (hnew : majors' = pre ++ ch.maj :: post)
      (hv : visit size reqSize m = some ch)
      (hins : Inserted m as bs ⟨ch.min, size, reqSize⟩ ch.maj) :
      Outcome majors majors' size reqSize page s' (some ch) (some ⟨ch.exit, ch.min, s'⟩)
  | extended (ch : Chosen) (hnew : majors' = majors ++ [ch.maj])
      (hfull : ∀ n ∈ majors, visit size reqSize n = none) (hpage : page 1 ≠ 0)
      (hins : Inserted (newMajor size (page 1)) [] [] ⟨ch.min, size, reqSize⟩ ch.maj) :
      Outcome majors majors' size reqSize page s' (some ch) (some ⟨ch.exit, ch.min, s'⟩)
  | refused (hsame : majors' = majors) (hfull : ∀ n ∈ majors, visit size reqSize n = none)
      (hpage : page 1 = 0) : Outcome majors majors' size reqSize page s' none none

/-- The chunks after a search that has made one. -/
theorem Outcome.chunks_perm {ch : Chosen} {made : Made}
    (ho : Outcome majors majors' size reqSize page s' (some ch) (some made)) :
    (chunks majors').Perm (⟨ch.min, size, reqSize⟩ :: chunks majors) ∧
      made = ⟨ch.exit, ch.min, s'⟩ := by
  cases ho with
  | served pre m post as bs ch hold hnew hv hins =>
    rw [hold, hnew]
    exact ⟨inserted_chunks hins pre post, rfl⟩
  | extended ch hnew hfull hpage hins =>
    have hempty : chunks (majors ++ [newMajor size (page 1)]) = chunks majors := by
      simp [chunks, newMajor]
    rw [hnew, ← hempty]
    exact ⟨inserted_chunks hins majors [], rfl⟩

/-- The bet of the loop is always one of the blocks. -/
theorem search_loop_bet {order : List (Major × Nat)} {best : UInt32}
    (horder : ∀ x ∈ order, x.1 ∈ majors) (hb : ∀ a, bet = some a → a ∈ majors.map (·.addr)) :
    ∀ a, (searchLoop size reqSize order bet best).bestBet = some a → a ∈ majors.map (·.addr) := by
  induction order generalizing bet best with
  | nil => exact hb
  | cons x order ih =>
    obtain ⟨m, i⟩ := x
    have hnew := new_bet_mem best (horder _ List.mem_cons_self) hb
    cases hv : visit size reqSize m with
    | some ch =>
      rw [search_loop_some hv]
      exact hnew
    | none =>
      rw [search_loop_none hv]
      exact ih (fun x hx => horder x (List.mem_cons_of_mem _ hx)) hnew

/-- A search without success has been to all blocks. -/
theorem search_loop_full {order : List (Major × Nat)} {best best' : UInt32} {bet' : Option UInt32}
    (hl : searchLoop size reqSize order bet best = ⟨none, bet', best'⟩)
    (hall : majors.zipIdx ⊆ order) : ∀ m ∈ majors, visit size reqSize m = none := by
  intro m hm
  rw [← List.zipIdx_map_fst 0 majors] at hm
  obtain ⟨x, hx, rfl⟩ := List.mem_map.mp hm
  have hfound : none = order.findSome?
      (fun x => (visit size reqSize x.1).map (fun c => (x.2, c))) := by
    rw [← search_loop_found order bet best, hl]
  exact Option.map_eq_none_iff.mp (List.findSome?_eq_none_iff.mp hfound.symm x (hall hx))

section ListSearch

variable {order : List (Major × Nat)} {i : Nat} {ch : Chosen} {best : UInt32}
  {answer : Nat → Option UInt32}

theorem search_served (ho : h.searched size = some order)
    (hl : searchLoop size reqSize order h.bestBet h.initialBestSize = ⟨some (i, ch), bet, best⟩) :
    h.search size reqSize answer = some (⟨h.majors.set i ch.maj, bet⟩, some ch) := by
  simp only [Liballoc.search, ho, hl]

theorem search_unserved (ho : h.searched size = some order)
    (hl : searchLoop size reqSize order h.bestBet h.initialBestSize = ⟨none, bet, best⟩) :
    h.search size reqSize answer = some (h.extend size reqSize (Liballoc.leftByCase1 size order)
      ⟨none, bet, best⟩ answer) := by
  simp only [Liballoc.search, ho, hl]

theorem extend_none {low : Bool} (ha : answer 1 = none) :
    h.extend size reqSize low ⟨none, bet, best⟩ answer = (⟨h.majors, bet⟩, none) := by
  simp only [Liballoc.extend, Liballoc.allocateNewPage, ha, Option.map_none]

theorem extend_new {p : UInt32} {low : Prop} [Decidable low] (ha : answer 1 = some p)
    (hsize : size.toNat + 4144 ≤ 2 ^ 32) (hf : FreshPages h.majors size p) :
    h.extend size reqSize low ⟨none, bet, best⟩ answer =
      (⟨h.majors ++ [(Liballoc.first size reqSize (newMajor size p) .fresh).maj],
        if low then bet else newBet (newMajor size p) bet best⟩,
        some (Liballoc.first size reqSize (newMajor size p) .fresh)) := by
  have hv := visit_new_block hsize reqSize hf
  have hone : searchLoop size reqSize [(newMajor size p, h.majors.length)] bet best =
      ⟨some (h.majors.length, Liballoc.first size reqSize (newMajor size p) .fresh),
        newBet (newMajor size p) bet best, newBest (newMajor size p) best⟩ := search_loop_some hv
  rw [newMajor] at hone
  simp only [Liballoc.extend, Liballoc.allocateNewPage, ha, Option.map_some, hone, newMajor]
  by_cases hlow : low
  · simp [hlow]
  · simp [hlow]

end ListSearch

/-- The search of `malloc` through its pointers is the one through the list. -/
theorem search_refines {n : Nat} (hk : Kept s h) (hne : h.majors ≠ [])
    (hsize : size.toNat + 4144 ≤ 2 ^ 32) (hreq : reqSize.toNat + 32 ≤ size.toNat)
    (hchunks : ∀ m ∈ h.majors, m.minors.length ≤ n)
    (hfuel : 2 * h.majors.length + n + 1 < fuel)
    (hpage : (∀ m ∈ h.majors, visit size reqSize m = none) → page 1 ≠ 0 →
      FreshPages h.majors size (page 1)) :
    ∃ h' o s' o', h.search size reqSize (answers page) = some (h', o) ∧
      majorLoop size reqSize page fuel (s.start size) = some (s', o') ∧ Kept s' h' ∧
      Framed s s' h'.majors ∧ Outcome h.majors h'.majors size reqSize page s' o o' := by
  obtain ⟨order, started, hsearched, hleft, hone, hlen, hall, hstart⟩ := hk.start_visits hne size
  have hsmall : size.toNat + 24 < 2 ^ 32 := by omega
  have horder : ∀ x ∈ order, x.1 ∈ h.majors := fun x hx => searched_subset hsearched hx
  have hchunks' : ∀ m ∈ h.majors, m.minors.length ≤ n + 1 :=
    fun m hm => Nat.le_succ_of_le (hchunks m hm)
  have hfuel' : order.length + (n + 1) < fuel := by omega
  have hbets : ∀ a, (searchLoop size reqSize order h.bestBet h.initialBestSize).bestBet = some a →
      a ∈ h.majors.map (·.addr) := search_loop_bet horder hk.betBlock
  rw [hstart]
  obtain ⟨majors, bet⟩ := h
  cases hloop : searchLoop size reqSize order bet (Liballoc.initialBestSize ⟨majors, bet⟩) with
  | mk found bet' best' =>
    rw [hloop] at hbets
    cases found with
    | some r =>
      obtain ⟨i, ch⟩ := r
      obtain ⟨pre, m, post, as, bs, rfl, rfl, hv, hins, hexit, hmajor⟩ := loop_found hk.sound
        hk.shown hk.root hchunks' hsmall hleft hfuel' hloop
      obtain ⟨hfinal, hframe⟩ := (hk.with_bet hbets).place hins hexit hreq
      have hset : (pre ++ m :: post).set pre.length ch.maj = pre ++ ch.maj :: post := by simp
      refine ⟨⟨pre ++ ch.maj :: post, bet'⟩, _, _, _, ?_, hmajor, hfinal, hframe,
        .served pre m post as bs ch rfl rfl hv hins⟩
      rw [search_served hsearched hloop, hset]
    | none =>
      obtain ⟨pre, m, f, bet₀, best₀, rfl, hnone, hf, hlast, rfl, rfl, hmajor⟩ := loop_to_last
        hk.sound hk.shown hk.root hchunks' hone hleft hfuel' hloop
      obtain ⟨g, rfl⟩ := Nat.exists_eq_add_of_le' (Nat.zero_lt_of_lt hf)
      have hm : m.minors.length < g :=
        Nat.lt_of_le_of_lt (hchunks m (by simp)) (Nat.lt_of_succ_lt_succ hf)
      have hlow : Liballoc.leftByCase1 size order = decide (Liballoc.free m < need size) := by
        rw [Liballoc.leftByCase1, hlast]
      have hfull := search_loop_full hloop hall
      rw [hmajor, search_unserved hsearched hloop, hlow]
      by_cases hz : page 1 = 0
      · obtain ⟨s', hend, hfinal, hframe⟩ := end_no_memory hk hnone (Nat.lt_succ_of_lt hm) hbets hz
        refine ⟨_, _, _, _, ?_, hend, hfinal, hframe, .refused rfl hfull hz⟩
        rw [extend_none (by rw [answers, if_pos hz])]
      · obtain ⟨s', hend, hfinal, hframe⟩ :=
          end_new_block hk hnone hm hbets hsize hreq (hpage hfull hz)
        refine ⟨_, some (Liballoc.first size reqSize (newMajor size (page 1)) .fresh), _, _, ?_,
          hend, hfinal, hframe, ?_⟩
        · rw [extend_new (by rw [answers, if_neg hz]) hsize (hpage hfull hz)]
        · exact .extended (Liballoc.first size reqSize (newMajor size (page 1)) .fresh) rfl hfull hz
            (new_inserted hsize reqSize (hpage hfull hz))

end Levos.Proofs.Serving
