import Levos.Chunks
import Levos.Proofs.Serving

namespace Levos.Proofs.HeapCalls
open Library Pool Levos.Proofs.Malloc Levos.Proofs.Blocks Levos.Proofs.Views Levos.Proofs.Headers
open Levos.Proofs.Placing Levos.Proofs.Searching Levos.Proofs.Serving
open Liballoc (headerSize need Exit Chosen visit pagesWanted lPageSize align ptr)

variable {s s' : Pool} {h h' : Liballoc} {m : Major} {c d x : Minor} {majors : List Major}
  {size reqSize p : UInt32} {page : Nat → UInt32} {fuel a : Nat}

/-- `ALIGN` goes to the next multiple of sixteen that leaves sixteen bytes. -/
theorem align_toNat (hp : p.toNat + 31 < 2 ^ 32) : (align p).toNat = (p.toNat + 31) / 16 * 16 := by
  have hadd : (p + 16).toNat = p.toNat + 16 := by
    rw [UInt32.toNat_add]
    exact Nat.mod_eq_of_lt (by omega : p.toNat + 16 < 2 ^ 32)
  have hand : ((p + 16) &&& 15).toNat = (p.toNat + 16) % 16 := by
    rw [UInt32.toNat_and, hadd]
    exact Nat.and_two_pow_sub_one_eq_mod _ 4
  have hzero : (p + 16) &&& 15 = 0 ↔ (p.toNat + 16) % 16 = 0 := by
    rw [← hand, ← UInt32.toNat_inj]
    rfl
  rw [align]
  split
  case isTrue h0 =>
    have := hzero.mp h0
    omega
  case isFalse h0 =>
    have := mt hzero.mpr h0
    have hsub : (16 - ((p + 16) &&& 15)).toNat = 16 - (p.toNat + 16) % 16 := by
      rw [sub_toNat, hand]
      · rfl
      · rw [hand]
        exact Nat.le_of_lt (Nat.mod_lt _ (by decide))
    rw [UInt32.toNat_add, hadd, hsub]
    omega

/-- A chunk that lies in the address space and has room for its alignment. -/
structure Fitted (c : Minor) : Prop where
  inside : hi c ≤ 2 ^ 32
  sized : c.reqSize.toNat + 32 ≤ c.size.toNat

/-- The memory of a chunk. -/
def Body (c : Minor) (a : Nat) : Prop := lo c + 24 ≤ a ∧ a < hi c

section Pointers

variable (hc : Fitted c)
include hc

theorem Fitted.start : (c.addr + headerSize).toNat = lo c + 24 := by
  have hheader : headerSize.toNat = 24 := rfl
  have hinside := hc.inside
  have hsized := hc.sized
  simp only [hi, lo] at hinside ⊢
  rw [UInt32.toNat_add, hheader]
  omega

theorem Fitted.ptr_toNat : (ptr c).toNat = (lo c + 55) / 16 * 16 := by
  have hinside := hc.inside
  have hsized := hc.sized
  simp only [hi] at hinside
  rw [ptr, align_toNat, hc.start]
  rw [hc.start, lo]
  omega

theorem Fitted.ptr_bounds : lo c + 40 ≤ (ptr c).toNat ∧ (ptr c).toNat ≤ lo c + 55 ∧
    (ptr c).toNat + c.reqSize.toNat < hi c := by
  have hptr := hc.ptr_toNat
  have hsized := hc.sized
  simp only [hi, lo] at hptr ⊢
  omega

theorem Fitted.ptr_aligned : (ptr c).toNat % 16 = 0 := by
  rw [hc.ptr_toNat]
  omega

theorem Fitted.ptr_ne_zero : ptr c ≠ 0 := by
  intro h0
  have hbounds := hc.ptr_bounds
  rw [h0] at hbounds
  have hzero : (0 : UInt32).toNat = 0 := rfl
  omega

/-- How far the pointer has been moved, and where that is noted. -/
theorem Fitted.note_toNat : (ptr c - 16).toNat = (ptr c).toNat - 16 := by
  have hbounds := hc.ptr_bounds
  exact sub_toNat (by change 16 ≤ _; omega)

theorem Fitted.moved_toNat :
    (ptr c - (c.addr + headerSize)).toNat = (ptr c).toNat - (lo c + 24) := by
  have hbounds := hc.ptr_bounds
  rw [sub_toNat, hc.start]
  rw [hc.start]
  omega

end Pointers

/-- A small number comes back out of the byte it has been put into. -/
theorem byte_round_trip (n : UInt32) (hn : n.toNat < 32) :
    n.toUInt8.toInt8.toInt32.toUInt32 = n := by
  have hall : ∀ k : Fin 32, (UInt32.ofNat k).toUInt8.toInt8.toInt32.toUInt32 = UInt32.ofNat k := by
    decide
  have hk := hall ⟨n.toNat, hn⟩
  rwa [UInt32.ofNat_toNat] at hk

/-- The byte below the pointer of a chunk says how far `ALIGN` has moved it. -/
def Noted (mem : Nat → UInt8) (c : Minor) : Prop :=
  mem (ptr c - 16).toNat = (ptr c - (c.addr + headerSize)).toUInt8

/-- `UNALIGN` finds the chunk of a pointer. -/
theorem minor_of_ptr (hc : Fitted c) (hn : Noted s.mem c) : s.minorOf (ptr c) = c.addr := by
  have hbounds := hc.ptr_bounds
  have hmoved := hc.moved_toNat
  have hlt : (ptr c - (c.addr + headerSize)).toNat < 32 := by omega
  rw [minorOf, unalign, hn]
  simp only [byte_round_trip _ hlt]
  rw [if_pos (UInt32.lt_iff_toNat_lt.mpr hlt), sub_sub_self, UInt32.add_sub_cancel]

section Layout

variable (hs : Sound majors)
include hs

theorem fitted (hc : c ∈ chunks majors) : Fitted c := by
  obtain ⟨m, hm, hcm⟩ := List.mem_flatMap.mp hc
  have hb := hs.block m hm
  have hmem := hb.spaced.mem hcm
  exact ⟨Nat.le_trans hmem.2.2 hb.inside, hb.sized c hcm⟩

/-- The chunks do not overlap. -/
theorem chunks_apart : (chunks majors).Pairwise (fun c d => hi c ≤ lo d ∨ hi d ≤ lo c) := by
  rw [chunks, List.pairwise_flatMap]
  refine ⟨?_, List.Pairwise.imp_of_mem ?_ hs.apart⟩
  · intro m hm
    exact (hs.block m hm).spaced.pairwise.imp Or.inl
  · intro m n hm hn hmn c hc d hd
    have hcm := (hs.block m hm).spaced.mem hc
    have hdn := (hs.block n hn).spaced.mem hd
    simp only [base] at hcm hdn
    rcases hmn with hmn | hmn
    · exact .inl (by omega)
    · exact .inr (by omega)

/-- Two blocks are the same or do not overlap. -/
theorem same_or_apart {n : Major} (hm : m ∈ majors) (hn : n ∈ majors) :
    m = n ∨ top m ≤ n.addr.toNat ∨ top n ≤ m.addr.toNat := by
  by_cases hmn : m = n
  · exact .inl hmn
  · have hsymm : Std.Symm (fun m n : Major => top m ≤ n.addr.toNat ∨ top n ≤ m.addr.toNat) :=
      ⟨fun _ _ => Or.symm⟩
    exact .inr (hs.apart.forall hm hn hmn)

/-- No header lies in the memory of a chunk. -/
theorem body_off (hc : c ∈ chunks majors) (ha : Body c a) : ∀ b ∈ headers majors, Off b a := by
  intro b hb
  obtain ⟨m, hm, hcm⟩ := List.mem_flatMap.mp hc
  obtain ⟨n, hn, hcase⟩ := mem_headers.mp hb
  have hin := (hs.block m hm).spaced.mem hcm
  simp only [base] at hin
  have hbody := ha
  simp only [Body] at hbody
  rcases same_or_apart hs hm hn with rfl | happart
  · rcases hcase with rfl | ⟨d, hd, rfl⟩
    · exact .inr (by omega)
    · obtain ⟨as, bs, hsplit⟩ := List.append_of_mem hcm
      have hpair := (hs.block m hm).spaced.pairwise
      rw [hsplit, List.pairwise_append, List.pairwise_cons] at hpair
      rw [hsplit] at hd
      rcases List.mem_append.mp hd with hd | hd
      · have hdc := hpair.2.2 d hd c List.mem_cons_self
        simp only [hi] at hdc
        exact .inr (by omega)
      · rcases List.mem_cons.mp hd with rfl | hd
        · exact .inr hbody.1
        · have hcd := hpair.2.1.1 d hd
          exact .inl (by simp only [lo] at hcd; omega)
  · have hheader := (hs.block n hn).header (hs.block n hn).spaced.bounds (a := b) (by
      rcases hcase with rfl | ⟨d, hd, rfl⟩
      · exact List.mem_cons_self
      · exact List.mem_cons_of_mem _ (List.mem_map_of_mem hd))
    rcases happart with happart | happart
    · exact .inl (by omega)
    · exact .inr (by omega)

end Layout

/-- There is not room for more headers than this in the address space. -/
def headerRoom : Nat := 178956971

theorem headers_count (hs : Sound majors) : (headers majors).length ≤ headerRoom := by
  have hnd : ((headers majors).map (fun b => b.toNat / 24)).Nodup := by
    refine List.pairwise_map.mpr (hs.headers_far.imp ?_)
    intro a b hab
    simp only [Far] at hab
    omega
  have hsub :
      ((headers majors).map (fun b => b.toNat / 24)).toFinset ⊆ Finset.range headerRoom := by
    intro n hn
    obtain ⟨b, -, rfl⟩ := List.mem_map.mp (List.mem_toFinset.mp hn)
    have hlt := b.toNat_lt
    rw [Finset.mem_range, headerRoom]
    omega
  have hcard := Finset.card_le_card hsub
  rwa [List.toFinset_card_of_nodup hnd, List.length_map, Finset.card_range] at hcard

theorem length_le_headers (majors : List Major) : majors.length ≤ (headers majors).length := by
  induction majors with
  | nil => exact Nat.le_refl 0
  | cons m rest ih =>
    rw [headers, List.flatMap_cons, List.length_append, List.length_cons, List.length_cons]
    rw [headers] at ih
    omega

theorem majors_count (hs : Sound majors) : majors.length ≤ headerRoom :=
  Nat.le_trans (length_le_headers majors) (headers_count hs)

theorem minors_count (hs : Sound majors) (hm : m ∈ majors) : m.minors.length ≤ headerRoom := by
  obtain ⟨pre, post, rfl⟩ := List.append_of_mem hm
  have hcount := headers_count hs
  rw [headers_split] at hcount
  simp only [List.length_append, List.length_cons, addrs, List.length_map] at hcount
  omega

theorem field_congr {mem mem' : Nat → UInt8} (k : Fin 6)
    (h : ∀ i < 24, mem (p.toNat + i) = mem' (p.toNat + i)) : field mem p k = field mem' p k := by
  have hk := k.isLt
  rw [field, field, load_congr]
  intro i hi
  rw [Nat.add_assoc]
  exact h (4 * k + i) (by omega)

/-- Stores into the memory of chunks are not seen by the allocator. -/
theorem kept_store (hk : Kept s h) (mem : Nat → UInt8)
    (hmem : ∀ a, (∀ c ∈ chunks h.majors, ¬ Body c a) → mem a = s.mem a) :
    Kept { s with mem := mem } h := by
  refine ⟨hk.sound, hk.shown.congr ?_, hk.root, hk.bet, hk.betBlock, hk.inuse, hk.allocated⟩
  intro b hb k
  refine field_congr k ?_
  intro i hi
  refine hmem _ ?_
  intro c hc hbody
  have hoff := body_off hk.sound hc hbody b hb
  simp only [Off] at hoff
  omega

/-- The heap, with the notes of `ALIGN`. -/
structure Intact (s : Pool) (h : Liballoc) : Prop extends Kept s h where
  noted : ∀ c ∈ chunks h.majors, Noted s.mem c

theorem Fitted.note_body (hc : Fitted c) : Body c (ptr c - 16).toNat := by
  have hbounds := hc.ptr_bounds
  rw [hc.note_toNat, Body]
  omega

theorem chunks_nodup (hs : Sound majors) : (chunks majors).Nodup := by
  refine (chunks_apart hs).imp ?_
  rintro c d hcd rfl
  simp only [hi, lo] at hcd
  omega

/-- Two chunks of the heap do not share memory. -/
theorem body_unique (hs : Sound majors) (hc : c ∈ chunks majors) (hd : d ∈ chunks majors)
    (hca : Body c a) (hda : Body d a) : c = d := by
  by_contra hne
  have hsymm : Std.Symm (fun c d : Minor => hi c ≤ lo d ∨ hi d ≤ lo c) := ⟨fun _ _ => Or.symm⟩
  have hapart := (chunks_apart hs).forall hc hd hne
  simp only [Body] at hca hda
  omega

section Finish

variable (hx : Fitted x) (current : Option Nat) (exit : Exit)

theorem finish_ptr : (finish current x.reqSize ⟨exit, x.addr, s⟩).p = ptr x := by
  rw [finish]
  split <;> rfl

include hx

/-- The end of `malloc` only stores into the new chunk. -/
theorem finish_frame (ha : ¬ Body x a) :
    (finish current x.reqSize ⟨exit, x.addr, s⟩).heap.mem a = s.mem a := by
  have hbounds := hx.ptr_bounds
  have hnote : noteAlign s.mem (x.addr + headerSize) a = s.mem a := by
    refine Function.update_of_ne ?_ _ _
    rintro rfl
    exact ha hx.note_body
  rw [finish]
  split
  · exact hnote
  · refine (blit_outside _ ?_).trans hnote
    change a < (ptr x).toNat ∨ (ptr x).toNat + _ ≤ a
    rw [List.length_replicate]
    simp only [Body] at ha
    omega

theorem finish_noted : Noted (finish current x.reqSize ⟨exit, x.addr, s⟩).heap.mem x := by
  have hbounds := hx.ptr_bounds
  have hnote : Noted (noteAlign s.mem (x.addr + headerSize)) x := Function.update_self _ _ _
  rw [finish]
  split
  · exact hnote
  · refine (blit_outside _ (.inl ?_)).trans hnote
    change (ptr x - 16).toNat < (ptr x).toNat
    rw [hx.note_toNat]
    omega

omit hx in
/-- The memory of the new chunk is cleared by all exits but one. -/
theorem finish_clear (hexit : exit ≠ .behind) :
    slice (finish current x.reqSize ⟨exit, x.addr, s⟩).heap.mem (ptr x).toNat x.reqSize.toNat =
      List.replicate x.reqSize.toNat 0 := by
  rw [finish, if_neg hexit]
  have hslice := slice_blit (noteAlign s.mem (x.addr + headerSize)) (ptr x).toNat
    (List.replicate x.reqSize.toNat 0)
  rwa [List.length_replicate] at hslice

end Finish

theorem root_ne_zero (hk : Kept s h) (hne : h.majors ≠ []) : s.memRoot ≠ 0 := by
  obtain ⟨m, rest, hm⟩ := List.exists_cons_of_ne_nil hne
  rw [hk.root, hm]
  exact (hk.sound.block m (by simp [hm])).nonnull

section Root

variable (hk : Kept s h) (hsize : size.toNat + 4144 ≤ 2 ^ 32)
  (hpage : h.majors = [] → page 0 ≠ 0 → FreshPages [] size (page 0))
include hk hsize hpage

/-- Before the search there is a block, unless there is no memory for one. -/
theorem root_kept : (∃ h', h.root size (answers page 0) = some h' ∧ h'.majors ≠ [] ∧
      Kept (s.root size page) h' ∧ Framed s (s.root size page) h'.majors ∧
      chunks h'.majors = chunks h.majors ∧
      (h' = h ∨ h.majors = [] ∧ h'.majors = [newMajor size (page 0)] ∧
        FreshPages [] size (page 0))) ∨
    (h.root size (answers page 0) = none ∧ (s.root size page).memRoot = 0 ∧
      Kept (s.root size page) h ∧ (s.root size page).mem = s.mem ∧ h.majors = [] ∧ page 0 = 0) := by
  by_cases hnil : h.majors = []
  · have hroot : s.memRoot = 0 := by rw [hk.root, hnil]; rfl
    by_cases hz : page 0 = 0
    · right
      have hsame : s.root size page = { s with
          warningCount := s.warningCount + 1, memRoot := 0 } := by
        rw [Pool.root, if_pos hroot, allocateNewPage, if_pos hz]
      rw [hsame]
      refine ⟨?_, rfl, ⟨hk.sound, hk.shown, ?_, hk.bet, hk.betBlock, hk.inuse, hk.allocated⟩, rfl,
        hnil, hz⟩
      · rw [Liballoc.root, if_pos hnil, answers, if_pos hz]
        rfl
      · rw [hnil]
        rfl
    · left
      obtain ⟨majors, bet⟩ := h
      cases hnil
      have hf := hpage rfl hz
      have hbet : bet = none := by
        cases bet with
        | none => rfl
        | some b => cases hk.betBlock b rfl
      have hsound : Sound [newMajor size (page 0)] := sound_append hsize hk.sound hf
      have hheader : page 0 ∈ headers [newMajor size (page 0)] := List.mem_cons_self
      have hshows := allocate_new_page_shows s size (spread hsound) hheader
      have hsame : s.root size page = { (s.allocateNewPage size (page 0)).1 with
          memRoot := page 0 } := by
        rw [Pool.root, if_pos hroot, allocate_new_page_eq s size hz]
      have hrest := hshows.rest
      rw [hsame]
      generalize (s.allocateNewPage size (page 0)).1 = s' at hshows hrest ⊢
      refine ⟨⟨[newMajor size (page 0)], bet⟩, ?_, List.cons_ne_nil _ _,
        ⟨hsound, hk.shown.append (spread hsound) hshows.view, rfl, ?_, ?_, ?_, ?_⟩, hshows.off, rfl,
        .inr ⟨rfl, rfl, hf⟩⟩
      · rw [Liballoc.root, if_pos rfl, answers, if_neg hz]
        rfl
      · rw [hrest]
        exact hk.bet
      · intro b hb
        cases hbet.symm.trans hb
      · rw [hrest]
        exact hk.inuse
      · have hsum : acquired [newMajor size (page 0)] =
            acquired [] + (pagesWanted size * lPageSize).toNat := by
          simp [acquired, newMajor]
        rw [hrest, hsum, UInt64.ofNat_add, ← to_uint64, ← hk.allocated]
  · left
    have hsame : s.root size page = s := if_neg (root_ne_zero hk hnil)
    refine ⟨h, if_neg hnil, hnil, ?_⟩
    rw [hsame]
    exact ⟨hk, fun _ _ => rfl, rfl, .inl rfl⟩

end Root

/-- The pages `malloc` is given when it has to ask for them. -/
structure PagesFresh (h : Liballoc) (size reqSize : UInt32) (page : Nat → UInt32) : Prop where
  first : h.majors = [] → page 0 ≠ 0 → FreshPages [] size (page 0)
  more : h.majors ≠ [] → (∀ m ∈ h.majors, visit size reqSize m = none) → page 1 ≠ 0 →
    FreshPages h.majors size (page 1)

/-- Where `malloc` has found its memory: in a gap of a block, or in the first block or the
next one, when there is no gap. -/
inductive Supply (majors majors' : List Major) (size reqSize : UInt32) (page : Nat → UInt32) : Prop
  | gap (pre : List Major) (m : Major) (post : List Major) (as bs : List Minor) (x : Minor)
      (m' : Major) (hold : majors = pre ++ m :: post) (hnew : majors' = pre ++ m' :: post)
      (hv : visit size reqSize m ≠ none) (hins : Inserted m as bs x m')
  | pages (k : Nat) (m' : Major) (hk : k = if majors = [] then 0 else 1)
      (hfull : ∀ n ∈ majors, visit size reqSize n = none) (hpage : page k ≠ 0)
      (hnew : majors' = majors ++ [m']) (haddr : m'.addr = page k)
      (hsize : m'.size = pagesWanted size * lPageSize) (hne : m'.minors ≠ [])

/-- What a call of `malloc` may return: a null pointer when there is neither a gap nor a
page, or a new chunk. -/
inductive Answer (majors majors' : List Major) (reqSize : UInt32) (page : Nat → UInt32)
    (r : Pool.Result) : Prop
  | null (hp : r.p = 0) (hposted : r.posted = []) (hsame : majors' = majors)
      (hfull : ∀ n ∈ majors, visit (reqSize + 32) reqSize n = none)
      (hpage : page (if majors = [] then 0 else 1) = 0)
  | chunk (x : Minor) (hp : r.p = ptr x) (hreq : x.reqSize = reqSize)
      (hperm : (chunks majors').Perm (x :: chunks majors))
      (hclear : r.posted ≠ [] → slice r.heap.mem r.p.toNat reqSize.toNat =
        List.replicate reqSize.toNat 0)
      (hsupply : Supply majors majors' (reqSize + 32) reqSize page)

/-- The memory of the chunks that were there is as it was. -/
def Untouched (s s' : Pool) (majors : List Major) : Prop :=
  ∀ c ∈ chunks majors, ∀ a, Body c a → s'.mem a = s.mem a

theorem untouched_of_framed (hf : Framed s s' majors) (hs : Sound majors) {cs : List Major}
    (hsub : ∀ c ∈ chunks cs, c ∈ chunks majors) : Untouched s s' cs := by
  intro c hc a ha
  exact hf a (body_off hs (hsub c hc) ha)

theorem Untouched.noted (hu : Untouched s s' majors) (hs : Sound majors) (hc : c ∈ chunks majors)
    (hn : Noted s.mem c) : Noted s'.mem c := by
  rw [Noted, hu c hc _ (fitted hs hc).note_body]
  exact hn

/-- The end of `malloc` on the list of the blocks. -/
theorem list_finish {ch : Chosen} (hx : Fitted ⟨ch.min, size, reqSize⟩) (current : Option Nat)
    (mem : UInt32 → UInt8) :
    ∃ r', Liballoc.finish h current mem reqSize ch = some r' ∧ r'.heap = h ∧
      r'.p = some (ptr ⟨ch.min, size, reqSize⟩) ∧
      r'.posted = (finish current reqSize ⟨ch.exit, ch.min, s⟩).posted := by
  have hend : (ptr ⟨ch.min, size, reqSize⟩).toNat + reqSize.toNat < _ := hx.ptr_bounds.2.2
  have hinside := hx.inside
  rw [Liballoc.finish, finish]
  split
  case isTrue => exact ⟨_, rfl, rfl, rfl, rfl⟩
  case isFalse =>
    have hroom : ¬ 2 ^ 32 < (align (ch.min + headerSize)).toNat + reqSize.toNat := by
      change ¬ 2 ^ 32 < (ptr ⟨ch.min, size, reqSize⟩).toNat + reqSize.toNat
      omega
    rw [if_neg hroom]
    exact ⟨_, rfl, rfl, rfl, rfl⟩

/-- The chunk the search has made is finished. -/
theorem finish_holds (hk : Kept s h) (hx : x ∈ chunks h.majors) (current : Option Nat) (exit : Exit)
    (hn : ∀ c ∈ chunks h.majors, c ≠ x → Noted s.mem c) :
    Intact (finish current x.reqSize ⟨exit, x.addr, s⟩).heap h := by
  have hf := fitted hk.sound hx
  have hmem : (finish current x.reqSize ⟨exit, x.addr, s⟩).heap =
      { s with mem := (finish current x.reqSize ⟨exit, x.addr, s⟩).heap.mem } := by
    rw [finish]
    split <;> rfl
  have hkept := kept_store hk (finish current x.reqSize ⟨exit, x.addr, s⟩).heap.mem
    (fun a ha => finish_frame hf current exit (ha x hx))
  rw [← hmem] at hkept
  refine ⟨hkept, ?_⟩
  intro c hc
  by_cases hcx : c = x
  · subst hcx
    exact finish_noted hf current exit
  · rw [Noted, finish_frame hf current exit]
    · exact hn c hc hcx
    · intro hbody
      exact hcx (body_unique hk.sound hc hx (fitted hk.sound hc).note_body hbody)

/-- What the end of `malloc` makes of a search that has made a chunk. -/
theorem finish_answer {s₁ s₂ : Pool} {h₁ h₂ : Liballoc} (hh : Intact s₁ h₁) (hk : Kept s₂ h₂)
    (hu : Untouched s₁ s₂ h₁.majors) (hperm : (chunks h₂.majors).Perm (x :: chunks h₁.majors))
    (hsupply : Supply h₁.majors h₂.majors (x.reqSize + 32) x.reqSize page) (current : Option Nat)
    (exit : Exit) :
    Intact (finish current x.reqSize ⟨exit, x.addr, s₂⟩).heap h₂ ∧
      Untouched s₁ (finish current x.reqSize ⟨exit, x.addr, s₂⟩).heap h₁.majors ∧
      Answer h₁.majors h₂.majors x.reqSize page
        (finish current x.reqSize ⟨exit, x.addr, s₂⟩) := by
  have hsub : ∀ c ∈ chunks h₁.majors, c ∈ chunks h₂.majors :=
    fun c hc => hperm.symm.subset (List.mem_cons_of_mem _ hc)
  have hx : x ∈ chunks h₂.majors := hperm.symm.subset List.mem_cons_self
  have hfit := fitted hk.sound hx
  have hnew : x ∉ chunks h₁.majors :=
    (List.nodup_cons.mp (hperm.nodup_iff.mp (chunks_nodup hk.sound))).1
  refine ⟨?_, ?_, ?_⟩
  · refine finish_holds hk hx current exit ?_
    intro c hc hcx
    have hc' := (List.mem_cons.mp (hperm.subset hc)).resolve_left hcx
    exact hu.noted hh.sound hc' (hh.noted c hc')
  · intro c hc a ha
    rw [finish_frame hfit current exit, hu c hc a ha]
    intro hbody
    exact hnew (body_unique hk.sound (hsub c hc) hx ha hbody ▸ hc)
  · refine .chunk x (finish_ptr current exit) rfl hperm ?_ hsupply
    intro hposted
    rw [finish_ptr]
    refine finish_clear current exit ?_
    rintro rfl
    exact hposted rfl

section Supply

variable {h₁ h₂ : Liballoc} {s₂ : Pool} {ch : Chosen} {made : Made}

/-- A new block never leaves its request unserved. -/
theorem root_serves (hsmall : size.toNat + 4144 ≤ 2 ^ 32) (hf : FreshPages [] size p)
    (hfull : ∀ n ∈ [newMajor size p], visit size reqSize n = none) : False := by
  have hvisit := hfull (newMajor size p) List.mem_cons_self
  rw [visit_new_block hsmall reqSize hf] at hvisit
  cases hvisit

/-- The search has served the request from the blocks there were, or from one that was
made for it. -/
theorem supply_of_outcome (hsmall : size.toNat + 4144 ≤ 2 ^ 32)
    (hcase : h₁ = h ∨ h.majors = [] ∧ h₁.majors = [newMajor size (page 0)] ∧
      FreshPages [] size (page 0)) (hne : h₁.majors ≠ [])
    (ho : Outcome h₁.majors h₂.majors size reqSize page s₂ (some ch) (some made)) :
    Supply h.majors h₂.majors size reqSize page := by
  cases ho with
  | served pre m post as bs ch hold hnew hv hins =>
    rcases hcase with rfl | ⟨hnil, hone, hf⟩
    · exact .gap pre m post as bs _ _ hold hnew (by rw [hv]; exact nofun) hins
    · rw [hone] at hold
      cases pre with
      | cons n pre => simp at hold
      | nil =>
        obtain ⟨rfl, rfl⟩ := List.cons.inj hold
        refine .pages 0 ch.maj (if_pos hnil).symm (by rw [hnil]; exact nofun) hf.nonnull
          (by rw [hnil]; exact hnew) hins.addr_eq ?_ ?_
        · rw [hins.new]
          rfl
        · rw [hins.new]
          simp
  | extended ch hnew hfull hpage hins =>
    rcases hcase with rfl | ⟨-, hone, hf⟩
    · refine .pages 1 ch.maj (if_neg hne).symm hfull hpage hnew hins.addr_eq ?_ ?_
      · rw [hins.new]
        rfl
      · rw [hins.new]
        simp
    · rw [hone] at hfull
      exact (root_serves hsmall hf hfull).elim

end Supply

/-- `malloc` through its pointers does what `malloc` on the list of the blocks does. -/
theorem malloc_sized_refines (hh : Intact s h) (hreq : reqSize.toNat + 4176 ≤ 2 ^ 32)
    (hfuel : 2 ^ 30 ≤ fuel) (hpages : PagesFresh h (reqSize + 32) reqSize page)
    (current : Option Nat) (mem : UInt32 → UInt8) :
    ∃ r r', s.mallocSized fuel current page reqSize = some r ∧
      h.mallocSized current (answers page) mem reqSize = some r' ∧ r.p = r'.p.getD 0 ∧
      r.posted = r'.posted ∧ Intact r.heap r'.heap ∧ Untouched s r.heap h.majors ∧
      Answer h.majors r'.heap.majors reqSize page r := by
  have hsize : (reqSize + 32).toNat = reqSize.toNat + 32 := by
    rw [UInt32.toNat_add]
    exact Nat.mod_eq_of_lt (by change reqSize.toNat + 32 < 2 ^ 32; omega)
  have hsmall : (reqSize + 32).toNat + 4144 ≤ 2 ^ 32 := by omega
  rcases root_kept hh.toKept hsmall hpages.first with
    ⟨h₁, hroot, hne, hk, hframe, hchunks, hcase⟩ | ⟨hroot, hzero, hk, hmem, hnil, hpage⟩
  · have hmore : (∀ m ∈ h₁.majors, visit (reqSize + 32) reqSize m = none) → page 1 ≠ 0 →
        FreshPages h₁.majors (reqSize + 32) (page 1) := by
      intro hfull
      rcases hcase with rfl | ⟨-, hnew, hf⟩
      · exact hpages.more hne hfull
      · rw [hnew] at hfull
        exact (root_serves hsmall hf hfull).elim
    have hcount : 2 * h₁.majors.length + headerRoom + 1 < fuel := by
      have hmajors := majors_count hk.sound
      simp only [headerRoom] at hmajors ⊢
      omega
    obtain ⟨h₂, o, s₂, o', hlist, hloop, hk₂, hframe₂, hout⟩ := search_refines hk hne hsmall
      (by omega : reqSize.toNat + 32 ≤ (reqSize + 32).toNat)
      (fun m hm => minors_count hk.sound hm) hcount hmore
    have hmn := root_ne_zero hk hne
    have huntouched : (∀ c ∈ chunks h.majors, c ∈ chunks h₂.majors) → Untouched s s₂ h.majors := by
      intro hsub c hc a ha
      exact (hframe₂ a (body_off hk₂.sound (hsub c hc) ha)).trans
        (hframe a (body_off hk.sound (hchunks ▸ hc) ha))
    cases o with
    | none =>
      cases hout with
      | refused hsame hfull hpage =>
        rcases hcase with rfl | ⟨-, hone, hf⟩
        · have hu := huntouched (fun c hc => by rwa [hsame])
          refine ⟨⟨s₂, 0, []⟩, ⟨h₂, none, [], mem⟩, ?_, ?_, rfl, rfl, ⟨hk₂, ?_⟩, hu,
            .null rfl rfl hsame hfull (by rwa [if_neg hne])⟩
          · rw [mallocSized]
            simp only [if_neg hmn, hloop]
          · rw [Liballoc.mallocSized, hroot]
            simp only [hlist]
          · intro c hc
            rw [hsame] at hc
            exact hu.noted hh.sound hc (hh.noted c hc)
        · rw [hone] at hfull
          exact (root_serves hsmall hf hfull).elim
    | some ch =>
      cases o' with
      | none => cases hout
      | some made =>
        have hsupply := supply_of_outcome hsmall hcase hne hout
        obtain ⟨hperm, rfl⟩ := hout.chunks_perm
        rw [hchunks] at hperm
        have hu := huntouched (fun c hc => hperm.symm.subset (List.mem_cons_of_mem _ hc))
        have hfit := fitted hk₂.sound (hperm.symm.subset List.mem_cons_self)
        obtain ⟨r', hr', hheap, hp, hposted⟩ := list_finish (h := h₂) (s := s₂) hfit current mem
        obtain ⟨hholds, hsame, hanswer⟩ := finish_answer hh hk₂ hu hperm hsupply current ch.exit
        refine ⟨finish current reqSize ⟨ch.exit, ch.min, s₂⟩, r', ?_, ?_, ?_, hposted.symm, ?_,
          hsame, ?_⟩
        · rw [mallocSized]
          simp only [if_neg hmn, hloop]
        · rw [Liballoc.mallocSized, hroot]
          simp only [hlist]
          exact hr'
        · rw [hp, finish_ptr (x := ⟨ch.min, reqSize + 32, reqSize⟩)]
          rfl
        · rw [hheap]
          exact hholds
        · rw [hheap]
          exact hanswer
  · refine ⟨⟨s.root (reqSize + 32) page, 0, []⟩, ⟨h, none, [], mem⟩, ?_, ?_, rfl, rfl, ⟨hk, ?_⟩, ?_,
      .null rfl rfl rfl (by rw [hnil]; exact nofun) (by rwa [if_pos hnil])⟩
    · rw [mallocSized]
      simp only [if_pos hzero]
    · rw [Liballoc.mallocSized, hroot]
    · intro c hc
      rw [Noted, hmem]
      exact hh.noted c hc
    · intro c hc a ha
      rw [hmem]

end Levos.Proofs.HeapCalls
