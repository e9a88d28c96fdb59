import Levos.Proofs.HeapCalls

namespace Levos.Proofs.Freeing
open Library Pool Levos.Proofs.Malloc Levos.Proofs.Blocks Levos.Proofs.Views Levos.Proofs.Headers
open Levos.Proofs.Placing Levos.Proofs.Searching Levos.Proofs.Serving Levos.Proofs.HeapCalls
open Liballoc (headerSize need ptr owner without release)

variable {s s' : Pool} {h h' : Liballoc} {m : Major} {c x : Minor} {as bs : List Minor}
  {majors pre post : List Major} {bet : Option UInt32} {p : UInt32} {a : Nat}

/-- A block without one of its chunks. -/
def cut (m : Major) (c : Minor) (as bs : List Minor) : Major :=
  { m with usage := m.usage - need c.size, minors := as ++ bs }

theorem cut_addr : (cut m c as bs).addr = m.addr := rfl

theorem removed_chunks (hm : m.minors = as ++ c :: bs) (pre post : List Major) :
    (chunks (pre ++ m :: post)).Perm (c :: chunks (pre ++ cut m c as bs :: post)) := by
  rw [chunks_split, chunks_split, hm, cut]
  simp only [List.append_assoc, List.cons_append]
  rw [← List.append_assoc, ← List.append_assoc]
  exact List.perm_middle

theorem removed_headers (hm : m.minors = as ++ c :: bs) (pre post : List Major) :
    (headers (pre ++ m :: post)).Perm (c.addr :: headers (pre ++ cut m c as bs :: post)) := by
  rw [headers_split, headers_split, addrs, addrs, hm, cut]
  simp only [List.map_append, List.map_cons, List.append_assoc, List.cons_append]
  have hmiddle : ((headers pre ++ m.addr :: as.map (·.addr)) ++
      c.addr :: (bs.map (·.addr) ++ headers post)).Perm (c.addr :: _) := List.perm_middle
  simpa only [List.append_assoc, List.cons_append] using hmiddle

theorem removed_in_use (hm : m.minors = as ++ c :: bs) (pre post : List Major) :
    usedBytes (pre ++ m :: post) = usedBytes (pre ++ cut m c as bs :: post) + c.size.toNat := by
  have hsum := ((removed_chunks hm pre post).map (·.size.toNat)).sum_eq
  rw [List.map_cons, List.sum_cons] at hsum
  rw [usedBytes, hsum, usedBytes, Nat.add_comm]

/-- The chunk is taken out of its block. -/
theorem unlink_kept (hk : Kept s ⟨pre ++ m :: post, bet⟩) (hm : m.minors = as ++ c :: bs) :
    Kept (s.unlink m.addr c.addr) ⟨pre ++ cut m c as bs :: post, bet⟩ ∧
      Framed s (s.unlink m.addr c.addr) (pre ++ m :: post) ∧
      (s.unlink m.addr c.addr).get c.addr magicAt = liballocDead := by
  have hmem : m ∈ pre ++ m :: post := by simp
  have hch := hk.shown.block m hmem
  have hsp := spread hk.sound
  have hown := own_nodup hsp
  have hold : addrs m = as.map (·.addr) ++ c.addr :: bs.map (·.addr) := by simp [addrs, hm]
  have hheader : ∀ a ∈ m.addr :: addrs m, a ∈ headers (pre ++ m :: post) :=
    fun a ha => header_of_block hmem ha
  rw [hold] at hown hheader
  have hlinks := hch.links (as.map (·.addr)) c.addr (bs.map (·.addr)) hold
  have hnext := getD_mem (o := (bs.map (·.addr)).head?) (fun a ha => List.mem_of_mem_head? ha)
  have hprev := getD_mem (o := (as.map (·.addr)).getLast?) (fun a ha => List.mem_of_mem_getLast? ha)
  have hc0 : c.addr ≠ 0 := hsp.ne_zero (hheader c.addr (by simp))
  have hcne : ∀ a ∈ as.map (·.addr) ++ bs.map (·.addr), c.addr ≠ a :=
    fun a ha => (old_chunk hown ha).2.1.symm
  have hshows := unlink_shows s hsp (hheader m.addr (by simp)) (hheader c.addr (by simp))
    hlinks.1 hlinks.2
    (fun hz => hheader _ (List.mem_cons_of_mem _
      (List.mem_append_right _ (List.mem_cons_of_mem _ (hnext.resolve_left hz)))))
    (fun hz => hheader _ (List.mem_cons_of_mem _ (List.mem_append_left _ (hprev.resolve_left hz))))
    (ne_end hc0 (fun a ha => hcne a (List.mem_append_right _ ha)) hnext).symm
    (ne_end hc0 (fun a ha => hcne a (List.mem_append_left _ ha)) hprev).symm
  have hsound : Sound (pre ++ cut m c as bs :: post) :=
    hk.sound.replace ((hk.sound.block m hmem).remove hm) rfl rfl
  have hsize := (hch.chunk c (by simp [hm])).2.2.1
  refine ⟨⟨hsound, hk.shown.remove hm hsp hshows.view, ?_, ?_, ?_, ?_, ?_⟩, hshows.off, ?_⟩
  · rw [hshows.rest]
    simpa [cut] using hk.root
  · rw [hshows.rest]
    exact hk.bet
  · simpa [cut] using hk.betBlock
  · have hbefore := hk.inuse
    rw [removed_in_use hm, UInt64.ofNat_add, ← to_uint64] at hbefore
    rw [hshows.rest]
    change s.inuse - (s.get c.addr minSizeAt).toUInt64 = _
    rw [hsize, hbefore, UInt64.add_sub_cancel]
  · rw [hshows.rest]
    simpa [cut, acquired] using hk.allocated
  · rw [hshows.view _ (hheader c.addr (by simp)), removed, if_pos ⟨rfl, rfl⟩]

/-- The bet when a block is given back. -/
def forgotten (bet : Option UInt32) (maj : UInt32) : Option UInt32 :=
  if bet = some maj then none else bet

theorem forgotten_getD :
    (forgotten bet maj).getD 0 = if bet.getD 0 = maj then 0 else bet.getD 0 := by
  rw [forgotten]
  cases bet with
  | none => simp
  | some b => by_cases hb : b = maj <;> simp [hb]

/-- An empty block is given back. -/
theorem drop_kept (hk : Kept s ⟨pre ++ m :: post, bet⟩) (hm : m.minors = []) :
    Kept (s.dropBlock m.addr) ⟨pre ++ post, forgotten bet m.addr⟩ ∧
      Framed s (s.dropBlock m.addr) (pre ++ m :: post) := by
  have hmem : m ∈ pre ++ m :: post := by simp
  have hsp := spread hk.sound
  have hz := (hk.sound.block m hmem).nonnull
  have hnd := block_nodup hsp
  rw [List.map_append, List.map_cons] at hnd
  have hlinks := hk.shown.links (pre.map (·.addr)) m.addr (post.map (·.addr)) (by simp)
  have hblock : ∀ a ∈ pre.map (·.addr) ++ post.map (·.addr), a ∈ headers (pre ++ m :: post) := by
    intro a ha
    rw [← List.map_append] at ha
    obtain ⟨n, hn, rfl⟩ := List.mem_map.mp ha
    exact header_of_block (mem_of_rest hn) List.mem_cons_self
  have hnext := getD_mem (o := (post.map (·.addr)).head?) (fun a ha => List.mem_of_mem_head? ha)
  have hprev := getD_mem (o := (pre.map (·.addr)).getLast?)
    (fun a ha => List.mem_of_mem_getLast? ha)
  have hpne : ∀ a ∈ pre.map (·.addr), m.addr ≠ a :=
    fun a ha he => (List.nodup_append.mp hnd).2.2 a ha m.addr List.mem_cons_self he.symm
  have hshows := drop_block_shows s hsp (header_of_block hmem List.mem_cons_self) hlinks.1 hlinks.2
    (fun h0 => hblock _ (List.mem_append_right _ (hnext.resolve_left h0)))
    (fun h0 => hblock _ (List.mem_append_left _ (hprev.resolve_left h0)))
    (ne_end hz hpne hprev).symm
  have hsize := (hk.shown.block m hmem).size
  refine ⟨⟨hk.sound.drop, hk.shown.drop hsp hshows.view, ?_, ?_, ?_, ?_, ?_⟩, hshows.off⟩
  · rw [hshows.rest]
    change (if s.memRoot = m.addr then s.get m.addr nextAt else s.memRoot) = _
    have hroot := hk.root
    cases pre with
    | nil =>
      have hn : s.memRoot = m.addr := hroot
      rw [if_pos hn]
      exact hlinks.1
    | cons n pre =>
      have hn : s.memRoot = n.addr := hroot
      rw [hn, if_neg (hpne n.addr (by simp)).symm]
      rfl
  · rw [hshows.rest]
    change (if s.bestBet = m.addr then 0 else s.bestBet) = _
    rw [hk.bet, forgotten_getD]
  · intro b hb
    change forgotten bet m.addr = some b at hb
    rw [forgotten] at hb
    split at hb
    case isTrue => cases hb
    case isFalse hne =>
      obtain ⟨n, hn, rfl⟩ := List.mem_map.mp (hk.betBlock b hb)
      rcases mem_split hn with rfl | hn
      · exact absurd hb hne
      · exact List.mem_map_of_mem hn
  · have hsame : usedBytes (pre ++ m :: post) = usedBytes (pre ++ post) := by
      simp [usedBytes, chunks, hm]
    rw [hshows.rest, ← hsame]
    exact hk.inuse
  · have hsum : acquired (pre ++ m :: post) = acquired (pre ++ post) + m.size.toNat := by
      simp only [acquired, List.map_append, List.map_cons, List.sum_append, List.sum_cons]
      omega
    have hbefore := hk.allocated
    rw [hsum, UInt64.ofNat_add, ← to_uint64] at hbefore
    rw [hshows.rest]
    change s.allocated - (s.get m.addr majSizeAt).toUInt64 = _
    rw [hsize, hbefore, UInt64.add_sub_cancel]

/-- The block may become the best bet. -/
theorem rebet_kept (hk : Kept s ⟨majors, bet⟩) (hm : m ∈ majors) :
    Kept (s.rebet m.addr) ⟨majors, bet.map (Liballoc.rebet majors m)⟩ := by
  have hroom := room_eq (hk.shown.block m hm)
  have hbet := hk.bet
  cases bet with
  | none =>
    have hz : s.bestBet = 0 := hbet
    rw [Pool.rebet, if_neg (fun hne => hne.1 hz)]
    exact hk
  | some b =>
    have hb : s.bestBet = b := hbet
    have hin := hk.betBlock b rfl
    obtain ⟨n, hn, hnb⟩ := List.mem_map.mp hin
    have hbz : b ≠ 0 := hnb ▸ (hk.sound.block n hn).nonnull
    cases hf : majors.find? (fun m => m.addr = b) with
    | none =>
      have := List.find?_eq_none.mp hf n hn
      simp [hnb] at this
    | some best =>
      have hbest : best.addr = b := by simpa using List.find?_some hf
      have hmem := List.mem_of_find?_eq_some hf
      have hfree : s.room b = Liballoc.free best := hbest ▸ room_eq (hk.shown.block best hmem)
      rw [Pool.rebet, Option.map_some, Liballoc.rebet, hf, hb, hroom, hfree]
      by_cases hgt : (Liballoc.free m).toInt32 > (Liballoc.free best).toInt32
      · simp only [if_pos (And.intro hbz hgt), if_pos hgt]
        refine ⟨hk.sound, hk.shown, hk.root, rfl, ?_, hk.inuse, hk.allocated⟩
        rintro a ha
        cases ha
        exact List.mem_map_of_mem hm
      · simp only [if_neg (fun hc : b ≠ 0 ∧ _ => hgt hc.2), if_neg hgt]
        exact hk

theorem rebet_mem (s : Pool) (maj : UInt32) : (s.rebet maj).mem = s.mem := by
  rw [rebet]
  split <;> rfl

/-- The first chunk of a block is null when there is none. -/
theorem first_null (hk : Kept s h) (hm : m ∈ h.majors) :
    s.get m.addr firstAt = 0 ↔ m.minors = [] := by
  rw [(hk.shown.block m hm).first, addrs]
  cases hc : m.minors with
  | nil => simp
  | cons c cs =>
    have hz : c.addr ≠ 0 := by
      intro h0
      refine chunks_nonnull hk.sound hm ?_
      rw [addrs, hc, List.map_cons, h0]
      exact List.mem_cons_self
    simp [hz]

/-- The calls that change nothing but the heap. -/
theorem free_eq (hh : Intact s h) (hm : m ∈ h.majors) (hc : c ∈ m.minors) :
    s.free (ptr c) = if (s.unlink m.addr c.addr).get m.addr firstAt = 0 then
      (s.unlink m.addr c.addr).dropBlock m.addr else (s.unlink m.addr c.addr).rebet m.addr := by
  have hin : c ∈ chunks h.majors := List.mem_flatMap.mpr ⟨m, hm, hc⟩
  have hf := fitted hh.sound hin
  obtain ⟨hblock, hmagic, -⟩ := (hh.shown.block m hm).chunk c hc
  rw [Pool.free, if_neg hf.ptr_ne_zero]
  simp only [minor_of_ptr hf (hh.noted c hin), hmagic, hblock, ne_eq, not_true_eq_false, if_false]

theorem kept_noted {s₁ s₂ : Pool} {h₁ h₂ : Liballoc} (hh : Intact s₁ h₁) (hk : Kept s₂ h₂)
    (hu : Untouched s₁ s₂ h₁.majors) (hsub : ∀ c ∈ chunks h₂.majors, c ∈ chunks h₁.majors) :
    Intact s₂ h₂ :=
  ⟨hk, fun c hc => hu.noted hh.sound (hsub c hc) (hh.noted c (hsub c hc))⟩

section Places

variable (hs : Sound (pre ++ m :: post))
include hs

theorem block_not_before : m ∉ pre := by
  have hnd := (block_nodup (spread hs)).of_map
  exact fun h0 => (List.nodup_append.mp hnd).2.2 m h0 m List.mem_cons_self rfl

theorem chunk_not_before (hm : m.minors = as ++ c :: bs) : c ∉ as := by
  have hnd := (own_nodup (spread hs)).of_cons
  rw [addrs, hm] at hnd
  exact fun h0 => (List.nodup_append.mp (List.Nodup.of_map _ hnd)).2.2 c h0 c List.mem_cons_self rfl

theorem replace_block (m' : Major) : (pre ++ m :: post).replace m m' = pre ++ m' :: post := by
  rw [List.replace_append_right (block_not_before hs)]
  simp

end Places

/-- What `free` leaves of the blocks. -/
theorem release_eq (hs : Sound (pre ++ m :: post)) (hm : m.minors = as ++ c :: bs) :
    release ⟨pre ++ m :: post, bet⟩ m c = if as ++ bs = [] then ⟨pre ++ post, forgotten bet m.addr⟩
      else ⟨pre ++ cut m c as bs :: post,
        bet.map (Liballoc.rebet (pre ++ cut m c as bs :: post) (cut m c as bs))⟩ := by
  have hcut : without m c = cut m c as bs := by
    rw [without, hm, List.erase_append_right _ (chunk_not_before hs hm), List.erase_cons_head, cut]
  have herase : (pre ++ m :: post).erase m = pre ++ post := by
    rw [List.erase_append_right _ (block_not_before hs), List.erase_cons_head]
  rw [release, hcut]
  simp only [herase, replace_block hs]
  rfl

theorem release_chunks (hs : Sound (pre ++ m :: post)) (hm : m.minors = as ++ c :: bs) :
    (chunks (pre ++ m :: post)).Perm
      (c :: chunks (release ⟨pre ++ m :: post, bet⟩ m c).majors) := by
  rw [release_eq hs hm]
  split
  case isTrue hnil =>
    refine (removed_chunks hm pre post).trans (.cons _ (.of_eq ?_))
    rw [chunks_split, cut, hnil]
    simp [chunks]
  case isFalse => exact removed_chunks hm pre post

/-- `free` of a chunk takes it out, and with it its block when that has become empty. -/
theorem free_holds (hh : Intact s ⟨pre ++ m :: post, bet⟩) (hm : m.minors = as ++ c :: bs) :
    Intact (s.free (ptr c)) (release ⟨pre ++ m :: post, bet⟩ m c) ∧
      Framed s (s.free (ptr c)) (pre ++ m :: post) := by
  have hmem : m ∈ pre ++ m :: post := by simp
  obtain ⟨hk₁, hf₁, -⟩ := unlink_kept hh.toKept hm
  have hfirst : (s.unlink m.addr c.addr).get m.addr firstAt = 0 ↔ as ++ bs = [] :=
    first_null (m := cut m c as bs) hk₁ (by simp)
  have hsub : ∀ d ∈ chunks (release ⟨pre ++ m :: post, bet⟩ m c).majors,
      d ∈ chunks (pre ++ m :: post) :=
    fun d hd => (release_chunks hh.sound hm).symm.subset (List.mem_cons_of_mem _ hd)
  have hdone : ∀ {s' h'}, Kept s' h' → Framed s s' (pre ++ m :: post) →
      (∀ d ∈ chunks h'.majors, d ∈ chunks (pre ++ m :: post)) → Intact s' h' :=
    fun hk hf hin => kept_noted hh hk (untouched_of_framed hf hh.sound (fun _ hc => hc)) hin
  rw [release_eq hh.sound hm] at hsub ⊢
  rw [free_eq hh hmem (by simp [hm])]
  by_cases hnil : as ++ bs = []
  · obtain ⟨hk₂, hf₂⟩ := drop_kept hk₁ hnil
    rw [cut_addr] at hk₂ hf₂
    rw [if_pos hnil] at hsub
    rw [if_pos (hfirst.mpr hnil), if_pos hnil]
    generalize (s.unlink m.addr c.addr).dropBlock m.addr = s₂ at hk₂ hf₂ ⊢
    have hf : Framed s s₂ (pre ++ m :: post) := fun a ha =>
      (hf₂ a (fun b hb => ha b ((removed_headers hm pre post).symm.subset
        (List.mem_cons_of_mem _ hb)))).trans (hf₁ a ha)
    exact ⟨hdone hk₂ hf hsub, hf⟩
  · have hk₂ := rebet_kept hk₁ (m := cut m c as bs) (by simp)
    rw [if_neg hnil] at hsub
    rw [if_neg (fun h0 => hnil (hfirst.mp h0)), if_neg hnil]
    have hf : Framed s ((s.unlink m.addr c.addr).rebet m.addr) (pre ++ m :: post) := by
      intro a ha
      rw [rebet_mem]
      exact hf₁ a ha
    exact ⟨hdone hk₂ hf hsub, hf⟩

/-- The chunk is marked. -/
theorem free_dead (hh : Intact s ⟨pre ++ m :: post, bet⟩) (hm : m.minors = as ++ c :: bs) :
    (s.free (ptr c)).get c.addr magicAt = liballocDead := by
  have hmem : m ∈ pre ++ m :: post := by simp
  have hcm : c ∈ m.minors := by simp [hm]
  obtain ⟨hk, -, hdead⟩ := unlink_kept hh.toKept hm
  rw [free_eq hh hmem hcm]
  split
  case isTrue hfirst =>
    have hnil := (first_null (m := cut m c as bs) hk (by simp)).mp hfirst
    obtain ⟨-, hf⟩ := drop_kept hk hnil
    rw [cut_addr] at hf
    generalize (s.unlink m.addr c.addr).dropBlock m.addr = s₂ at hf ⊢
    refine (field_congr magicAt ?_).trans hdead
    intro i hi
    refine hf _ ?_
    intro b hb
    have hfar := (removed_headers hm pre post).pairwise (spread hh.sound).far Far.symm
    have hcb := (List.pairwise_cons.mp hfar).1 b hb
    simp only [Far] at hcb
    simp only [Off]
    omega
  case isFalse =>
    rw [Pool.get, rebet_mem]
    exact hdead

end Levos.Proofs.Freeing
