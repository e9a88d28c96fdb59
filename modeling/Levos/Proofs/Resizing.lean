import Levos.Proofs.Freeing

namespace Levos.Proofs.Resizing
open Library Pool Levos.Proofs.Blocks Levos.Proofs.Views Levos.Proofs.Headers
open Levos.Proofs.Serving Levos.Proofs.HeapCalls Levos.Proofs.Freeing
open Liballoc (headerSize ptr owner noting shrink)

variable {s s' : Pool} {h h' : Liballoc} {m : Major} {c d x : Minor} {as bs : List Minor}
  {majors pre post : List Major} {bet : Option UInt32} {n p : UInt32} {page : Nat → UInt32}
  {fuel a dest src count : Nat}

/-- `liballoc_memcpy` moves word by word. -/
theorem copy_words_moved (mem : Nat → UInt8) (i : Nat)
    (hap : dest ≤ src ∨ src + 4 * count ≤ dest) :
    Moved mem (dest + 4 * i) (src + 4 * i) (4 * count) (copyInts dest src count i mem) := by
  induction count generalizing i mem with
  | zero => exact Moved.none mem _ _
  | succ count ih =>
    have hword : Moved mem (dest + 4 * i) (src + 4 * i) 4
        (storeAt mem (dest + 4 * i) 4 (loadAt mem (src + 4 * i) 4)) := by
      rw [store_load_eq_blit]
      exact moved_blit mem _ _ 4
    have hrest := ih (storeAt mem (dest + 4 * i) 4 (loadAt mem (src + 4 * i) 4)) (i + 1) (by omega)
    rw [Nat.mul_succ 4 i, ← Nat.add_assoc, ← Nat.add_assoc] at hrest
    rw [Nat.mul_succ 4 count, Nat.add_comm _ 4, copyInts]
    exact hword.join (by omega) hrest

/-- `liballoc_memcpy` downwards, or between places that do not overlap. -/
theorem liballoc_memcpy_moved (mem : Nat → UInt8) (hap : dest ≤ src ∨ src + count ≤ dest) :
    Moved mem dest src count (liballocMemcpy mem dest src count) := by
  have hwords := copy_words_moved mem 0 (by omega : dest ≤ src ∨ src + 4 * (count / 4) ≤ dest)
  simp only [Nat.mul_zero, Nat.add_zero] at hwords
  have hbytes := moved_blit (copyInts dest src (count / 4) 0 mem) (dest + 4 * (count / 4))
    (src + 4 * (count / 4)) (count % 4)
  have hjoin := hwords.join (by omega) hbytes
  rw [Nat.div_add_mod] at hjoin
  rw [liballocMemcpy, copyUp_eq_blit _ (by omega)]
  exact hjoin

/-- The bytes of a chunk its owner may use. -/
def Payload (c : Minor) (a : Nat) : Prop :=
  (ptr c).toNat ≤ a ∧ a < (ptr c).toNat + c.reqSize.toNat

theorem payload_body (hc : Fitted c) (ha : Payload c a) : Body c a := by
  have hbounds := hc.ptr_bounds
  simp only [Payload] at ha
  simp only [Body]
  omega

/-- Stores into what the chunks are used for leave the heap as it is. -/
theorem holds_store (hh : Intact s h) (mem : Nat → UInt8)
    (hmem : ∀ a, (∀ c ∈ chunks h.majors, ¬ Payload c a) → mem a = s.mem a) :
    Intact { s with mem := mem } h := by
  refine ⟨kept_store hh.toKept mem ?_, ?_⟩
  · intro a ha
    exact hmem a (fun c hc hp => ha c hc (payload_body (fitted hh.sound hc) hp))
  · intro c hc
    have hf := fitted hh.sound hc
    change mem (ptr c - 16).toNat = _
    rw [hmem]
    · exact hh.noted c hc
    · intro d hd hp
      have hcd := body_unique hh.sound hc hd hf.note_body (payload_body (fitted hh.sound hd) hp)
      subst hcd
      have hnote := hf.note_toNat
      have hbounds := hf.ptr_bounds
      simp only [Payload] at hp
      omega

section Owner

theorem owner_mem (ho : h.owner p = some (m, c)) :
    m ∈ h.majors ∧ c ∈ m.minors ∧ ptr c = p := by
  obtain ⟨m', hm', hf⟩ := List.exists_of_findSome?_eq_some ho
  obtain ⟨c', hc', he⟩ := Option.map_eq_some_iff.mp hf
  cases he
  exact ⟨hm', List.mem_of_find?_eq_some hc', by simpa using List.find?_some hc'⟩

theorem mem_chunks (hm : m ∈ majors) (hc : c ∈ m.minors) : c ∈ chunks majors :=
  List.mem_flatMap.mpr ⟨m, hm, hc⟩

/-- The block and the chunk of a pointer, with what stands around them. -/
theorem owner_split (ho : h.owner p = some (m, c)) :
    ∃ pre post bet as bs, h = ⟨pre ++ m :: post, bet⟩ ∧ m.minors = as ++ c :: bs ∧ p = ptr c := by
  obtain ⟨hm, hc, rfl⟩ := owner_mem ho
  obtain ⟨pre, post, hmajors⟩ := List.append_of_mem hm
  obtain ⟨as, bs, hminors⟩ := List.append_of_mem hc
  exact ⟨pre, post, h.bestBet, as, bs, by rw [← hmajors], hminors, rfl⟩

/-- Different chunks have different pointers. -/
theorem ptr_inj (hs : Sound majors) (hc : c ∈ chunks majors) (hd : d ∈ chunks majors)
    (hp : ptr c = ptr d) : c = d := by
  have hbody := (fitted hs hd).note_body
  rw [← hp] at hbody
  exact body_unique hs hc hd (fitted hs hc).note_body hbody

/-- A pointer to a chunk is found. -/
theorem owner_of_chunk (hs : Sound h.majors) (hc : c ∈ chunks h.majors) :
    ∃ m, h.owner (ptr c) = some (m, c) := by
  cases ho : h.owner (ptr c) with
  | none =>
    obtain ⟨m, hm, hcm⟩ := List.mem_flatMap.mp hc
    have hnone := List.findSome?_eq_none_iff.mp ho m hm
    have hno := List.find?_eq_none.mp (Option.map_eq_none_iff.mp hnone) c hcm
    simp at hno
  | some x =>
    obtain ⟨m, d⟩ := x
    obtain ⟨hm, hd, hp⟩ := owner_mem ho
    have hcd := ptr_inj hs (mem_chunks hm hd) hc hp
    exact ⟨m, by rw [hcd]⟩

end Owner

section Shrink

/-- A block whose chunk has another size noted. -/
def trimmed (m : Major) (c : Minor) (as bs : List Minor) (n : UInt32) : Major :=
  { m with minors := as ++ { c with reqSize := n } :: bs }

theorem trimmed_addrs (hm : m.minors = as ++ c :: bs) : addrs (trimmed m c as bs n) = addrs m := by
  simp [addrs, trimmed, hm]

theorem trimmed_sound (hb : SoundBlock m) (hm : m.minors = as ++ c :: bs) (hle : n ≤ c.reqSize) :
    SoundBlock (trimmed m c as bs n) := by
  have hspaced := hb.spaced
  have husage := hb.usage
  rw [hm] at hspaced husage
  obtain ⟨hfront, hrest⟩ := spaced_append.mp hspaced
  refine ⟨hb.nonnull, hb.inside, spaced_append.mpr ⟨hfront, hrest⟩, ?_, ?_⟩
  · rw [covered_append, covered_cons] at husage
    rw [trimmed, covered_append, covered_cons]
    exact husage
  · intro d hd
    rcases List.mem_append.mp hd with hd | hd
    · exact hb.sized d (by simp [hm, hd])
    · rcases List.mem_cons.mp hd with rfl | hd
      · have hsized := hb.sized c (by simp [hm])
        have hle' := UInt32.le_iff_toNat_le.mp hle
        change n.toNat + 32 ≤ c.size.toNat
        omega
      · exact hb.sized d (by simp [hm, hd])

theorem trimmed_chunked {view view' : UInt32 → Fin 6 → UInt32} (hch : Chunked view m)
    (hm : m.minors = as ++ c :: bs) (hnd : (m.addr :: addrs m).Nodup)
    (hv : ∀ b ∈ m.addr :: addrs m, ∀ k, view' b k = stored view c.addr reqSizeAt n b k) :
    Chunked view' (trimmed m c as bs n) := by
  have hold : addrs m = as.map (·.addr) ++ c.addr :: bs.map (·.addr) := by simp [addrs, hm]
  have hcm : c.addr ≠ m.addr := by
    rintro he
    exact (List.nodup_cons.mp hnd).1 (he ▸ by simp [hold])
  have hblock : ∀ k, view' m.addr k = view m.addr k := by
    intro k
    rw [hv _ List.mem_cons_self, stored, if_neg (fun he => hcm he.1)]
  have hkeep : ∀ b ∈ addrs m, ∀ k, k ≠ reqSizeAt → view' b k = view b k := by
    intro b hb k hk
    rw [hv b (List.mem_cons_of_mem _ hb), stored, if_neg (fun he => hk he.2.symm)]
  refine ⟨?_, ?_, ?_, ?_, ?_⟩
  · exact (hblock _).trans hch.size
  · exact (hblock _).trans hch.usage
  · rw [trimmed_addrs hm]
    exact (hblock _).trans hch.first
  · rw [trimmed_addrs hm]
    exact hch.links.congr (fun b hb => hkeep b hb _ (by decide))
      (fun b hb => hkeep b hb _ (by decide))
  · intro d hd
    have hnd' := hnd.of_cons
    rw [hold] at hnd'
    have hother : ∀ e ∈ as ++ bs, e.addr ≠ c.addr := by
      intro e he heq
      have hnot := (List.nodup_middle.mp hnd').notMem
      exact hnot (by rw [← heq, ← List.map_append]; exact List.mem_map_of_mem he)
    by_cases hdc : d ∈ as ++ bs
    · have hdm : d ∈ m.minors := by
        rw [hm]
        exact (List.Sublist.append_left (List.sublist_cons_self _ _) _).subset hdc
      have haddr : d.addr ∈ addrs m := List.mem_map_of_mem hdm
      rw [hkeep _ haddr _ (by decide), hkeep _ haddr _ (by decide), hkeep _ haddr _ (by decide),
        hv _ (List.mem_cons_of_mem _ haddr), stored, if_neg (fun he => hother d hdc he.1.symm)]
      exact hch.chunk d hdm
    · have hdeq : d = { c with reqSize := n } := by
        rcases List.mem_append.mp hd with hd | hd
        · exact absurd (List.mem_append_left _ hd) hdc
        · exact (List.mem_cons.mp hd).resolve_right (fun hd => hdc (List.mem_append_right _ hd))
      subst hdeq
      have haddr : c.addr ∈ addrs m := by simp [hold]
      obtain ⟨hb, hmag, hsz, -⟩ := hch.chunk c (by simp [hm])
      refine ⟨?_, ?_, ?_, ?_⟩
      · exact (hkeep _ haddr _ (by decide)).trans hb
      · exact (hkeep _ haddr _ (by decide)).trans hmag
      · exact (hkeep _ haddr _ (by decide)).trans hsz
      · change view' c.addr reqSizeAt = n
        rw [hv _ (List.mem_cons_of_mem _ haddr), stored, if_pos ⟨rfl, rfl⟩]

theorem shrink_eq (hs : Sound (pre ++ m :: post)) (hm : m.minors = as ++ c :: bs) :
    shrink ⟨pre ++ m :: post, bet⟩ m c n = ⟨pre ++ trimmed m c as bs n :: post, bet⟩ := by
  have hnote : noting m c n = trimmed m c as bs n := by
    rw [noting, hm, List.replace_append_right (chunk_not_before hs hm)]
    simp [trimmed]
  rw [shrink, hnote]
  simp only [replace_block hs]

theorem trimmed_sum (f : Minor → Nat) (hf : f { c with reqSize := n } = f c)
    (hm : m.minors = as ++ c :: bs) (pre post : List Major) :
    ((chunks (pre ++ trimmed m c as bs n :: post)).map f).sum =
      ((chunks (pre ++ m :: post)).map f).sum := by
  rw [chunks_split, chunks_split, hm, trimmed]
  simp [hf]

/-- `realloc` to a size the chunk has notes the size in its header. -/
theorem shrink_holds (hh : Intact s ⟨pre ++ m :: post, bet⟩) (hm : m.minors = as ++ c :: bs)
    (hle : n ≤ c.reqSize) :
    Intact (s.put c.addr reqSizeAt n) (shrink ⟨pre ++ m :: post, bet⟩ m c n) ∧
      Untouched s (s.put c.addr reqSizeAt n) (pre ++ m :: post) := by
  have hmem : m ∈ pre ++ m :: post := by simp
  have hsp := spread hh.sound
  have haddr : c.addr ∈ addrs m := List.mem_map_of_mem (by simp [hm])
  have hheader := header_of_block hmem (List.mem_cons_of_mem _ haddr)
  have hshows := (shows_self s (headers (pre ++ m :: post))).put hsp hheader reqSizeAt n
  have hsound : Sound (pre ++ trimmed m c as bs n :: post) :=
    hh.sound.replace (trimmed_sound (hh.sound.block m hmem) hm hle) rfl rfl
  have hu : Untouched s (s.put c.addr reqSizeAt n) (pre ++ m :: post) :=
    untouched_of_framed hshows.off hh.sound (fun _ hc => hc)
  have hsame : (pre ++ trimmed m c as bs n :: post).map (·.addr) =
      (pre ++ m :: post).map (·.addr) := by simp [trimmed]
  have hshown : Represents (s.put c.addr reqSizeAt n).get
      (pre ++ trimmed m c as bs n :: post) := by
    refine hh.shown.replace rfl ?_ ?_ ?_
    · refine trimmed_chunked (hh.shown.block m hmem) hm (own_nodup hsp) ?_
      intro b hb
      exact hshows.view b (header_of_block hmem hb)
    · intro k _ _
      rw [hshows.view _ (header_of_block hmem List.mem_cons_self), stored, if_neg]
      exact fun he => block_ne_chunk hsp hmem haddr he.1.symm
    · intro o ho b hb k
      rw [hshows.view b (header_of_block (mem_of_rest ho) hb), stored, if_neg]
      exact fun he => other_ne hsp ho hb (List.mem_cons_of_mem _ haddr) he.1.symm
  rw [shrink_eq hh.sound hm]
  refine ⟨⟨⟨hsound, hshown, ?_, hh.bet, ?_, ?_, ?_⟩, ?_⟩, hu⟩
  · rw [hsame]
    exact hh.root
  · rw [hsame]
    exact hh.betBlock
  · have hsum := trimmed_sum (n := n) (·.size.toNat) rfl hm pre post
    rw [usedBytes, hsum]
    exact hh.inuse
  · have hsum : acquired (pre ++ trimmed m c as bs n :: post) = acquired (pre ++ m :: post) := by
      simp [acquired, trimmed]
    rw [hsum]
    exact hh.allocated
  · intro d hd
    rw [chunks_split] at hd
    simp only [trimmed, List.mem_append, List.mem_cons] at hd
    by_cases hold : d ∈ chunks (pre ++ m :: post)
    · exact hu.noted hh.sound hold (hh.noted d hold)
    · have hc : c ∈ chunks (pre ++ m :: post) := mem_chunks hmem (by simp [hm])
      have hdeq : d = { c with reqSize := n } := by
        rw [chunks_split, hm] at hold
        simp only [List.mem_append, List.mem_cons] at hold
        tauto
      subst hdeq
      have hnoted : Noted (s.put c.addr reqSizeAt n).mem c := hu.noted hh.sound hc (hh.noted c hc)
      exact hnoted

end Shrink

/-- `free` of a null pointer or of a chunk. -/
theorem give_refines (hh : Intact s h) (hp : p = 0 ∨ (h.owner p).isSome) :
    ∃ h', h.give p = some h' ∧ Intact (s.free p) h' ∧ Framed s (s.free p) h.majors ∧
      (p = 0 ∧ h' = h ∨ ∃ m c, h.owner p = some (m, c) ∧ h' = h.release m c ∧
        (chunks h.majors).Perm (c :: chunks h'.majors)) := by
  by_cases hz : p = 0
  · subst hz
    refine ⟨h, if_pos rfl, ?_, fun _ _ => rfl, .inl ⟨rfl, rfl⟩⟩
    exact ⟨⟨hh.sound, hh.shown, hh.root, hh.bet, hh.betBlock, hh.inuse, hh.allocated⟩, hh.noted⟩
  · obtain ⟨⟨m, c⟩, ho⟩ := Option.isSome_iff_exists.mp (hp.resolve_left hz)
    obtain ⟨pre, post, bet, as, bs, rfl, hminors, rfl⟩ := owner_split ho
    obtain ⟨hholds, hf⟩ := free_holds hh hminors
    refine ⟨_, ?_, hholds, hf, .inr ⟨m, c, ho, rfl, release_chunks hh.sound hminors⟩⟩
    rw [Liballoc.give, if_neg hz, ho]
    rfl

/-- A request `malloc` can be asked for: not so large that a size wraps round, and with
pages of its own if it has to ask for them. -/
structure Room (h : Liballoc) (n : UInt32) (page : Nat → UInt32) : Prop where
  small : n.toNat + 4176 ≤ 2 ^ 32
  pages : PagesFresh h (n + 32) n page

/-- `malloc` through its pointers does what it does on the list of the blocks. -/
theorem take_refines (hh : Intact s h) (hfuel : 2 ^ 30 ≤ fuel) (hroom : Room h n page)
    (current : Option Nat) :
    ∃ r r', s.malloc fuel current page n = some r ∧ h.take current (answers page) n = some r' ∧
      r.p = r'.p.getD 0 ∧ r.posted = r'.posted ∧ Intact r.heap r'.heap ∧
      Untouched s r.heap h.majors ∧ Answer h.majors r'.heap.majors n page r := by
  obtain ⟨r, r', hr, hr', hp, hposted, hholds, hu, hanswer⟩ :=
    malloc_sized_refines hh hroom.small hfuel hroom.pages current (fun _ => 0)
  have hne : n + 32 ≠ 0 := by
    intro h0
    have hsmall := hroom.small
    have hsum : (n + 32).toNat = n.toNat + 32 := by
      rw [UInt32.toNat_add]
      exact Nat.mod_eq_of_lt (by change n.toNat + 32 < 2 ^ 32; omega)
    rw [h0] at hsum
    exact absurd hsum.symm (Nat.succ_ne_zero _)
  refine ⟨r, r'.reply, ?_, ?_, hp, hposted, hholds, hu, hanswer⟩
  · rw [Pool.malloc, if_neg hne]
    exact hr
  · rw [Liballoc.take, Liballoc.malloc, if_neg hne, hr']
    rfl

/-- No block lies where a null pointer leads `calloc` and `realloc`. -/
def Clear (majors : List Major) (n : UInt32) : Prop := ∀ m ∈ majors, n.toNat ≤ m.addr.toNat

theorem clear_body (hs : Sound majors) (hclear : Clear majors n) (hc : c ∈ chunks majors)
    (ha : Body c a) : n.toNat ≤ a := by
  obtain ⟨m, hm, hcm⟩ := List.mem_flatMap.mp hc
  have hin := (hs.block m hm).spaced.mem hcm
  have hle := hclear m hm
  simp only [base] at hin
  simp only [Body] at ha
  omega

/-- A store below the blocks is not seen by anything in them. -/
theorem holds_below (hh : Intact s h) (hclear : Clear h.majors n) (mem : Nat → UInt8)
    (hmem : ∀ a, n.toNat ≤ a → mem a = s.mem a) :
    Intact { s with mem := mem } h ∧ Untouched s { s with mem := mem } h.majors := by
  have hu : Untouched s { s with mem := mem } h.majors :=
    fun c hc a ha => hmem a (clear_body hh.sound hclear hc ha)
  refine ⟨⟨⟨hh.sound, hh.shown.congr ?_, hh.root, hh.bet, hh.betBlock, hh.inuse, hh.allocated⟩,
    fun c hc => hu.noted hh.sound hc (hh.noted c hc)⟩, hu⟩
  intro b hb k
  obtain ⟨m, hm, hcase⟩ := mem_headers.mp hb
  have hle := hclear m hm
  have hlow : n.toNat ≤ b.toNat := by
    rcases hcase with rfl | ⟨c, hc, rfl⟩
    · exact hle
    · have hin := (hh.sound.block m hm).spaced.mem hc
      simp only [base, lo] at hin
      omega
  exact field_congr k (fun i _ => hmem _ (by omega))

end Levos.Proofs.Resizing
