import Levos.Proofs.Views

namespace Levos.Proofs.Headers
open Library Pool Levos.Proofs.Blocks Levos.Proofs.Views
open Liballoc (headerSize need)

/-- The headers of a block and of its chunks hold what the list of its chunks says. -/
structure Chunked (view : UInt32 → Fin 6 → UInt32) (m : Major) : Prop where
  size : view m.addr majSizeAt = m.size
  usage : view m.addr usageAt = m.usage
  first : view m.addr firstAt = (addrs m).head?.getD 0
  links : Linked (view · nextAt) (view · prevAt) 0 (addrs m)
  chunk : ∀ c ∈ m.minors, view c.addr blockAt = m.addr ∧ view c.addr magicAt = liballocMagic ∧
    view c.addr minSizeAt = c.size ∧ view c.addr reqSizeAt = c.reqSize

/-- The headers hold the list of the blocks. -/
structure Represents (view : UInt32 → Fin 6 → UInt32) (majors : List Major) : Prop where
  links : Linked (view · nextAt) (view · prevAt) 0 (majors.map (·.addr))
  block : ∀ m ∈ majors, Chunked view m

variable {view view' : UInt32 → Fin 6 → UInt32} {m m' n : Major} {c x : Minor}
  {as bs : List Minor} {majors pre post : List Major} {b : UInt32} {k : Fin 6}

/-- The links of a block are not its own affair. -/
theorem Chunked.congr (h : Chunked view m)
    (hm : ∀ k, k ≠ nextAt → k ≠ prevAt → view' m.addr k = view m.addr k)
    (hc : ∀ b ∈ addrs m, ∀ k, view' b k = view b k) : Chunked view' m := by
  refine ⟨?_, ?_, ?_, ?_, ?_⟩
  · rw [hm _ (by decide) (by decide), h.size]
  · rw [hm _ (by decide) (by decide), h.usage]
  · rw [hm _ (by decide) (by decide), h.first]
  · exact h.links.congr (fun b hb => hc b hb _) (fun b hb => hc b hb _)
  · intro c hcm
    have hb : c.addr ∈ addrs m := List.mem_map_of_mem hcm
    rw [hc _ hb, hc _ hb, hc _ hb, hc _ hb]
    exact h.chunk c hcm

theorem Chunked.next_eq (h : Chunked view m) (hm : m.minors = as ++ c :: bs) :
    view c.addr nextAt = (bs.map (·.addr)).head?.getD 0 :=
  (h.links (as.map (·.addr)) c.addr (bs.map (·.addr)) (by simp [addrs, hm])).1

theorem Chunked.size_eq (h : Chunked view m) (hm : m.minors = as ++ c :: bs) :
    view c.addr minSizeAt = c.size :=
  (h.chunk c (by simp [hm])).2.2.1

theorem Represents.congr (h : Represents view majors)
    (hv : ∀ b ∈ headers majors, ∀ k, view' b k = view b k) : Represents view' majors := by
  have hblock : ∀ m ∈ majors, ∀ k, view' m.addr k = view m.addr k := by
    intro m hm k
    exact hv _ (mem_headers.mpr ⟨m, hm, .inl rfl⟩) k
  refine ⟨?_, ?_⟩
  · refine h.links.congr ?_ ?_
    · intro b hb
      obtain ⟨m, hm, rfl⟩ := List.mem_map.mp hb
      exact hblock m hm _
    · intro b hb
      obtain ⟨m, hm, rfl⟩ := List.mem_map.mp hb
      exact hblock m hm _
  · intro m hm
    refine (h.block m hm).congr (fun k _ _ => hblock m hm k) ?_
    intro b hb k
    obtain ⟨c, hc, rfl⟩ := List.mem_map.mp hb
    exact hv _ (mem_headers.mpr ⟨m, hm, .inr ⟨c, hc, rfl⟩⟩) k

theorem headers_split (pre post : List Major) (m : Major) :
    headers (pre ++ m :: post) = headers pre ++ (m.addr :: addrs m ++ headers post) := by
  simp [headers]

/-- A pointer at the end of a list is null or points into it. -/
theorem getD_mem {o : Option UInt32} {l : List UInt32} (h : ∀ a, o = some a → a ∈ l) :
    o.getD 0 = 0 ∨ o.getD 0 ∈ l := by
  cases o with
  | none => exact .inl rfl
  | some a => exact .inr (h a rfl)

theorem ne_end {l : List UInt32} (hb : b ≠ 0) (hl : ∀ a ∈ l, b ≠ a) (hp : p = 0 ∨ p ∈ l) :
    b ≠ p := by
  rcases hp with rfl | hp
  · exact hb
  · exact hl p hp

theorem ne_getD {o : Option UInt32} {l : List UInt32} (hz : 0 ∉ l) (hb : b ∈ l)
    (ho : o ≠ some b) : b ≠ o.getD 0 := by
  rintro rfl
  cases o with
  | none => exact hz hb
  | some a => exact ho rfl

theorem last_ne_zero {as : List UInt32} (hz : 0 ∉ as) (hne : as ≠ []) : as.getLast?.getD 0 ≠ 0 := by
  rw [List.getLast?_eq_some_getLast hne, Option.getD_some]
  intro h0
  exact hz (h0 ▸ List.getLast_mem _)

section Distinct

variable (hs : Spread (headers (pre ++ m :: post)))
include hs

theorem own_nodup : (m.addr :: addrs m).Nodup := by
  have hnd : (headers (pre ++ m :: post)).Nodup := hs.far.imp Far.ne
  rw [headers_split] at hnd
  exact (List.nodup_append.mp (List.nodup_append.mp hnd).2.1).1

/-- The headers of another block are not those of this one. -/
theorem other_ne (hn : n ∈ pre ++ post) (hb : b ∈ n.addr :: addrs n) (ha : a ∈ m.addr :: addrs m) :
    b ≠ a := by
  have hnd : (headers (pre ++ m :: post)).Nodup := hs.far.imp Far.ne
  rw [headers_split] at hnd
  obtain ⟨-, hrest, hpre⟩ := List.nodup_append.mp hnd
  obtain ⟨-, -, hpost⟩ := List.nodup_append.mp hrest
  rcases List.mem_append.mp hn with hn | hn
  · refine hpre b ?_ a (List.mem_append_left _ ha)
    exact List.mem_flatMap.mpr ⟨n, hn, hb⟩
  · refine (hpost a ha b ?_).symm
    exact List.mem_flatMap.mpr ⟨n, hn, hb⟩

theorem own_ne_zero (hb : b ∈ m.addr :: addrs m) : b ≠ 0 := by
  refine hs.ne_zero ?_
  rw [headers_split]
  exact List.mem_append_right _ (List.mem_append_left _ hb)

theorem other_ne_zero (hn : n ∈ pre ++ post) (hb : b ∈ n.addr :: addrs n) : b ≠ 0 := by
  refine hs.ne_zero (List.mem_flatMap.mpr ⟨n, ?_, hb⟩)
  rcases List.mem_append.mp hn with hn | hn
  · exact List.mem_append_left _ hn
  · exact List.mem_append_right _ (List.mem_cons_of_mem _ hn)

theorem block_ne_chunk (hn : n ∈ pre ++ m :: post) (ha : a ∈ addrs m) : n.addr ≠ a := by
  rcases List.mem_append.mp hn with hn | hn
  · exact other_ne hs (List.mem_append_left _ hn) List.mem_cons_self (List.mem_cons_of_mem _ ha)
  · rcases List.mem_cons.mp hn with rfl | hn
    · rintro rfl
      exact (List.nodup_cons.mp (own_nodup hs)).1 ha
    · exact other_ne hs (List.mem_append_right _ hn) List.mem_cons_self
        (List.mem_cons_of_mem _ ha)

end Distinct

theorem mem_split (hn : n ∈ pre ++ m :: post) : n = m ∨ n ∈ pre ++ post := by
  rcases List.mem_append.mp hn with hn | hn
  · exact .inr (List.mem_append_left _ hn)
  · rcases List.mem_cons.mp hn with hn | hn
    · exact .inl hn
    · exact .inr (List.mem_append_right _ hn)

theorem header_of_block (hn : n ∈ majors) (hb : b ∈ n.addr :: addrs n) : b ∈ headers majors :=
  List.mem_flatMap.mpr ⟨n, hn, hb⟩

section Insert

variable {maj new prev next size reqSize : UInt32}

theorem inserted_other (hnew : b ≠ new) (hmaj : b ≠ maj) (hprev : b ≠ prev) (hnext : b ≠ next) :
    inserted view maj new prev next size reqSize b k = view b k := by
  simp [inserted, hnew, hmaj, hprev, hnext]

/-- The links of a block stay. -/
theorem inserted_block (hnew : b ≠ new) (hprev : b ≠ prev) (hnext : b ≠ next) (hu : k ≠ usageAt)
    (hf : k ≠ firstAt) : inserted view maj new prev next size reqSize b k = view b k := by
  simp [inserted, hnew, hprev, hnext, hu, hf]

/-- A chunk keeps all but its links. -/
theorem inserted_chunk (hnew : b ≠ new) (hmaj : b ≠ maj) (hp : k ≠ prevAt) (hn : k ≠ nextAt) :
    inserted view maj new prev next size reqSize b k = view b k := by
  simp [inserted, hnew, hmaj, hp, hn]

theorem inserted_next (hnew : b ≠ new) (hmaj : b ≠ maj) :
    inserted view maj new prev next size reqSize b nextAt =
      if b = prev then new else view b nextAt := by
  simp [inserted, hnew, hmaj, nextAt, prevAt]

theorem inserted_prev (hnew : b ≠ new) (hmaj : b ≠ maj) :
    inserted view maj new prev next size reqSize b prevAt =
      if b = next then new else view b prevAt := by
  simp [inserted, hnew, hmaj, nextAt, prevAt]

/-- The chunks that were there are neither the new one nor the block. -/
theorem old_chunk {as bs : List UInt32} (hnd : (maj :: (as ++ new :: bs)).Nodup)
    (hb : b ∈ as ++ bs) : b ∈ as ++ new :: bs ∧ b ≠ new ∧ b ≠ maj := by
  obtain ⟨hmaj, hnd⟩ := List.nodup_cons.mp hnd
  obtain ⟨-, hnew, hapart⟩ := List.nodup_append.mp hnd
  have hmem : b ∈ as ++ new :: bs :=
    (List.Sublist.append_left (List.sublist_cons_self _ _) _).subset hb
  refine ⟨hmem, ?_, fun he => hmaj (he ▸ hmem)⟩
  rintro rfl
  rcases List.mem_append.mp hb with hb | hb
  · exact hapart b hb b List.mem_cons_self rfl
  · exact (List.nodup_cons.mp hnew).1 hb

/-- The chunks stay linked, the new one among them. -/
theorem inserted_linked {as bs : List UInt32}
    (h : Linked (view · nextAt) (view · prevAt) 0 (as ++ bs))
    (hnd : (maj :: (as ++ new :: bs)).Nodup) (hz : 0 ∉ as ++ bs)
    (hv : ∀ b ∈ as ++ new :: bs, ∀ k, view' b k = inserted view maj new (as.getLast?.getD 0)
      (bs.head?.getD 0) size reqSize b k) :
    Linked (view' · nextAt) (view' · prevAt) 0 (as ++ new :: bs) := by
  have hold := fun b (hb : b ∈ as ++ bs) => old_chunk hnd hb
  have hnext : ∀ b ∈ as ++ bs, view' b nextAt =
      if b = as.getLast?.getD 0 then new else view b nextAt := by
    intro b hb
    rw [hv b (hold b hb).1, inserted_next (hold b hb).2.1 (hold b hb).2.2]
  have hprev : ∀ b ∈ as ++ bs, view' b prevAt =
      if b = bs.head?.getD 0 then new else view b prevAt := by
    intro b hb
    rw [hv b (hold b hb).1, inserted_prev (hold b hb).2.1 (hold b hb).2.2]
  refine h.insert ?_ ⟨?_, ?_, ?_, ?_⟩ ?_ ?_
  · refine (List.nodup_cons.mp hnd).2.sublist ?_
    exact List.Sublist.append_left (List.sublist_cons_self _ _) _
  · intro y hy
    rw [hnext y (List.mem_append_left _ (List.mem_of_mem_getLast? hy)), hy]
    simp
  · intro y hy
    rw [hprev y (List.mem_append_right _ (List.mem_of_mem_head? hy)), hy]
    simp
  · intro y hy hlast
    rw [hnext y hy, if_neg (ne_getD hz hy hlast)]
  · intro y hy hfirst
    rw [hprev y hy, if_neg (ne_getD hz hy hfirst)]
  · rw [hv new (by simp)]
    simp [inserted, minorWords, nextAt, prevAt]
  · rw [hv new (by simp)]
    simp [inserted, minorWords]

theorem inserted_first {as bs : List UInt32} (hne : maj ≠ new) (hz : 0 ∉ as)
    (hfirst : view maj firstAt = (as ++ bs).head?.getD 0) :
    inserted view maj new (as.getLast?.getD 0) next size reqSize maj firstAt =
      (as ++ new :: bs).head?.getD 0 := by
  have hk : firstAt ≠ usageAt ∧ firstAt ≠ nextAt ∧ firstAt ≠ prevAt := by decide
  cases as with
  | nil => simp [inserted, hne, hk]
  | cons a as =>
    simp [inserted, hne, hk, last_ne_zero hz, hfirst]

end Insert

/-- The chunks of the block a new one has been put into. -/
theorem Chunked.insert (h : Chunked view m) (hins : Inserted m as bs x m')
    (hnd : (m'.addr :: addrs m').Nodup) (hz : 0 ∉ m'.addr :: addrs m')
    (hv : ∀ b ∈ m'.addr :: addrs m', ∀ k, view' b k = inserted view m.addr x.addr
      ((as.map (·.addr)).getLast?.getD 0) ((bs.map (·.addr)).head?.getD 0) x.size x.reqSize b k) :
    Chunked view' m' := by
  have hold : addrs m = as.map (·.addr) ++ bs.map (·.addr) := by simp [addrs, hins.old]
  have hnew : addrs m' = as.map (·.addr) ++ x.addr :: bs.map (·.addr) := by
    simp [addrs, hins.new]
  have haddr := hins.addr_eq
  rw [hnew, haddr] at hnd hz hv
  obtain ⟨hown, -⟩ := List.nodup_cons.mp hnd
  have hm := hv m.addr List.mem_cons_self
  have hmx : m.addr ≠ x.addr := fun he => hown (by simp [he])
  have hz' : 0 ∉ as.map (·.addr) ++ bs.map (·.addr) :=
    fun h0 => hz (List.mem_cons_of_mem _ (old_chunk hnd h0).1)
  refine ⟨?_, ?_, ?_, ?_, ?_⟩
  · rw [haddr, hm, hins.new, ← h.size]
    simp [inserted, hmx, majSizeAt, usageAt, firstAt, prevAt, nextAt]
  · rw [haddr, hm, hins.new, ← h.usage]
    simp [inserted, hmx]
  · rw [haddr, hm, hnew]
    exact inserted_first hmx (fun h0 => hz' (List.mem_append_left _ h0)) (hold ▸ h.first)
  · rw [hnew]
    exact inserted_linked (hold ▸ h.links) hnd hz' (fun b hb => hv b (List.mem_cons_of_mem _ hb))
  · intro c hc
    have hcv := hv c.addr (List.mem_cons_of_mem _ (hnew ▸ List.mem_map_of_mem hc))
    rw [haddr, hcv, hcv, hcv, hcv]
    by_cases hcm : c ∈ m.minors
    · have hmem : c.addr ∈ addrs m := List.mem_map_of_mem hcm
      obtain ⟨-, hcx, hcmaj⟩ := old_chunk hnd (hold ▸ hmem)
      rw [inserted_chunk hcx hcmaj (by decide) (by decide),
        inserted_chunk hcx hcmaj (by decide) (by decide),
        inserted_chunk hcx hcmaj (by decide) (by decide),
        inserted_chunk hcx hcmaj (by decide) (by decide)]
      exact h.chunk c hcm
    · have hcx : c = x := by
        rw [hins.new] at hc
        rw [hins.old] at hcm
        simp only [List.mem_append, List.mem_cons, not_or] at hc hcm
        rcases hc with hc | hc | hc
        · exact absurd hc hcm.1
        · exact hc
        · exact absurd hc hcm.2
      subst hcx
      simp [inserted, minorWords, blockAt, magicAt, minSizeAt, reqSizeAt, prevAt, nextAt]

/-- One block has changed, and nothing else has. -/
theorem Represents.replace (h : Represents view (pre ++ m :: post)) (haddr : m'.addr = m.addr)
    (hm : Chunked view' m')
    (hlink : ∀ k, k ≠ usageAt → k ≠ firstAt → view' m.addr k = view m.addr k)
    (hother : ∀ n ∈ pre ++ post, ∀ b ∈ n.addr :: addrs n, ∀ k, view' b k = view b k) :
    Represents view' (pre ++ m' :: post) := by
  have hblock : ∀ b ∈ (pre ++ m :: post).map (·.addr), ∀ k, k ≠ usageAt → k ≠ firstAt →
      view' b k = view b k := by
    intro b hb k hu hf
    obtain ⟨n, hn, rfl⟩ := List.mem_map.mp hb
    rcases mem_split hn with rfl | hn
    · exact hlink k hu hf
    · exact hother n hn _ List.mem_cons_self k
  refine ⟨?_, ?_⟩
  · have hmap : (pre ++ m' :: post).map (·.addr) = (pre ++ m :: post).map (·.addr) := by
      simp [haddr]
    rw [hmap]
    exact h.links.congr (fun b hb => hblock b hb _ (by decide) (by decide))
      (fun b hb => hblock b hb _ (by decide) (by decide))
  · intro n hn
    rcases mem_split hn with rfl | hn
    · exact hm
    · refine (h.block n ?_).congr (fun k _ _ => hother n hn _ List.mem_cons_self k)
        (fun b hb => hother n hn b (List.mem_cons_of_mem _ hb))
      exact (List.Sublist.append_left (List.sublist_cons_self m post) pre).subset hn

theorem mem_of_rest (hn : n ∈ pre ++ post) : n ∈ pre ++ m :: post :=
  (List.Sublist.append_left (List.sublist_cons_self m post) pre).subset hn

/-- A chunk is put into one of the blocks. -/
theorem Represents.insert (h : Represents view (pre ++ m :: post)) (hins : Inserted m as bs x m')
    (hs : Spread (headers (pre ++ m' :: post)))
    (hv : ∀ b ∈ headers (pre ++ m' :: post), ∀ k, view' b k = inserted view m.addr x.addr
      ((as.map (·.addr)).getLast?.getD 0) ((bs.map (·.addr)).head?.getD 0) x.size x.reqSize b k) :
    Represents view' (pre ++ m' :: post) := by
  have haddr := hins.addr_eq
  have hnew : addrs m' = as.map (·.addr) ++ x.addr :: bs.map (·.addr) := by
    simp [addrs, hins.new]
  have hx : x.addr ∈ addrs m' := by simp [hnew]
  have hself : m' ∈ pre ++ m' :: post := by simp
  have hprev := getD_mem (o := (as.map (·.addr)).getLast?) (l := addrs m')
    (fun a ha => hnew ▸ List.mem_append_left _ (List.mem_of_mem_getLast? ha))
  have hnext := getD_mem (o := (bs.map (·.addr)).head?) (l := addrs m')
    (fun a ha => hnew ▸ List.mem_append_right _ (List.mem_cons_of_mem _ (List.mem_of_mem_head? ha)))
  refine h.replace haddr ?_ ?_ ?_
  · exact (h.block m (by simp)).insert hins (own_nodup hs) (fun h0 => own_ne_zero hs h0 rfl)
      (fun b hb => hv b (header_of_block hself hb))
  · intro k hu hf
    have hne := fun a (ha : a ∈ addrs m') => haddr ▸ block_ne_chunk hs hself ha
    have hz : m.addr ≠ 0 := haddr ▸ own_ne_zero hs List.mem_cons_self
    rw [hv _ (header_of_block hself (haddr ▸ List.mem_cons_self))]
    exact inserted_block (hne _ hx) (ne_end hz hne hprev) (ne_end hz hne hnext) hu hf
  · intro n hn b hb k
    have hne := fun a (ha : a ∈ m'.addr :: addrs m') => other_ne hs hn hb ha
    have hchunk := fun a (ha : a ∈ addrs m') => hne a (List.mem_cons_of_mem _ ha)
    have hz := other_ne_zero hs hn hb
    rw [hv b (header_of_block (mem_of_rest hn) hb)]
    exact inserted_other (hchunk _ hx) (haddr ▸ hne _ List.mem_cons_self)
      (ne_end hz hchunk hprev) (ne_end hz hchunk hnext)

section Remove

variable {maj min prev next : UInt32}

theorem removed_other (hmin : b ≠ min) (hmaj : b ≠ maj) (hprev : b ≠ prev) (hnext : b ≠ next) :
    removed view maj min prev next b k = view b k := by
  simp [removed, hmin, hmaj, hprev, hnext]

theorem removed_block (hmin : b ≠ min) (hprev : b ≠ prev) (hnext : b ≠ next) (hu : k ≠ usageAt)
    (hf : k ≠ firstAt) : removed view maj min prev next b k = view b k := by
  simp [removed, hmin, hprev, hnext, hu, hf]

theorem removed_chunk (hmin : b ≠ min) (hmaj : b ≠ maj) (hp : k ≠ prevAt) (hn : k ≠ nextAt) :
    removed view maj min prev next b k = view b k := by
  simp [removed, hmin, hmaj, hp, hn]

theorem removed_next (hmin : b ≠ min) (hmaj : b ≠ maj) :
    removed view maj min prev next b nextAt = if b = prev then next else view b nextAt := by
  simp [removed, hmin, hmaj, nextAt, prevAt]

theorem removed_prev (hmin : b ≠ min) (hmaj : b ≠ maj) :
    removed view maj min prev next b prevAt = if b = next then prev else view b prevAt := by
  simp [removed, hmin, hmaj, nextAt, prevAt]

/-- The chunks that are left stay linked. -/
theorem removed_linked {as bs : List UInt32}
    (h : Linked (view · nextAt) (view · prevAt) 0 (as ++ min :: bs))
    (hnd : (maj :: (as ++ min :: bs)).Nodup) (hz : 0 ∉ as ++ bs)
    (hv : ∀ b ∈ as ++ min :: bs, ∀ k, view' b k = removed view maj min (as.getLast?.getD 0)
      (bs.head?.getD 0) b k) :
    Linked (view' · nextAt) (view' · prevAt) 0 (as ++ bs) := by
  have hold := fun b (hb : b ∈ as ++ bs) => old_chunk hnd hb
  have hnext : ∀ b ∈ as ++ bs, view' b nextAt =
      if b = as.getLast?.getD 0 then bs.head?.getD 0 else view b nextAt := by
    intro b hb
    rw [hv b (hold b hb).1, removed_next (hold b hb).2.1 (hold b hb).2.2]
  have hprev : ∀ b ∈ as ++ bs, view' b prevAt =
      if b = bs.head?.getD 0 then as.getLast?.getD 0 else view b prevAt := by
    intro b hb
    rw [hv b (hold b hb).1, removed_prev (hold b hb).2.1 (hold b hb).2.2]
  refine h.remove ?_ ⟨?_, ?_, ?_, ?_⟩
  · exact (List.nodup_cons.mp hnd).2.sublist
      (List.Sublist.append_left (List.sublist_cons_self _ _) _)
  · intro y hy
    rw [hnext y (List.mem_append_left _ (List.mem_of_mem_getLast? hy)), hy]
    simp
  · intro y hy
    rw [hprev y (List.mem_append_right _ (List.mem_of_mem_head? hy)), hy]
    simp
  · intro y hy hlast
    rw [hnext y hy, if_neg (ne_getD hz hy hlast)]
  · intro y hy hfirst
    rw [hprev y hy, if_neg (ne_getD hz hy hfirst)]

theorem removed_first {as bs : List UInt32} (hne : maj ≠ min) (hz : 0 ∉ as)
    (hfirst : view maj firstAt = (as ++ min :: bs).head?.getD 0) :
    removed view maj min (as.getLast?.getD 0) (bs.head?.getD 0) maj firstAt =
      (as ++ bs).head?.getD 0 := by
  have hk : firstAt ≠ usageAt ∧ firstAt ≠ nextAt ∧ firstAt ≠ prevAt := by decide
  cases as with
  | nil => simp [removed, hne, hk]
  | cons a as => simp [removed, hne, hk, last_ne_zero hz, hfirst]

end Remove

/-- The chunks of the block one has been taken out of. -/
theorem Chunked.remove (h : Chunked view m) (hm : m.minors = as ++ c :: bs)
    (hnd : (m.addr :: addrs m).Nodup) (hz : 0 ∉ m.addr :: addrs m)
    (hv : ∀ b ∈ m.addr :: addrs m, ∀ k, view' b k = removed view m.addr c.addr
      ((as.map (·.addr)).getLast?.getD 0) ((bs.map (·.addr)).head?.getD 0) b k) :
    Chunked view' { m with usage := m.usage - need c.size, minors := as ++ bs } := by
  have hold : addrs m = as.map (·.addr) ++ c.addr :: bs.map (·.addr) := by simp [addrs, hm]
  rw [hold] at hnd hz hv
  obtain ⟨hown, -⟩ := List.nodup_cons.mp hnd
  have hself := hv m.addr List.mem_cons_self
  have hmc : m.addr ≠ c.addr := fun he => hown (by simp [he])
  have hz' : 0 ∉ as.map (·.addr) ++ bs.map (·.addr) :=
    fun h0 => hz (List.mem_cons_of_mem _ (old_chunk hnd h0).1)
  refine ⟨?_, ?_, ?_, ?_, ?_⟩
  · rw [hself, ← h.size]
    simp [removed, hmc, majSizeAt, usageAt, firstAt, prevAt, nextAt]
  · rw [hself, ← h.usage, ← (h.chunk c (by simp [hm])).2.2.1]
    simp [removed, hmc]
  · rw [hself, addrs, List.map_append]
    exact removed_first hmc (fun h0 => hz' (List.mem_append_left _ h0)) (hold ▸ h.first)
  · rw [addrs, List.map_append]
    exact removed_linked (hold ▸ h.links) hnd hz' (fun b hb => hv b (List.mem_cons_of_mem _ hb))
  · intro d hd
    have hmem : d.addr ∈ as.map (·.addr) ++ bs.map (·.addr) := by
      rw [← List.map_append]
      exact List.mem_map_of_mem hd
    obtain ⟨hin, hdc, hdm⟩ := old_chunk hnd hmem
    rw [hv d.addr (List.mem_cons_of_mem _ hin), hv d.addr (List.mem_cons_of_mem _ hin),
      hv d.addr (List.mem_cons_of_mem _ hin), hv d.addr (List.mem_cons_of_mem _ hin),
      removed_chunk hdc hdm (by decide) (by decide), removed_chunk hdc hdm (by decide) (by decide),
      removed_chunk hdc hdm (by decide) (by decide), removed_chunk hdc hdm (by decide) (by decide)]
    refine h.chunk d ?_
    rw [hm]
    exact (List.Sublist.append_left (List.sublist_cons_self c bs) as).subset hd

/-- A chunk is taken out of one of the blocks. -/
theorem Represents.remove (h : Represents view (pre ++ m :: post)) (hm : m.minors = as ++ c :: bs)
    (hs : Spread (headers (pre ++ m :: post)))
    (hv : ∀ b ∈ headers (pre ++ m :: post), ∀ k, view' b k = removed view m.addr c.addr
      ((as.map (·.addr)).getLast?.getD 0) ((bs.map (·.addr)).head?.getD 0) b k) :
    Represents view'
      (pre ++ { m with usage := m.usage - need c.size, minors := as ++ bs } :: post) := by
  have hold : addrs m = as.map (·.addr) ++ c.addr :: bs.map (·.addr) := by simp [addrs, hm]
  have hc : c.addr ∈ addrs m := by simp [hold]
  have hself : m ∈ pre ++ m :: post := by simp
  have hprev := getD_mem (o := (as.map (·.addr)).getLast?) (l := addrs m)
    (fun a ha => hold ▸ List.mem_append_left _ (List.mem_of_mem_getLast? ha))
  have hnext := getD_mem (o := (bs.map (·.addr)).head?) (l := addrs m)
    (fun a ha => hold ▸ List.mem_append_right _ (List.mem_cons_of_mem _ (List.mem_of_mem_head? ha)))
  have hblock := (h.block m hself).remove hm (own_nodup hs) (fun h0 => own_ne_zero hs h0 rfl)
    (fun b hb => hv b (header_of_block hself hb))
  refine h.replace rfl hblock ?_ ?_
  · intro k hu hf
    have hne := fun a (ha : a ∈ addrs m) => block_ne_chunk hs hself ha
    have hz := own_ne_zero hs List.mem_cons_self
    rw [hv _ (header_of_block hself List.mem_cons_self)]
    exact removed_block (hne _ hc) (ne_end hz hne hprev) (ne_end hz hne hnext) hu hf
  · intro n hn b hb k
    have hne := fun a (ha : a ∈ m.addr :: addrs m) => other_ne hs hn hb ha
    have hchunk := fun a (ha : a ∈ addrs m) => hne a (List.mem_cons_of_mem _ ha)
    have hz := other_ne_zero hs hn hb
    rw [hv b (header_of_block (mem_of_rest hn) hb)]
    exact removed_other (hchunk _ hc) (hne _ List.mem_cons_self)
      (ne_end hz hchunk hprev) (ne_end hz hchunk hnext)

theorem block_nodup (hs : Spread (headers majors)) : (majors.map (·.addr)).Nodup := by
  have hnd : (headers majors).Nodup := hs.far.imp Far.ne
  have hpair := (List.pairwise_flatMap.mp hnd).2
  refine List.pairwise_map.mpr (hpair.imp ?_)
  intro m n hmn
  exact hmn m.addr List.mem_cons_self n.addr List.mem_cons_self

theorem block_ne_zero (hs : Spread (headers majors)) : 0 ∉ majors.map (·.addr) := by
  intro h0
  obtain ⟨m, hm, hz⟩ := List.mem_map.mp h0
  exact hs.ne_zero (header_of_block hm List.mem_cons_self) hz

/-- No chunk of any block is a block. -/
theorem chunk_ne_block (hs : Spread (headers majors)) (hn : n ∈ majors) (hb : b ∈ addrs n)
    (hp : p = 0 ∨ p ∈ majors.map (·.addr)) : b ≠ p := by
  refine ne_end (hs.ne_zero (header_of_block hn (List.mem_cons_of_mem _ hb))) ?_ hp
  intro a ha
  obtain ⟨k, hk, rfl⟩ := List.mem_map.mp ha
  obtain ⟨pre, post, rfl⟩ := List.append_of_mem hn
  exact (block_ne_chunk hs hk hb).symm

/-- A block without chunks is put behind the others. -/
theorem Represents.append {new pages size : UInt32} (h : Represents view majors)
    (hs : Spread (headers (majors ++ [⟨new, size, headerSize, []⟩])))
    (hv : ∀ b ∈ headers (majors ++ [⟨new, size, headerSize, []⟩]), ∀ k, view' b k =
      appended view ((majors.map (·.addr)).getLast?.getD 0) new pages size b k) :
    Represents view' (majors ++ [⟨new, size, headerSize, []⟩]) := by
  have hself : (⟨new, size, headerSize, []⟩ : Major) ∈ majors ++ [⟨new, size, headerSize, []⟩] := by
    simp
  have hold : ∀ n ∈ majors, n ∈ majors ++ [⟨new, size, headerSize, []⟩] :=
    fun n hn => List.mem_append_left _ hn
  have hnew := hv new (header_of_block hself List.mem_cons_self)
  have hnd := block_nodup hs
  rw [List.map_append, List.map_singleton] at hnd
  obtain ⟨hndold, -, hapart⟩ := List.nodup_append.mp hnd
  have hne : ∀ a ∈ majors.map (·.addr), a ≠ new := fun a ha => hapart a ha new (by simp)
  have hz : 0 ∉ majors.map (·.addr) := by
    intro h0
    exact block_ne_zero hs (by rw [List.map_append]; exact List.mem_append_left _ h0)
  have hblock : ∀ a ∈ majors.map (·.addr), ∀ k, view' a k =
      if a = (majors.map (·.addr)).getLast?.getD 0 ∧ k = nextAt then new else view a k := by
    intro a ha k
    obtain ⟨n, hn, rfl⟩ := List.mem_map.mp ha
    rw [hv _ (header_of_block (hold n hn) List.mem_cons_self), appended, if_neg (hne _ ha)]
  refine ⟨?_, ?_⟩
  · rw [List.map_append, List.map_singleton]
    have hlinks : Linked (view · nextAt) (view · prevAt) 0 (majors.map (·.addr) ++ []) := by
      rw [List.append_nil]
      exact h.links
    refine hlinks.insert (by rwa [List.append_nil]) ⟨?_, ?_, ?_, ?_⟩ ?_ ?_
    · intro y hy
      rw [hblock y (List.mem_of_mem_getLast? hy), hy]
      simp
    · intro y hy
      cases hy
    · intro y hy hlast
      rw [List.append_nil] at hy
      rw [hblock y hy, if_neg (fun he => ne_getD hz hy hlast he.1)]
    · intro y hy _
      rw [List.append_nil] at hy
      rw [hblock y hy, if_neg (fun he => absurd he.2 (by decide))]
    · rw [hnew]
      simp [appended, majorWords, nextAt, prevAt]
    · rw [hnew]
      simp [appended, majorWords]
  · intro n hn
    rcases List.mem_append.mp hn with hn | hn
    · refine (h.block n hn).congr ?_ ?_
      · intro k hk _
        rw [hblock _ (List.mem_map_of_mem hn), if_neg (fun he => hk he.2)]
      · intro b hb k
        have hbnew := chunk_ne_block hs (hold n hn) hb (p := new) (.inr (by simp))
        have hblast := chunk_ne_block hs (hold n hn) hb
          (p := (majors.map (·.addr)).getLast?.getD 0) (by
            refine getD_mem ?_
            intro a ha
            rw [List.map_append]
            exact List.mem_append_left _ (List.mem_of_mem_getLast? ha))
        rw [hv b (header_of_block (hold n hn) (List.mem_cons_of_mem _ hb)), appended,
          if_neg hbnew, if_neg (fun he => hblast he.1)]
    · rw [List.mem_singleton.mp hn]
      refine ⟨?_, ?_, ?_, Linked.nil _ _ _, fun c hc => by cases hc⟩
      · rw [hnew]
        simp [appended, majorWords, majSizeAt, prevAt, nextAt, pagesAt]
      · rw [hnew]
        simp [appended, majorWords, majSizeAt, prevAt, nextAt, pagesAt, usageAt]
      · rw [hnew]
        simp [appended, majorWords, majSizeAt, prevAt, nextAt, pagesAt, usageAt, firstAt, addrs]

section Bridge

variable {prev next : UInt32}

theorem bridged_next :
    bridged view prev next b nextAt = if b = prev then next else view b nextAt := by
  simp [bridged, nextAt, prevAt]

theorem bridged_prev :
    bridged view prev next b prevAt = if b = next then prev else view b prevAt := by
  simp [bridged, nextAt, prevAt]

theorem bridged_other (hprev : b ≠ prev) (hnext : b ≠ next) :
    bridged view prev next b k = view b k := by
  simp [bridged, hprev, hnext]

end Bridge

/-- A block is taken out. -/
theorem Represents.drop (h : Represents view (pre ++ m :: post))
    (hs : Spread (headers (pre ++ m :: post)))
    (hv : ∀ b ∈ headers (pre ++ m :: post), ∀ k, view' b k = bridged view
      ((pre.map (·.addr)).getLast?.getD 0) ((post.map (·.addr)).head?.getD 0) b k) :
    Represents view' (pre ++ post) := by
  have hnd := block_nodup hs
  have hz := block_ne_zero hs
  have hlinks := h.links
  rw [List.map_append, List.map_cons] at hnd hz hlinks
  have hsub : ∀ a ∈ pre.map (·.addr) ++ post.map (·.addr),
      a ∈ pre.map (·.addr) ++ m.addr :: post.map (·.addr) :=
    (List.Sublist.append_left (List.sublist_cons_self _ _) _).subset
  have hz' : 0 ∉ pre.map (·.addr) ++ post.map (·.addr) := fun h0 => hz (hsub 0 h0)
  have hblock : ∀ a ∈ pre.map (·.addr) ++ post.map (·.addr), ∀ k, view' a k = bridged view
      ((pre.map (·.addr)).getLast?.getD 0) ((post.map (·.addr)).head?.getD 0) a k := by
    intro a ha k
    rw [← List.map_append] at ha
    obtain ⟨n, hn, rfl⟩ := List.mem_map.mp ha
    exact hv _ (header_of_block (mem_of_rest hn) List.mem_cons_self) k
  refine ⟨?_, ?_⟩
  · rw [List.map_append]
    refine hlinks.remove ?_ ⟨?_, ?_, ?_, ?_⟩
    · exact hnd.sublist (List.Sublist.append_left (List.sublist_cons_self _ _) _)
    · intro y hy
      rw [hblock y (List.mem_append_left _ (List.mem_of_mem_getLast? hy)), bridged_next, hy]
      simp
    · intro y hy
      rw [hblock y (List.mem_append_right _ (List.mem_of_mem_head? hy)), bridged_prev, hy]
      simp
    · intro y hy hlast
      rw [hblock y hy, bridged_next, if_neg (ne_getD hz' hy hlast)]
    · intro y hy hfirst
      rw [hblock y hy, bridged_prev, if_neg (ne_getD hz' hy hfirst)]
  · intro n hn
    refine (h.block n (mem_of_rest hn)).congr ?_ ?_
    · intro k hk hk'
      rw [hv _ (header_of_block (mem_of_rest hn) List.mem_cons_self)]
      simp [bridged, hk, hk']
    · intro b hb k
      have hprev := chunk_ne_block hs (mem_of_rest hn) hb
        (p := (pre.map (·.addr)).getLast?.getD 0) (by
          refine getD_mem ?_
          intro a ha
          rw [List.map_append]
          exact List.mem_append_left _ (List.mem_of_mem_getLast? ha))
      have hnext := chunk_ne_block hs (mem_of_rest hn) hb
        (p := (post.map (·.addr)).head?.getD 0) (by
          refine getD_mem ?_
          intro a ha
          rw [List.map_append, List.map_cons]
          exact List.mem_append_right _ (List.mem_cons_of_mem _ (List.mem_of_mem_head? ha)))
      rw [hv b (header_of_block (mem_of_rest hn) (List.mem_cons_of_mem _ hb))]
      exact bridged_other hprev hnext

end Levos.Proofs.Headers
