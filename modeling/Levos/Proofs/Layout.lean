import Levos.Paging
import Levos.Proofs.Packing
import Levos.Proofs.Phymem

namespace Levos.Proofs.Layout
open Levos.Library Levos.Proofs.Bitmap Levos.Proofs.Packing Levos.Proofs.Phymem

/-- `phymem_alloc_pages` with any count, also zero, and `phymem_free_pages` of
what is live. -/
def call (s : Frames) : FrameOp → Option Frames
  | .alloc n => (phymemAllocPages s.phymem n).map (fun (p, m) => ⟨m, (p, n) :: s.live⟩)
  | .free p n => s.step (.free p n)

theorem call_alloc {s t : Frames} (h : call s (.alloc n) = some t) :
    s.phymem.phyState = .initTwo ∧ ∃ i b, bitmapFindZero s.phymem.phyBitmap n = some (i, b) ∧
      t = ⟨{ s.phymem with phyBitmap := b }, (pagePointer s.phymem i, n) :: s.live⟩ := by
  obtain ⟨⟨p, m⟩, hp, rfl⟩ := Option.map_eq_some_iff.mp h
  obtain ⟨hr, i, b, hb, rfl, rfl⟩ := alloc_pages_shape hp
  exact ⟨hr, i, b, hb, rfl⟩

theorem call_alloc_some {s : Frames} (hr : s.phymem.phyState = .initTwo)
    (hf : bitmapFindZero s.phymem.phyBitmap n = some (i, b)) :
    call s (.alloc n) =
      some ⟨{ s.phymem with phyBitmap := b }, (pagePointer s.phymem i, n) :: s.live⟩ := by
  simp [call, phymemAllocPages, hr, hf]

section Heap

/-- Calls of `phymem_alloc_pages` alone. -/
def allocate (s : Frames) (n : Nat) : Option Frames := call s (.alloc n)

/-- The physical range `paging_init` maps at `KHEAP_VIRTUAL_START`. -/
def backsHeap (a : Nat) : Bool := decide (0x400000 ≤ a) && decide (a < 0x800000)

/-- No frame handed out is one of the kernel heap. -/
def SparesHeap (s : Frames) : Prop :=
  ∀ a ∈ s.live, ∀ k < a.2, backsHeap ((a.1 + k * 0x1000) % 2 ^ 32) = false

/-- The frames below the heap. -/
def framesBelow : Nat := (0x400000 - physStart) / 0x1000

/-- More than one page is asked for only while that many are left behind the
earlier requests, each of them rounded up to eight pages, below the heap and in
the bitmap. -/
def BelowHeap (s : Frames) (n : Nat) : Prop :=
  2 ≤ n → 8 * taken s.live + n ≤ framesBelow ∧
    8 * taken s.live + n ≤ 8 * s.phymem.phyBitmap.length

/-- Nothing has been given back, and all that was handed out is below the heap. -/
structure Low (s : Frames) : Prop where
  ready : s.phymem.phyState = .initTwo
  start : s.phymem.phyStart = physStart
  bytes : 0 < s.phymem.phyBitmap.length
  packed : Packed s.phymem.phyBitmap (taken s.live)
  below : taken s.live ≤ 32
  pages : ∀ a ∈ s.live, ∃ i, a.1 = physStart + i * 0x1000 ∧ i + a.2 ≤ framesBelow

variable {s t : Frames} {n : Nat}

/-- What a request is given: the pages behind the earlier ones, or page 0. -/
theorem Low.allocated (h : Low s) (hs : allocate s n = some t) :
    ∃ b, t = ⟨{ s.phymem with phyBitmap := b },
        (pagePointer s.phymem (firstPage (taken s.live) n), n) :: s.live⟩ ∧
      firstPage (taken s.live) n + n ≤ 8 * s.phymem.phyBitmap.length ∧
      b.length = s.phymem.phyBitmap.length ∧ Packed b (grow (taken s.live) n) := by
  obtain ⟨_, i, b, hb, rfl⟩ := call_alloc hs
  obtain ⟨rfl, hin, hl, hp⟩ := h.packed.find_zero hb
  exact ⟨b, rfl, hin, hl, hp⟩

theorem Low.pointer (h : Low s) (hi : i ≤ 8 * 32) :
    pagePointer s.phymem i = physStart + i * 0x1000 := by
  simp only [pagePointer, h.start, physStart]
  omega

theorem Low.first_le (h : Low s) : firstPage (taken s.live) n ≤ 8 * 32 := by
  have hbelow := h.below
  unfold firstPage
  split <;> omega

theorem Low.step (h : Low s) (hg : BelowHeap s n) : ∃ t, allocate s n = some t ∧ Low t := by
  obtain ⟨⟨i, b⟩, hf⟩ := h.packed.find_zero_some (n := n) h.bytes (fun hn => (hg hn).2)
  have hs : allocate s n = some _ := call_alloc_some h.ready hf
  refine ⟨_, hs, ?_⟩
  obtain ⟨rfl, _, hl, hp⟩ := h.packed.find_zero hf
  have hbelow := h.below
  refine ⟨h.ready, h.start, by simpa only [hl] using h.bytes, hp, ?_, ?_⟩
  · change grow (taken s.live) n ≤ 32
    unfold grow bytesFor
    unfold BelowHeap framesBelow physStart at hg
    split
    · exact hbelow
    · split <;> omega
  · intro a ha
    rcases List.mem_cons.mp ha with rfl | ha
    · refine ⟨_, h.pointer h.first_le, ?_⟩
      unfold firstPage
      unfold BelowHeap at hg
      split
      · simp only [framesBelow, physStart]
        omega
      · omega
    · exact h.pages a ha

/-- A request that reaches past the frames below the heap is given one of the
heap. -/
theorem Low.lost (h : Low s) (hg : ¬ BelowHeap s n) (hs : allocate s n = some t) :
    ¬ SparesHeap t := by
  obtain ⟨b, rfl, hin, _⟩ := h.allocated hs
  have hbelow := h.below
  have hn : 2 ≤ n ∧ framesBelow < 8 * taken s.live + n := by
    by_contra hno
    refine hg (fun hn => ⟨by omega, ?_⟩)
    rwa [firstPage, if_neg (by omega)] at hin
  have hpointer := h.pointer (h.first_le (n := n))
  have hfirst : firstPage (taken s.live) n = 8 * taken s.live := if_neg (by omega)
  rw [hfirst] at hpointer
  intro hspared
  have hframe := hspared _ List.mem_cons_self
    (max (8 * taken s.live) framesBelow - 8 * taken s.live)
  simp only [hfirst, hpointer, framesBelow, physStart, backsHeap, Bool.and_eq_false_iff,
    decide_eq_false_iff_not] at hframe hn
  omega

end Heap

section Range

/-- The whole pages between `__phy_start` and `__phy_end`. -/
def pagesInside (m : Phymem) : Nat := (m.phyEnd - m.phyStart) / 0x1000

/-- A range inside `[__phy_start, __phy_end)`. -/
def Contained (m : Phymem) (a : Allocation) : Prop :=
  m.phyStart ≤ a.1 ∧ a.1 + a.2 * 0x1000 ≤ m.phyEnd

/-- Some run of `n` pages inside the range is free. -/
def FreeRun (m : Phymem) (n : Nat) : Prop :=
  ∃ t, t + n ≤ pagesInside m ∧ ∀ k < n, bit m.phyBitmap (t + k) = false

/-- The call stays inside the bitmap, and an allocation is made only if there is
room for it and lies inside the range: the source has no way to report anything
else. -/
def Kept (s : Frames) (op : FrameOp) : Prop :=
  ∃ t, call s op = some t ∧ ∀ n, op = .alloc n →
    FreeRun s.phymem n ∧ ∃ p, t.live = (p, n) :: s.live ∧ Contained t.phymem (p, n)

/-- What is freed is live. -/
def FreesLive (s : Frames) (op : FrameOp) : Prop := ∀ p n, op = .free p n → (p, n) ∈ s.live

/-- What is freed is live, and for what is asked for there is a run of free
pages inside the range whose bytes in the bitmap are zero from their first bit on. -/
def Roomy (s : Frames) : FrameOp → Prop
  | .alloc n => ∃ j, ZeroRun s.phymem.phyBitmap j (bytesFor n) ∧ 8 * j + n ≤ pagesInside s.phymem
  | .free p n => (p, n) ∈ s.live

/-- A layout whose bitmap has the size `phymem_init_level_two` gave it, with all
live allocations inside the range. -/
structure Inner (s : Frames) : Prop where
  ready : s.phymem.phyState = .initTwo
  ordered : s.phymem.phyStart ≤ s.phymem.phyEnd
  word : s.phymem.phyEnd < 2 ^ 32
  bytes : s.phymem.phyBitmap.length = layoutBytes (s.phymem.phyEnd - s.phymem.phyStart)
  pages : ∀ a ∈ s.live, ∃ i, a.1 = s.phymem.phyStart + i * 0x1000 ∧ i + a.2 ≤ pagesInside s.phymem

variable {s t : Frames} {n : Nat} {op : FrameOp}

theorem init_inner (hstop : stop < 2 ^ 32) (h : Frames.init start stop = some s) : Inner s := by
  obtain ⟨m, hm, rfl⟩ := Option.map_eq_some_iff.mp h
  obtain ⟨hle, rfl⟩ := init_shape hm
  exact ⟨rfl, hle, hstop, List.length_replicate, List.forall_mem_nil _⟩

/-- The bitmap has a bit for every page of the range. -/
theorem Inner.bits (h : Inner s) : pagesInside s.phymem < 8 * s.phymem.phyBitmap.length := by
  rw [h.bytes]
  unfold pagesInside layoutBytes layoutPages
  omega

theorem Inner.pointer (h : Inner s) (hi : i ≤ pagesInside s.phymem) :
    pagePointer s.phymem i = s.phymem.phyStart + i * 0x1000 := by
  have hordered := h.ordered
  have hword := h.word
  unfold pagePointer
  unfold pagesInside at hi
  omega

theorem Inner.contained (h : Inner s) (hi : i + n ≤ pagesInside s.phymem) :
    Contained s.phymem (pagePointer s.phymem i, n) := by
  have hordered := h.ordered
  rw [h.pointer (by omega)]
  unfold pagesInside at hi
  exact ⟨by omega, by simp only; omega⟩

theorem zero_run_free (h : ZeroRun b j (bytesFor n)) (hk : k < n) : bit b (8 * j + k) = false := by
  have hbyte := h (k / 8) (by unfold bytesFor; omega)
  exact ((zero_byte_iff b (j + k / 8)).mp hbyte).2 (8 * j + k) (by omega)

/-- The search ends at a run of zero bytes at the latest. -/
theorem found_before (h : ZeroRun b j (bytesFor n)) (hfit : 8 * j + n ≤ 8 * b.length) :
    ∃ i b', bitmapFindZero b n = some (i, b') ∧ i ≤ 8 * j ∧ b'.length = b.length := by
  have hclear : ∀ p, 8 * j ≤ p → p < 8 * j + n → getBitmap b p ≠ some true := by
    intro p hp1 hp2 hg
    have hzero := h (p / 8 - j) (by unfold bytesFor; omega)
    rw [show j + (p / 8 - j) = p / 8 by omega] at hzero
    rw [get_zero_byte hzero] at hg
    cases hg
  cases hf : bitmapFindZero b n with
  | none =>
    obtain ⟨p, hp1, hp2, hg⟩ := bitmap_find_zero_none hf (8 * j) hfit
    exact absurd hg (hclear p hp1 hp2)
  | some r =>
    obtain ⟨i, b'⟩ := r
    refine ⟨i, b', rfl, ?_⟩
    rcases Nat.eq_zero_or_pos n with rfl | hn
    · cases hf
      exact ⟨Nat.zero_le _, rfl⟩
    · obtain ⟨hs, _, hl, _⟩ := bitmap_find_zero_spec hn hf
      refine ⟨?_, hl⟩
      by_contra hlt
      obtain ⟨p, hp1, hp2, hg⟩ := hs.blocked (8 * j) (by omega)
      exact hclear p hp1 hp2 hg

theorem Inner.alloc (h : Inner s) (hg : Roomy s (.alloc n)) :
    ∃ i b, call s (.alloc n) = some ⟨{ s.phymem with phyBitmap := b },
        (pagePointer s.phymem i, n) :: s.live⟩ ∧
      i + n ≤ pagesInside s.phymem ∧ b.length = s.phymem.phyBitmap.length := by
  obtain ⟨j, hzero, hin⟩ := hg
  have hbits := h.bits
  obtain ⟨i, b, hf, hle, hl⟩ := found_before hzero (by omega)
  exact ⟨i, b, call_alloc_some h.ready hf, by omega, hl⟩

theorem Inner.free (h : Inner s) (ha : (p, n) ∈ s.live) :
    ∃ b, call s (.free p n) = some ⟨{ s.phymem with phyBitmap := b }, s.live.erase (p, n)⟩ ∧
      b.length = s.phymem.phyBitmap.length := by
  obtain ⟨i, rfl, hin⟩ := h.pages _ ha
  have hbits := h.bits
  have hword := h.word
  have hordered := h.ordered
  have hidx : pageIndex s.phymem (s.phymem.phyStart + i * 0x1000) = i := by
    unfold pageIndex
    unfold pagesInside at hin
    omega
  obtain ⟨b, hb⟩ := range_some unset_some s.phymem.phyBitmap i n (by omega)
  refine ⟨b, ?_, (range_length (fun _ _ _ => unset_length) hb).1⟩
  rw [call, Frames.step, if_pos ha]
  simp [phymemFreePages, h.ready, hidx, hb]

theorem Inner.kept (h : Inner s) (hg : Roomy s op) : Kept s op := by
  cases op with
  | alloc n =>
    obtain ⟨i, b, hs, hin, _⟩ := h.alloc hg
    refine ⟨_, hs, ?_⟩
    rintro _ ⟨⟩
    obtain ⟨j, hzero, hfit⟩ := hg
    exact ⟨⟨8 * j, hfit, fun k hk => zero_run_free hzero hk⟩, _, rfl, h.contained hin⟩
  | free p n =>
    obtain ⟨b, hs, _⟩ := h.free hg
    exact ⟨_, hs, fun m hm => by cases hm⟩

theorem Inner.step (h : Inner s) (hg : Roomy s op) (hs : call s op = some t) : Inner t := by
  cases op with
  | alloc n =>
    obtain ⟨i, b, ht, hin, hl⟩ := h.alloc hg
    rw [hs] at ht
    cases ht
    refine ⟨h.ready, h.ordered, h.word, hl.trans h.bytes, ?_⟩
    intro a ha
    rcases List.mem_cons.mp ha with rfl | ha
    · exact ⟨i, h.pointer (by omega), hin⟩
    · exact h.pages a ha
  | free p n =>
    obtain ⟨b, ht, hl⟩ := h.free hg
    rw [hs] at ht
    cases ht
    exact ⟨h.ready, h.ordered, h.word, hl.trans h.bytes,
      fun a ha => h.pages a (List.mem_of_mem_erase ha)⟩

/-- In every run whose requests find a run of zero bytes inside the range, every
call stays inside the bitmap and every allocation inside the range. -/
theorem allocations_contained (start stop : Nat) (s : Frames) (ops : List FrameOp)
    (hstop : stop < 2 ^ 32) (hinit : Frames.init start stop = some s)
    (hg : Guarded call Roomy s ops) : Guarded call Kept s ops :=
  hg.imp (init_inner hstop hinit) (fun _ _ _ h hg hs => h.step hg hs) (fun _ _ h hg => h.kept hg)

theorem allocations_contained_small :
    Guarded call Kept smallFrames [.alloc 5, .free 0x304000 5, .alloc 0] := by
  have hzero : ZeroRun [0, 0, 0, 0] 0 (bytesFor 5) := by
    intro k hk
    obtain rfl : k = 0 := by simp [bytesFor] at hk; exact hk
    rfl
  have hlive : (0x304000, 5) ∈ [((0x304000 : Nat), 5)] := List.mem_singleton.mpr rfl
  refine allocations_contained 0x304000 0x31b000 smallFrames _ (by decide) rfl
    (.cons rfl ⟨0, hzero, by decide⟩ (.cons rfl hlive (.single ⟨0, ?_, by decide⟩)))
  intro k hk
  exact absurd hk (Nat.not_lt_zero k)

/-- A request for 24 pages is answered on a machine with 23. -/
theorem allocation_past_end :
    ¬ ∀ (start stop : Nat) (s : Frames) (ops : List FrameOp), stop < 2 ^ 32 →
      Frames.init start stop = some s → Guarded call FreesLive s ops → Guarded call Kept s ops := by
  intro h
  obtain ⟨t, _, ht⟩ := (h 0x304000 0x31b000 smallFrames [.alloc 24] (by decide) rfl
    (.single (fun _ _ he => by cases he))).1
  obtain ⟨i, hi, _⟩ := (ht 24 rfl).1
  simp [pagesInside, smallFrames] at hi

end Range

end Levos.Proofs.Layout
