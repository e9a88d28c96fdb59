import Levos.Phymem
import Levos.Library.Runs
import Levos.Proofs.Bitmap

namespace Levos.Proofs.Phymem
open Levos.Library Levos.Proofs.Bitmap

/-- An allocation that has been handed out: its pointer and its number of pages. -/
abbrev Allocation := Nat × Nat

/-- The frame allocator together with the allocations that are live. -/
structure Frames where
  phymem : Phymem
  live : List Allocation

inductive FrameOp
  | alloc (n : Nat)
  | free (p n : Nat)

/-- Callers ask for at least one page and free exactly what they were given. -/
def Frames.step (s : Frames) : FrameOp → Option Frames
  | .alloc n =>
    if n = 0 then none
    else (phymemAllocPages s.phymem n).map (fun (p, m) => ⟨m, (p, n) :: s.live⟩)
  | .free p n =>
    if (p, n) ∈ s.live then
      (phymemFreePages s.phymem p n).map (fun m => ⟨m, s.live.erase (p, n)⟩)
    else none

/-- The frames right after the two levels of initialization. -/
def Frames.init (start stop : Nat) : Option Frames :=
  (phymemInitLevelTwo (phymemInitLevelOne .boot start) stop).map (fun m => ⟨m, []⟩)

/-- No page of one allocation is a page of the other. -/
def Apart (a b : Allocation) : Prop :=
  ∀ i < a.2, ∀ j < b.2, (a.1 + i * 0x1000) % 2 ^ 32 ≠ (b.1 + j * 0x1000) % 2 ^ 32

instance (a b : Allocation) : Decidable (Apart a b) := by
  unfold Apart
  infer_instance

/-- No page is handed out twice while it is live. -/
def Frames.Disjoint (s : Frames) : Prop := s.live.Pairwise Apart

instance (s : Frames) : Decidable s.Disjoint := by
  unfold Frames.Disjoint
  infer_instance

/-- `q` whole bytes of the bitmap from byte `j` on are zero. -/
def ZeroRun (b : Bitmap) (j q : Nat) : Prop := ∀ k < q, b[j + k]? = some 0

def FirstZeroRun (b : Bitmap) (j q : Nat) : Prop :=
  ZeroRun b j q ∧ ∀ i < j, ¬ ZeroRun b i q

/-- The page right behind the first run of `n / 8` zero bytes is free, if `n`
is one more than a multiple of eight. For one page that is page 0. -/
def NextPageFree (b : Bitmap) (n : Nat) : Prop :=
  n % 8 = 1 → ∀ j, FirstZeroRun b j (n / 8) → bit b (8 * (j + n / 8)) = false

def Frames.Guard (s : Frames) : FrameOp → Prop
  | .alloc n => NextPageFree s.phymem.phyBitmap n
  | .free _ _ => True

/-- The index range of an allocation, as the bitmap sees it. -/
def Covers (m : Phymem) (a : Allocation) (j : Nat) : Prop :=
  pageIndex m a.1 ≤ j ∧ j < pageIndex m a.1 + a.2

/-- The bitmap records exactly the live allocations, which do not meet and
all begin with the first bit of a byte. -/
structure Sound (m : Phymem) (live : List Allocation) : Prop where
  ready : m.phyState = .initTwo
  start_lt : m.phyStart < 2 ^ 32
  small : 8 * m.phyBitmap.length ≤ 2 ^ 20
  positive : ∀ a ∈ live, 0 < a.2
  aligned : ∀ a ∈ live, pageIndex m a.1 % 8 = 0
  pointer : ∀ a ∈ live, a.1 = pagePointer m (pageIndex m a.1)
  inside : ∀ a ∈ live, pageIndex m a.1 + a.2 ≤ 8 * m.phyBitmap.length
  apart : live.Pairwise (fun a b => ∀ j, ¬ (Covers m a j ∧ Covers m b j))
  bits : ∀ j, bit m.phyBitmap j = true ↔ ∃ a ∈ live, Covers m a j

theorem page_index_pointer (m : Phymem) (i : Nat) (hs : m.phyStart < 2 ^ 32) (hi : i < 2 ^ 20) :
    pageIndex m (pagePointer m i) = i := by
  unfold pageIndex pagePointer
  omega

/-- Below 2^20 pages distinct page numbers are distinct addresses. -/
theorem pointer_offset (m : Phymem) (i j k l : Nat) (hi : i + k < 2 ^ 20) (hj : j + l < 2 ^ 20) :
    (pagePointer m i + k * 0x1000) % 2 ^ 32 = (pagePointer m j + l * 0x1000) % 2 ^ 32 ↔
      i + k = j + l := by
  unfold pagePointer
  omega

/-- Two allocations inside the bitmap meet in an address exactly when they
meet in a page number. -/
theorem apart_iff {m : Phymem} {a b : Allocation}
    (ha : a.1 = pagePointer m (pageIndex m a.1)) (hb : b.1 = pagePointer m (pageIndex m b.1))
    (hia : pageIndex m a.1 + a.2 ≤ 2 ^ 20) (hib : pageIndex m b.1 + b.2 ≤ 2 ^ 20) :
    Apart a b ↔ ∀ j, ¬ (Covers m a j ∧ Covers m b j) := by
  unfold Covers
  constructor
  · rintro h j ⟨⟨ha1, ha2⟩, hb1, hb2⟩
    refine h (j - pageIndex m a.1) (by omega) (j - pageIndex m b.1) (by omega) ?_
    rw [ha, hb, pointer_offset m _ _ _ _ (by rw [← ha]; omega) (by rw [← hb]; omega), ← ha, ← hb]
    omega
  · intro h i hi j hj he
    rw [ha, hb, pointer_offset m _ _ _ _ (by omega) (by omega)] at he
    exact h (pageIndex m a.1 + i) ⟨⟨by omega, by omega⟩, by omega, by omega⟩

theorem Sound.disjoint (h : Sound m live) : (Frames.mk m live).Disjoint := by
  refine h.apart.imp_of_mem ?_
  intro a b ha hb hab
  have hs := h.small
  exact (apart_iff (h.pointer a ha) (h.pointer b hb)
    (Nat.le_trans (h.inside a ha) hs) (Nat.le_trans (h.inside b hb) hs)).mpr hab

theorem init_shape {start stop : Nat} {m : Phymem}
    (h : phymemInitLevelTwo (phymemInitLevelOne .boot start) stop = some m) :
    start ≤ stop ∧ m = ⟨start, stop - start, stop, .initTwo,
      List.replicate (layoutBytes (stop - start)) 0⟩ := by
  simp only [phymemInitLevelTwo, phymemInitLevelOne, ne_eq, not_true_eq_false, ↓reduceIte] at h
  by_cases hlt : stop < start
  · simp [hlt] at h
  · simp only [hlt, ↓reduceIte, Option.some.injEq] at h
    exact ⟨Nat.not_lt.mp hlt, h.symm⟩

theorem Sound.boot {start stop : Nat} {m : Phymem} (hstop : stop < 2 ^ 32)
    (hpages : layoutPages (stop - start) < 2 ^ 20)
    (h : phymemInitLevelTwo (phymemInitLevelOne .boot start) stop = some m) : Sound m [] := by
  obtain ⟨hle, rfl⟩ := init_shape h
  refine ⟨rfl, Nat.lt_of_le_of_lt hle hstop, ?_, ?_, ?_, ?_, ?_, .nil, ?_⟩
  · simp only [List.length_replicate, layoutBytes]
    omega
  · simp
  · simp
  · simp
  · simp
  · intro j
    simp only [List.not_mem_nil, false_and, exists_false, iff_false, Bool.not_eq_true]
    unfold bit
    rw [List.getElem?_replicate]
    split <;> simp

theorem Sound.init {start stop : Nat} {s : Frames} (hstop : stop < 2 ^ 32)
    (hpages : layoutPages (stop - start) < 2 ^ 20) (h : Frames.init start stop = some s) :
    Sound s.phymem s.live := by
  obtain ⟨m, hm, rfl⟩ := Option.map_eq_some_iff.mp h
  exact Sound.boot hstop hpages hm

/-- A byte with any bit set has its first bit set, since allocations begin
with the first bit of a byte. -/
theorem Sound.first_bit (h : Sound m live) {j : Nat} (hj : bit m.phyBitmap j = true) :
    bit m.phyBitmap (8 * (j / 8)) = true := by
  obtain ⟨a, ha, h1, h2⟩ := (h.bits j).mp hj
  have := h.aligned a ha
  exact (h.bits _).mpr ⟨a, ha, by omega, by omega⟩

/-- A byte in which an odd position is read as clear has no bit set. -/
theorem Sound.odd_clear (h : Sound m live) {p j : Nat} (hodd : p % 2 = 1)
    (hp : getBitmap m.phyBitmap p = some false) (hj : j / 8 = p / 8) :
    bit m.phyBitmap j = false := by
  cases hb : bit m.phyBitmap j with
  | false => rfl
  | true =>
    have hfirst := h.first_bit hb
    rw [hj] at hfirst
    have hlt := (get_some_iff m.phyBitmap p).mp ⟨_, hp⟩
    rw [get_odd hodd hlt hfirst] at hp
    cases hp

/-- The window the scan accepts begins with the first bit of a byte. -/
theorem Sound.window_aligned (h : Sound m live) {n s : Nat} (hn : 0 < n)
    (hs : Scanned m.phyBitmap n s n) : s % 8 = 0 := by
  rcases hs.before with rfl | ht
  · rfl
  · by_contra hne
    obtain ⟨j, hj, hb⟩ := get_true ht
    have hfirst := h.first_bit hb
    have hbyte : j / 8 = s / 8 := by omega
    rw [hbyte] at hfirst
    have hlt : s < 8 * m.phyBitmap.length :=
      (get_some_iff m.phyBitmap s).mp ⟨_, hs.clear 0 hn⟩
    rcases Nat.mod_two_eq_zero_or_one s with he | ho
    · by_cases h1 : n = 1
      · obtain ⟨p, hp1, hp2, hp⟩ := hs.blocked 0 (by omega)
        have h0 : p = 0 := by omega
        subst h0
        rw [get_first (by omega) (by omega)] at hp
        cases hp
      · have hc := hs.clear 1 (by omega)
        have := h.odd_clear (p := s + 1) (j := 8 * (s / 8)) (by omega) hc (by omega)
        rw [hfirst] at this
        cases this
    · have hc := hs.clear 0 hn
      have := h.odd_clear (p := s) (j := 8 * (s / 8)) ho hc (by omega)
      rw [hfirst] at this
      cases this

/-- Only the last page of the window can be in use, and only when it is the
first bit of its byte. -/
theorem Sound.window_clear (h : Sound m live) {n s : Nat} (hn : 0 < n)
    (hs : Scanned m.phyBitmap n s n) {j : Nat} (h1 : s ≤ j) (h2 : j < s + n)
    (hb : bit m.phyBitmap j = true) : n % 8 = 1 ∧ j = s + n - 1 := by
  have h8 := h.window_aligned hn hs
  have hodd : ∀ p, s ≤ p → p < s + n → p % 2 = 1 → p / 8 ≠ j / 8 := by
    intro p hp1 hp2 hp hd
    have hc := hs.clear (p - s) (by omega)
    rw [Nat.add_sub_cancel' hp1] at hc
    have := h.odd_clear hp hc hd.symm
    rw [hb] at this
    cases this
  have hone := hodd (8 * (j / 8) + 1)
  have hself := hodd j h1 h2
  omega

/-- A byte is zero exactly when all its bits are clear. -/
theorem zero_byte_iff (b : Bitmap) (k : Nat) :
    b[k]? = some 0 ↔ k < b.length ∧ ∀ j, j / 8 = k → bit b j = false := by
  constructor
  · intro h
    refine ⟨(List.getElem?_eq_some_iff.mp h).1, ?_⟩
    intro j hj
    rw [bit_of_byte (hj ▸ h)]
    simp
  · rintro ⟨hk, hz⟩
    obtain ⟨x, hx⟩ : ∃ x, b[k]? = some x := ⟨_, List.getElem?_eq_getElem hk⟩
    rw [hx, Option.some.injEq]
    apply UInt8.toBitVec_inj.mp
    apply BitVec.eq_of_getLsbD_eq
    intro i hi
    have hd : (8 * k + i) / 8 = k := by omega
    have hm : (8 * k + i) % 8 = i := by omega
    have := hz (8 * k + i) hd
    rw [bit_of_byte (i := 8 * k + i) (by rw [hd]; exact hx), hm] at this
    rw [this]
    simp

theorem get_zero_byte {b : Bitmap} {p : Nat} (h : b[p / 8]? = some 0) :
    getBitmap b p = some false := by
  simp [getBitmap, h]

/-- For `8 q + 1` pages the scan stops at the first run of `q` zero bytes,
whatever the byte behind them holds. -/
theorem Sound.first_run (h : Sound m live) {n s : Nat} (h1 : n % 8 = 1)
    (hs : Scanned m.phyBitmap n s n) : FirstZeroRun m.phyBitmap (s / 8) (n / 8) := by
  have h8 := h.window_aligned (by omega) hs
  constructor
  · intro k hk
    rw [zero_byte_iff]
    have hlt := (get_some_iff m.phyBitmap (s + 8 * k)).mp ⟨_, hs.clear (8 * k) (by omega)⟩
    refine ⟨by omega, ?_⟩
    intro j hj
    cases hb : bit m.phyBitmap j with
    | false => rfl
    | true =>
      have := h.window_clear (by omega) hs (j := j) (by omega) (by omega) hb
      omega
  · intro i hi hz
    obtain ⟨p, hp1, hp2, hp⟩ := hs.blocked (8 * i) (by omega)
    have hlast := (get_some_iff m.phyBitmap (s + (n - 1))).mp ⟨_, hs.clear (n - 1) (by omega)⟩
    have hf : getBitmap m.phyBitmap p = some false := by
      by_cases hq : p = 8 * (i + n / 8)
      · exact get_first (by omega) (by omega)
      · have := hz (p / 8 - i) (by omega)
        rw [show i + (p / 8 - i) = p / 8 by omega] at this
        exact get_zero_byte this
    rw [hf] at hp
    cases hp

theorem first_run_unique (h : FirstZeroRun b i q) (h' : FirstZeroRun b j q) : i = j :=
  Nat.le_antisymm (Nat.not_lt.mp fun hlt => h.2 j hlt h'.1)
    (Nat.not_lt.mp fun hlt => h'.2 i hlt h.1)

/-- The guard of a request says exactly that its window is free. -/
theorem Sound.guard_iff (h : Sound m live) {n s : Nat} (hn : 0 < n)
    (hs : Scanned m.phyBitmap n s n) :
    NextPageFree m.phyBitmap n ↔
      ∀ j, s ≤ j → j < s + n → bit m.phyBitmap j = false := by
  have h8 := h.window_aligned hn hs
  constructor
  · intro hg j h1 h2
    cases hb : bit m.phyBitmap j with
    | false => rfl
    | true =>
      obtain ⟨hm, he⟩ := h.window_clear hn hs h1 h2 hb
      have := hg hm (s / 8) (h.first_run hm hs)
      rw [show 8 * (s / 8 + n / 8) = j by omega, hb] at this
      cases this
  · intro hc hm j hj
    have he := first_run_unique hj (h.first_run hm hs)
    exact hc _ (by omega) (by omega)

theorem alloc_pages_shape {m m' : Phymem} {n p : Nat}
    (h : phymemAllocPages m n = some (p, m')) :
    m.phyState = .initTwo ∧ ∃ i b, bitmapFindZero m.phyBitmap n = some (i, b) ∧
      p = pagePointer m i ∧ m' = { m with phyBitmap := b } := by
  unfold phymemAllocPages at h
  split at h
  · cases h
  · rename_i hr
    obtain ⟨⟨i, b⟩, hb, he⟩ := Option.map_eq_some_iff.mp h
    cases he
    exact ⟨not_not.mp hr, i, b, hb, rfl, rfl⟩

theorem free_pages_shape {m m' : Phymem} {p n : Nat} (h : phymemFreePages m p n = some m') :
    m.phyState = .initTwo ∧ ∃ b, updateRange unsetBitmap m.phyBitmap (pageIndex m p) n = some b ∧
      m' = { m with phyBitmap := b } := by
  unfold phymemFreePages at h
  split at h
  · cases h
  · rename_i hr
    obtain ⟨b, hb, he⟩ := Option.map_eq_some_iff.mp h
    exact ⟨not_not.mp hr, b, hb, he.symm⟩

theorem Sound.alloc (h : Sound m live) {n p : Nat} {m' : Phymem} (hn : 0 < n)
    (hg : NextPageFree m.phyBitmap n) (ha : phymemAllocPages m n = some (p, m')) :
    Sound m' ((p, n) :: live) := by
  obtain ⟨_, i, b, hb, rfl, rfl⟩ := alloc_pages_shape ha
  obtain ⟨hs, hin, hl, hbits⟩ := bitmap_find_zero_spec hn hb
  have hsmall := h.small
  have hclear := (h.guard_iff hn hs).mp hg
  have hidx : pageIndex m (pagePointer m i) = i :=
    page_index_pointer m i h.start_lt (by omega)
  refine ⟨h.ready, h.start_lt, by simpa only [hl] using h.small, ?_, ?_, ?_, ?_, ?_, ?_⟩
  · rintro a hm
    rcases List.mem_cons.mp hm with rfl | hm
    · exact hn
    · exact h.positive a hm
  · rintro a hm
    rcases List.mem_cons.mp hm with rfl | hm
    · exact (congrArg (· % 8) hidx).trans (h.window_aligned hn hs)
    · exact h.aligned a hm
  · rintro a hm
    rcases List.mem_cons.mp hm with rfl | hm
    · exact (congrArg (pagePointer m) hidx).symm
    · exact h.pointer a hm
  · rintro a hm
    simp only [hl]
    rcases List.mem_cons.mp hm with rfl | hm
    · exact (congrArg (· + n) hidx).trans_le hin
    · exact h.inside a hm
  · refine List.pairwise_cons.mpr ⟨?_, h.apart⟩
    rintro c hc j ⟨⟨hj1, hj2⟩, hcov⟩
    have hf := hclear j (hidx ▸ hj1) (hidx ▸ hj2)
    rw [(h.bits j).mpr ⟨c, hc, hcov⟩] at hf
    cases hf
  · intro j
    rw [hbits j, h.bits j]
    constructor
    · rintro (⟨c, hc, hcov⟩ | hj)
      · exact ⟨c, List.mem_cons_of_mem _ hc, hcov⟩
      · exact ⟨_, List.mem_cons_self, hidx.symm ▸ hj.1, hidx.symm ▸ hj.2⟩
    · rintro ⟨c, hc, hcov⟩
      rcases List.mem_cons.mp hc with rfl | hc
      · exact .inr ⟨hidx ▸ hcov.1, hidx ▸ hcov.2⟩
      · exact .inl ⟨c, hc, hcov⟩

/-- A request against its guard is given a page that is still live. -/
theorem Sound.alloc_lost (h : Sound m live) {n p : Nat} {m' : Phymem} (hn : 0 < n)
    (hg : ¬ NextPageFree m.phyBitmap n) (ha : phymemAllocPages m n = some (p, m')) :
    ¬ (Frames.mk m' ((p, n) :: live)).Disjoint := by
  obtain ⟨_, i, b, hb, rfl, rfl⟩ := alloc_pages_shape ha
  obtain ⟨hs, hin, _, _⟩ := bitmap_find_zero_spec hn hb
  have hsmall := h.small
  have hidx : pageIndex m (pagePointer m i) = i :=
    page_index_pointer m i h.start_lt (by omega)
  rw [h.guard_iff hn hs] at hg
  push Not at hg
  obtain ⟨j, h1, h2, hj⟩ := hg
  obtain ⟨c, hc, hcov⟩ := (h.bits j).mp (by simpa using hj)
  intro hd
  have hap := (List.pairwise_cons.mp hd).1 c hc
  rw [apart_iff (m := m) (congrArg (pagePointer m) hidx).symm (h.pointer c hc)
    (by simp only [hidx]; omega) (Nat.le_trans (h.inside c hc) hsmall)] at hap
  exact hap j ⟨⟨by simp only [hidx]; omega, by simp only [hidx]; omega⟩, hcov⟩

theorem Sound.perm (h : Sound m live) (hp : live.Perm live') : Sound m live' := by
  refine ⟨h.ready, h.start_lt, h.small, fun a ha => h.positive a (hp.mem_iff.mpr ha),
    fun a ha => h.aligned a (hp.mem_iff.mpr ha), fun a ha => h.pointer a (hp.mem_iff.mpr ha),
    fun a ha => h.inside a (hp.mem_iff.mpr ha), ?_, ?_⟩
  · refine (hp.pairwise_iff ?_).mp h.apart
    intro a b hab j hj
    exact hab j ⟨hj.2, hj.1⟩
  · intro j
    rw [h.bits j]
    exact ⟨fun ⟨a, ha, hc⟩ => ⟨a, hp.mem_iff.mp ha, hc⟩,
      fun ⟨a, ha, hc⟩ => ⟨a, hp.mem_iff.mpr ha, hc⟩⟩

theorem Sound.free (h : Sound m ((p, n) :: live)) {m' : Phymem}
    (hf : phymemFreePages m p n = some m') : Sound m' live := by
  obtain ⟨_, b, hb, rfl⟩ := free_pages_shape hf
  obtain ⟨hl, _⟩ := range_length (fun _ _ _ => unset_length) hb
  have hbits := bit_unset_range hb
  obtain ⟨hhead, htail⟩ := List.pairwise_cons.mp h.apart
  refine ⟨h.ready, h.start_lt, by simpa only [hl] using h.small,
    fun a ha => h.positive a (List.mem_cons_of_mem _ ha),
    fun a ha => h.aligned a (List.mem_cons_of_mem _ ha),
    fun a ha => h.pointer a (List.mem_cons_of_mem _ ha),
    fun a ha => (h.inside a (List.mem_cons_of_mem _ ha)).trans_eq (congrArg (8 * ·) hl.symm),
    htail, ?_⟩
  intro j
  rw [hbits j, h.bits j]
  constructor
  · rintro ⟨⟨c, hc, hcov⟩, hn⟩
    rcases List.mem_cons.mp hc with rfl | hc
    · exact absurd hcov hn
    · exact ⟨c, hc, hcov⟩
  · rintro ⟨c, hc, hcov⟩
    exact ⟨⟨c, List.mem_cons_of_mem _ hc, hcov⟩, fun hn => hhead c hc j ⟨hn, hcov⟩⟩

theorem step_alloc {s t : Frames} (hs : s.step (.alloc n) = some t) :
    ∃ p m, 0 < n ∧ phymemAllocPages s.phymem n = some (p, m) ∧ t = ⟨m, (p, n) :: s.live⟩ := by
  simp only [Frames.step] at hs
  split at hs
  · cases hs
  · rename_i hn
    obtain ⟨⟨p, m⟩, ha, rfl⟩ := Option.map_eq_some_iff.mp hs
    exact ⟨p, m, Nat.pos_of_ne_zero hn, ha, rfl⟩

theorem step_sound {s t : Frames} {op : FrameOp} (h : Sound s.phymem s.live) (hg : s.Guard op)
    (hs : s.step op = some t) : Sound t.phymem t.live := by
  cases op with
  | alloc n =>
    obtain ⟨p, m, hn, ha, rfl⟩ := step_alloc hs
    exact h.alloc hn hg ha
  | free p n =>
    simp only [Frames.step] at hs
    split at hs
    · rename_i hm
      obtain ⟨m, hf, rfl⟩ := Option.map_eq_some_iff.mp hs
      exact (h.perm (List.perm_cons_erase hm)).free hf
    · cases hs

theorem step_lost {s t : Frames} {op : FrameOp} (h : Sound s.phymem s.live) (hg : ¬ s.Guard op)
    (hs : s.step op = some t) : ¬ t.Disjoint := by
  cases op with
  | alloc n =>
    obtain ⟨p, m, hn, ha, rfl⟩ := step_alloc hs
    exact h.alloc_lost hn hg ha
  | free p n => exact absurd trivial hg

/-- Over every run the live allocations stay apart if and only if no request
for `8 q + 1` pages is made while the page behind the first `q` zero bytes of
the bitmap is in use. -/
theorem live_pages_disjoint_iff (start stop : Nat) (s : Frames) (ops : List FrameOp)
    (hstop : stop < 2 ^ 32) (hpages : layoutPages (stop - start) < 2 ^ 20)
    (hinit : Frames.init start stop = some s) (hrun : (run Frames.step s ops).isSome) :
    Throughout Frames.step Frames.Disjoint s ops ↔ Guarded Frames.step Frames.Guard s ops :=
  have hinv : Sound s.phymem s.live := Sound.init hstop hpages hinit
  throughout_iff_guarded hinv (fun _ h => h.disjoint) (fun _ _ _ => step_sound)
    (fun _ _ _ => step_lost) hrun

/-- The frames of a small machine: 24 pages from 0x304000 on. -/
def smallFrames : Frames :=
  ⟨⟨0x304000, 0x17000, 0x31b000, .initTwo, [0, 0, 0, 0]⟩, []⟩

set_option maxRecDepth 4000 in
theorem live_pages_disjoint_small :
    Throughout Frames.step Frames.Disjoint smallFrames
      [.alloc 2, .free 0x304000 2, .alloc 5, .alloc 12] := by
  refine (live_pages_disjoint_iff 0x304000 0x31b000 smallFrames _ (by decide) (by decide) rfl
    (by decide)).mpr ⟨?_, trivial, ?_, ?_, trivial⟩
  · exact fun h => absurd h (by decide)
  · exact fun h => absurd h (by decide)
  · exact fun h => absurd h (by decide)

/-- Two requests for one page are both given page 0: the position of page 0
masks its byte with zero. -/
theorem live_pages_handed_out_twice :
    ¬ ∀ (start stop : Nat) (s : Frames) (ops : List FrameOp), stop < 2 ^ 32 →
      Frames.init start stop = some s → (run Frames.step s ops).isSome →
      Throughout Frames.step Frames.Disjoint s ops := by
  intro h
  have hd := (h 0x304000 0x31b000 smallFrames [.alloc 1, .alloc 1] (by decide) rfl
    (by decide)).last rfl
  revert hd
  decide

end Levos.Proofs.Phymem
