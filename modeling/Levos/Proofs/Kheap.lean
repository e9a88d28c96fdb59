import Levos.Kheap
import Levos.Proofs.Packing
import Levos.Proofs.Phymem

namespace Levos.Proofs.Kheap
open Levos.Library Levos.Proofs.Packing Levos.Proofs.Phymem

/-- The calls that have not been answered with a null pointer. -/
def granted (s : Kheap) : List (Nat × Nat) := s.returned.filter (fun r => r.1 ≠ 0)

/-- Pages of the window at `KHEAP_VIRTUAL_START` only. -/
def InWindow (r : Nat × Nat) : Prop :=
  ∀ i < r.2, kheapVirtualStart ≤ r.1 + i * 0x1000 ∧
    r.1 + i * 0x1000 < kheapVirtualStart + kheapPages * 0x1000

/-- What has been granted lies in the window, and no page was granted twice. -/
def Served (s : Kheap) : Prop := (∀ r ∈ granted s, InWindow r) ∧ (granted s).Pairwise Apart

/-- A request for one page is the first for any page, and a longer one fits
behind the earlier ones, each of them rounded up to eight pages. -/
def Fits (s : Kheap) (pages : Int) : Prop :=
  (pageCount pages = 1 → taken s.returned = 0) ∧
    (2 ≤ pageCount pages → 8 * taken s.returned + pageCount pages ≤ kheapPages)

/-- The bitmap is packed, and the pages returned are those of its used bytes. -/
structure Filled (s : Kheap) : Prop where
  size : s.bitmap.length = 128
  packed : Packed s.bitmap (taken s.returned)
  low : ∀ r ∈ s.returned, ∃ i, r.1 = kheapVirtualStart + i * 0x1000 ∧
    i + r.2 ≤ 8 * taken s.returned
  first : 0 < taken s.returned → ∃ r ∈ s.returned, r.1 = kheapVirtualStart ∧ 0 < r.2
  apart : s.returned.Pairwise Apart

theorem init_filled : Filled Kheap.init where
  size := List.length_replicate
  packed := packed_zero 128
  low := List.forall_mem_nil _
  first := fun h => absurd h (Nat.lt_irrefl 0)
  apart := .nil

variable {s t : Kheap} {pages : Int}

theorem Filled.room (h : Filled s) : taken s.returned ≤ 128 := by
  have := h.packed.room
  rwa [h.size] at this

theorem Filled.served (h : Filled s) : Served s := by
  refine ⟨?_, h.apart.filter _⟩
  intro r hr i hi
  obtain ⟨k, hk, hle⟩ := h.low r (List.mem_of_mem_filter hr)
  have hroom := h.room
  rw [hk]
  unfold kheapPages
  omega

/-- Everything one call can do. -/
theorem Filled.step_shape (h : Filled s) (hs : s.step pages = some t) :
    t.returned = (kheapVirtualStart + firstPage (taken s.returned) (pageCount pages) * 0x1000,
      pageCount pages) :: s.returned ∧ t.bitmap.length = 128 ∧
    Packed t.bitmap (grow (taken s.returned) (pageCount pages)) ∧
    firstPage (taken s.returned) (pageCount pages) + pageCount pages ≤ kheapPages := by
  obtain ⟨⟨p, b⟩, hp, rfl⟩ := Option.map_eq_some_iff.mp hs
  obtain ⟨⟨i, b'⟩, hf, he⟩ := Option.map_eq_some_iff.mp hp
  cases he
  obtain ⟨rfl, hin, hl, hpack⟩ := h.packed.find_zero hf
  rw [h.size] at hin hl
  refine ⟨?_, hl, hpack, hin⟩
  simp only [List.cons.injEq, Prod.mk.injEq, and_true]
  exact Nat.mod_eq_of_lt (by unfold kheapVirtualStart; omega)

theorem Filled.step_some (h : Filled s) (hg : Fits s pages) : ∃ t, s.step pages = some t := by
  obtain ⟨r, hr⟩ := h.packed.find_zero_some (n := pageCount pages) (by rw [h.size]; decide)
    (fun hn => by rw [h.size]; exact hg.2 hn)
  exact ⟨_, by simp only [Kheap.step, mmAllocPages, hr, Option.map_some]; rfl⟩

/-- The pages of a request that fits are behind all pages returned before. -/
theorem Filled.apart_new (h : Filled s) (hg : Fits s pages)
    (hin : firstPage (taken s.returned) (pageCount pages) + pageCount pages ≤ kheapPages)
    (hr : r ∈ s.returned) :
    Apart (kheapVirtualStart + firstPage (taken s.returned) (pageCount pages) * 0x1000,
      pageCount pages) r := by
  intro i hi j hj
  obtain ⟨k, hk, hle⟩ := h.low r hr
  have hroom := h.room
  have hone := hg.1
  have hbehind : 8 * taken s.returned ≤ firstPage (taken s.returned) (pageCount pages) := by
    unfold firstPage
    split <;> omega
  simp only [hk, kheapVirtualStart]
  unfold kheapPages at hin
  omega

theorem Filled.step (h : Filled s) (hg : Fits s pages) (hs : s.step pages = some t) :
    Filled t := by
  obtain ⟨hret, hsize, hpack, hin⟩ := h.step_shape hs
  have htaken : taken t.returned = grow (taken s.returned) (pageCount pages) := by
    rw [hret]
    rfl
  refine ⟨hsize, htaken ▸ hpack, ?_, ?_, ?_⟩
  · intro r hr
    rw [htaken]
    rw [hret] at hr
    rcases List.mem_cons.mp hr with rfl | hr
    · exact ⟨_, rfl, page_end_le _ _⟩
    · obtain ⟨i, hi, hle⟩ := h.low r hr
      have hmono := grow_le (taken s.returned) (pageCount pages)
      exact ⟨i, hi, by omega⟩
  · intro hpos
    rw [hret]
    by_cases hold : 0 < taken s.returned
    · obtain ⟨r, hr, hfirst⟩ := h.first hold
      exact ⟨r, List.mem_cons_of_mem _ hr, hfirst⟩
    · refine ⟨_, List.mem_cons_self, ?_, ?_⟩
      · simp [firstPage, Nat.eq_zero_of_not_pos hold]
      · rw [htaken, Nat.eq_zero_of_not_pos hold] at hpos
        by_contra hzero
        have hn : pageCount pages = 0 := Nat.eq_zero_of_not_pos hzero
        simp [grow, hn] at hpos
  · rw [hret]
    exact List.pairwise_cons.mpr ⟨fun r hr => h.apart_new hg hin hr, h.apart⟩

/-- A second request for one page is given the first page again. -/
theorem Filled.lost (h : Filled s) (hg : ¬ Fits s pages) (hs : s.step pages = some t) :
    ¬ Served t := by
  obtain ⟨hret, _, _, hin⟩ := h.step_shape hs
  have hone : pageCount pages = 1 ∧ 0 < taken s.returned := by
    by_contra hn
    refine hg ⟨fun h1 => by omega, fun h2 => ?_⟩
    unfold firstPage at hin
    rw [if_neg (by omega)] at hin
    exact hin
  obtain ⟨r, hr, hbase, hpos⟩ := h.first hone.2
  intro hserved
  have hpair := hserved.2
  unfold granted at hpair
  rw [hret, hone.1, List.filter_cons_of_pos (by simp [kheapVirtualStart])] at hpair
  have hgrant : r ∈ s.returned.filter (fun r => r.1 ≠ 0) :=
    List.mem_filter.mpr ⟨hr, by simp [hbase, kheapVirtualStart]⟩
  refine (List.pairwise_cons.mp hpair).1 r hgrant 0 Nat.one_pos 0 hpos ?_
  simp [hbase, firstPage]

/-- The calls are answered from the 128 bytes, with pages of the window that
were not returned before, if and only if no page but the very first is asked
for alone and the requests together fit. -/
theorem heap_pages_served_iff (requests : List Int) :
    (run Kheap.step Kheap.init requests).isSome ∧
        Throughout Kheap.step Served Kheap.init requests ↔
      Guarded Kheap.step Fits Kheap.init requests := by
  refine answered_iff_guarded init_filled (fun _ h => h.served) ?_
    (fun _ _ _ h hg hs => h.lost hg hs)
  intro s pages h hg
  obtain ⟨t, ht⟩ := h.step_some hg
  exact ⟨t, ht, h.step hg ht⟩

set_option maxRecDepth 4000 in
/-- One page, then one page: both are the first of the window. -/
theorem heap_page_served_twice :
    ¬ ∀ requests, (run Kheap.step Kheap.init requests).isSome ∧
      Throughout Kheap.step Served Kheap.init requests := by
  intro h
  have hpair := ((h [1, 1]).2.last rfl).2
  revert hpair
  decide

end Levos.Proofs.Kheap
