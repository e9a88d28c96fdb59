import Levos.PageMemory
import Levos.Proofs.Paging

namespace Levos.Proofs.PageMemory
open Library Paging
open Levos.PageMemory (word storeWord walk heapPaddr pageAlign pageAlignLoop)

variable {mem : Nat → UInt8} {a b i j n pd pt vaddr paddr : Nat}

/-- A word that does not reach the end of memory. -/
theorem store_word_eq (mem : Nat → UInt8) (x : Nat) (h : a + 4 ≤ 2 ^ 32) :
    storeWord mem a x = storeAt mem a 4 x := by
  have hcells : (List.range 4).map (fun k => (a + k) % 2 ^ 32) = List.range' a 4 := by
    rw [List.range'_eq_map_range]
    refine List.map_congr_left ?_
    intro k hk
    exact Nat.mod_eq_of_lt (by have := List.mem_range.mp hk; omega)
  rw [storeWord, hcells, storeAt, blit, toBytes_length]

theorem word_store (mem : Nat → UInt8) (h : a + 4 ≤ 2 ^ 32) (hx : x < 2 ^ 32) :
    word (storeWord mem a x) a = x := by
  rw [store_word_eq mem x h, word, load_store]
  exact Nat.mod_eq_of_lt hx

theorem word_store_apart (mem : Nat → UInt8) (x : Nat) (hb : b + 4 ≤ 2 ^ 32)
    (h : a + 4 ≤ b ∨ b + 4 ≤ a) : word (storeWord mem b x) a = word mem a := by
  rw [store_word_eq mem x hb]
  exact load_store_apart mem x h

/-- The words of a table, stored in a loop. -/
theorem fold_store_eq (mem : Nat → UInt8) (entry : Nat → Nat) (h : a + 4 * n ≤ 2 ^ 32) :
    (List.range n).foldl (fun m i => storeWord m (a + 4 * i) (entry i)) mem =
      storeTable mem a 4 entry n := by
  refine List.foldl_ext _ _ _ ?_
  intro m i hi
  have hlt := List.mem_range.mp hi
  rw [store_word_eq _ _ (by omega), Nat.mul_comm 4 i]

theorem fold_store_apart (mem : Nat → UInt8) (entry : Nat → Nat) (h : b + 4 * n ≤ 2 ^ 32)
    (ha : a + 4 ≤ b ∨ b + 4 * n ≤ a) :
    word ((List.range n).foldl (fun m i => storeWord m (b + 4 * i) (entry i)) mem) a =
      word mem a := by
  rw [fold_store_eq mem entry h]
  exact load_congr (fun i hi => table_outside mem entry (by omega))

theorem fold_store_word (mem : Nat → UInt8) (entry : Nat → Nat) (h : a + 4 * n ≤ 2 ^ 32)
    (hj : j < n) (hlt : entry j < 2 ^ 32) :
    word ((List.range n).foldl (fun m i => storeWord m (a + 4 * i) (entry i)) mem) (a + 4 * j) =
      entry j := by
  rw [fold_store_eq mem entry h, Nat.mul_comm 4 j, word, load_table _ _ _ _ hj]
  exact Nat.mod_eq_of_lt hlt

theorem initialize_pt_word (mem : Nat → UInt8) (startaddr : Nat) (h : pt + 0x1000 ≤ 2 ^ 32)
    (hj : j < 1024) : word (Levos.PageMemory.initializePt mem pt startaddr) (pt + 4 * j) =
      initializePt startaddr j :=
  fold_store_word mem (initializePt startaddr) h hj
    (Nat.or_lt_two_pow (Nat.mod_lt _ (by decide)) (by decide))

theorem initialize_pt_apart (mem : Nat → UInt8) (startaddr : Nat) (h : pt + 0x1000 ≤ 2 ^ 32)
    (ha : a + 4 ≤ pt ∨ pt + 0x1000 ≤ a) :
    word (Levos.PageMemory.initializePt mem pt startaddr) a = word mem a :=
  fold_store_apart mem (initializePt startaddr) h ha

/-- The loop stops at the first page from the pointer on. -/
theorem page_align_loop (h : p + fuel < 2 ^ 32) (hfuel : (0x1000 - p % 0x1000) % 0x1000 ≤ fuel) :
    pageAlignLoop fuel p = p + (0x1000 - p % 0x1000) % 0x1000 := by
  induction fuel generalizing p with
  | zero =>
    rw [pageAlignLoop]
    omega
  | succ fuel ih =>
    rw [pageAlignLoop]
    by_cases hp : p % 0x1000 = 0
    · rw [if_neg (not_not.mpr hp)]
      omega
    · rw [if_pos hp, Nat.mod_eq_of_lt (by omega), ih (by omega) (by omega)]
      omega

/-- The two blocks lie in the heap window, and not over each other. -/
structure Blocks (pdBlock ptBlock : Nat) : Prop where
  pd_heap : 0xC0000000 ≤ pdBlock ∧ pdBlock + 8192 ≤ 0xC0400000
  pt_heap : 0xC0000000 ≤ ptBlock ∧ ptBlock + 8192 ≤ 0xC0400000
  apart : pdBlock + 8192 ≤ ptBlock ∨ ptBlock + 8192 ≤ pdBlock

/-- Two different frames of the heap. -/
structure Frames (pd pt : Nat) : Prop where
  pd_aligned : pd % 0x1000 = 0
  pt_aligned : pt % 0x1000 = 0
  pd_heap : 0x400000 ≤ pd ∧ pd + 0x1000 ≤ 0x800000
  pt_heap : 0x400000 ≤ pt ∧ pt + 0x1000 ≤ 0x800000
  apart : pd + 0x1000 ≤ pt ∨ pt + 0x1000 ≤ pd

/-- A block of two pages holds a whole page. -/
theorem page_align_heap (h : 0xC0000000 ≤ b ∧ b + 8192 ≤ 0xC0400000) :
    pageAlign b % 0x1000 = 0 ∧ b ≤ pageAlign b ∧ pageAlign b + 0x1000 ≤ b + 8192 ∧
      heapPaddr (pageAlign b) = pageAlign b - 0xC0000000 + 0x400000 := by
  have halign : pageAlign b = b + (0x1000 - b % 0x1000) % 0x1000 :=
    page_align_loop (by omega) (by omega)
  refine ⟨by omega, by omega, by omega, ?_⟩
  rw [heapPaddr]
  omega

theorem Blocks.frames (h : Blocks pdBlock ptBlock) :
    Frames (heapPaddr (pageAlign pdBlock)) (heapPaddr (pageAlign ptBlock)) := by
  obtain ⟨hpd, hpt, hapart⟩ := h
  obtain ⟨hd, hd1, hd2, hd3⟩ := page_align_heap hpd
  obtain ⟨ht, ht1, ht2, ht3⟩ := page_align_heap hpt
  rw [hd3, ht3]
  exact ⟨by omega, by omega, by omega, by omega, by omega⟩

/-- The word that ends up in the entry for the new table. -/
theorem slot_word (h : 0xC0000000 ≤ pt) (hlt : pt < 0xC0400000) (ha : pt % 0x1000 = 0) :
    (((pt ||| 3) + (2 ^ 32 - 0xC0000000)) % 2 ^ 32 + 0x400000) % 2 ^ 32 = heapPaddr pt + 3 := by
  have hor : pt ||| 3 = pt + 3 := by
    obtain ⟨k, rfl⟩ : ∃ k, pt = 2 ^ 12 * k := ⟨pt / 2 ^ 12, by omega⟩
    exact (Nat.two_pow_add_eq_or_of_lt (by decide) k).symm
  rw [hor, heapPaddr]
  omega

/-- A directory gets the entries for the kernel's two tables. -/
def linked (mem : Nat → UInt8) (pd : Nat) : Nat → UInt8 :=
  storeWord (storeWord mem (pd + 4 * 768) (Levos.PageMemory.kernelHeapPt ||| 3)) (pd + 4 * 0)
    (Levos.PageMemory.firstPt ||| 3)

theorem linked_directory (mem : Nat → UInt8) (h : pd + 0x1000 ≤ 2 ^ 32) (hi : i < 1024) :
    word (linked mem pd) (pd + 4 * i) =
      if i = 0 then 0x303003 else if i = 768 then 0x302003 else word mem (pd + 4 * i) := by
  rw [linked]
  by_cases hzero : i = 0
  · rw [hzero, word_store _ (by omega) (by decide)]
    rfl
  rw [word_store_apart _ _ (by omega) (by omega), if_neg hzero]
  by_cases hheap : i = 768
  · rw [hheap, word_store _ (by omega) (by decide)]
    rfl
  · rw [word_store_apart _ _ (by omega) (by omega), if_neg hheap]

theorem linked_outside (mem : Nat → UInt8) (h : pd + 0x1000 ≤ 2 ^ 32)
    (ha : a + 4 ≤ pd ∨ pd + 0x1000 ≤ a) : word (linked mem pd) a = word mem a := by
  rw [linked, word_store_apart _ _ (by omega) (by omega),
    word_store_apart _ _ (by omega) (by omega)]

section Created

variable {pdBlock ptBlock : Nat}

/-- The memory before the new table is added to the directory: the entries for the
kernel's tables and the new table are filled in. -/
def filled (mem : Nat → UInt8) (pd pt paddr : Nat) : Nat → UInt8 :=
  Levos.PageMemory.initializePt (linked mem pd) pt paddr

theorem filled_directory (h : Frames pd pt) (hi : i < 1024) :
    word (filled mem pd pt paddr) (pd + 4 * i) =
      if i = 0 then 0x303003 else if i = 768 then 0x302003 else word mem (pd + 4 * i) := by
  have hpd := h.pd_heap
  have hpt := h.pt_heap
  have hapart := h.apart
  rw [filled, initialize_pt_apart _ _ (by omega) (by omega), linked_directory mem (by omega) hi]

theorem filled_table (h : Frames pd pt) (hj : j < 1024) :
    word (filled mem pd pt paddr) (pt + 4 * j) = initializePt paddr j :=
  initialize_pt_word _ _ (by have := h.pt_heap; omega) hj

theorem filled_outside (h : Frames pd pt) (hpd : a + 4 ≤ pd ∨ pd + 0x1000 ≤ a)
    (hpt : a + 4 ≤ pt ∨ pt + 0x1000 ≤ a) : word (filled mem pd pt paddr) a = word mem a := by
  have := h.pd_heap
  have := h.pt_heap
  rw [filled, initialize_pt_apart _ _ (by omega) hpt, linked_outside mem (by omega) hpd]

/-- The memory `create_new_page_directory` leaves. -/
def created (mem : Nat → UInt8) (pdBlock ptBlock vaddr paddr : Nat) : Nat → UInt8 :=
  (Levos.PageMemory.createNewPageDirectory mem pdBlock ptBlock vaddr paddr).1

/-- The entry for the new table is stored three times, in the same place. -/
theorem created_slot (h : Blocks pdBlock ptBlock) (hv : vaddr < 2 ^ 32) :
    word (created mem pdBlock ptBlock vaddr paddr)
      (heapPaddr (pageAlign pdBlock) + 4 * (vaddr >>> 22)) = heapPaddr (pageAlign ptBlock) + 3 := by
  have hframe := h.frames.pd_heap
  have hindex : vaddr >>> 22 < 1024 := by omega
  obtain ⟨halign, hlow, hhigh, -⟩ := page_align_heap h.pt_heap
  have hheap := h.pt_heap
  have hslot := slot_word (show 0xC0000000 ≤ pageAlign ptBlock by omega) (by omega) halign
  have hor : pageAlign ptBlock ||| 3 < 2 ^ 32 := Nat.or_lt_two_pow (by omega) (by decide)
  simp only [created, Levos.PageMemory.createNewPageDirectory]
  rw [word_store _ (by omega) (Nat.mod_lt _ (by decide)),
    word_store _ (by omega) (Nat.mod_lt _ (by decide)), word_store _ (by omega) hor, hslot]

theorem created_other (h : Blocks pdBlock ptBlock) (hv : vaddr < 2 ^ 32)
    (ha : a + 4 ≤ heapPaddr (pageAlign pdBlock) + 4 * (vaddr >>> 22) ∨
      heapPaddr (pageAlign pdBlock) + 4 * (vaddr >>> 22) + 4 ≤ a) :
    word (created mem pdBlock ptBlock vaddr paddr) a = word
      (filled mem (heapPaddr (pageAlign pdBlock)) (heapPaddr (pageAlign ptBlock)) paddr) a := by
  have hframe := h.frames.pd_heap
  have hindex : vaddr >>> 22 < 1024 := by omega
  simp only [created, Levos.PageMemory.createNewPageDirectory]
  rw [word_store_apart _ _ (by omega) ha, word_store_apart _ _ (by omega) ha,
    word_store_apart _ _ (by omega) ha]
  rfl

theorem created_directory (mem : Nat → UInt8) (paddr : Nat) (h : Blocks pdBlock ptBlock)
    (hv : vaddr < 2 ^ 32) (hi : i < 1024) :
    word (created mem pdBlock ptBlock vaddr paddr) (heapPaddr (pageAlign pdBlock) + 4 * i) =
      if i = vaddr >>> 22 then heapPaddr (pageAlign ptBlock) + 3
      else if i = 0 then 0x303003
      else if i = 768 then 0x302003
      else word mem (heapPaddr (pageAlign pdBlock) + 4 * i) := by
  by_cases hslot : i = vaddr >>> 22
  · rw [if_pos hslot, hslot]
    exact created_slot h hv
  · rw [if_neg hslot, created_other h hv (by omega), filled_directory h.frames hi]

theorem created_table (h : Blocks pdBlock ptBlock) (hv : vaddr < 2 ^ 32) (hj : j < 1024) :
    word (created mem pdBlock ptBlock vaddr paddr) (heapPaddr (pageAlign ptBlock) + 4 * j) =
      initializePt paddr j := by
  have hindex : vaddr >>> 22 < 1024 := by omega
  have hapart := h.frames.apart
  rw [created_other h hv (by omega), filled_table h.frames hj]

theorem created_outside (h : Blocks pdBlock ptBlock) (hv : vaddr < 2 ^ 32)
    (hpd : a + 4 ≤ heapPaddr (pageAlign pdBlock) ∨ heapPaddr (pageAlign pdBlock) + 0x1000 ≤ a)
    (hpt : a + 4 ≤ heapPaddr (pageAlign ptBlock) ∨ heapPaddr (pageAlign ptBlock) + 0x1000 ≤ a) :
    word (created mem pdBlock ptBlock vaddr paddr) a = word mem a := by
  have hindex : vaddr >>> 22 < 1024 := by omega
  rw [created_other h hv (by omega), filled_outside h.frames hpd hpt]

end Created

theorem translate_first {dir : PageDirectory} (hpd : dir (va >>> 22) = some firstPt) :
    translate dir va = some ((0 + va % 0x400000) % 2 ^ 32) :=
  translate_table firstPt 0 hpd rfl (by decide)

theorem translate_heap {dir : PageDirectory} (hpd : dir (va >>> 22) = some kernelHeapPt) :
    translate dir va = some ((0x400000 + va % 0x400000) % 2 ^ 32) :=
  translate_table kernelHeapPt 0x400000 hpd rfl (by decide)

/-- A whole directory entry leads nowhere when it is not present, or when no entry of its
table is. -/
theorem walk_none_iff (mem : Nat → UInt8) (pd : Nat) (hi : i < 1024) :
    (∀ va < 2 ^ 32, va >>> 22 = i → walk mem pd va = none) ↔
      word mem (pd + 4 * i) % 2 = 0 ∨
        ∀ j < 1024, word mem (word mem (pd + 4 * i) / 0x1000 * 0x1000 + 4 * j) % 2 = 0 := by
  simp only [walk, translate, Levos.PageMemory.directory]
  constructor
  · intro h
    by_cases hpresent : word mem (pd + 4 * i) % 2 = 1
    · right
      intro j hj
      have hdir : (i * 0x400000 + j * 0x1000) >>> 22 = i := by
        rw [Nat.shiftRight_eq_div_pow]
        omega
      have hidx : (i * 0x400000 + j * 0x1000) >>> 12 % 1024 = j := by
        rw [Nat.shiftRight_eq_div_pow]
        omega
      have hnone := h (i * 0x400000 + j * 0x1000) (by omega) hdir
      simp only [hdir, hidx, if_pos hpresent] at hnone
      by_contra hodd
      rw [if_pos (by omega)] at hnone
      cases hnone
    · exact .inl (by omega)
  · rintro (habsent | habsent) va hva rfl
    · rw [if_neg (by omega)]
    · by_cases hpresent : word mem (pd + 4 * (va >>> 22)) % 2 = 1
      · simp only [if_pos hpresent, habsent _ (Nat.mod_lt (va >>> 12) (by decide)),
          Nat.zero_ne_one, ↓reduceIte]
      · rw [if_neg hpresent]

/-- The kernel's two tables, as `paging_init` leaves them. -/
structure KernelTables (mem : Nat → UInt8) : Prop where
  first : ∀ j < 1024, word mem (Levos.PageMemory.firstPt + 4 * j) = initializePt 0 j
  heap : ∀ j < 1024, word mem (Levos.PageMemory.kernelHeapPt + 4 * j) = initializePt 0x400000 j

/-- Where the new directory should lead. -/
def mapped (vaddr paddr va : Nat) : Option Nat :=
  if vaddr ≤ va ∧ va < vaddr + 0x400000 then some ((paddr + (va - vaddr)) % 2 ^ 32)
  else if va < 0x400000 then some va
  else if 0xC0000000 ≤ va ∧ va < 0xC0400000 then some (va - 0xC0000000 + 0x400000)
  else none

/-- A directory entry leads nowhere: it is not present, or it points to a frame, other
than the two new ones, without a present entry. -/
def LeadsNowhere (mem : Nat → UInt8) (pd pt entry : Nat) : Prop :=
  entry % 2 = 0 ∨
    (entry / 0x1000 * 0x1000 ≠ pd ∧ entry / 0x1000 * 0x1000 ≠ pt ∧
      ∀ j < 1024, word mem (entry / 0x1000 * 0x1000 + 4 * j) % 2 = 0)

/-- What `malloc` left in the entries that are not written leads nowhere. -/
def Clean (mem : Nat → UInt8) (pd pt vaddr : Nat) : Prop :=
  ∀ i < 1024, i ≠ vaddr >>> 22 → i ≠ 0 → i ≠ 768 →
    LeadsNowhere mem pd pt (word mem (pd + 4 * i))

section Walk

variable {pdBlock ptBlock : Nat}

/-- A present entry whose table `initialize_pt` has filled. -/
theorem walk_table (pt : Nat) (hentry : word mem (pd + 4 * (va >>> 22)) = pt + 3)
    (ha : pt % 0x1000 = 0) (htable : ∀ j < 1024, word mem (pt + 4 * j) = initializePt start j)
    (hstart : start % 0x1000 = 0) : walk mem pd va = some ((start + va % 0x400000) % 2 ^ 32) := by
  have hframe : (pt + 3) / 0x1000 * 0x1000 = pt := by omega
  refine translate_table (fun j => word mem (pt + 4 * j)) start ?_
    (htable _ (Nat.mod_lt _ (by decide))) hstart
  rw [Levos.PageMemory.directory, hentry, if_pos (by omega), hframe]

/-- The first address a table should lead to, when the directory should have one. -/
theorem mapped_eq (vaddr paddr va : Nat) (haligned : vaddr % 0x400000 = 0) (hva : va < 2 ^ 32) :
    mapped vaddr paddr va =
      if va >>> 22 = vaddr >>> 22 then some ((paddr + va % 0x400000) % 2 ^ 32)
      else if va >>> 22 = 0 then some ((0 + va % 0x400000) % 2 ^ 32)
      else if va >>> 22 = 768 then some ((0x400000 + va % 0x400000) % 2 ^ 32)
      else none := by
  rw [mapped]
  by_cases hnew : va >>> 22 = vaddr >>> 22
  · rw [if_pos (by omega), if_pos hnew, show va - vaddr = va % 0x400000 by omega]
  rw [if_neg (by omega), if_neg hnew]
  by_cases hfirst : va >>> 22 = 0
  · rw [if_pos (by omega), if_pos hfirst, Option.some.injEq]
    omega
  rw [if_neg (by omega), if_neg hfirst]
  by_cases hheap : va >>> 22 = 768
  · rw [if_pos (by omega), if_pos hheap, Option.some.injEq]
    omega
  · rw [if_neg (by omega), if_neg hheap]

/-- The three entries that are written lead where they should. -/
theorem created_walk (h : Blocks pdBlock ptBlock) (hk : KernelTables mem) (hv : vaddr < 2 ^ 32)
    (haligned : vaddr % 0x400000 = 0) (hp : paddr % 0x1000 = 0) (hva : va < 2 ^ 32)
    (hi : va >>> 22 = vaddr >>> 22 ∨ va >>> 22 = 0 ∨ va >>> 22 = 768) :
    walk (created mem pdBlock ptBlock vaddr paddr) (heapPaddr (pageAlign pdBlock)) va =
      mapped vaddr paddr va := by
  have hpd := h.frames.pd_heap
  have hpt := h.frames.pt_heap
  have hentry := created_directory mem paddr h hv
    (show va >>> 22 < 1024 by omega)
  have hkernel : ∀ t, t + 0x1000 ≤ 0x400000 → ∀ j < 1024,
      word (created mem pdBlock ptBlock vaddr paddr) (t + 4 * j) = word mem (t + 4 * j) := by
    intro t ht j hj
    exact created_outside h hv (by omega) (by omega)
  rw [mapped_eq vaddr paddr va haligned hva]
  by_cases hnew : va >>> 22 = vaddr >>> 22
  · rw [if_pos hnew] at hentry ⊢
    exact walk_table _ hentry h.frames.pt_aligned (fun j hj => created_table h hv hj) hp
  rw [if_neg hnew] at hentry ⊢
  by_cases hfirst : va >>> 22 = 0
  · rw [if_pos hfirst] at hentry ⊢
    refine walk_table Levos.PageMemory.firstPt hentry (by decide) ?_ (by decide)
    intro j hj
    rw [hkernel _ (by decide) j hj, hk.first j hj]
  rw [if_neg hfirst] at hentry ⊢
  have hheap := (hi.resolve_left hnew).resolve_left hfirst
  rw [if_pos hheap] at hentry ⊢
  refine walk_table Levos.PageMemory.kernelHeapPt hentry (by decide) ?_ (by decide)
  intro j hj
  rw [hkernel _ (by decide) j hj, hk.heap j hj]

/-- A table anywhere: the two new frames have a present entry, and all others are as
they were. -/
theorem created_absent_iff (h : Blocks pdBlock ptBlock) (hv : vaddr < 2 ^ 32)
    (ht : t % 0x1000 = 0) :
    (∀ j < 1024, word (created mem pdBlock ptBlock vaddr paddr) (t + 4 * j) % 2 = 0) ↔
      t ≠ heapPaddr (pageAlign pdBlock) ∧ t ≠ heapPaddr (pageAlign ptBlock) ∧
        ∀ j < 1024, word mem (t + 4 * j) % 2 = 0 := by
  have hd := h.frames.pd_aligned
  have hp := h.frames.pt_aligned
  by_cases hpd : t = heapPaddr (pageAlign pdBlock)
  · simp only [hpd, ne_eq, not_true_eq_false, false_and, iff_false]
    intro habsent
    have hzero := habsent 0 (by decide)
    rw [created_directory mem paddr h hv (by decide), if_pos rfl] at hzero
    split at hzero
    · omega
    · cases hzero
  by_cases hpt : t = heapPaddr (pageAlign ptBlock)
  · simp only [hpt, ne_eq, not_true_eq_false, false_and, and_false, iff_false]
    intro habsent
    have hzero := habsent 0 (by decide)
    have hodd := (page_entry_frame ((paddr + 0 * 0x1000) % 2 ^ 32)).2
    rw [created_table h hv (by decide), initializePt, hodd] at hzero
    cases hzero
  · simp only [ne_eq, hpd, hpt, not_false_eq_true, true_and]
    refine forall₂_congr ?_
    intro j hj
    rw [created_outside h hv (by omega) (by omega)]

/-- The entries that are not written lead nowhere in the new directory exactly when what
`malloc` left in them does. -/
theorem created_nowhere_iff (mem : Nat → UInt8) (paddr : Nat) (h : Blocks pdBlock ptBlock)
    (hv : vaddr < 2 ^ 32) (hi : i < 1024) (hnew : i ≠ vaddr >>> 22) (hfirst : i ≠ 0)
    (hheap : i ≠ 768) :
    (∀ va < 2 ^ 32, va >>> 22 = i → walk (created mem pdBlock ptBlock vaddr paddr)
      (heapPaddr (pageAlign pdBlock)) va = none) ↔
      LeadsNowhere mem (heapPaddr (pageAlign pdBlock)) (heapPaddr (pageAlign ptBlock))
        (word mem (heapPaddr (pageAlign pdBlock) + 4 * i)) := by
  rw [walk_none_iff _ _ hi, created_directory mem paddr h hv hi, if_neg hnew, if_neg hfirst,
    if_neg hheap, created_absent_iff h hv (Nat.mul_mod_left _ _), LeadsNowhere]

/-- The new directory leads where it should exactly when what `malloc` left in the
entries that are not written leads nowhere. -/
theorem create_directory_iff (mem : Nat → UInt8) (pdBlock ptBlock vaddr paddr : Nat)
    (h : Blocks pdBlock ptBlock) (hk : KernelTables mem) (hv : vaddr < 2 ^ 32)
    (haligned : vaddr % 0x400000 = 0) (hp : paddr % 0x1000 = 0) :
    (∀ va < 2 ^ 32,
      walk (Levos.PageMemory.createNewPageDirectory mem pdBlock ptBlock vaddr paddr).1
        (Levos.PageMemory.createNewPageDirectory mem pdBlock ptBlock vaddr paddr).2 va =
          mapped vaddr paddr va) ↔
      Clean mem (heapPaddr (pageAlign pdBlock)) (heapPaddr (pageAlign ptBlock)) vaddr := by
  change (∀ va < 2 ^ 32, walk (created mem pdBlock ptBlock vaddr paddr)
    (heapPaddr (pageAlign pdBlock)) va = mapped vaddr paddr va) ↔ _
  constructor
  · intro hwalk i hi hnew hfirst hheap
    refine (created_nowhere_iff mem paddr h hv hi hnew hfirst hheap).mp ?_
    rintro va hva rfl
    rw [hwalk va hva, mapped_eq _ _ _ haligned hva, if_neg hnew, if_neg hfirst, if_neg hheap]
  · intro hclean va hva
    by_cases hi : va >>> 22 = vaddr >>> 22 ∨ va >>> 22 = 0 ∨ va >>> 22 = 768
    · exact created_walk h hk hv haligned hp hva hi
    · simp only [not_or] at hi
      obtain ⟨hnew, hfirst, hheap⟩ := hi
      have hindex : va >>> 22 < 1024 := by omega
      have hnone := (created_nowhere_iff mem paddr h hv hindex hnew hfirst hheap).mpr
        (hclean _ hindex hnew hfirst hheap)
      rw [hnone va hva rfl, mapped_eq _ _ _ haligned hva, if_neg hnew, if_neg hfirst,
        if_neg hheap]

end Walk

section Boot

/-- The directory with no entry present. -/
def cleared (mem : Nat → UInt8) : Nat → UInt8 :=
  (List.range 1024).foldl (fun m i => storeWord m (0x301000 + 4 * i) 2) mem

theorem paging_init_eq (mem : Nat → UInt8) : Levos.PageMemory.pagingInit mem =
    linked (Levos.PageMemory.initializePt (Levos.PageMemory.initializePt (cleared mem) 0x303000 0)
      0x302000 0x400000) 0x301000 := rfl

/-- `paging_init` does not store behind its tables. -/
theorem paging_init_behind (mem : Nat → UInt8) (ha : physStart ≤ a) :
    word (Levos.PageMemory.pagingInit mem) a = word mem a := by
  have hphys : 0x304000 ≤ a := ha
  rw [paging_init_eq, linked_outside _ (by omega) (by omega),
    initialize_pt_apart _ _ (by omega) (by omega), initialize_pt_apart _ _ (by omega) (by omega),
    cleared, fold_store_apart _ _ (by omega) (by omega)]

theorem paging_init_tables (mem : Nat → UInt8) :
    KernelTables (Levos.PageMemory.pagingInit mem) := by
  rw [paging_init_eq]
  constructor
  · intro j hj
    rw [Levos.PageMemory.firstPt, linked_outside _ (by omega) (by omega),
      initialize_pt_apart _ _ (by omega) (by omega), initialize_pt_word _ _ (by omega) hj]
  · intro j hj
    rw [Levos.PageMemory.kernelHeapPt, linked_outside _ (by omega) (by omega),
      initialize_pt_word _ _ (by omega) hj]

theorem paging_init_directory (mem : Nat → UInt8) (hi : i < 1024) :
    word (Levos.PageMemory.pagingInit mem) (Levos.PageMemory.pageDirectory + 4 * i) =
      if i = 0 then 0x303003 else if i = 768 then 0x302003 else 2 := by
  have hcleared : word (cleared mem) (0x301000 + 4 * i) = 2 :=
    fold_store_word mem (fun _ => 2) (by omega) hi (by decide)
  rw [paging_init_eq, Levos.PageMemory.pageDirectory, linked_directory _ (by omega) hi,
    initialize_pt_apart _ _ (by omega) (by omega), initialize_pt_apart _ _ (by omega) (by omega),
    hcleared]

/-- The directory in memory is the one the other modules take for the kernel's. -/
theorem paging_init_walk (mem : Nat → UInt8) (hva : va < 2 ^ 32) :
    walk (Levos.PageMemory.pagingInit mem) Levos.PageMemory.pageDirectory va =
      translate bootDirectory va := by
  have htables := paging_init_tables mem
  have hentry := paging_init_directory mem (show va >>> 22 < 1024 by omega)
  by_cases hfirst : va >>> 22 = 0
  · rw [if_pos hfirst] at hentry
    have hboot : bootDirectory (va >>> 22) = some firstPt := by rw [hfirst]; rfl
    rw [translate_first hboot]
    exact walk_table Levos.PageMemory.firstPt hentry (by decide) htables.first (by decide)
  rw [if_neg hfirst] at hentry
  by_cases hheap : va >>> 22 = 768
  · rw [if_pos hheap] at hentry
    have hboot : bootDirectory (va >>> 22) = some kernelHeapPt := by rw [hheap]; rfl
    rw [translate_heap hboot]
    exact walk_table Levos.PageMemory.kernelHeapPt hentry (by decide) htables.heap (by decide)
  rw [if_neg hheap] at hentry
  have hboot : bootDirectory (va >>> 22) = none := by
    rw [bootDirectory, if_neg hheap, if_neg hfirst]
  have habsent : Levos.PageMemory.directory (Levos.PageMemory.pagingInit mem)
      Levos.PageMemory.pageDirectory (va >>> 22) = none := by
    rw [Levos.PageMemory.directory, hentry]
    rfl
  rw [walk, translate, habsent, translate, hboot]

/-- The directory in memory is the one the other modules take for a process, with what
`malloc` left in the entries that are not written. -/
theorem created_refines {pdBlock ptBlock : Nat} (h : Blocks pdBlock ptBlock) (hk : KernelTables mem)
    (hv : vaddr < 2 ^ 32) (haligned : vaddr % 0x400000 = 0) (hp : paddr % 0x1000 = 0)
    (hva : va < 2 ^ 32) :
    walk (created mem pdBlock ptBlock vaddr paddr) (heapPaddr (pageAlign pdBlock)) va =
      translate (createNewPageDirectory (Levos.PageMemory.directory
        (created mem pdBlock ptBlock vaddr paddr) (heapPaddr (pageAlign pdBlock))) vaddr paddr)
        va := by
  obtain ⟨rest, hrest⟩ : ∃ rest, rest = Levos.PageMemory.directory
    (created mem pdBlock ptBlock vaddr paddr) (heapPaddr (pageAlign pdBlock)) := ⟨_, rfl⟩
  rw [← hrest]
  by_cases hnew : va >>> 22 = vaddr >>> 22
  · have hdir : createNewPageDirectory rest vaddr paddr (va >>> 22) =
        some (initializePt paddr) := by
      rw [createNewPageDirectory, if_pos hnew]
    rw [created_walk h hk hv haligned hp hva (.inl hnew), mapped_eq _ _ _ haligned hva,
      if_pos hnew, translate_table (initializePt paddr) paddr hdir rfl hp]
  by_cases hfirst : va >>> 22 = 0
  · have hdir : createNewPageDirectory rest vaddr paddr (va >>> 22) = some firstPt := by
      rw [createNewPageDirectory, if_neg hnew, if_pos hfirst]
    rw [created_walk h hk hv haligned hp hva (.inr (.inl hfirst)), mapped_eq _ _ _ haligned hva,
      if_neg hnew, if_pos hfirst, translate_first hdir]
  by_cases hheap : va >>> 22 = 768
  · have hdir : createNewPageDirectory rest vaddr paddr (va >>> 22) = some kernelHeapPt := by
      rw [createNewPageDirectory, if_neg hnew, if_neg hfirst, if_pos hheap]
    rw [created_walk h hk hv haligned hp hva (.inr (.inr hheap)), mapped_eq _ _ _ haligned hva,
      if_neg hnew, if_neg hfirst, if_pos hheap, translate_heap hdir]
  · have hdir : createNewPageDirectory rest vaddr paddr (va >>> 22) = rest (va >>> 22) := by
      rw [createNewPageDirectory, if_neg hnew, if_neg hfirst, if_neg hheap]
    rw [walk, ← hrest, translate, translate, hdir]

/-- Two blocks of the heap, neither of them on a page boundary. -/
theorem two_blocks : Blocks 0xC0000010 0xC0002020 := ⟨by decide, by decide, by decide⟩

theorem two_frames : heapPaddr (pageAlign 0xC0000010) = 0x401000 ∧
    heapPaddr (pageAlign 0xC0002020) = 0x403000 := by
  have hd : pageAlign 0xC0000010 = 0xC0001000 := page_align_loop (by decide) (by decide)
  have ht : pageAlign 0xC0002020 = 0xC0003000 := page_align_loop (by decide) (by decide)
  rw [hd, ht]
  decide

theorem create_directory_zeroed :
    Clean (Levos.PageMemory.pagingInit (fun _ => 0)) (heapPaddr (pageAlign 0xC0000010))
        (heapPaddr (pageAlign 0xC0002020)) 0x400000 ∧
      ∀ va < 2 ^ 32,
        walk (Levos.PageMemory.createNewPageDirectory (Levos.PageMemory.pagingInit (fun _ => 0))
            0xC0000010 0xC0002020 0x400000 0x304000).1
          (Levos.PageMemory.createNewPageDirectory (Levos.PageMemory.pagingInit (fun _ => 0))
            0xC0000010 0xC0002020 0x400000 0x304000).2 va = mapped 0x400000 0x304000 va := by
  have hclean : Clean (Levos.PageMemory.pagingInit (fun _ => 0))
      (heapPaddr (pageAlign 0xC0000010)) (heapPaddr (pageAlign 0xC0002020)) 0x400000 := by
    rw [two_frames.1, two_frames.2]
    intro i hi _ _ _
    have hphys : physStart ≤ 0x401000 + 4 * i := Nat.le_trans (by decide) (Nat.le_add_right _ _)
    left
    rw [paging_init_behind _ hphys]
    rfl
  exact ⟨hclean, (create_directory_iff _ 0xC0000010 0xC0002020 0x400000 0x304000 two_blocks
    (paging_init_tables _) (by decide) (by decide) (by decide)).mpr hclean⟩

/-- The block for the directory was used before, and holds the address of a table. -/
def used : Nat → UInt8 := storeWord (fun _ => 0) 0x401008 0x303003

/-- The entry that was not written leads to the first frames. -/
theorem used_walk : walk (created (Levos.PageMemory.pagingInit used) 0xC0000010 0xC0002020 0x400000
    0x304000) 0x401000 0x800000 = some ((0 + 0x800000 % 0x400000) % 2 ^ 32) := by
  have hpd := two_frames.1
  have hused : word (Levos.PageMemory.pagingInit used) (0x401000 + 4 * 2) = 0x303003 := by
    rw [paging_init_behind _ (by decide), used]
    exact word_store _ (by decide) (by decide)
  have hentry := created_directory (Levos.PageMemory.pagingInit used) 0x304000 two_blocks
    (show 0x400000 < 2 ^ 32 by decide) (show 2 < 1024 by decide)
  rw [if_neg (by decide), if_neg (by decide), if_neg (by decide), hpd, hused] at hentry
  refine walk_table Levos.PageMemory.firstPt hentry (by decide) ?_ (by decide)
  intro j hj
  have hbelow : Levos.PageMemory.firstPt + 4 * j + 4 ≤ 0x401000 := by
    rw [Levos.PageMemory.firstPt]
    omega
  rw [created_outside two_blocks (by decide) (.inl (by rw [hpd]; exact hbelow))
    (.inl (by rw [two_frames.2]; omega))]
  exact (paging_init_tables used).first j hj

theorem create_directory_used :
    ¬ ∀ mem pdBlock ptBlock vaddr paddr, Blocks pdBlock ptBlock → KernelTables mem →
      vaddr < 2 ^ 32 → vaddr % 0x400000 = 0 → vaddr >>> 22 ≠ 0 → vaddr >>> 22 ≠ 768 →
      paddr % 0x1000 = 0 → ∀ va < 2 ^ 32,
        walk (Levos.PageMemory.createNewPageDirectory mem pdBlock ptBlock vaddr paddr).1
          (Levos.PageMemory.createNewPageDirectory mem pdBlock ptBlock vaddr paddr).2 va =
            mapped vaddr paddr va := by
  intro h
  have hwalk := h _ 0xC0000010 0xC0002020 0x400000 0x304000 two_blocks (paging_init_tables used)
    (by decide) (by decide) (by decide) (by decide) (by decide) 0x800000 (by decide)
  have hnone : mapped 0x400000 0x304000 0x800000 = none := by decide
  change walk (created _ _ _ _ _) (heapPaddr (pageAlign 0xC0000010)) _ = _ at hwalk
  rw [two_frames.1, used_walk, hnone] at hwalk
  cases hwalk

end Boot

end Levos.Proofs.PageMemory
