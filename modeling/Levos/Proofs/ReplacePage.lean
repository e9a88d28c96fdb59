import Levos.Proofs.PageMemory

namespace Levos.Proofs.ReplacePage
open Library Levos.Proofs.PageMemory
open Levos.PageMemory (word storeWord walk replacePage)

/-- The table that translates an address, in a directory with an entry for it. -/
def tableOf (mem : Nat → UInt8) (pd vaddr : Nat) : Nat :=
  word mem (pd + 4 * (vaddr >>> 22)) / 0x1000 * 0x1000

/-- Where the entry is that translates the address. -/
def entryAddress (mem : Nat → UInt8) (pd vaddr : Nat) : Nat :=
  tableOf mem pd vaddr + 4 * ((vaddr >>> 12) % 1024)

/-- The memory after `replace_page`. -/
def replaced (mem : Nat → UInt8) (pd vaddr page : Nat) : Nat → UInt8 :=
  storeWord mem (replacePage mem pd vaddr page).1 (replacePage mem pd vaddr page).2

/-- The entry that translates the address is the one that changes: its page is the new
one, all others are what they were, and nothing is stored outside the table. -/
structure Replaced (mem : Nat → UInt8) (pd vaddr page : Nat) : Prop where
  entry : (replacePage mem pd vaddr page).1 = entryAddress mem pd vaddr
  through : walk (replaced mem pd vaddr page) pd vaddr =
    if page % 2 = 1 then some (page / 0x1000 * 0x1000 + vaddr % 0x1000) else none
  others : ∀ va < 2 ^ 32, va / 0x1000 ≠ vaddr / 0x1000 →
    walk (replaced mem pd vaddr page) pd va = walk mem pd va
  inside : tableOf mem pd vaddr ≤ (replacePage mem pd vaddr page).1 ∧
    (replacePage mem pd vaddr page).1 + 4 ≤ tableOf mem pd vaddr + 0x1000

variable {mem : Nat → UInt8} {pd vaddr : Nat}

/-- The flags of the directory entry are still in the pointer. -/
theorem replace_page_odd (page : Nat) (hpresent : word mem (pd + 4 * (vaddr >>> 22)) % 2 = 1) :
    (replacePage mem pd vaddr page).1 % 2 = 1 := by
  simp only [replacePage]
  omega

theorem entry_address_aligned (mem : Nat → UInt8) (pd vaddr : Nat) :
    entryAddress mem pd vaddr % 4 = 0 := by
  rw [entryAddress, tableOf]
  omega

theorem word_bytes (mem : Nat → UInt8) (a : Nat) :
    word mem a = (mem a).toNat + 256 * ((mem (a + 1)).toNat + 256 * ((mem (a + 2)).toNat +
      256 * (mem (a + 3)).toNat)) := by
  simp [word, loadAt, slice, List.range'_succ]

theorem store_word_missed (mem : Nat → UInt8) (a x : Nat)
    (h : ∀ k < 4, (a + k) % 2 ^ 32 ≠ i) : storeWord mem a x i = mem i := by
  refine writes_zip_of_not_mem ?_
  intro hm
  obtain ⟨k, hk, rfl⟩ := List.mem_map.mp hm
  exact h k (List.mem_range.mp hk) rfl

/-- A store to another address misses the first or the last byte of a word, and so some
words do not get there. -/
theorem store_word_misses (mem : Nat → UInt8) (hodd : a % 2 = 1) (he : e % 4 = 0) :
    ∃ x < 2 ^ 32, word (storeWord mem a x) e ≠ x := by
  by_cases hfirst : ∀ k < 4, (a + k) % 2 ^ 32 ≠ e
  · have hbyte := (mem e).toNat_lt
    refine ⟨((mem e).toNat + 1) % 256, by omega, ?_⟩
    rw [word_bytes, store_word_missed mem a _ hfirst]
    omega
  · have hlast : ∀ k < 4, (a + k) % 2 ^ 32 ≠ e + 3 := by
      intro k hk hmeet
      simp only [not_forall, not_not] at hfirst
      obtain ⟨j, hj, hmeet'⟩ := hfirst
      omega
    have hbyte := (mem (e + 3)).toNat_lt
    refine ⟨((mem (e + 3)).toNat + 1) % 256 * 2 ^ 24, by omega, ?_⟩
    rw [word_bytes, store_word_missed mem a _ hlast]
    have h0 := (storeWord mem a (((mem (e + 3)).toNat + 1) % 256 * 2 ^ 24) e).toNat_lt
    have h1 := (storeWord mem a (((mem (e + 3)).toNat + 1) % 256 * 2 ^ 24) (e + 1)).toNat_lt
    have h2 := (storeWord mem a (((mem (e + 3)).toNat + 1) % 256 * 2 ^ 24) (e + 2)).toNat_lt
    omega

/-- `replace_page` never stores to the entry of the page, and for every directory and
address there are entries that do not get there. -/
theorem replace_page_never (mem : Nat → UInt8) (pd vaddr : Nat)
    (hpresent : word mem (pd + 4 * (vaddr >>> 22)) % 2 = 1) :
    (∀ page, ¬ Replaced mem pd vaddr page) ∧
      ∃ page < 2 ^ 32, word (replaced mem pd vaddr page) (entryAddress mem pd vaddr) ≠ page := by
  have haligned := entry_address_aligned mem pd vaddr
  constructor
  · intro page h
    have hodd := replace_page_odd page hpresent
    rw [h.entry] at hodd
    omega
  · exact store_word_misses mem (replace_page_odd 0 hpresent) haligned

/-- A directory at 0x401000 with a table at 0x403000 for the second four megabytes. -/
def oneTable : Nat → UInt8 := storeWord (fun _ => 0) 0x401004 0x403003

theorem one_table_present : word oneTable (0x401000 + 4 * (0x7FF000 >>> 22)) % 2 = 1 := by
  decide

theorem replace_page_stack :
    (∀ page, ¬ Replaced oneTable 0x401000 0x7FF000 page) ∧
      ∃ page < 2 ^ 32, word (replaced oneTable 0x401000 0x7FF000 page)
        (entryAddress oneTable 0x401000 0x7FF000) ≠ page :=
  replace_page_never oneTable 0x401000 0x7FF000 one_table_present

/-- The page at 0x7FF000 has its entry at 0x403FFC, and the store goes to 0x13FF003. -/
theorem replace_page_outside :
    ¬ ∀ mem pd vaddr page, word mem (pd + 4 * (vaddr >>> 22)) % 2 = 1 →
      Replaced mem pd vaddr page := by
  intro h
  have hinside := (h oneTable 0x401000 0x7FF000 0xC0005003 one_table_present).inside.2
  exact absurd hinside (by decide)

end Levos.Proofs.ReplacePage
