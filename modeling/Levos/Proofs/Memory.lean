import Levos.Memory
import Levos.Proofs.Paging

namespace Levos.Proofs.Memory
open Levos Levos.Library Levos.Proofs.Paging

variable {pd : PageDirectory} {as : List Nat} {w w' : World} {bytes : Bytes}

theorem addresses_length (h : addresses pd v n = some as) : as.length = n := by
  induction n generalizing v as with
  | zero =>
    cases h
    rfl
  | succ n ih =>
    unfold addresses at h
    split at h
    · rename_i a as' _ has
      cases h
      rw [List.length_cons, ih has]
    · cases h

theorem addresses_get (h : addresses pd v n = some as) (hk : k < n) :
    as[k]? = translate pd ((v + k) % 2 ^ 32) := by
  induction n generalizing v as k with
  | zero => omega
  | succ n ih =>
    unfold addresses at h
    split at h
    · rename_i a as' ha has
      cases h
      cases k with
      | zero => rw [Nat.add_zero, ha, List.getElem?_cons_zero]
      | succ k =>
        rw [List.getElem?_cons_succ, ih has (by omega), Nat.add_assoc, Nat.add_comm 1 k]
    · cases h

theorem addresses_exists (h : Lands pd v n (fun _ => True)) : ∃ as, addresses pd v n = some as := by
  induction n generalizing v with
  | zero => exact ⟨[], rfl⟩
  | succ n ih =>
    obtain ⟨a, ha, -⟩ := h 0 (Nat.succ_pos n)
    have hrest : Lands pd (v + 1) n (fun _ => True) := by
      intro k hk
      have := h (k + 1) (by omega)
      rwa [show v + (k + 1) = v + 1 + k by omega] at this
    obtain ⟨as, has⟩ := ih hrest
    rw [Nat.add_zero] at ha
    exact ⟨a :: as, by simp only [addresses, ha, has]⟩

theorem mem_addresses (h : addresses pd v n = some as) :
    a ∈ as ↔ ∃ k < n, translate pd ((v + k) % 2 ^ 32) = some a := by
  rw [List.mem_iff_getElem?]
  constructor
  · rintro ⟨k, hk⟩
    have hlt : k < n := addresses_length h ▸ (List.getElem?_eq_some_iff.mp hk).1
    exact ⟨k, hlt, (addresses_get h hlt).symm.trans hk⟩
  · rintro ⟨k, hlt, hk⟩
    exact ⟨k, (addresses_get h hlt).trans hk⟩

theorem lands_iff (h : addresses pd v n = some as) (P : Nat → Prop) :
    Lands pd v n P ↔ ∀ a ∈ as, P a := by
  constructor
  · intro hl a ha
    obtain ⟨k, hk, hak⟩ := (mem_addresses h).mp ha
    obtain ⟨b, hb, hp⟩ := hl k hk
    cases hak.symm.trans hb
    exact hp
  · intro hall k hk
    have hlt : k < as.length := addresses_length h ▸ hk
    have hget := addresses_get h hk
    rw [List.getElem?_eq_getElem hlt] at hget
    exact ⟨as.get ⟨k, hlt⟩, hget.symm, hall _ (List.getElem_mem hlt)⟩

/-- Everything a store does. -/
theorem store_some (h : w.store v bytes = some w') :
    ∃ as, addresses w.directory v bytes.length = some as ∧ (∀ a ∈ as, kernelOwned a = false) ∧
      w' = { w with mem := writes w.mem (as.zip bytes), written := as ++ w.written } := by
  unfold World.store at h
  split at h
  · cases h
  · rename_i as has
    split at h
    · cases h
    · rename_i hany
      refine ⟨as, has, ?_, (Option.some.inj h).symm⟩
      simpa using hany

/-- A store goes through if every byte has a place that is not the kernel's. -/
theorem store_exists (h : Lands w.directory v bytes.length (fun a => kernelOwned a = false)) :
    ∃ as, addresses w.directory v bytes.length = some as ∧
      w.store v bytes =
        some { w with mem := writes w.mem (as.zip bytes), written := as ++ w.written } := by
  obtain ⟨as, has⟩ := addresses_exists (h.mono (fun _ _ => trivial))
  have hnone : as.any kernelOwned = false := by
    simpa using (lands_iff has _).mp h
  exact ⟨as, has, by simp only [World.store, has, hnone]; rfl⟩

theorem store_keeps (h : w.store v bytes = some w') :
    w'.phymem = w.phymem ∧ w'.caller = w.caller ∧ w'.directory = w.directory := by
  obtain ⟨as, -, -, rfl⟩ := store_some h
  exact ⟨rfl, rfl, rfl⟩

theorem store_lands (h : w.store v bytes = some w') :
    Lands w.directory v bytes.length (fun a => kernelOwned a = false ∧ a ∈ w'.written) := by
  obtain ⟨as, has, hown, rfl⟩ := store_some h
  exact (lands_iff has _).mpr (fun a ha => ⟨hown a ha, List.mem_append_left _ ha⟩)

theorem store_written (h : w.store v bytes = some w') (P : Nat → Prop) :
    (∀ a ∈ w'.written, P a) ↔ Lands w.directory v bytes.length P ∧ ∀ a ∈ w.written, P a := by
  obtain ⟨as, has, -, rfl⟩ := store_some h
  rw [lands_iff has]
  exact List.forall_mem_append

/-- Everything a read needs and yields. -/
theorem fetch_some (h : w.fetch v n = some bytes) :
    ∃ as, addresses w.directory v n = some as ∧ (∀ a ∈ as, kernelOwned a = false) ∧
      bytes = as.map w.mem := by
  unfold World.fetch at h
  split at h
  · cases h
  · rename_i as has
    split at h
    · cases h
    · rename_i hany
      exact ⟨as, has, by simpa using hany, (Option.some.inj h).symm⟩

theorem fetch_exists (h : Lands w.directory v n (fun a => kernelOwned a = false)) :
    ∃ as, addresses w.directory v n = some as ∧ w.fetch v n = some (as.map w.mem) := by
  obtain ⟨as, has⟩ := addresses_exists (h.mono (fun _ _ => trivial))
  have hnone : as.any kernelOwned = false := by
    simpa using (lands_iff has _).mp h
  exact ⟨as, has, by simp only [World.fetch, has, hnone]; rfl⟩

/-- Everything `phymem_alloc` does. -/
theorem phymem_alloc_some (h : w.phymemAlloc size = some (p, w')) :
    ∃ m, Levos.phymemAlloc w.phymem size = some (p, m) ∧
      { w with phymem := m }.store p (List.replicate size 0) = some w' := by
  unfold World.phymemAlloc at h
  split at h
  · cases h
  · rename_i q m hm
    obtain ⟨w'', hw, heq⟩ := Option.map_eq_some_iff.mp h
    cases heq
    exact ⟨m, hm, hw⟩

theorem phymem_alloc_exists (hm : Levos.phymemAlloc w.phymem size = some (p, m))
    (hl : Lands w.directory p size (fun a => kernelOwned a = false)) :
    ∃ w', w.phymemAlloc size = some (p, w') ∧
      { w with phymem := m }.store p (List.replicate size 0) = some w' := by
  have hlen : (List.replicate size (0 : UInt8)).length = size := List.length_replicate
  have hlands : Lands ({ w with phymem := m } : World).directory p
      (List.replicate size (0 : UInt8)).length (fun a => kernelOwned a = false) := by
    rw [hlen]
    exact hl
  obtain ⟨as, -, hstore⟩ := store_exists hlands
  refine ⟨_, ?_, hstore⟩
  simp only [World.phymemAlloc, hm, hstore, Option.map_some]

/-- Clearing the `n` bytes at `palloc` stores to the address. -/
def Clears (pd : PageDirectory) (palloc n a : Nat) : Prop :=
  ∃ j < n, translate pd ((palloc + j) % 2 ^ 32) = some a

/-- The memory after `phymem_alloc`. -/
theorem phymem_alloc_memory (h : w.phymemAlloc size = some (p, w')) :
    (∀ a, Clears w.directory p size a → w'.mem a = 0) ∧
    (∀ a, ¬ Clears w.directory p size a → w'.mem a = w.mem a) := by
  obtain ⟨m, -, hstore⟩ := phymem_alloc_some h
  obtain ⟨as, has, -, rfl⟩ := store_some hstore
  rw [List.length_replicate] at has
  have hlen := addresses_length has
  refine ⟨?_, ?_⟩
  · intro a ha
    rw [← hlen]
    exact writes_zip_replicate ((mem_addresses has).mpr ha) 0
  · intro a ha
    exact writes_zip_of_not_mem (fun hmem => ha ((mem_addresses has).mp hmem))

theorem phymem_alloc_lands (h : w.phymemAlloc size = some (p, w')) :
    Lands w.directory p size (fun a => kernelOwned a = false) := by
  obtain ⟨m, -, hstore⟩ := phymem_alloc_some h
  have hlands := store_lands hstore
  rw [List.length_replicate] at hlands
  exact hlands.mono (fun _ ha => ha.1)

/-- The physical address behind an address of a window. -/
def frame (palloc v : Nat) : Nat :=
  (palloc + (v - 0x400000) / 0x1000 * 0x1000) % 2 ^ 32 / 0x1000 * 0x1000 + v % 0x1000

/-- The directory of an image maps its whole window, wherever the frames begin. -/
theorem translate_window (rest : PageDirectory) (palloc v : Nat) (hv : InWindow v) :
    translate (createNewPageDirectory rest 0x400000 palloc) v = some (frame palloc v) :=
  window_lookup rest palloc v hv

theorem frame_injective (hu : InWindow u) (hv : InWindow v) (h : frame palloc u = frame palloc v) :
    u = v := by
  obtain ⟨hu1, hu2⟩ := hu
  obtain ⟨hv1, hv2⟩ := hv
  unfold frame at h
  omega

end Levos.Proofs.Memory
