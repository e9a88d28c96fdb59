import Levos.Library.Lists
import Levos.Proofs.Pci

namespace Levos.Proofs.PciProbe
open Library Levos.Proofs.Pci

/-- The vendor and the device number at an address; the bus answers all ones for a
function that is not there. -/
def idAt (space : ConfigSpace) (a : Nat × Nat × Nat) : UInt32 :=
  match space a.1 a.2.1 a.2.2 with
  | some f => f.id
  | none => 0xffffffff

def present (space : ConfigSpace) (a : Nat × Nat × Nat) : Bool := (idAt space a).toUInt16 != 0xffff

/-- The entry is that of the function at the address. -/
structure Describes (space : ConfigSpace) (a : Nat × Nat × Nat) (e : PciDevice) : Prop where
  bus : e.bus = UInt32.ofNat a.1
  slot : e.slot = UInt32.ofNat a.2.1
  func : e.func = UInt16.ofNat a.2.2
  vendor : e.vendor = (idAt space a).toUInt16
  device : e.device = (idAt space a >>> 16).toUInt16

/-- Bus before slot before function. -/
def Before (a b : Nat × Nat × Nat) : Prop :=
  a.1 < b.1 ∨ a.1 = b.1 ∧ (a.2.1 < b.2.1 ∨ a.2.1 = b.2.1 ∧ a.2.2 < b.2.2)

def InRange (a : Nat × Nat × Nat) : Prop := a.1 < 256 ∧ a.2.1 < 32 ∧ a.2.2 < 8

/-- The entries up to `pci_devices` list the present functions in order, and every entry
written lies inside the table. -/
structure Listed (space : ConfigSpace) (t : PciTable) : Prop where
  entries : ∃ as : List (Nat × Nat × Nat), as.Pairwise Before ∧
    (∀ a, a ∈ as ↔ InRange a ∧ present space a = true) ∧
    List.Forall₂ (Describes space) as ((List.range t.pciDevices.toNat).map t.pdevs)
  inside : ∀ i ∈ t.stored, i < pciTableSize

theorem mem_addresses (a : Nat × Nat × Nat) : a ∈ pciAddresses ↔ InRange a := by
  obtain ⟨bus, slot, func⟩ := a
  simp only [pciAddresses, List.mem_flatMap, List.mem_map, List.mem_range, Prod.mk.injEq, InRange]
  constructor
  · rintro ⟨b, hb, s, hs, g, hg, rfl, rfl, rfl⟩
    exact ⟨hb, hs, hg⟩
  · rintro ⟨hb, hs, hg⟩
    exact ⟨bus, hb, slot, hs, func, hg, rfl, rfl, rfl⟩

theorem addresses_ordered : pciAddresses.Pairwise Before := by
  have hrange : ∀ n, (List.range n).Pairwise (· < ·) :=
    fun _ => List.pairwise_lt_range
  refine List.pairwise_flatMap.mpr ⟨fun bus _ => ?_, (hrange 256).imp ?_⟩
  · refine List.pairwise_flatMap.mpr ⟨fun slot _ => ?_, (hrange 32).imp ?_⟩
    · exact List.pairwise_map.mpr ((hrange 8).imp fun h => .inr ⟨rfl, .inr ⟨rfl, h⟩⟩)
    · intro s s' hlt a ha b hb
      obtain ⟨g, -, rfl⟩ := List.mem_map.mp ha
      obtain ⟨g', -, rfl⟩ := List.mem_map.mp hb
      exact .inr ⟨rfl, .inl hlt⟩
  · intro b b' hlt x hx y hy
    obtain ⟨s, -, hx⟩ := List.mem_flatMap.mp hx
    obtain ⟨g, -, rfl⟩ := List.mem_map.mp hx
    obtain ⟨s', -, hy⟩ := List.mem_flatMap.mp hy
    obtain ⟨g', -, rfl⟩ := List.mem_map.mp hy
    exact .inl hlt

section Reads

variable {space : ConfigSpace} {a : Nat × Nat × Nat}

/-- The number in a loop variable is the one in the call's argument. -/
theorem arg_to_nat {n : Nat} (h : n < 256) : (UInt8.ofNat n).toNat = n := by
  rw [UInt8.toNat_ofNat']
  omega

theorem read_id (ha : InRange a) (offset : UInt32) (ho : offset &&& 0xfc = 0) :
    readData space (configAddress (UInt8.ofNat a.1) (UInt8.ofNat a.2.1) (UInt8.ofNat a.2.2)
      offset) = idAt space a := by
  obtain ⟨hb, hs, hf⟩ := ha
  have hb' := arg_to_nat hb
  have hs' := arg_to_nat (n := a.2.1) (by omega)
  have hf' := arg_to_nat (n := a.2.2) (by omega)
  unfold idAt
  cases h : space a.1 a.2.1 a.2.2 with
  | none => exact read_absent (by omega) (by omega) (by rw [hb', hs', hf', h])
  | some f =>
    rw [read_data (f := f) (by omega) (by omega) (by rw [hb', hs', hf', h]), ho]
    rfl

theorem read_vendor (ha : InRange a) :
    pciReadWord space (UInt8.ofNat a.1) (UInt8.ofNat a.2.1) (UInt8.ofNat a.2.2) 0 =
      (idAt space a).toUInt16 := by
  rw [pciReadWord, read_id ha 0 (by decide)]
  exact congrArg UInt32.toUInt16 UInt32.shiftRight_zero

theorem read_device (ha : InRange a) :
    pciReadWord space (UInt8.ofNat a.1) (UInt8.ofNat a.2.1) (UInt8.ofNat a.2.2) 2 =
      (idAt space a >>> 16).toUInt16 := by
  rw [pciReadWord, read_id ha 2 (by decide)]
  rfl

theorem Describes.noted {e : PciDevice} (h : Describes space a e) (f : PciFunction) (i : Fin 6) :
    Describes space a (Pci.noted f e i) := by
  unfold Pci.noted
  dsimp only
  split
  · exact ⟨h.bus, h.slot, h.func, h.vendor, h.device⟩
  · split <;> exact ⟨h.bus, h.slot, h.func, h.vendor, h.device⟩

theorem Describes.noted_all {e : PciDevice} (h : Describes space a e) (f : PciFunction)
    (is : List (Fin 6)) : Describes space a (is.foldl (Pci.noted f) e) := by
  induction is generalizing e with
  | nil => exact h
  | cons i is ih => exact ih (h.noted f i)

/-- The entry made for a function that is there selects it. -/
theorem Describes.selects {e : PciDevice} (h : Describes space a e) (ha : InRange a)
    (hp : present space a = true) : ∃ f, Selects space e f := by
  obtain ⟨hb, hs, hf⟩ := ha
  have hbus : e.bus.toUInt8.toNat = a.1 := by
    rw [h.bus, UInt32.toNat_toUInt8, UInt32.toNat_ofNat']
    omega
  have hslot : e.slot.toUInt8.toNat = a.2.1 := by
    rw [h.slot, UInt32.toNat_toUInt8, UInt32.toNat_ofNat']
    omega
  have hfunc : e.func.toUInt8.toNat = a.2.2 := by
    rw [h.func, UInt16.toNat_toUInt8, UInt16.toNat_ofNat']
    omega
  cases hat : space a.1 a.2.1 a.2.2 with
  | none =>
    simp only [present, idAt, hat] at hp
    cases hp
  | some f => exact ⟨f, by omega, by omega, by rw [hbus, hslot, hfunc, hat]⟩

/-- Parsing the entry keeps it the function's entry, and the space as it was. -/
theorem Describes.parsed {e : PciDevice} (h : Describes space a e) (ha : InRange a)
    (hp : present space a = true) :
    (pciParse space e).1 = space ∧ Describes space a (pciParse space e).2 := by
  obtain ⟨f, hsel⟩ := h.selects ha hp
  rw [pci_parse hsel]
  refine ⟨rfl, ?_⟩
  dsimp only
  split
  · have hall := h.noted_all f (List.finRange 6)
    exact ⟨hall.bus, hall.slot, hall.func, hall.vendor, hall.device⟩
  · exact h

end Reads

/-- The table after some present functions `as` have been found. -/
structure Probed (space : ConfigSpace) (as : List (Nat × Nat × Nat)) (t : PciTable) : Prop where
  kept : t.space = space
  count : t.pciDevices = UInt8.ofNat as.length
  stored : t.stored = (List.range as.length).map (· % 256)
  entries : as.length ≤ 256 → ∀ i a, as[i]? = some a → Describes space a (t.pdevs i)

theorem Probed.step {space : ConfigSpace} {as : List (Nat × Nat × Nat)} {t : PciTable}
    (h : Probed space as t) {a : Nat × Nat × Nat} (ha : InRange a) :
    Probed space (as ++ [a].filter (present space)) (probeFunction t a.1 a.2.1 a.2.2) := by
  unfold probeFunction
  dsimp only
  rw [h.kept, read_vendor ha, read_device ha]
  cases hp : present space a with
  | false =>
    have hvendor : (idAt space a).toUInt16 = 0xffff := by simpa [present] using hp
    rw [if_pos hvendor]
    simpa [hp] using h
  | true =>
    have hvendor : (idAt space a).toUInt16 ≠ 0xffff := by simpa [present] using hp
    rw [if_neg hvendor]
    have hindex : t.pciDevices.toNat = as.length % 256 := by
      rw [h.count, UInt8.toNat_ofNat']
    have hnew : Describes space a (newEntry (t.pdevs t.pciDevices.toNat) (idAt space a).toUInt16
        (idAt space a >>> 16).toUInt16 a.1 a.2.1 a.2.2) := ⟨rfl, rfl, rfl, rfl, rfl⟩
    obtain ⟨hspace, hentry⟩ := hnew.parsed ha hp
    have hfilter : as ++ [a].filter (present space) = as ++ [a] := by simp [hp]
    rw [hfilter]
    refine ⟨hspace, ?_, ?_, ?_⟩
    · rw [h.count, List.length_append, List.length_singleton]
      exact (UInt8.ofNat_add ..).symm
    · rw [h.stored, hindex, List.length_append, List.length_singleton, List.range_succ,
        List.map_append, List.map_singleton]
    · intro hle i b hi
      rw [List.length_append, List.length_singleton] at hle
      have hlast : as.length % 256 = as.length := Nat.mod_eq_of_lt (by omega)
      dsimp only
      rw [hindex, hlast] at hentry ⊢
      rcases getElem?_concat_cases hi with hi | ⟨rfl, rfl⟩
      · have hlt := (List.getElem?_eq_some_iff.mp hi).1
        rw [Function.update_of_ne (by omega)]
        exact h.entries (by omega) i b hi
      · rw [Function.update_self]
        exact hentry

/-- The whole scan: induction over the addresses still to be looked at. -/
theorem Probed.scan {space : ConfigSpace} {as : List (Nat × Nat × Nat)} {t : PciTable}
    (h : Probed space as t) {rest : List (Nat × Nat × Nat)} (hr : ∀ a ∈ rest, InRange a) :
    Probed space (as ++ rest.filter (present space))
      (rest.foldl (fun t a => probeFunction t a.1 a.2.1 a.2.2) t) := by
  induction rest generalizing as t with
  | nil => simpa using h
  | cons a rest ih =>
    have hstep := ih (h.step (hr a List.mem_cons_self))
      (fun b hb => hr b (List.mem_cons_of_mem _ hb))
    rw [List.append_assoc, ← List.filter_append] at hstep
    exact hstep

/-- The functions that are there, in the order of the scan. -/
def presentFunctions (space : ConfigSpace) : List (Nat × Nat × Nat) :=
  pciAddresses.filter (present space)

theorem pci_probe (space : ConfigSpace) (pdevs : Nat → PciDevice) :
    Probed space (presentFunctions space) (pciProbe space pdevs) := by
  have hstart : Probed space [] ⟨space, pdevs, 0, []⟩ := by
    refine ⟨rfl, rfl, rfl, fun _ i a hi => ?_⟩
    cases hi
  exact hstart.scan fun a ha => (mem_addresses a).mp ha

/-- The seventeenth function is stored behind the table. -/
theorem listed_few {space : ConfigSpace} {pdevs : Nat → PciDevice}
    (h : Listed space (pciProbe space pdevs)) : (presentFunctions space).length ≤ 16 := by
  by_contra hmany
  have hstored : 16 ∈ (pciProbe space pdevs).stored := by
    rw [(pci_probe space pdevs).stored]
    exact List.mem_map.mpr ⟨16, List.mem_range.mpr (by omega), rfl⟩
  exact absurd (h.inside 16 hstored) (by decide)

/-- The scan lists the functions exactly when the table has an entry for each of them. -/
theorem probe_lists_iff (space : ConfigSpace) (pdevs : Nat → PciDevice) :
    Listed space (pciProbe space pdevs) ↔ (presentFunctions space).length ≤ 16 := by
  have hprobe := pci_probe space pdevs
  constructor
  · exact listed_few
  · intro hfew
    have hcount : (pciProbe space pdevs).pciDevices.toNat = (presentFunctions space).length := by
      rw [hprobe.count, UInt8.toNat_ofNat']
      exact Nat.mod_eq_of_lt (by omega)
    refine ⟨⟨presentFunctions space, addresses_ordered.filter _, ?_, ?_⟩, ?_⟩
    · intro a
      rw [presentFunctions, List.mem_filter, mem_addresses]
    · rw [hcount, List.forall₂_iff_get]
      refine ⟨by simp, fun i hi hi' => ?_⟩
      simp only [List.get_eq_getElem, List.getElem_map, List.getElem_range]
      exact hprobe.entries (by omega) i _ (List.getElem?_eq_getElem hi)
    · intro i hi
      rw [hprobe.stored] at hi
      obtain ⟨k, hk, rfl⟩ := List.mem_map.mp hi
      have hk := List.mem_range.mp hk
      exact Nat.lt_of_le_of_lt (Nat.mod_le k 256) (Nat.lt_of_lt_of_le hk hfew)

/-- A network card in each of the first 17 slots of bus 0. -/
def seventeenCards : ConfigSpace := fun bus slot func =>
  if bus = 0 ∧ slot < 17 ∧ func = 0 then some (oneMemoryBar 0) else none

theorem seventeen_cards_not_listed :
    ¬ Listed seventeenCards (pciProbe seventeenCards fun _ => blankDevice) := by
  intro h
  have hsub : (List.range 17).map (fun slot => (0, slot, 0)) ⊆ presentFunctions seventeenCards := by
    intro a ha
    obtain ⟨slot, hslot, rfl⟩ := List.mem_map.mp ha
    have hslot := List.mem_range.mp hslot
    refine List.mem_filter.mpr ⟨(mem_addresses _).mpr ?_, ?_⟩
    · exact ⟨Nat.succ_pos 255, Nat.lt_trans hslot (by decide), Nat.succ_pos 7⟩
    · have hcard : idAt seventeenCards (0, slot, 0) = 0x802910EC := by
        simp [idAt, seventeenCards, hslot, oneMemoryBar]
      rw [present, hcard]
      decide
  have hnodup : ((List.range 17).map fun slot : Nat => ((0, slot, 0) : Nat × Nat × Nat)).Nodup := by
    decide
  have hlong := (hnodup.subperm hsub).length_le
  have hshort := listed_few h
  simp only [List.length_map, List.length_range] at hlong
  omega

end Levos.Proofs.PciProbe
