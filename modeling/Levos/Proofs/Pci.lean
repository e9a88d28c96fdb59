import Levos.Pci

namespace Levos.Proofs.Pci

section Address

variable {bus slot func : UInt8} {offset : UInt32}

theorem offset_lt (offset : UInt32) : (offset &&& 0xfc).toNat < 2 ^ 8 := by
  rw [UInt32.toNat_and]
  exact Nat.lt_of_le_of_lt Nat.and_le_right (by decide)

/-- The fields of an address do not overlap, so it is their sum. -/
theorem address_to_nat (hs : slot.toNat < 32) (hf : func.toNat < 8) :
    (configAddress bus slot func offset).toNat =
      2 ^ 31 * 1 + (2 ^ 16 * bus.toNat + (2 ^ 11 * slot.toNat +
        (2 ^ 8 * func.toNat + (offset &&& 0xfc).toNat))) := by
  have hb := bus.toNat_lt
  have ho := offset_lt offset
  have hbus : (bus.toUInt32 <<< 16).toNat = 2 ^ 16 * bus.toNat := by
    simp [Nat.shiftLeft_eq]
    omega
  have hslot : (slot.toUInt32 <<< 11).toNat = 2 ^ 11 * slot.toNat := by
    simp [Nat.shiftLeft_eq]
    omega
  have hfunc : (func.toUInt32 <<< 8).toNat = 2 ^ 8 * func.toNat := by
    simp [Nat.shiftLeft_eq]
    omega
  rw [Nat.two_pow_add_eq_or_of_lt (by omega), Nat.two_pow_add_eq_or_of_lt (by omega),
    Nat.two_pow_add_eq_or_of_lt (by omega), Nat.two_pow_add_eq_or_of_lt (by omega)]
  simp only [configAddress, UInt32.toNat_or]
  rw [hbus, hslot, hfunc, Nat.or_assoc, Nat.or_assoc, Nat.or_assoc]
  rfl

theorem bus_of (hs : slot.toNat < 32) (hf : func.toNat < 8) :
    busOf (configAddress bus slot func offset) = bus.toNat := by
  have hb := bus.toNat_lt
  have ho := offset_lt offset
  have hfield : ∀ a, busOf a = a.toNat / 2 ^ 16 % 2 ^ 8 := by
    intro a
    rw [← Nat.and_two_pow_sub_one_eq_mod, ← Nat.shiftRight_eq_div_pow]
    simp [busOf]
  rw [hfield, address_to_nat hs hf]
  omega

theorem slot_of (hs : slot.toNat < 32) (hf : func.toNat < 8) :
    slotOf (configAddress bus slot func offset) = slot.toNat := by
  have ho := offset_lt offset
  have hfield : ∀ a, slotOf a = a.toNat / 2 ^ 11 % 2 ^ 5 := by
    intro a
    rw [← Nat.and_two_pow_sub_one_eq_mod, ← Nat.shiftRight_eq_div_pow]
    simp [slotOf]
  rw [hfield, address_to_nat hs hf]
  omega

theorem func_of (hs : slot.toNat < 32) (hf : func.toNat < 8) :
    funcOf (configAddress bus slot func offset) = func.toNat := by
  have ho := offset_lt offset
  have hfield : ∀ a, funcOf a = a.toNat / 2 ^ 8 % 2 ^ 3 := by
    intro a
    rw [← Nat.and_two_pow_sub_one_eq_mod, ← Nat.shiftRight_eq_div_pow]
    simp [funcOf]
  rw [hfield, address_to_nat hs hf]
  omega

theorem reg_of (hs : slot.toNat < 32) (hf : func.toNat < 8) :
    regOf (configAddress bus slot func offset) = (offset &&& 0xfc).toNat := by
  have ho := offset_lt offset
  -- Only the lowest byte of the address matters, and that is the masked offset.
  have hlow : ∀ n : Nat, n &&& 252 = n % 2 ^ 8 &&& 252 := by
    intro n
    rw [← Nat.and_two_pow_sub_one_eq_mod, Nat.and_assoc]
    rfl
  have hmod : (configAddress bus slot func offset).toNat % 2 ^ 8 = (offset &&& 0xfc).toNat := by
    rw [address_to_nat hs hf]
    omega
  have hreg : regOf (configAddress bus slot func offset) =
      (configAddress bus slot func offset).toNat &&& 252 := by
    simp [regOf]
  rw [hreg, hlow, hmod, UInt32.toNat_and, Nat.and_assoc]
  rfl

end Address

variable {space : ConfigSpace} {bus slot func : UInt8} {offset : UInt32} {f : PciFunction}

/-- An address in range selects its own function. -/
theorem read_data (hs : slot.toNat < 32) (hf : func.toNat < 8)
    (h : space bus.toNat slot.toNat func.toNat = some f) :
    readData space (configAddress bus slot func offset) = f.read (offset &&& 0xfc).toNat := by
  rw [readData, bus_of hs hf, slot_of hs hf, func_of hs hf, h, reg_of hs hf]

theorem read_absent (hs : slot.toNat < 32) (hf : func.toNat < 8)
    (h : space bus.toNat slot.toNat func.toNat = none) :
    readData space (configAddress bus slot func offset) = 0xffffffff := by
  rw [readData, bus_of hs hf, slot_of hs hf, func_of hs hf, h]

theorem write_data (hs : slot.toNat < 32) (hf : func.toNat < 8)
    (h : space bus.toNat slot.toNat func.toNat = some f) (v : UInt32) :
    writeData space (configAddress bus slot func offset) v bus.toNat slot.toNat func.toNat =
      some (f.write (offset &&& 0xfc).toNat v) := by
  rw [writeData, bus_of hs hf, slot_of hs hf, func_of hs hf, if_pos ⟨rfl, rfl, rfl⟩, h,
    reg_of hs hf]
  rfl

/-- A register that gets back what it held leaves the space as it was. -/
theorem write_back (hs : slot.toNat < 32) (hf : func.toNat < 8)
    (h : space bus.toNat slot.toNat func.toNat = some f) {v r : UInt32}
    (hr : (f.write (offset &&& 0xfc).toNat v).write (offset &&& 0xfc).toNat r = f) :
    writeData (writeData space (configAddress bus slot func offset) v)
      (configAddress bus slot func offset) r = space := by
  funext b s g
  rw [writeData]
  split
  · rename_i hat
    rw [bus_of hs hf, slot_of hs hf, func_of hs hf] at hat
    obtain ⟨rfl, rfl, rfl⟩ := hat
    rw [write_data hs hf h, reg_of hs hf, Option.map_some, hr, h]
  · rename_i hat
    rw [writeData, if_neg hat]

theorem register_write_back (r : Register) (v : UInt32) : (r.write v).write r.value = r := by
  have hvalue : ((r.write v).write r.value).value = r.value := by
    apply UInt32.toBitVec_inj.mp
    apply BitVec.eq_of_getLsbD_eq
    intro i hi
    simp only [Register.write, UInt32.toBitVec_and, UInt32.toBitVec_or, UInt32.toBitVec_not,
      BitVec.getLsbD_and, BitVec.getLsbD_or, BitVec.getLsbD_not, hi, decide_true, Bool.true_and]
    cases r.writable.toBitVec.getLsbD i <;> simp
  exact Register.ext hvalue rfl

/-- The offsets of the loop, as they come out of the address. -/
theorem bar_offset (i : Fin 6) : ((0x10 + UInt32.ofNat i * 4 : UInt32) &&& 0xfc).toNat =
    0x10 + 4 * i.val := by
  fin_cases i <;> rfl

theorem bar_index (i : Fin 6) : barIndex (0x10 + 4 * i.val) = some i := by
  fin_cases i <;> rfl

theorem read_bar (f : PciFunction) (i : Fin 6) :
    f.read (0x10 + 4 * i.val) = (f.bars i).reg.value := by
  have hi := i.isLt
  rw [PciFunction.read, if_neg (by omega), if_neg (by omega), if_neg (by omega),
    if_neg (by omega), bar_index]

theorem write_bar (f : PciFunction) (i : Fin 6) (v : UInt32) :
    f.write (0x10 + 4 * i.val) v =
      { f with bars := Function.update f.bars i ((f.bars i).write v) } := by
  have hi := i.isLt
  rw [PciFunction.write, if_neg (by omega), bar_index]

theorem bar_write_back (b : Bar) (v : UInt32) : (b.write v).write b.reg.value = b :=
  Bar.ext (register_write_back b.reg v) rfl

theorem write_back_bar (f : PciFunction) (i : Fin 6) (v : UInt32) :
    (f.write (0x10 + 4 * i.val) v).write (0x10 + 4 * i.val) (f.bars i).reg.value = f := by
  rw [write_bar, write_bar]
  simp only [Function.update_self, Function.update_idem, bar_write_back, Function.update_eq_self]

theorem write_back_rom (f : PciFunction) (v : UInt32) :
    (f.write 0x30 v).write 0x30 f.rom.value = f := by
  simp only [PciFunction.write, if_true, register_write_back]

theorem or_and_right (a b c : UInt32) : (a ||| b) &&& c = a &&& c ||| b &&& c := by
  apply UInt32.toBitVec_inj.mp
  apply BitVec.eq_of_getLsbD_eq
  intro i _
  simp only [UInt32.toBitVec_and, UInt32.toBitVec_or, BitVec.getLsbD_and, BitVec.getLsbD_or,
    Bool.and_or_distrib_right]

/-- A memory register written with ones reads as the mask of its size. -/
theorem sized_bar {b : Bar} {size : UInt32} (h : b.kind = .memory size) :
    ~~~((b.write 0xffffffff).reg.value &&& 0xfffffff0) + 1 = size := by
  have hfits := b.fits
  rw [h] at hfits
  obtain ⟨⟨k, hk, hsize⟩, hw, -, hlow⟩ := hfits
  have hkept : b.reg.value &&& ~~~b.reg.writable &&& 0xfffffff0 = 0 := by
    rw [hw, UInt32.not_not]
    exact hlow
  have hones : (0xffffffff : UInt32) &&& b.reg.writable = b.reg.writable := UInt32.neg_one_and
  have hread : (b.write 0xffffffff).reg.value &&& 0xfffffff0 = ~~~(size - 1) &&& 0xfffffff0 := by
    simp only [Bar.write, Register.write]
    rw [or_and_right, hkept, hones, UInt32.zero_or, hw]
  rw [hread, hsize]
  interval_cases k <;> decide

/-- The device's function numbers are in range, and this is its function. -/
structure Selects (space : ConfigSpace) (pdev : PciDevice) (f : PciFunction) : Prop where
  slot : pdev.slot.toUInt8.toNat < 32
  func : pdev.func.toUInt8.toNat < 8
  found : space pdev.bus.toUInt8.toNat pdev.slot.toUInt8.toNat pdev.func.toUInt8.toNat = some f

/-- What a round of the loop notes about one register. -/
def noted (f : PciFunction) (pdev : PciDevice) (i : Fin 6) : PciDevice :=
  let r := (f.bars i).reg.value
  if r &&& 1 ≠ 0 then { pdev with iobase := r &&& 0xFFFFFFFC }
  else if r = 0 then { pdev with membase := r, membaseOf := some i }
  else { pdev with
    membase := r, membaseOf := some i
    memsize := ~~~(((f.bars i).write 0xffffffff).reg.value &&& 0xfffffff0) + 1
    memsizeOf := some i }

/-- A round leaves the registers as they were and notes what it found. -/
theorem parse_bar (st : Parsing) (h : Selects st.space st.pdev f) (i : Fin 6) :
    (parseBar st i).space = st.space ∧ (parseBar st i).pdev = noted f st.pdev i := by
  have hread : pciConfigReadDword st.space st.pdev (0x10 + UInt32.ofNat i * 4) =
      (f.bars i).reg.value := by
    rw [pciConfigReadDword, pciReadDword, read_data h.slot h.func h.found, bar_offset, read_bar]
  unfold parseBar noted
  dsimp only
  rw [hread]
  split
  · exact ⟨rfl, rfl⟩
  · split
    · exact ⟨rfl, rfl⟩
    · refine ⟨write_back h.slot h.func h.found ?_, ?_⟩
      · rw [bar_offset]
        exact write_back_bar f i _
      · have hsized := @write_data _ _ _ _ (0x10 + UInt32.ofNat i * 4) _ h.slot h.func h.found
          0xffffffff
        simp only [pciConfigReadDword, pciReadDword, pciConfigWriteDword, pciWriteDword]
        rw [read_data h.slot h.func hsized, bar_offset, read_bar, write_bar]
        simp only [Function.update_self]

theorem Selects.noted {pdev : PciDevice} (h : Selects space pdev f) (g : PciFunction) (i : Fin 6) :
    Selects space (noted g pdev i) f := by
  unfold Pci.noted
  dsimp only
  split
  · exact ⟨h.slot, h.func, h.found⟩
  · split <;> exact ⟨h.slot, h.func, h.found⟩

theorem parse_bars (st : Parsing) (h : Selects st.space st.pdev f) (is : List (Fin 6)) :
    (is.foldl parseBar st).space = st.space ∧
      (is.foldl parseBar st).pdev = is.foldl (noted f) st.pdev := by
  induction is generalizing st with
  | nil => exact ⟨rfl, rfl⟩
  | cons i is ih =>
    obtain ⟨hspace, hpdev⟩ := parse_bar st h i
    have hnext : Selects (parseBar st i).space (parseBar st i).pdev f := by
      rw [hspace, hpdev]
      exact h.noted f i
    obtain ⟨hspace', hpdev'⟩ := ih (parseBar st i) hnext
    exact ⟨hspace'.trans hspace, by rw [List.foldl_cons, List.foldl_cons, hpdev', hpdev]⟩

theorem Selects.noted_all {pdev : PciDevice} (h : Selects space pdev f) (g : PciFunction)
    (is : List (Fin 6)) : Selects space (is.foldl (Pci.noted g) pdev) f := by
  induction is generalizing pdev with
  | nil => exact h
  | cons i is ih => exact ih (h.noted g i)

theorem parse_eprom {st : Parsing} (h : Selects st.space st.pdev f) :
    (parseEprom st).space = st.space ∧ (parseEprom st).pdev = st.pdev := by
  unfold parseEprom
  split
  · dsimp only
    split
    · refine ⟨?_, rfl⟩
      have hread : pciConfigReadDword st.space st.pdev 0x30 = f.rom.value := by
        rw [pciConfigReadDword, pciReadDword, read_data h.slot h.func h.found]
        rfl
      rw [hread]
      exact write_back h.slot h.func h.found (write_back_rom f _)
    · exact ⟨rfl, rfl⟩
  · exact ⟨rfl, rfl⟩

/-- What `__pci_parse` does: the registers hold what they held before. -/
theorem pci_parse {pdev : PciDevice} (h : Selects space pdev f) :
    pciParse space pdev = (space, if (f.header >>> 16).toUInt8 = 0 then
      { (List.finRange 6).foldl (noted f) pdev with irq := f.interrupt.toUInt8.toUInt32 }
      else pdev) := by
  have hheader : pciConfigReadByte space pdev 0x0E = (f.header >>> 16).toUInt8 := by
    rw [pciConfigReadByte, pciReadByte, read_data h.slot h.func h.found]
    rfl
  unfold pciParse
  rw [hheader]
  split
  · obtain ⟨hspace, hpdev⟩ := parse_bars ⟨space, pdev, true⟩ h (List.finRange 6)
    have hbars : Selects ((List.finRange 6).foldl parseBar ⟨space, pdev, true⟩).space
        ((List.finRange 6).foldl parseBar ⟨space, pdev, true⟩).pdev f := by
      rw [hspace, hpdev]
      exact h.noted_all f _
    obtain ⟨hspace', hpdev'⟩ := parse_eprom hbars
    have hirq : pciConfigReadByte space ((List.finRange 6).foldl (noted f) pdev) 0x3C =
        f.interrupt.toUInt8 := by
      have hsel := h.noted_all f (List.finRange 6)
      rw [pciConfigReadByte, pciReadByte, read_data hsel.slot hsel.func hsel.found]
      exact congrArg UInt32.toUInt8 (UInt32.shiftRight_zero)
    dsimp only
    rw [hspace', hpdev', hspace, hpdev, hirq]
  · rfl

/-- The register has the bit of an I/O register. -/
def IsIo (f : PciFunction) (i : Fin 6) : Prop := (f.bars i).reg.value &&& 1 ≠ 0

instance (f : PciFunction) (i : Fin 6) : Decidable (IsIo f i) :=
  inferInstanceAs (Decidable ((f.bars i).reg.value &&& 1 ≠ 0))

/-- What is recorded as `membase` and `memsize` comes from one memory register. -/
def FromOneBar (f : PciFunction) (pdev : PciDevice) : Prop :=
  pdev.membaseOf = none ∧ pdev.memsizeOf = none ∨
    ∃ i size, (f.bars i).kind = .memory size ∧ pdev.membaseOf = some i ∧
      pdev.memsizeOf = some i ∧ pdev.membase = (f.bars i).reg.value ∧ pdev.memsize = size

theorem noted_io {pdev : PciDevice} {i : Fin 6} (h : IsIo f i) :
    noted f pdev i = { pdev with iobase := (f.bars i).reg.value &&& 0xFFFFFFFC } :=
  if_pos h

theorem noted_empty {pdev : PciDevice} {i : Fin 6} (h : ¬ IsIo f i)
    (hz : (f.bars i).reg.value = 0) :
    noted f pdev i = { pdev with membase := (f.bars i).reg.value, membaseOf := some i } :=
  (if_neg h).trans (if_pos hz)

theorem noted_used {pdev : PciDevice} {i : Fin 6} (h : ¬ IsIo f i)
    (hz : (f.bars i).reg.value ≠ 0) :
    noted f pdev i = { pdev with
      membase := (f.bars i).reg.value, membaseOf := some i
      memsize := ~~~(((f.bars i).write 0xffffffff).reg.value &&& 0xfffffff0) + 1
      memsizeOf := some i } :=
  (if_neg h).trans (if_neg hz)

theorem memory_not_io {i : Fin 6} (h : (f.bars i).kind = .memory size) : ¬ IsIo f i := by
  have hfits := (f.bars i).fits
  rw [h] at hfits
  exact not_not.mpr hfits.2.2.1

/-- A size is only recorded for a register of the loop. -/
theorem memsize_of_mem {pdev : PciDevice} (h : pdev.memsizeOf = none) (is : List (Fin 6))
    {i : Fin 6} (hi : (is.foldl (noted f) pdev).memsizeOf = some i) : i ∈ is := by
  induction is using List.reverseRecOn with
  | nil =>
    rw [List.foldl_nil, h] at hi
    cases hi
  | append_singleton is j ih =>
    rw [List.foldl_append, List.foldl_cons, List.foldl_nil] at hi
    rw [List.mem_append, List.mem_singleton]
    by_cases hio : IsIo f j
    · rw [noted_io hio] at hi
      exact .inl (ih hi)
    · by_cases hz : (f.bars j).reg.value = 0
      · rw [noted_empty hio hz] at hi
        exact .inl (ih hi)
      · rw [noted_used hio hz] at hi
        exact .inr (Option.some.inj hi).symm

/-- The register is a memory register with an address in it. -/
def InUse (f : PciFunction) (i : Fin 6) : Prop :=
  (∃ size, (f.bars i).kind = .memory size) ∧ (f.bars i).reg.value ≠ 0

/-- Of these registers the last one without the bit of an I/O register is in use. -/
def LastInUse (f : PciFunction) (is : List (Fin 6)) : Prop :=
  (∀ i ∈ is, IsIo f i) ∨ ∃ i ∈ is, InUse f i ∧ ∀ j ∈ is, i < j → IsIo f j

theorem InUse.not_io {i : Fin 6} (h : InUse f i) : ¬ IsIo f i := memory_not_io h.1.choose_spec

theorem last_in_use_io {k : Fin 6} (hio : IsIo f k) :
    LastInUse f (is ++ [k]) ↔ LastInUse f is := by
  unfold LastInUse
  simp only [List.mem_append, List.mem_singleton, or_imp, forall_and, forall_eq, hio, and_true]
  refine or_congr_right ⟨?_, ?_⟩
  · rintro ⟨i, hi | rfl, hused, hj, -⟩
    · exact ⟨i, hi, hused, hj⟩
    · exact absurd hio hused.not_io
  · rintro ⟨i, hi, hused, hj⟩
    exact ⟨i, .inl hi, hused, hj, fun _ => trivial⟩

theorem last_in_use_memory {k : Fin 6} (hlt : ∀ j ∈ is, j < k) (hio : ¬ IsIo f k) :
    LastInUse f (is ++ [k]) ↔ InUse f k := by
  constructor
  · rintro (hall | ⟨i, hi, hused, hj⟩)
    · exact absurd (hall k (by simp)) hio
    · rcases List.mem_append.mp hi with hi | hi
      · exact absurd (hj k (by simp) (hlt i hi)) hio
      · cases List.mem_singleton.mp hi
        exact hused
  · intro hused
    refine .inr ⟨k, by simp, hused, ?_⟩
    intro j hj hkj
    rcases List.mem_append.mp hj with hj | hj
    · exact absurd (hlt j hj) (lt_asymm hkj)
    · cases List.mem_singleton.mp hj
      exact absurd hkj (lt_irrefl k)

/-- The last register that is not an I/O register decides: the induction is on the
registers in their order, the newest last. -/
theorem from_one_bar_iff (pdev : PciDevice) (hb : pdev.membaseOf = none)
    (hs : pdev.memsizeOf = none) (is : List (Fin 6)) (hord : is.Pairwise (· < ·)) :
    FromOneBar f (is.foldl (noted f) pdev) ↔ LastInUse f is := by
  induction is using List.reverseRecOn with
  | nil => exact iff_of_true (.inl ⟨hb, hs⟩) (.inl (fun i hi => absurd hi List.not_mem_nil))
  | append_singleton is k ih =>
    obtain ⟨hord', -, hlast⟩ := List.pairwise_append.mp hord
    have hlt : ∀ j ∈ is, j < k := fun j hj => hlast j hj k (List.mem_singleton.mpr rfl)
    rw [List.foldl_append, List.foldl_cons, List.foldl_nil]
    by_cases hio : IsIo f k
    · rw [noted_io hio, last_in_use_io hio]
      exact ih hord'
    · rw [last_in_use_memory hlt hio]
      by_cases hz : (f.bars k).reg.value = 0
      · rw [noted_empty hio hz]
        refine iff_of_false ?_ (fun hused => hused.2 hz)
        rintro (⟨hnone, -⟩ | ⟨i, size, -, hbase, hsize, -⟩)
        · cases hnone
        · cases hbase
          exact absurd (hlt k (memsize_of_mem hs is hsize)) (lt_irrefl k)
      · rw [noted_used hio hz]
        constructor
        · rintro (⟨hnone, -⟩ | ⟨i, size, hkind, hbase, -⟩)
          · cases hnone
          · cases hbase
            exact ⟨⟨size, hkind⟩, hz⟩
        · rintro ⟨⟨size, hkind⟩, -⟩
          exact .inr ⟨k, size, hkind, rfl, rfl, rfl, sized_bar hkind⟩

/-- A device before anything has been recorded for it. -/
def unrecorded (pdev : PciDevice) : PciDevice := { pdev with membaseOf := none, memsizeOf := none }

/-- `__pci_parse` restores every register, and records one memory register. -/
def ParsesRight (space : ConfigSpace) (pdev : PciDevice) (f : PciFunction) : Prop :=
  (pciParse space (unrecorded pdev)).1 = space ∧
    FromOneBar f (pciParse space (unrecorded pdev)).2

/-- The registers are always restored; one memory register is recorded exactly when the
last register without the bit of an I/O register is one in use. -/
theorem parses_right_iff (space : ConfigSpace) (pdev : PciDevice) (f : PciFunction)
    (h : Selects space pdev f) :
    ParsesRight space pdev f ↔ (f.header >>> 16).toUInt8 ≠ 0 ∨ (∀ i, IsIo f i) ∨
      ∃ i, InUse f i ∧ ∀ j, i < j → IsIo f j := by
  have hsel : Selects space (unrecorded pdev) f := ⟨h.slot, h.func, h.found⟩
  have hbars := from_one_bar_iff (f := f) (unrecorded pdev) rfl rfl (List.finRange 6)
    (List.pairwise_lt_finRange 6)
  simp only [LastInUse, List.mem_finRange, true_and, forall_const] at hbars
  unfold ParsesRight
  rw [pci_parse hsel]
  by_cases hheader : (f.header >>> 16).toUInt8 = 0
  · rw [if_pos hheader]
    simp only [hheader, ne_eq, not_true_eq_false, false_or, true_and]
    exact hbars
  · rw [if_neg hheader]
    exact iff_of_true ⟨rfl, .inl ⟨rfl, rfl⟩⟩ (.inl hheader)

def absentBar : Bar := ⟨⟨0, 0⟩, .absent, rfl, rfl⟩

/-- 4 KiB of memory at 0xF0000000. -/
def memoryBar : Bar :=
  ⟨⟨0xF0000000, 0xFFFFF000⟩, .memory 0x1000, ⟨8, by decide, by decide⟩, by decide, by decide,
    by decide⟩

/-- A function with the memory register as its `n`-th and no other register. -/
def oneMemoryBar (n : Fin 6) : PciFunction :=
  ⟨0x802910EC, 0, fun i => if i = n then memoryBar else absentBar, ⟨0, 0⟩, 11⟩

def blankDevice : PciDevice := ⟨0, 0, 0, 0, 0, 0, 0, 0, 0, 0, none, none⟩

theorem last_bar_parses_right :
    ParsesRight (fun _ _ _ => some (oneMemoryBar 5)) blankDevice (oneMemoryBar 5) :=
  (parses_right_iff _ blankDevice _ ⟨by decide, by decide, rfl⟩).mpr
    (.inr (.inr ⟨5, ⟨⟨0x1000, rfl⟩, by decide⟩, fun j hj => absurd hj (by omega)⟩))

/-- The empty registers behind the first one replace its address by zero. -/
theorem first_bar_lost :
    ¬ ParsesRight (fun _ _ _ => some (oneMemoryBar 0)) blankDevice (oneMemoryBar 0) := by
  rintro ⟨-, hone⟩
  have hsel : Selects (fun _ _ _ => some (oneMemoryBar 0)) (unrecorded blankDevice)
      (oneMemoryBar 0) := ⟨by decide, by decide, rfl⟩
  rw [pci_parse hsel] at hone
  rcases hone with ⟨hnone, -⟩ | ⟨i, size, -, hbase, hsize, -⟩
  · exact absurd hnone (by decide)
  · have h5 : some (5 : Fin 6) = some i := hbase
    have h0 : some (0 : Fin 6) = some i := hsize
    exact absurd (h5.trans h0.symm) (by decide)

end Levos.Proofs.Pci
