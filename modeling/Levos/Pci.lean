import Mathlib

namespace Levos

/-- A 32-bit configuration register: what it holds, and which of its bits a write
changes. -/
@[ext] structure Register where
  value : UInt32
  writable : UInt32
deriving DecidableEq

def Register.write (r : Register) (v : UInt32) : Register :=
  { r with value := (r.value &&& ~~~r.writable) ||| (v &&& r.writable) }

/-- What a base address register is wired for. A 64-bit memory register is two of them:
the lower half is a `memory` register, or `wide` from 4 GiB on, and the other is `upper`. -/
inductive BarKind
  | io
  | memory (size : UInt32)
  | wide
  | upper
  | absent
deriving DecidableEq

/-- A memory register of size `2 ^ k` keeps the address bits from bit `k` on; those
below are zero, down to the four bits that say what kind of memory it is. An upper half
has address bits only. -/
def BarKind.Fits (r : Register) : BarKind → Prop
  | .io => r.value &&& 1 = 1 ∧ r.writable &&& 1 = 0
  | .memory size => (∃ k < 28, size = 1 <<< (UInt32.ofNat k + 4)) ∧
      r.writable = ~~~(size - 1) ∧ r.value &&& 1 = 0 ∧
      r.value &&& (size - 1) &&& 0xfffffff0 = 0
  | .wide => r.writable = 0 ∧ r.value &&& 7 = 4 ∧ r.value &&& 0xfffffff0 = 0
  | .upper => (∃ k < 32, r.writable = ~~~((1 <<< UInt32.ofNat k) - 1)) ∧
      r.value &&& ~~~r.writable = 0
  | .absent => r.value = 0 ∧ r.writable = 0

@[ext] structure Bar where
  reg : Register
  kind : BarKind
  fits : kind.Fits reg

/-- The registers of one function that the driver reads: those at 0x00, 0x0C, 0x10 to
0x24, 0x30 and 0x3C. -/
structure PciFunction where
  id : UInt32
  header : UInt32
  bars : Fin 6 → Bar
  rom : Register
  interrupt : UInt32

/-- The register of a base address register's offset. -/
def barIndex (reg : Nat) : Option (Fin 6) :=
  if h : 0x10 ≤ reg ∧ reg < 0x28 then some ⟨(reg - 0x10) / 4, by omega⟩ else none

def PciFunction.read (f : PciFunction) (reg : Nat) : UInt32 :=
  if reg = 0x00 then f.id
  else if reg = 0x0C then f.header
  else if reg = 0x30 then f.rom.value
  else if reg = 0x3C then f.interrupt
  else match barIndex reg with
    | some i => (f.bars i).reg.value
    | none => 0

/-- A write leaves the bits alone that cannot be written. -/
theorem Register.write_and (r : Register) (v m : UInt32) (h : r.writable &&& m = 0) :
    (r.write v).value &&& m = r.value &&& m := by
  apply UInt32.toBitVec_inj.mp
  apply BitVec.eq_of_getLsbD_eq
  intro i hi
  have hbit := congrArg (fun x : UInt32 => x.toBitVec.getLsbD i) h
  simp only [Register.write, UInt32.toBitVec_and, UInt32.toBitVec_or, UInt32.toBitVec_not,
    BitVec.getLsbD_and, BitVec.getLsbD_or, BitVec.getLsbD_not, hi, decide_true,
    Bool.true_and] at hbit ⊢
  cases hw : r.writable.toBitVec.getLsbD i with
  | false => simp
  | true =>
    rw [hw, Bool.true_and] at hbit
    have hm : m.toBitVec.getLsbD i = false := by simpa using hbit
    simp [hm]

/-- A register is wired for the same after a write. -/
theorem BarKind.fits_write {r : Register} {kind : BarKind} (h : kind.Fits r) (v : UInt32) :
    kind.Fits (r.write v) := by
  cases kind with
  | io => exact ⟨(r.write_and v 1 h.2).trans h.1, h.2⟩
  | memory size =>
    obtain ⟨⟨k, hk, rfl⟩, hw, h1, hlow⟩ := h
    refine ⟨⟨k, hk, rfl⟩, hw, (r.write_and v 1 ?_).trans h1, ?_⟩
    · rw [hw]
      interval_cases k <;> decide
    · rw [UInt32.and_assoc, r.write_and v _ ?_, ← UInt32.and_assoc]
      · exact hlow
      · rw [hw]
        interval_cases k <;> decide
  | wide =>
    obtain ⟨hw, htype, hlow⟩ := h
    have hnone (m : UInt32) : r.writable &&& m = 0 := by rw [hw, UInt32.zero_and]
    exact ⟨hw, (r.write_and v 7 (hnone 7)).trans htype, (r.write_and v _ (hnone _)).trans hlow⟩
  | upper => exact ⟨h.1, (r.write_and v _ (UInt32.and_not_self ..)).trans h.2⟩
  | absent =>
    refine ⟨?_, h.2⟩
    simp [Register.write, h.1, h.2]

def Bar.write (b : Bar) (v : UInt32) : Bar :=
  { b with reg := b.reg.write v, fits := BarKind.fits_write b.fits v }

def PciFunction.write (f : PciFunction) (reg : Nat) (v : UInt32) : PciFunction :=
  if reg = 0x30 then { f with rom := f.rom.write v }
  else match barIndex reg with
    | some i => { f with bars := Function.update f.bars i ((f.bars i).write v) }
    | none => f

/-- The functions by bus, slot and function number. -/
abbrev ConfigSpace := Nat → Nat → Nat → Option PciFunction

/-- What is written to port 0xCF8 before the data port is used. -/
def configAddress (bus slot func : UInt8) (offset : UInt32) : UInt32 :=
  (0x80000000 : UInt32) |||
    (bus.toUInt32 <<< 16 ||| slot.toUInt32 <<< 11 ||| func.toUInt32 <<< 8) |||
    (offset &&& 0xfc)

/-- The bus, slot, function and register an address selects. -/
def busOf (addr : UInt32) : Nat := (addr >>> 16 &&& 0xff).toNat
def slotOf (addr : UInt32) : Nat := (addr >>> 11 &&& 0x1f).toNat
def funcOf (addr : UInt32) : Nat := (addr >>> 8 &&& 0x7).toNat
def regOf (addr : UInt32) : Nat := (addr &&& 0xfc).toNat

/-- The register behind the data port; a function that is not there reads as ones. -/
def readData (space : ConfigSpace) (addr : UInt32) : UInt32 :=
  match space (busOf addr) (slotOf addr) (funcOf addr) with
  | some f => f.read (regOf addr)
  | none => 0xffffffff

def writeData (space : ConfigSpace) (addr v : UInt32) : ConfigSpace := fun bus slot func =>
  if bus = busOf addr ∧ slot = slotOf addr ∧ func = funcOf addr then
    (space bus slot func).map (·.write (regOf addr) v)
  else space bus slot func

def pciReadByte (space : ConfigSpace) (bus slot func : UInt8) (offset : UInt32) : UInt8 :=
  (readData space (configAddress bus slot func offset) >>> (8 * (offset &&& 0x03))).toUInt8

def pciReadWord (space : ConfigSpace) (bus slot func : UInt8) (offset : UInt32) : UInt16 :=
  (readData space (configAddress bus slot func offset) >>> (8 * (offset &&& 0x02))).toUInt16

def pciReadDword (space : ConfigSpace) (bus slot func : UInt8) (offset : UInt32) : UInt32 :=
  readData space (configAddress bus slot func offset)

def pciWriteDword (space : ConfigSpace) (bus slot func : UInt8) (offset v : UInt32) : ConfigSpace :=
  writeData space (configAddress bus slot func offset) v

/-- `struct pci_device` without `data`. The last two fields are history: the base
address register that `membase` and `memsize` were stored from. -/
structure PciDevice where
  vendor : UInt16
  device : UInt16
  bus : UInt32
  slot : UInt32
  func : UInt16
  membase : UInt32
  memsize : UInt32
  iobase : UInt32
  irq : UInt32
  drv : UInt32
  membaseOf : Option (Fin 6)
  memsizeOf : Option (Fin 6)
deriving DecidableEq

def pciConfigReadByte (space : ConfigSpace) (pdev : PciDevice) (offset : UInt32) : UInt8 :=
  pciReadByte space pdev.bus.toUInt8 pdev.slot.toUInt8 pdev.func.toUInt8 offset

def pciConfigReadDword (space : ConfigSpace) (pdev : PciDevice) (offset : UInt32) : UInt32 :=
  pciReadDword space pdev.bus.toUInt8 pdev.slot.toUInt8 pdev.func.toUInt8 offset

def pciConfigWriteDword (space : ConfigSpace) (pdev : PciDevice) (offset v : UInt32) :
    ConfigSpace :=
  pciWriteDword space pdev.bus.toUInt8 pdev.slot.toUInt8 pdev.func.toUInt8 offset v

structure Parsing where
  space : ConfigSpace
  pdev : PciDevice
  needEprom : Bool

/-- One round of the loop over the six base address registers. -/
def parseBar (st : Parsing) (i : Fin 6) : Parsing :=
  let offset : UInt32 := 0x10 + UInt32.ofNat i * 4
  let r := pciConfigReadDword st.space st.pdev offset
  if r &&& 1 ≠ 0 then { st with pdev := { st.pdev with iobase := r &&& 0xFFFFFFFC } }
  else
    let pdev := { st.pdev with membase := r, membaseOf := some i }
    if r = 0 then { st with pdev }
    else
      let sized := pciConfigWriteDword st.space pdev offset 0xffffffff
      let size := ~~~(pciConfigReadDword sized pdev offset &&& 0xfffffff0) + 1
      { space := pciConfigWriteDword sized pdev offset pdev.membase
        pdev := { pdev with memsize := size, memsizeOf := some i }
        needEprom := false }

/-- The expansion ROM register is sized too, for a message only. -/
def parseEprom (st : Parsing) : Parsing :=
  if st.needEprom then
    let eprom := pciConfigReadDword st.space st.pdev 0x30
    if eprom ≠ 0 then
      let sized := pciConfigWriteDword st.space st.pdev 0x30 0xffffffff
      { st with space := pciConfigWriteDword sized st.pdev 0x30 eprom }
    else st
  else st

def pciParse (space : ConfigSpace) (pdev : PciDevice) : ConfigSpace × PciDevice :=
  if pciConfigReadByte space pdev 0x0E = 0 then
    let st := parseEprom ((List.finRange 6).foldl parseBar ⟨space, pdev, true⟩)
    (st.space, { st.pdev with irq := (pciConfigReadByte st.space st.pdev 0x3C).toUInt32 })
  else (space, pdev)

/-- The driver's globals: `pdevs`, without an end, and `pci_devices`. `stored` is
history, the index of every entry that was written. -/
structure PciTable where
  space : ConfigSpace
  pdevs : Nat → PciDevice
  pciDevices : UInt8
  stored : List Nat

/-- How many entries `pci_init` allocates. -/
def pciTableSize : Nat := 16

/-- The stores of `pci_probe` to the entry it is about to parse. -/
def newEntry (old : PciDevice) (vendor device : UInt16) (bus slot function : Nat) : PciDevice :=
  { old with
    vendor, device, drv := 0, bus := UInt32.ofNat bus, slot := UInt32.ofNat slot
    func := UInt16.ofNat function, membaseOf := none, memsizeOf := none }

def probeFunction (t : PciTable) (bus slot function : Nat) : PciTable :=
  let vendor := pciReadWord t.space (UInt8.ofNat bus) (UInt8.ofNat slot) (UInt8.ofNat function) 0
  if vendor = 0xffff then t
  else
    let i := t.pciDevices.toNat
    let device := pciReadWord t.space (UInt8.ofNat bus) (UInt8.ofNat slot) (UInt8.ofNat function) 2
    let parsed := pciParse t.space (newEntry (t.pdevs i) vendor device bus slot function)
    { space := parsed.1
      pdevs := Function.update t.pdevs i parsed.2
      pciDevices := t.pciDevices + 1
      stored := t.stored ++ [i] }

/-- The addresses `pci_probe` looks at, in their order. -/
def pciAddresses : List (Nat × Nat × Nat) :=
  (List.range 256).flatMap fun bus => (List.range 32).flatMap fun slot =>
    (List.range 8).map fun function => (bus, slot, function)

/-- `pci_probe`, called by `pci_init` with whatever memory the table is. -/
def pciProbe (space : ConfigSpace) (pdevs : Nat → PciDevice) : PciTable :=
  pciAddresses.foldl (fun t a => probeFunction t a.1 a.2.1 a.2.2) ⟨space, pdevs, 0, []⟩

end Levos
