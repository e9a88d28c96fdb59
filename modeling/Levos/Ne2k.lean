import Levos.Library.Writes

namespace Levos
open Library

/-- What `ne2k_send_packet` does outside its own variables: accesses to the ports of
the card, by their offset from `iobase`, and loads of a word from the payload. -/
inductive PortAccess
  | outportb (reg : Nat) (value : UInt8)
  | outportw (reg : Nat) (value : UInt16)
  | inportb (reg : Nat) (value : UInt8)
  | load (offset : Nat)
deriving DecidableEq

namespace Ne2k

def p0Cr : Nat := 0x00
def p0Tpsr : Nat := 0x04
def p0Tbcr0 : Nat := 0x05
def p0Tbcr1 : Nat := 0x06
def p0Isr : Nat := 0x07
def p0Rsar0 : Nat := 0x08
def p0Rsar1 : Nat := 0x09
def p0Rbcr0 : Nat := 0x0A
def p0Rbcr1 : Nat := 0x0B
def dataPort : Nat := 0x10

def crSta : UInt8 := 0x02
def crTxp : UInt8 := 0x04
def crRd1 : UInt8 := 0x10
def crRd2 : UInt8 := 0x20
def isrRdc : UInt8 := 0x40

end Ne2k

open Ne2k

/-- What `ne2k_get_write_page` makes of `nextmempage`. The source has no return
statement, so the page it is called for is whatever the caller finds. -/
def ne2kGetWritePage (nextmempage : UInt8) (len : UInt16) : UInt8 :=
  let next := nextmempage + UInt8.ofNat ((len.toNat + 0xFF) >>> 8)
  if next ≥ 0xC0 then next - 0x40 else next

/-- The 16-bit word at an offset of the payload. -/
def payloadWord (payload : Nat → UInt8) (offset : Nat) : UInt16 :=
  (payload offset).toUInt16 ||| (payload (offset + 1)).toUInt16 <<< 8

/-- `while(buflen --) outportw(io + 0x10, *buf++)` with `n` rounds to go. -/
def copyWords (payload : Nat → UInt8) : Nat → Nat → List PortAccess
  | 0, _ => []
  | n + 1, offset =>
    .load offset :: .outportw dataPort (payloadWord payload offset) ::
      copyWords payload n (offset + 2)

/-- `while (!inportb(io + NE_P0_ISR) & 0x40)`, `none` when the fuel does not suffice;
`isr k` is what the `k`-th read returns. The negation binds tighter than the mask. -/
def waitComplete (isr : Nat → UInt8) : Nat → Nat → Option (List PortAccess)
  | 0, _ => none
  | fuel + 1, k =>
    if (if isr k = 0 then (1 : UInt32) else 0) &&& 0x40 ≠ 0 then
      (waitComplete isr fuel (k + 1)).map (.inportb p0Isr (isr k) :: ·)
    else some [.inportb p0Isr (isr k)]

/-- The accesses before the packet is copied. -/
def setupSend (len : UInt32) (page : UInt8) : List PortAccess :=
  [.outportb p0Cr (crRd2 ||| crSta),
    .outportb p0Isr isrRdc,
    .outportb p0Tbcr0 (len &&& 0xFF).toUInt8,
    .outportb p0Tbcr1 (len >>> 8).toUInt8,
    .outportb p0Rbcr0 (len &&& 0xFF).toUInt8,
    .outportb p0Rbcr1 (len >>> 8).toUInt8,
    .outportb p0Rsar0 0x00,
    .outportb p0Rsar1 page,
    .outportb p0Cr (crRd1 ||| crSta)]

def finishSend (page : UInt8) : List PortAccess :=
  [.outportb p0Isr 0x40,
    .outportb p0Tpsr page,
    .outportb p0Cr (0x10 ||| 0x4 ||| 0x2)]

/-- `ne2k_send_packet`: the accesses in their order and the card's `nextmempage`.
`payload` is the memory from `p->payload` on, also behind the packet. -/
def ne2kSendPacket (fuel : Nat) (len : UInt32) (payload : Nat → UInt8) (nextmempage page : UInt8)
    (isr : Nat → UInt8) : Option (List PortAccess × UInt8) :=
  (waitComplete isr fuel 0).map fun waiting =>
    (setupSend len page ++ copyWords payload len.toNat 0 ++ waiting ++ finishSend page,
      ne2kGetWritePage nextmempage len.toUInt16)

end Levos
