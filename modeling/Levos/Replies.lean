import Levos.Floppy

namespace Levos.Replies
open Library

/-- What the controller makes of a seek: whether `flpy_irq` has run by the end of the
wait, and the cylinder that is then read back. -/
structure SeekReply where
  irq : Bool
  cylinder : UInt8

/-- What it makes of a read: whether `flpy_irq` has run by the end of the wait, and the
bytes that have been transferred into the DMA buffer by then, if any. The result bytes
are read and not looked at. -/
structure ReadReply where
  irq : Bool
  data : Option FloppySector

/-- The controller by what the driver comes to see of it in one request, without the
polls: what stands at the end of the wait after each command, by the sector of the request
and, for a seek, the number of the try. -/
structure Drive where
  seek : Nat → Nat → FdcCommand → SeekReply
  read : Nat → FdcCommand → ReadReply

/-- `irq_h`, the output register, the DMA buffer and the commands that were sent.
`timedOut` and `loaded` are history: whether a wait has ended without an interrupt, and
whether the last read command has filled the DMA buffer. -/
structure Fdc where
  irqH : Bool
  dor : UInt8
  dma : FloppySector
  sent : List FdcCommand
  timedOut : Bool
  loaded : Bool

def Fdc.send (s : Fdc) (cmd : FdcCommand) : Fdc := { s with sent := s.sent ++ [cmd] }

/-- The end of a wait; `irq` tells whether `flpy_irq` has run by then since the wait
before, for whichever command. -/
def waitForIrq (s : Fdc) (irq : Bool) : Bool × Fdc :=
  (s.irqH || irq, { s with irqH := false, timedOut := s.timedOut || !(s.irqH || irq) })

def fdcSetMotor (s : Fdc) (drive status : UInt8) : Fdc :=
  { s with dor := motorRegister s.dor drive status }

/-- The loop of `fdc_seek` with its `n` last tries to go, the next one being number `i`. -/
def seekTries (d : Drive) (k : Nat) (cyl head : UInt8) : Nat → Nat → Fdc → UInt8 × Fdc
  | 0, _, s => (1, s)
  | n + 1, i, s =>
    let r := d.seek k i (seekCommand cyl head)
    let w := waitForIrq (s.send (seekCommand cyl head)) r.irq
    if w.1 then
      if r.cylinder = cyl then (0, w.2.send checkInt)
      else seekTries d k cyl head n (i + 1) (w.2.send checkInt)
    else (1, w.2)

def fdcSeek (d : Drive) (k : Nat) (cyl head : UInt8) (s : Fdc) : UInt8 × Fdc :=
  seekTries d k cyl head 10 0 s

/-- `flpy_read_sector` for sector `k` of the request. It returns 1 on either way. -/
def flpyReadSector (d : Drive) (k : Nat) (head track sector : UInt8) (s : Fdc) : UInt8 × Fdc :=
  let r := d.read k (readCommand head track sector)
  let t := s.send (readCommand head track sector)
  let w := waitForIrq { t with dma := r.data.getD s.dma, loaded := r.data.isSome } r.irq
  if w.1 then (1, w.2.send checkInt) else (1, w.2)

/-- `flpy_read_lba` after the address has been computed: what it returns is an address.
The parameters of `fdc_seek` and `flpy_read_sector` are bytes, and what the latter
returns is not looked at. -/
def readAt (d : Drive) (k : Nat) (a : Chs) (s : Fdc) : UInt32 × Fdc :=
  let rc := fdcSeek d k (UInt8.ofInt a.track) (UInt8.ofInt a.head) (fdcSetMotor s 0 1)
  if rc.1 ≠ 0 then (0, rc.2)
  else
    let r := flpyReadSector d k (UInt8.ofInt a.head) (UInt8.ofInt a.track) (UInt8.ofInt a.sector)
      rc.2
    (dmaBuffer, fdcSetMotor r.2 0 0)

def flpyReadLba (d : Drive) (k : Nat) (lba : Int) (s : Fdc) : UInt32 × Fdc :=
  readAt d k (lbaToChs lba) s

/-- How a call of `flpy_read` ends. `copied` is history: for every sector copied to the
caller's buffer, whether the DMA buffer had been filled for it. -/
structure FlpyResult where
  rc : Int
  buffer : Nat → UInt8
  fdc : Fdc
  copied : List Bool

/-- The `memcpy` of sector `k`, after which the next one is read. -/
def FlpyResult.copy (r : FlpyResult) (k : Nat) (s : Fdc) : FlpyResult :=
  { r with
    buffer := blit r.buffer (UInt32.ofNat k * 512).toNat (FloppySector.bytes s.dma)
    fdc := s
    copied := r.copied ++ [s.loaded] }

/-- The loop of `flpy_read` with `n` sectors to go, after `k` have been read. -/
def readSectors (d : Drive) (lba : UInt32) : Nat → Nat → FlpyResult → FlpyResult
  | 0, _, r => r
  | n + 1, k, r =>
    let b := flpyReadLba d k (lba + UInt32.ofNat k).toInt32.toInt r.fdc
    if b.1 = 0 then { r with rc := 1, fdc := b.2 }
    else readSectors d lba n (k + 1) (r.copy k b.2)

def flpyRead (d : Drive) (s : Fdc) (buffer : Nat → UInt8) (lba sectors : UInt32) : FlpyResult :=
  if sectors = 0 then ⟨1, buffer, s, []⟩
  else readSectors d lba sectors.toNat 0 ⟨0, buffer, s, []⟩

end Levos.Replies
