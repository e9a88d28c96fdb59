import Levos.Library.Writes

namespace Levos
open Library

abbrev FloppySector := Fin 512 → UInt8

def FloppySector.bytes (x : FloppySector) : List UInt8 := List.ofFn x

/-- The bytes that one command writes to the FIFO. -/
abbrev FdcCommand := List UInt8

def checkInt : FdcCommand := [0x08]

def seekCommand (cyl head : UInt8) : FdcCommand := [0x0f, head <<< 2 ||| 0, cyl]

/-- The command of `flpy_read_sector`: the last sector of the track is not exceeded. -/
def readCommand (head track sector : UInt8) : FdcCommand :=
  [0x06 ||| 0x80 ||| 0x20 ||| 0x40, head <<< 2 ||| 0, track, head, sector, 2,
    if sector.toNat + 1 ≥ 18 then 18 else sector + 1, 27, 0xff]

/-- What `fdc_set_motor` leaves in the output register. -/
def motorRegister (dor drive status : UInt8) : UInt8 :=
  if drive > 3 then dor
  else if status ≠ 0 then drive ||| 0x10 <<< drive ||| 4 ||| 8
  else 4

structure Chs where
  head : Int
  track : Int
  sector : Int
deriving DecidableEq

/-- `__lba_to_chs`, with the division of C. -/
def lbaToChs (lba : Int) : Chs :=
  ⟨(lba.tmod (18 * 2)).tdiv 18, lba.tdiv (18 * 2), lba.tmod 18 + 1⟩

def dmaBuffer : UInt32 := 0x1000

namespace Floppy

/-- What a command comes to: the cylinder the drive has then moved to, the bytes that
are then in the DMA buffer. -/
structure Finish where
  cylinder : Option UInt8
  data : Option FloppySector

/-- A command the controller is at work on: which one it is, and after how many more
polls of `irq_h` it is done. -/
structure Work where
  number : Nat
  polls : Nat
  finish : Finish

/-- The controller: how long the last of the commands sent to it takes, and what it
comes to; `none` is never done. -/
abbrev Drive := List FdcCommand → Option (Nat × Finish)

/-- `irq_h`, the output register, the DMA buffer and the controller. `timedOut` and
`loaded` are history: whether a wait has ended without an interrupt, and whether the last
read command has filled the DMA buffer. -/
structure Fdc where
  irqH : Bool
  dor : UInt8
  dma : FloppySector
  cylinder : UInt8
  sent : List FdcCommand
  working : List Work
  timedOut : Bool
  loaded : Bool

namespace Fdc

/-- A command is done, and `flpy_irq` runs. -/
def complete (s : Fdc) (w : Work) : Fdc :=
  { s with
    irqH := true
    cylinder := w.finish.cylinder.getD s.cylinder
    dma := w.finish.data.getD s.dma
    loaded := s.loaded || w.finish.data.isSome && w.number == s.sent.length }

def settle (s : Fdc) : Fdc :=
  (s.working.filter (fun w => w.polls == 0)).foldl complete
    { s with working := s.working.filter (fun w => w.polls != 0) }

/-- What happens in one `schedule_noirq`. -/
def poll (s : Fdc) : Fdc :=
  settle { s with working := s.working.map (fun w => { w with polls := w.polls - 1 }) }

/-- `__write_cmd` for the bytes of a command that ends in an interrupt. -/
def issue (d : Drive) (s : Fdc) (cmd : FdcCommand) : Fdc :=
  let sent := s.sent ++ [cmd]
  match d sent with
  | none => { s with sent := sent }
  | some (polls, finish) =>
    settle { s with sent := sent, working := s.working ++ [⟨sent.length, polls, finish⟩] }

/-- `fdc_check_int`, which ends in none. -/
def check (s : Fdc) : Fdc := { s with sent := s.sent ++ [checkInt] }

end Fdc

/-- The loop of `__wait_for_irq` with `timeout` polls to go. -/
def waitLoop : Nat → Fdc → Fdc
  | 0, s => s
  | timeout + 1, s => if s.irqH then s else waitLoop timeout s.poll

def waitForIrq (s : Fdc) : Bool × Fdc :=
  let t := waitLoop 10 s
  (t.irqH, { t with irqH := false, timedOut := t.timedOut || !t.irqH })

def fdcSetMotor (s : Fdc) (drive status : UInt8) : Fdc :=
  { s with dor := motorRegister s.dor drive status }

/-- The loop of `fdc_seek` with `n` tries to go. -/
def seekTries (d : Drive) (cyl head : UInt8) : Nat → Fdc → UInt8 × Fdc
  | 0, s => (1, s)
  | n + 1, s =>
    let w := waitForIrq (s.issue d (seekCommand cyl head))
    if w.1 then
      if w.2.cylinder = cyl then (0, w.2.check) else seekTries d cyl head n w.2.check
    else (1, w.2)

def fdcSeek (d : Drive) (cyl head : UInt8) (s : Fdc) : UInt8 × Fdc := seekTries d cyl head 10 s

/-- `flpy_read_sector` returns 1 on either way. -/
def flpyReadSector (d : Drive) (head track sector : UInt8) (s : Fdc) : UInt8 × Fdc :=
  let w := waitForIrq ({ s with loaded := false }.issue d (readCommand head track sector))
  if w.1 then (1, w.2.check) else (1, w.2)

/-- `flpy_read_lba` after the address has been computed: what it returns is an address.
The parameters of `fdc_seek` and `flpy_read_sector` are bytes, and what the latter
returns is not looked at. -/
def readAt (d : Drive) (a : Chs) (s : Fdc) : UInt32 × Fdc :=
  let rc := fdcSeek d (UInt8.ofInt a.track) (UInt8.ofInt a.head) (fdcSetMotor s 0 1)
  if rc.1 ≠ 0 then (0, rc.2)
  else
    let r := flpyReadSector d (UInt8.ofInt a.head) (UInt8.ofInt a.track) (UInt8.ofInt a.sector) rc.2
    (dmaBuffer, fdcSetMotor r.2 0 0)

def flpyReadLba (d : Drive) (lba : Int) (s : Fdc) : UInt32 × Fdc := readAt d (lbaToChs lba) s

/-- How a call of `flpy_read` ends. `copied` is history: for every sector copied to the
caller's buffer, whether the DMA buffer had been filled for it. -/
structure Result where
  rc : Int
  buffer : Nat → UInt8
  fdc : Fdc
  copied : List Bool

/-- The `memcpy` of sector `k`. -/
def Result.copy (r : Result) (k : Nat) (s : Fdc) : Result :=
  { r with
    buffer := blit r.buffer (UInt32.ofNat k * 512).toNat (FloppySector.bytes s.dma)
    fdc := s
    copied := r.copied ++ [s.loaded] }

/-- The loop of `flpy_read` with `n` sectors to go, after `k` have been read. -/
def readSectors (d : Drive) (lba : UInt32) : Nat → Nat → Result → Result
  | 0, _, r => r
  | n + 1, k, r =>
    let b := flpyReadLba d (lba + UInt32.ofNat k).toInt32.toInt r.fdc
    if b.1 = 0 then { r with rc := 1, fdc := b.2 }
    else readSectors d lba n (k + 1) (r.copy k b.2)

def flpyRead (d : Drive) (s : Fdc) (buffer : Nat → UInt8) (lba sectors : UInt32) : Result :=
  if sectors = 0 then ⟨1, buffer, s, []⟩
  else readSectors d lba sectors.toNat 0 ⟨0, buffer, s, []⟩

end Floppy

end Levos
