import Levos.Memory

namespace Levos.Elf

/-- The fields of `elf_header_t` that are read, at their offsets. -/
def eType (b : Bytes) : Option Nat := le b 16 2
def eEntry (b : Bytes) : Option Nat := le b 24 4
def ePhoff (b : Bytes) : Option Nat := le b 28 4
def ePhnum (b : Bytes) : Option Nat := le b 44 2

/-- The fields of the `elf_program_header_t` at an offset. -/
def pType (b : Bytes) (ph : Nat) : Option Nat := le b ph 4
def pOffset (b : Bytes) (ph : Nat) : Option Nat := le b (ph + 4) 4
def pVaddr (b : Bytes) (ph : Nat) : Option Nat := le b (ph + 8) 4
def pFilesz (b : Bytes) (ph : Nat) : Option Nat := le b (ph + 16) 4
def pMemsz (b : Bytes) (ph : Nat) : Option Nat := le b (ph + 20) 4

def phSize : Nat := 32

/-- `elf_probe`: the buffer begins with 0x7f and `ELF`. Nothing calls it. -/
def elfProbe (b : Bytes) : Bool := b.take 4 == [0x7f, 0x45, 0x4c, 0x46]

/-- The bytes a copy reads from the buffer. A copy of no bytes reads nothing. -/
def slice (b : Bytes) (offset n : Nat) : Option Bytes :=
  if n = 0 then some []
  else if offset + n ≤ b.length then some ((b.drop offset).take n) else none

inductive Loop
  | finished
  | rejected
deriving DecidableEq

def loadSegment (b : Bytes) (ph : Nat) (w : World) : Option World :=
  match pOffset b ph, pVaddr b ph, pFilesz b ph with
  | some offset, some vaddr, some filesz => match slice b offset filesz with
    | none => none
    | some bytes => w.store vaddr bytes
  | _, _, _ => none

def segmentLoop (b : Bytes) : Nat → Nat → World → Option (Loop × World)
  | 0, _, w => some (.finished, w)
  | n + 1, ph, w => match pType b ph with
    | none => none
    | some 0 => segmentLoop b n (ph + phSize) w
    | some 1 => match loadSegment b ph w with
      | none => none
      | some w' => segmentLoop b n (ph + phSize) w'
    | some _ => some (.rejected, w)

/-- The process is given the new frames and the new directory, and after
`schedule_noirq` it runs under that directory. -/
def enterImage (w : World) (palloc esize paged : Nat) (rest : PageDirectory) : World :=
  { w with
    caller := ⟨paged, palloc, esize, esize⟩
    directory := createNewPageDirectory rest 0x400000 palloc }

/-- `elf_start` up to the end of its loop, on a buffer of `esize` bytes and the
heap bytes `after` known behind it. `paged` and `rest` are the address and the
unwritten entries of the directory that `arch_setup_paged` makes. -/
def elfLoad (w : World) (buf after : Bytes) (paged : Nat) (rest : PageDirectory) :
    Option (Loop × World) :=
  match eType (buf ++ after) with
  | none => none
  | some 2 => match w.phymemAlloc buf.length with
    | none => none
    | some (palloc, w') => match ePhoff (buf ++ after), ePhnum (buf ++ after) with
      | some phoff, some phnum =>
        segmentLoop (buf ++ after) phnum phoff (enterImage w' palloc buf.length paged rest)
      | _, _ => none
  | some _ => some (.rejected, w)

/-- How `elf_start` ends: it returns zero, or jumps to the entry point. -/
inductive Outcome
  | returned
  | started (entry : Nat)
deriving DecidableEq

/-- `elf_start`. The frames of the image before go back if there were any. -/
def elfStart (w : World) (buf after : Bytes) (paged : Nat) (rest : PageDirectory) :
    Option (Outcome × World) :=
  match elfLoad w buf after paged rest with
  | none => none
  | some (.rejected, w') => some (.returned, w')
  | some (.finished, w') => match eEntry (buf ++ after) with
    | none => none
    | some entry =>
      if w.caller.palloc = 0 then some (.started entry, w')
      else (phymemFree w'.phymem w.caller.palloc w.caller.pallocLen).map
        (fun m => (.started entry, { w' with phymem := m }))

end Levos.Elf
