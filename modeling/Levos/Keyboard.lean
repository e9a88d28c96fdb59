import Levos.Library.Runs

namespace Levos

/-- `scancode_std`, the values of `enum KEYCODE` by make code. The entries from the
74th on stand six codes too low: nothing is listed for 0x4a to 0x4f. -/
def scancodeStd : List Nat :=
  [0x4012, 0x1001, 0x31, 0x32, 0x33, 0x34, 0x35, 0x36,
    0x37, 0x38, 0x39, 0x30, 0x2d, 0x3d, 0x8, 0x4000,
    0x71, 0x77, 0x65, 0x72, 0x74, 0x79, 0x75, 0x69,
    0x6f, 0x70, 0x5b, 0x5d, 0xa, 0x4003, 0x61, 0x73,
    0x64, 0x66, 0x67, 0x68, 0x6a, 0x6b, 0x6c, 0x3b,
    0x27, 0x60, 0x4002, 0x5c, 0x7a, 0x78, 0x63, 0x76,
    0x62, 0x6e, 0x6d, 0x2c, 0x2e, 0x2f, 0x4006, 0x2a,
    0x4008, 0x20, 0x4001, 0x1201, 0x1202, 0x1203, 0x1204, 0x1205,
    0x1206, 0x1207, 0x1208, 0x1209, 0x120a, 0x300f, 0x4010, 0x400c,
    0x38, 0x400e, 0x32, 0x33, 0x30, 0x2e, 0x4012, 0x4012,
    0x4012, 0x120b, 0x120b]

def keyCapslock : Nat := 0x4001
def keyLshift : Nat := 0x4002
def keyLctrl : Nat := 0x4003
def keyLalt : Nat := 0x4004
def keyRshift : Nat := 0x4006
def keyRctrl : Nat := 0x4007
def keyRalt : Nat := 0x4008

/-- `scancode_std[code]`; `beyond` is the memory behind the table, which codes from
83 on reach. -/
def keyAt (beyond : Nat → Nat) (code : UInt8) : Nat :=
  scancodeStd[code.toNat]?.getD (beyond code.toNat)

inductive Modifier
  | ctrl
  | shift
  | alt
deriving DecidableEq

instance : Fintype Modifier := ⟨{.ctrl, .shift, .alt}, fun m => by cases m <;> decide⟩

/-- The case labels the two switches of `parse_keycode` share. -/
def modifierOf (key : Nat) : Option Modifier :=
  if key = keyLctrl ∨ key = keyRctrl then some .ctrl
  else if key = keyLshift ∨ key = keyRshift then some .shift
  else if key = keyLalt ∨ key = keyRalt then some .alt
  else none

/-- `_extended`, `_shift`, `_alt`, `_ctrl` and `_capslock`. -/
structure KeyFlags where
  extended : UInt8
  shift : UInt8
  alt : UInt8
  ctrl : UInt8
  capslock : UInt8
deriving DecidableEq

namespace KeyFlags

def flag (s : KeyFlags) : Modifier → UInt8
  | .ctrl => s.ctrl
  | .shift => s.shift
  | .alt => s.alt

def store (s : KeyFlags) (v : UInt8) : Modifier → KeyFlags
  | .ctrl => { s with ctrl := v }
  | .shift => { s with shift := v }
  | .alt => { s with alt := v }

end KeyFlags

/-- `parse_keycode`: the flags and the `uint8_t` a key is returned as. -/
def parseKeycode (beyond : Nat → Nat) (s : KeyFlags) (code : UInt8) : KeyFlags × UInt8 :=
  if code = 0xE0 ∨ code = 0xE1 then ({ s with extended := 1 }, 0)
  else if code &&& 0x80 ≠ 0 then
    match modifierOf (keyAt beyond (code - 0x80)) with
    | some m => ({ s with extended := 0 }.store 0 m, 0)
    | none => ({ s with extended := 0 }, 0)
  else
    match modifierOf (keyAt beyond code) with
    | some m => ({ s with extended := 0 }.store 1 m, 0)
    | none =>
      if keyAt beyond code = keyCapslock then
        ({ s with extended := 0, capslock := if s.capslock ≠ 0 then 0 else 1 }, 0)
      else ({ s with extended := 0 }, UInt8.ofNat (keyAt beyond code))

/-- A key of the keyboard: its make code, and whether 0xE0 is sent before its codes.
0x60 and 0x61 are no make codes, their break codes would be the escapes. -/
structure Keycap where
  escaped : Bool
  code : UInt8
  inRange : code < 0x80 ∧ code ≠ 0x60 ∧ code ≠ 0x61
deriving DecidableEq

/-- The modifier a key is on the keyboard: two keys for each of them. -/
def Keycap.modifier (k : Keycap) : Option Modifier :=
  if k.code = 0x1d then some .ctrl
  else if k.escaped = false ∧ (k.code = 0x2a ∨ k.code = 0x36) then some .shift
  else if k.code = 0x38 then some .alt
  else none

def capsLock : Keycap := ⟨false, 0x3a, by decide⟩

inductive Scancode
  | escape
  | make (k : Keycap)
  | release (k : Keycap)
deriving DecidableEq

def Scancode.byte : Scancode → UInt8
  | .escape => 0xE0
  | .make k => k.code
  | .release k => k.code + 0x80

/-- The driver's flags and the keyboard: whether an escape has been sent, the keys
that are held, and how often caps lock has been pressed. -/
structure Keystrokes where
  flags : KeyFlags
  escaped : Bool
  held : List Keycap
  capsPresses : Nat
deriving DecidableEq

namespace Keystrokes

def start : Keystrokes := ⟨⟨0, 0, 0, 0, 0⟩, false, [], 0⟩

/-- One code is sent and parsed. The make code of a held key and the break code of a
key that is not held are not sent, nor is a code without its escape. -/
def step (beyond : Nat → Nat) (s : Keystrokes) (c : Scancode) : Option Keystrokes :=
  let flags := (parseKeycode beyond s.flags c.byte).1
  match c with
  | .escape => if s.escaped then none else some { s with flags, escaped := true }
  | .make k =>
    if s.escaped = k.escaped ∧ k ∉ s.held then some
      { flags, escaped := false, held := k :: s.held
        capsPresses := if k = capsLock then s.capsPresses + 1 else s.capsPresses }
    else none
  | .release k =>
    if s.escaped = k.escaped ∧ k ∈ s.held then some
      { s with flags, escaped := false, held := s.held.filter (· ≠ k) }
    else none

end Keystrokes

end Levos
