import Levos.Console
import Levos.Itoa
import Levos.Vfs

namespace Levos
open Library

/-- A variable argument of `printk`: a string or a 32-bit `int`. -/
inductive PrintkArg
  | str (s : CString)
  | int (n : UInt32)
deriving DecidableEq

/-- What a call has done: the calls of `console_append` and `console_write` so far, the
arguments not taken yet, and the scratch buffer of `itoa`. -/
structure Printing where
  acts : List ConsoleAct
  args : List PrintkArg
  tbuf : Nat → UInt8

def Printing.call (p : Printing) (a : ConsoleAct) : Printing := { p with acts := p.acts ++ [a] }

/-- `itoa` into a local `char str[32] = {0}`, and the string that is found there. -/
def Printing.itoa (p : Printing) (i base : UInt32) : Option (Bytes × Printing) :=
  match Levos.itoa p.tbuf i base (fun _ => 0) with
  | none => none
  | some r => some (cstr (slice r.buf 0 32), { p with tbuf := r.tbuf })

/-- `va_arg(ap, char *)`; a missing or other argument is `none`. -/
def Printing.vaStr (p : Printing) : Option (CString × Printing) :=
  match p.args with
  | .str s :: args => some (s, { p with args })
  | _ => none

/-- `va_arg(ap, int)`. -/
def Printing.vaInt (p : Printing) : Option (UInt32 × Printing) :=
  match p.args with
  | .int n :: args => some (n, { p with args })
  | _ => none

def printTicks (p : Printing) (ticks : UInt32) : Option Printing :=
  match (p.call (.append 91)).itoa ticks 10 with
  | none => none
  | some (str, p) =>
    some { p with
      acts := p.acts ++ List.replicate (8 - str.length) (.append 48) ++
        [.write str, .write [93, 32]] }

/-- The numeral of the next argument is written. -/
def printNumeral (p : Printing) (base : UInt32) : Option Printing :=
  match p.vaInt with
  | none => none
  | some (n, p) => match p.itoa n base with
    | none => none
    | some (str, p) => some (p.call (.write str))

def printString (p : Printing) : Option Printing :=
  p.vaStr.map fun (s, p) => p.call (.write s.bytes)

/-- The loop of `printk` from `fmt[i]` on. A '%' before anything but s, d and x is
dropped, and what follows it is printed like any other character. -/
def printkLoop (fmt : CString) : Nat → Nat → Printing → Option Printing
  | 0, _, _ => none
  | fuel + 1, i, p =>
    if i < fmt.bytes.length then
      if fmt.bytes.getD i 0 = 37 then
        if fmt.bytes.getD (i + 1) 0 = 115 then
          (printString p).bind (printkLoop fmt fuel (i + 2))
        else if fmt.bytes.getD (i + 1) 0 = 100 then
          (printNumeral p 10).bind (printkLoop fmt fuel (i + 2))
        else if fmt.bytes.getD (i + 1) 0 = 120 then
          (printNumeral p 16).bind (printkLoop fmt fuel (i + 2))
        else printkLoop fmt fuel (i + 1) p
      else printkLoop fmt fuel (i + 1) (p.call (.write [fmt.bytes.getD i 0]))
    else some p

/-- `printk`: its calls of the console functions, in order. -/
def printk (online : Bool) (ticks : UInt32) (fmt : CString) (args : List PrintkArg)
    (tbuf : Nat → UInt8) : Option (List ConsoleAct) :=
  if online then
    ((printTicks ⟨[], args, tbuf⟩ ticks).bind (printkLoop fmt (fmt.bytes.length + 1) 0)).map
      Printing.acts
  else some []

end Levos
