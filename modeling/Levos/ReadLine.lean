import Levos.Textmode

namespace Levos.ReadLine

def backspace : UInt8 := 8

/-- The variables of `sys_read` on descriptor 0. `buf` is the memory around the caller's
buffer, by offset. The last two are history: the offsets stored to and the values of
`totalread`. -/
structure Line where
  buf : Int → UInt8
  totalread : Int
  stored : List Int
  counts : List Int

namespace Line

def put (s : Line) (i : Int) (c : UInt8) : Line :=
  { s with buf := Function.update s.buf i c, stored := s.stored ++ [i] }

def count (s : Line) (n : Int) : Line := { s with totalread := n, counts := s.counts ++ [n] }

/-- `tty_read` has put a byte behind those that are kept, and it is counted. -/
def received (s : Line) (c : UInt8) : Line := (s.put s.totalread c).count (s.totalread + 1)

/-- The branch for a backspace: the byte is cleared, and the one behind it. -/
def erased (s : Line) : Line :=
  ((s.put (s.totalread - 0) 0).put (s.totalread - 1) 0).count (s.totalread - 2)

end Line

/-- The loop of `sys_read`. `polls` are the answers of `tty_read`, which finds a byte or
nothing; with no more of them the call still waits. -/
def sysReadLoop (len : Int) : List (Option UInt8) → Line → Option Line
  | [], s => if s.totalread < len then none else some s
  | none :: polls, s => if s.totalread < len then sysReadLoop len polls s else some s
  | some c :: polls, s =>
    if s.totalread < len then
      if (s.received c).buf s.totalread = newline then some (s.received c)
      else if (s.received c).buf s.totalread = backspace then
        sysReadLoop len polls (s.received c).erased
      else sysReadLoop len polls (s.received c)
    else some s

/-- `sys_read` on descriptor 0: the variables when it returns `totalread`. -/
def sysRead (buf : Int → UInt8) (len : Int) (polls : List (Option UInt8)) : Option Line :=
  sysReadLoop len polls ⟨buf, 0, [], [0]⟩

end Levos.ReadLine
