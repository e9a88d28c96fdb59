import Levos.Tty

namespace Levos

/-- `struct textmode_private` without its mutex, and the words of display memory
from 0xb8000 on, 80 to a row. The screen shows the first 25 rows. -/
structure Textmode where
  cells : Nat → UInt16
  x : Nat
  y : Nat
  lastX : Nat
  lastY : Nat
  lastPage : Nat
  bgcol : UInt8
  fgcol : UInt8

def screenCells : Nat := 2000

def newline : UInt8 := 10

/-- `TM_COLOR(m) << 8 | ' '`. -/
def Textmode.blank (d : Textmode) : UInt16 :=
  (d.bgcol.toUInt16 <<< 4 ||| d.fgcol.toUInt16) <<< 8 ||| 32

/-- `(bgcol << 4 | fgcol) << 8 | c`. A `char` is signed, so from 128 on its sign
fills the high byte. -/
def cellOf (fgcol bgcol c : UInt8) : UInt16 :=
  (bgcol.toUInt16 <<< 4 ||| fgcol.toUInt16) <<< 8 |||
    (if c < 128 then c.toUInt16 else 0xFF00 ||| c.toUInt16)

def copyRow (cells : Nat → UInt16) (y : Nat) : Nat → UInt16 :=
  fun i => if 80 * y ≤ i ∧ i < 80 * (y + 1) then cells (i + 80) else cells i

/-- `memset16` counts words, so the blanks reach over two rows. -/
def memset16 (cells : Nat → UInt16) (start : Nat) (value : UInt16) (num : Nat) : Nat → UInt16 :=
  fun i => if start ≤ i ∧ i < start + num then value else cells i

def textmodeScrollup (d : Textmode) : Textmode :=
  { d with cells := memset16 ((List.range 25).foldl copyRow d.cells) (25 * 80) d.blank (80 * 2) }

/-- The wrap at the end of a line, which lets 81 characters stand in it. -/
def Textmode.wrap (d : Textmode) (c : UInt8) : Textmode :=
  if d.x > 80 ∨ c = newline then { d with x := 0, y := d.y + 1 } else d

/-- The scroll at the end of the screen. It takes all that has been written to
the tty for drawn. -/
def Textmode.scroll (d : Textmode) (bufpos : Nat) : Textmode :=
  if d.y ≥ 25 then
    { textmodeScrollup d with
      x := 0, y := d.y - 1, lastX := 0, lastY := d.y - 1, lastPage := bufpos }
  else d

def textmodePutchar (d : Textmode) (bufpos : Nat) (c fgcol bgcol : UInt8) : Textmode :=
  if c = 0 then d
  else
    let d := (d.wrap c).scroll bufpos
    if c = newline then d
    else
      { d with
        cells := Function.update d.cells (80 * d.y + d.x) (cellOf fgcol bgcol c)
        x := d.x + 1 }

/-- One round of the loop of `textmode_update`. `process_ansi_escape` does nothing. -/
def updateRound (bufpos : Nat) (fgcol bgcol : UInt8) (d : Textmode) (c : UInt8) : Textmode :=
  textmodePutchar (if c = newline then { d with fgcol := fgcol, bgcol := bgcol } else d) bufpos c
    fgcol bgcol

/-- `textmode_update`: the characters from `last_page` on are drawn again from
where `last_page` stood. -/
def textmodeUpdate (d : Textmode) (m : Tty) : Textmode :=
  (Library.slice m.buffer d.lastPage (m.bufpos - d.lastPage)).foldl
    (updateRound m.bufpos d.fgcol d.bgcol) { d with x := d.lastX, y := d.lastY }

def textmodeSetactive (d : Textmode) : Textmode :=
  { d with
    cells := memset16 d.cells 0 d.blank screenCells
    lastX := 0
    lastY := 0
    lastPage := 0 }

structure Terminal where
  tty : Tty
  active : Bool
  disp : Textmode

namespace Terminal

def write (t : Terminal) (text : Bytes) : Terminal :=
  { t with tty := (ttyGenericWrite t.tty text).2 }

def ttyGenericFlush (t : Terminal) : Int × Terminal :=
  if t.active then (0, { t with disp := textmodeUpdate t.disp t.tty }) else (-enotty, t)

def ttyGenericSetactive (t : Terminal) : Terminal :=
  (ttyGenericFlush { t with disp := textmodeSetactive t.disp }).2

def pair (t : Terminal) (text : Bytes) : Option Terminal := some (t.write text).ttyGenericFlush.2

/-- A tty nothing has been written to, made the active one. -/
def fresh (buffer : Nat → UInt8) (d : Textmode) : Terminal :=
  ttyGenericSetactive ⟨⟨buffer, ttyBufferSize, 0⟩, true, d⟩

end Terminal

/-- A call of `textmode_putchar` with a character: what it is handed, and where the
buffer of the tty ends at the time. -/
structure Key where
  c : UInt8
  fgcol : UInt8
  bgcol : UInt8
  bufpos : Nat
  nonzero : c ≠ 0

def Key.word (k : Key) : UInt16 := cellOf k.fgcol k.bgcol k.c

/-- Characters on the screen, by cell: a row up, and out of sight from the first row. -/
def rowUp (ps : List (Nat × UInt16)) : List (Nat × UInt16) :=
  (ps.filter (fun e => 80 ≤ e.1)).map (fun e => (e.1 - 80, e.2))

/-- What a screen of 80 columns and 25 rows is to show: a text wrapped at 80 columns
and scrolled. `laid` are its characters by cell. -/
structure Layout where
  x : Nat
  y : Nat
  laid : List (Nat × UInt16)

namespace Layout

def down (l : Layout) : Layout :=
  if l.y < 24 then { l with x := 0, y := l.y + 1 } else { l with x := 0, laid := rowUp l.laid }

def put (l : Layout) (w : UInt16) : Layout :=
  { l with x := l.x + 1, laid := l.laid ++ [(80 * l.y + l.x, w)] }

def step (l : Layout) (k : Key) : Layout :=
  if k.c = newline then l.down else (if l.x < 80 then l else l.down).put k.word

end Layout

/-- The display with its history: the characters it has been given by the cell they
were stored in (the copy of a scroll takes them a row up), and the first word and the
number of words of every store. Beside it the layout of the same text. -/
structure Screen where
  disp : Textmode
  placed : List (Nat × UInt16)
  stored : List (Nat × Nat)
  layout : Layout

namespace Screen

/-- The stores of `textmode_scrollup`: 25 rows are copied, then two are blanked. -/
def scrollStores : List (Nat × Nat) :=
  (List.range 25).map (fun y => (80 * y, 80)) ++ [(25 * 80, 80 * 2)]

def step (s : Screen) (k : Key) : Option Screen :=
  let d := (s.disp.wrap k.c).scroll k.bufpos
  let kept := if (s.disp.wrap k.c).y ≥ 25 then rowUp s.placed else s.placed
  let scrolled := if (s.disp.wrap k.c).y ≥ 25 then scrollStores else []
  some
    { disp := textmodePutchar s.disp k.bufpos k.c k.fgcol k.bgcol
      placed := if k.c = newline then kept else kept ++ [(80 * d.y + d.x, k.word)]
      stored := s.stored ++ scrolled ++ if k.c = newline then [] else [(80 * d.y + d.x, 1)]
      layout := s.layout.step k }

def start (d : Textmode) : Screen := ⟨d, [], [], ⟨d.x, d.y, []⟩⟩

end Screen

end Levos
