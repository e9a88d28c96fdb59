import Levos.Textmode
import Levos.Proofs.Tty

namespace Levos.Proofs.Textmode
open Levos.Library Levos.Proofs.Tty

/-- What the screen shows and where the next character goes. -/
@[ext] structure Pane where
  cells : Nat → UInt16
  x : Nat
  y : Nat

def pane (d : Levos.Textmode) : Pane := ⟨d.cells, d.x, d.y⟩

/-- A display that has drawn nothing before, with a pane and two colours. -/
def display (fgcol bgcol : UInt8) (p : Pane) : Levos.Textmode :=
  ⟨p.cells, p.x, p.y, 0, 0, 0, bgcol, fgcol⟩

/-- The pane after a character. -/
def put (fgcol bgcol : UInt8) (p : Pane) (c : UInt8) : Pane :=
  pane (textmodePutchar (display fgcol bgcol p) 0 c fgcol bgcol)

/-- The pane after a text. -/
def draw (fgcol bgcol : UInt8) (p : Pane) (text : Bytes) : Pane := text.foldl (put fgcol bgcol) p

/-- The row a character is put into, before any scroll. -/
def rowFor (p : Pane) (c : UInt8) : Nat := if p.x > 80 ∨ c = newline then p.y + 1 else p.y

def Scrolls (p : Pane) (c : UInt8) : Prop := c ≠ 0 ∧ 25 ≤ rowFor p c

instance (p : Pane) (c : UInt8) : Decidable (Scrolls p c) := by
  unfold Scrolls
  infer_instance

/-- No character of the text scrolls. -/
def Quiet (fgcol bgcol : UInt8) : Pane → Bytes → Prop
  | _, [] => True
  | p, c :: text => ¬ Scrolls p c ∧ Quiet fgcol bgcol (put fgcol bgcol p c) text

/-- The place a flush begins at. -/
def mark (d : Levos.Textmode) : Nat × Nat × Nat := (d.lastPage, d.lastX, d.lastY)

variable {fgcol bgcol c : UInt8} {p q : Pane} {d : Levos.Textmode} {text : Bytes} {n : Nat}

/-- Two displays that show and will draw the same. -/
structure Alike (d e : Levos.Textmode) : Prop where
  pane : pane d = pane e
  fgcol : d.fgcol = e.fgcol
  bgcol : d.bgcol = e.bgcol

theorem wrap_row (d : Levos.Textmode) (c : UInt8) : (d.wrap c).y = rowFor (pane d) c := by
  unfold Levos.Textmode.wrap rowFor pane
  split <;> rfl

theorem wrap_mark (d : Levos.Textmode) (c : UInt8) : mark (d.wrap c) = mark d := by
  unfold Levos.Textmode.wrap
  split <;> rfl

theorem scroll_mark (d : Levos.Textmode) (n : Nat) :
    mark (d.scroll n) = if 25 ≤ d.y then (n, 0, d.y - 1) else mark d := by
  unfold Levos.Textmode.scroll
  split <;> rfl

theorem Alike.wrap (h : Alike d e) (c : UInt8) : Alike (d.wrap c) (e.wrap c) := by
  obtain ⟨hp, hf, hb⟩ := h
  simp only [Textmode.pane, Pane.mk.injEq] at hp
  obtain ⟨hcells, hx, hy⟩ := hp
  unfold Levos.Textmode.wrap
  rw [hx]
  split
  · exact ⟨by simp [Textmode.pane, hcells, hy], hf, hb⟩
  · exact ⟨by simp [Textmode.pane, hcells, hx, hy], hf, hb⟩

theorem Alike.scroll (h : Alike d e) (n k : Nat) : Alike (d.scroll n) (e.scroll k) := by
  obtain ⟨hp, hf, hb⟩ := h
  simp only [Textmode.pane, Pane.mk.injEq] at hp
  obtain ⟨hcells, hx, hy⟩ := hp
  unfold Levos.Textmode.scroll
  rw [hy]
  split
  · exact ⟨by simp [Textmode.pane, textmodeScrollup, Levos.Textmode.blank, hcells, hf, hb], hf, hb⟩
  · exact ⟨by simp [Textmode.pane, hcells, hx, hy], hf, hb⟩

theorem Alike.putchar (h : Alike d e) (n k : Nat) (c fgcol bgcol : UInt8) :
    Alike (textmodePutchar d n c fgcol bgcol) (textmodePutchar e k c fgcol bgcol) := by
  have hs := (h.wrap c).scroll n k
  unfold textmodePutchar
  split
  · exact h
  · split
    · exact hs
    · obtain ⟨hp, hf, hb⟩ := hs
      simp only [Textmode.pane, Pane.mk.injEq] at hp
      obtain ⟨hcells, hx, hy⟩ := hp
      exact ⟨by simp [Textmode.pane, hcells, hx, hy], hf, hb⟩

theorem putchar_mark (d : Levos.Textmode) (n : Nat) (c fgcol bgcol : UInt8) :
    mark (textmodePutchar d n c fgcol bgcol) =
      if Scrolls (pane d) c then (n, 0, rowFor (pane d) c - 1) else mark d := by
  have hs : mark ((d.wrap c).scroll n) =
      if 25 ≤ rowFor (pane d) c then (n, 0, rowFor (pane d) c - 1) else mark d := by
    rw [scroll_mark, wrap_row, wrap_mark]
  unfold textmodePutchar Scrolls
  by_cases hc : c = 0
  · simp [hc]
  · simp only [hc, ↓reduceIte, ne_eq, not_false_eq_true, true_and]
    rw [← hs]
    split <;> rfl

theorem putchar_colours (d : Levos.Textmode) (n : Nat) (c fgcol bgcol : UInt8) :
    (textmodePutchar d n c fgcol bgcol).fgcol = d.fgcol ∧
      (textmodePutchar d n c fgcol bgcol).bgcol = d.bgcol := by
  unfold textmodePutchar Levos.Textmode.scroll Levos.Textmode.wrap textmodeScrollup
  split_ifs <;> exact ⟨rfl, rfl⟩

/-- One round of a flush draws one character, and moves the mark only if the
screen scrolls. -/
theorem update_round (hf : d.fgcol = fgcol) (hb : d.bgcol = bgcol) :
    pane (updateRound n fgcol bgcol d c) = put fgcol bgcol (pane d) c ∧
      mark (updateRound n fgcol bgcol d c) =
        (if Scrolls (pane d) c then (n, 0, rowFor (pane d) c - 1) else mark d) ∧
      (updateRound n fgcol bgcol d c).fgcol = fgcol ∧
      (updateRound n fgcol bgcol d c).bgcol = bgcol := by
  have hround : updateRound n fgcol bgcol d c = textmodePutchar d n c fgcol bgcol := by
    unfold updateRound
    split
    · rw [← hf, ← hb]
    · rfl
  have hsame : Alike d (display fgcol bgcol (pane d)) := ⟨rfl, hf, hb⟩
  have hcolours := putchar_colours d n c fgcol bgcol
  rw [hround]
  exact ⟨(hsame.putchar n 0 c fgcol bgcol).pane, putchar_mark d n c fgcol bgcol,
    hcolours.1.trans hf, hcolours.2.trans hb⟩

/-- The pane after a character that does not scroll. -/
theorem put_quiet (hc : c ≠ 0) (h : ¬ Scrolls p c) :
    put fgcol bgcol p c =
      if c = newline then ⟨p.cells, 0, p.y + 1⟩
      else if p.x > 80 then
        ⟨Function.update p.cells (80 * (p.y + 1)) (cellOf fgcol bgcol c), 1, p.y + 1⟩
      else ⟨Function.update p.cells (80 * p.y + p.x) (cellOf fgcol bgcol c), p.x + 1, p.y⟩ := by
  have hrow : ¬ 25 ≤ ((display fgcol bgcol p).wrap c).y := by
    rw [wrap_row]
    exact fun hle => h ⟨hc, hle⟩
  have hscroll : ((display fgcol bgcol p).wrap c).scroll 0 = (display fgcol bgcol p).wrap c :=
    if_neg hrow
  unfold put textmodePutchar
  simp only [hc, ↓reduceIte, hscroll]
  by_cases hn : c = newline
  · simp [hn, Levos.Textmode.wrap, pane, display]
  · by_cases hx : p.x > 80 <;> simp [hn, hx, Levos.Textmode.wrap, pane, display]

/-- Where a quiet character is put depends on the cursor alone, and there it
covers whatever was shown. -/
theorem put_cover (fgcol bgcol : UInt8) (hx : p.x = q.x) (hy : p.y = q.y) (h : ¬ Scrolls p c) :
    (put fgcol bgcol p c).x = (put fgcol bgcol q c).x ∧
      (put fgcol bgcol p c).y = (put fgcol bgcol q c).y ∧
      ∀ a, (put fgcol bgcol p c).cells a = (put fgcol bgcol q c).cells a ∨
        ((put fgcol bgcol p c).cells a = p.cells a ∧
          (put fgcol bgcol q c).cells a = q.cells a) := by
  by_cases hc : c = 0
  · subst hc
    exact ⟨hx, hy, fun a => .inr ⟨rfl, rfl⟩⟩
  · have hq : ¬ Scrolls q c := by
      simpa only [Scrolls, rowFor, hx, hy] using h
    rw [put_quiet hc h, put_quiet hc hq, hx, hy]
    have hcover : ∀ b a, Function.update p.cells b (cellOf fgcol bgcol c) a =
        Function.update q.cells b (cellOf fgcol bgcol c) a ∨
        (Function.update p.cells b (cellOf fgcol bgcol c) a = p.cells a ∧
          Function.update q.cells b (cellOf fgcol bgcol c) a = q.cells a) := by
      intro b a
      by_cases hab : a = b
      · subst hab
        simp
      · simp [hab]
    split
    · exact ⟨rfl, rfl, fun a => .inr ⟨rfl, rfl⟩⟩
    · split
      · exact ⟨rfl, rfl, hcover _⟩
      · exact ⟨rfl, rfl, hcover _⟩

theorem draw_cons (fgcol bgcol : UInt8) (p : Pane) (c : UInt8) (text : Bytes) :
    draw fgcol bgcol p (c :: text) = draw fgcol bgcol (put fgcol bgcol p c) text := rfl

theorem draw_append (fgcol bgcol : UInt8) (p : Pane) (text more : Bytes) :
    draw fgcol bgcol p (text ++ more) = draw fgcol bgcol (draw fgcol bgcol p text) more :=
  List.foldl_append

/-- The same for a whole text. -/
theorem draw_cover (hx : p.x = q.x) (hy : p.y = q.y) (h : Quiet fgcol bgcol p text) :
    (draw fgcol bgcol p text).x = (draw fgcol bgcol q text).x ∧
      (draw fgcol bgcol p text).y = (draw fgcol bgcol q text).y ∧
      ∀ a, (draw fgcol bgcol p text).cells a = (draw fgcol bgcol q text).cells a ∨
        ((draw fgcol bgcol p text).cells a = p.cells a ∧
          (draw fgcol bgcol q text).cells a = q.cells a) := by
  induction text generalizing p q with
  | nil => exact ⟨hx, hy, fun a => .inr ⟨rfl, rfl⟩⟩
  | cons c text ih =>
    obtain ⟨hx', hy', hcells⟩ := put_cover fgcol bgcol hx hy h.1
    obtain ⟨hx'', hy'', hrest⟩ := ih hx' hy' h.2
    refine ⟨hx'', hy'', ?_⟩
    intro a
    rcases hrest a with he | ⟨hp, hq⟩
    · exact .inl he
    · rcases hcells a with he | ⟨hp', hq'⟩
      · exact .inl (hp.trans (he.trans hq.symm))
      · exact .inr ⟨hp.trans hp', hq.trans hq'⟩

/-- A quiet text that is drawn once more from where it began changes nothing. -/
theorem draw_again (h : Quiet fgcol bgcol p text) :
    draw fgcol bgcol ⟨(draw fgcol bgcol p text).cells, p.x, p.y⟩ text =
      draw fgcol bgcol p text := by
  obtain ⟨hx, hy, hcells⟩ := draw_cover (p := p)
    (q := ⟨(draw fgcol bgcol p text).cells, p.x, p.y⟩) rfl rfl h
  refine Pane.ext (funext fun a => ?_) hx.symm hy.symm
  rcases hcells a with he | ⟨_, he⟩
  · exact he.symm
  · exact he

theorem Quiet.append (h : Quiet fgcol bgcol p text)
    (h' : Quiet fgcol bgcol (draw fgcol bgcol p text) more) :
    Quiet fgcol bgcol p (text ++ more) := by
  induction text generalizing p with
  | nil => exact h'
  | cons c text ih => exact ⟨h.1, ih h.2 h'⟩

theorem put_row (fgcol bgcol c : UInt8) (h : p.y ≤ 24) :
    (put fgcol bgcol p c).y ≤ 24 ∧ (p.y = 24 ∨ Scrolls p c → (put fgcol bgcol p c).y = 24) := by
  by_cases hc : c = 0
  · subst hc
    exact ⟨h, fun hs => hs.resolve_right (fun hs => hs.1 rfl)⟩
  · by_cases hs : Scrolls p c
    · have hrow := hs.2
      have hle : rowFor p c ≤ 25 := by
        unfold rowFor
        split <;> omega
      have hy : (((display fgcol bgcol p).wrap c).scroll 0).y = 24 := by
        unfold Levos.Textmode.scroll
        rw [if_pos (by rw [wrap_row]; exact hrow)]
        change ((display fgcol bgcol p).wrap c).y - 1 = 24
        rw [wrap_row]
        exact Nat.sub_eq_of_eq_add (Nat.le_antisymm hle hrow)
      have hput : (put fgcol bgcol p c).y = 24 := by
        unfold put textmodePutchar pane
        rw [if_neg hc]
        simp only
        split
        · exact hy
        · exact hy
      exact ⟨hput.le, fun _ => hput⟩
    · have hlt : rowFor p c < 25 := Nat.not_le.mp (fun hle => hs ⟨hc, hle⟩)
      rw [put_quiet hc hs]
      unfold rowFor at hlt
      split
      · rename_i hn
        rw [if_pos (.inr hn)] at hlt
        exact ⟨Nat.le_of_lt_succ hlt, fun ho => absurd (ho.resolve_right hs) (by omega)⟩
      · rename_i hn
        split
        · rename_i hx
          rw [if_pos (.inl hx)] at hlt
          exact ⟨Nat.le_of_lt_succ hlt, fun ho => absurd (ho.resolve_right hs) (by omega)⟩
        · exact ⟨h, fun ho => ho.resolve_right hs⟩

/-- A text that is not quiet leaves the cursor in the last row. -/
theorem draw_row (h : p.y ≤ 24) : (draw fgcol bgcol p text).y ≤ 24 ∧
    (p.y = 24 ∨ ¬ Quiet fgcol bgcol p text → (draw fgcol bgcol p text).y = 24) := by
  induction text generalizing p with
  | nil => exact ⟨h, fun ho => ho.resolve_right (fun hn => hn trivial)⟩
  | cons c text ih =>
    obtain ⟨hle, hlast⟩ := put_row fgcol bgcol c h
    obtain ⟨hle', hlast'⟩ := ih hle
    refine ⟨hle', ?_⟩
    intro ho
    refine hlast' ?_
    by_cases hq : Quiet fgcol bgcol (put fgcol bgcol p c) text
    · refine .inl (hlast ?_)
      by_cases hs : Scrolls p c
      · exact .inr hs
      · exact .inl (ho.resolve_right (fun hn => hn ⟨hs, hq⟩))
    · exact .inr hq

/-- A flush over a text: the pane is drawn, and the mark moves to the end of all
that was written if the screen has scrolled. -/
theorem update_rounds (hf : d.fgcol = fgcol) (hb : d.bgcol = bgcol) (hy : d.y ≤ 24) :
    pane (text.foldl (updateRound n fgcol bgcol) d) = draw fgcol bgcol (pane d) text ∧
      (Quiet fgcol bgcol (pane d) text →
        mark (text.foldl (updateRound n fgcol bgcol) d) = mark d) ∧
      (¬ Quiet fgcol bgcol (pane d) text →
        mark (text.foldl (updateRound n fgcol bgcol) d) = (n, 0, 24)) ∧
      (text.foldl (updateRound n fgcol bgcol) d).fgcol = fgcol ∧
      (text.foldl (updateRound n fgcol bgcol) d).bgcol = bgcol := by
  induction text generalizing d with
  | nil => exact ⟨rfl, fun _ => rfl, fun hn => absurd trivial hn, hf, hb⟩
  | cons c text ih =>
    obtain ⟨hp, hm, hf', hb'⟩ := update_round (n := n) (c := c) hf hb
    have hrow := put_row fgcol bgcol c (p := pane d) hy
    have hy' : (updateRound n fgcol bgcol d c).y ≤ 24 := (congrArg Pane.y hp).trans_le hrow.1
    obtain ⟨hp', hq, hn, hcolours⟩ := ih hf' hb' hy'
    rw [hp] at hp' hq hn
    refine ⟨hp', ?_, ?_, hcolours⟩
    · rintro ⟨hs, hquiet⟩
      rw [List.foldl_cons, hq hquiet, hm, if_neg hs]
    · intro hloud
      rw [List.foldl_cons]
      by_cases hquiet : Quiet fgcol bgcol (put fgcol bgcol (pane d) c) text
      · have hs : Scrolls (pane d) c := by
          by_contra hs
          exact hloud ⟨hs, hquiet⟩
        have hlast : rowFor (pane d) c = 25 := by
          refine Nat.le_antisymm ?_ hs.2
          unfold rowFor pane
          split
          · exact Nat.succ_le_succ hy
          · exact Nat.le_succ_of_le hy
        rw [hq hquiet, hm, if_pos hs, hlast]
      · exact hn hquiet

/-- Whether a text is quiet depends on the cursor alone. -/
theorem Quiet.move (h : Quiet fgcol bgcol p text) (hx : p.x = q.x) (hy : p.y = q.y) :
    Quiet fgcol bgcol q text := by
  induction text generalizing p q with
  | nil => trivial
  | cons c text ih =>
    obtain ⟨hx', hy', _⟩ := put_cover fgcol bgcol hx hy h.1
    refine ⟨?_, ih h.2 hx' hy'⟩
    simpa only [Scrolls, rowFor, hx, hy] using h.1

/-- A line ends alike wherever in the line the cursor stands. -/
theorem put_newline (hc : p.cells = q.cells) (hy : p.y = q.y) :
    put fgcol bgcol p newline = put fgcol bgcol q newline := by
  simp [put, textmodePutchar, display, Levos.Textmode.wrap, hc, hy, show newline ≠ 0 by decide]

theorem slice_rest (m : Levos.Tty) (h : a ≤ m.bufpos) :
    slice m.buffer a (m.bufpos - a) = m.contents.drop a := by
  have hsplit : m.contents = slice m.buffer 0 a ++ slice m.buffer a (m.bufpos - a) := by
    have happend := slice_append m.buffer 0 a (m.bufpos - a)
    rwa [Nat.add_sub_cancel' h, Nat.zero_add] at happend
  rw [hsplit, List.drop_left' (slice_length m.buffer 0 a)]

/-- Where the next flush begins: before a text that can be drawn again, or, if
the last flush has scrolled, behind everything and at the start of the last row. -/
def Marked (fgcol bgcol : UInt8) (b : Pane) (text : Bytes) (m : Nat × Nat × Nat) : Prop :=
  (∃ before after, text = before ++ after ∧
    m = (before.length, (draw fgcol bgcol b before).x, (draw fgcol bgcol b before).y) ∧
    Quiet fgcol bgcol (draw fgcol bgcol b before) after) ∨
  (m = (text.length, 0, 24) ∧ (draw fgcol bgcol b text).y = 24)

/-- The tty holds the text and the display shows it, as drawn on the pane `b`. -/
structure Shown (fgcol bgcol : UInt8) (b : Pane) (text : Bytes) (t : Terminal) : Prop where
  active : t.active = true
  size : t.tty.buflen = ttyBufferSize
  position : t.tty.bufpos = text.length
  contents : t.tty.contents = text
  foreground : t.disp.fgcol = fgcol
  background : t.disp.bgcol = bgcol
  drawn : pane t.disp = draw fgcol bgcol b text
  marked : Marked fgcol bgcol b text (mark t.disp)

/-- After a flush that has scrolled, the next text is written with the cursor at
the start of a line, or begins with the end of a line. -/
def LineStart (t : Terminal) (text : Bytes) : Prop :=
  t.disp.lastPage = t.tty.bufpos → t.disp.x = 0 ∨ text.head? = some newline

variable {b : Pane} {t : Terminal} {more : Bytes}

theorem fresh_shown (buffer : Nat → UInt8) (d : Levos.Textmode) :
    Shown d.fgcol d.bgcol (pane (Terminal.fresh buffer d).disp) [] (Terminal.fresh buffer d) where
  active := rfl
  size := rfl
  position := rfl
  contents := rfl
  foreground := rfl
  background := rfl
  drawn := rfl
  marked := .inl ⟨[], [], rfl, rfl, trivial⟩

/-- The pane a flush begins with. -/
def begun (d : Levos.Textmode) : Pane := ⟨d.cells, d.lastX, d.lastY⟩

/-- `textmode_update` as a whole. -/
theorem update_spec (d : Levos.Textmode) (m : Levos.Tty) (hpage : d.lastPage ≤ m.bufpos)
    (hrow : d.lastY ≤ 24) :
    pane (textmodeUpdate d m) =
        draw d.fgcol d.bgcol (begun d) (m.contents.drop d.lastPage) ∧
      (Quiet d.fgcol d.bgcol (begun d) (m.contents.drop d.lastPage) →
        mark (textmodeUpdate d m) = mark d) ∧
      (¬ Quiet d.fgcol d.bgcol (begun d) (m.contents.drop d.lastPage) →
        mark (textmodeUpdate d m) = (m.bufpos, 0, 24)) ∧
      (textmodeUpdate d m).fgcol = d.fgcol ∧ (textmodeUpdate d m).bgcol = d.bgcol := by
  rw [← slice_rest m hpage]
  exact update_rounds (d := { d with x := d.lastX, y := d.lastY }) rfl rfl hrow

/-- A write and a flush, given what is drawn from where the flush begins. -/
theorem Shown.flush (h : Shown fgcol bgcol b text t)
    (hroom : (text ++ more).length ≤ ttyBufferSize) (hpage : t.disp.lastPage ≤ text.length)
    (hrow : t.disp.lastY ≤ 24)
    (hdraw : draw fgcol bgcol (begun t.disp) ((text ++ more).drop t.disp.lastPage) =
      draw fgcol bgcol b (text ++ more))
    (hquiet : Quiet fgcol bgcol (begun t.disp) ((text ++ more).drop t.disp.lastPage) →
      Marked fgcol bgcol b (text ++ more) (mark t.disp)) :
    ∃ u, t.pair more = some u ∧ Shown fgcol bgcol b (text ++ more) u := by
  have hfits : t.tty.bufpos + more.length ≤ t.tty.buflen := by
    rw [h.position, h.size, ← List.length_append]
    exact hroom
  obtain ⟨_, hsize, hpos, hcontents⟩ := write_contents t.tty more hfits (by rw [h.size]; decide)
  rw [h.position, ← List.length_append] at hpos
  rw [h.contents] at hcontents
  obtain ⟨hpane, hsame, hmoved, hf, hb⟩ := update_spec t.disp (ttyGenericWrite t.tty more).2
    (by rw [hpos, List.length_append]; omega) hrow
  rw [hcontents, h.foreground, h.background] at hpane hsame hmoved
  refine ⟨⟨(ttyGenericWrite t.tty more).2, true,
    textmodeUpdate t.disp (ttyGenericWrite t.tty more).2⟩, ?_, ?_⟩
  · simp only [Terminal.pair, Terminal.ttyGenericFlush, Terminal.write, h.active, ↓reduceIte]
  · refine ⟨rfl, hsize.trans h.size, hpos, hcontents, hf.trans h.foreground,
      hb.trans h.background, hpane.trans hdraw, ?_⟩
    by_cases hq : Quiet fgcol bgcol (begun t.disp) ((text ++ more).drop t.disp.lastPage)
    · rw [hsame hq]
      exact hquiet hq
    · refine .inr ⟨(hmoved hq).trans (by rw [hpos]), ?_⟩
      rw [← hdraw]
      exact (draw_row hrow).2 (.inr hq)

/-- The flush begins before a text that is already there, and draws it again. -/
theorem Shown.resume (h : Shown fgcol bgcol b text t) (hb : b.y ≤ 24)
    (hroom : (text ++ more).length ≤ ttyBufferSize) (htext : text = before ++ after)
    (hmark : mark t.disp = (before.length, (draw fgcol bgcol b before).x,
      (draw fgcol bgcol b before).y))
    (hquiet : Quiet fgcol bgcol (draw fgcol bgcol b before) after) :
    ∃ u, t.pair more = some u ∧ Shown fgcol bgcol b (text ++ more) u := by
  subst htext
  simp only [mark, Prod.mk.injEq] at hmark
  obtain ⟨hpage, hx, hy⟩ := hmark
  have hdrop : (before ++ after ++ more).drop t.disp.lastPage = after ++ more := by
    rw [hpage, List.append_assoc, List.drop_left]
  have hbegun : begun t.disp = ⟨(draw fgcol bgcol (draw fgcol bgcol b before) after).cells,
      (draw fgcol bgcol b before).x, (draw fgcol bgcol b before).y⟩ := by
    have hcells := congrArg Pane.cells h.drawn
    rw [draw_append] at hcells
    exact Pane.ext hcells hx hy
  refine h.flush hroom (by rw [hpage, List.length_append]; omega)
    (by rw [hy]; exact (draw_row hb).1) ?_ ?_
  · rw [hdrop, hbegun, draw_append, draw_again hquiet, draw_append, draw_append]
  · rw [hdrop, hbegun]
    intro hq
    refine .inl ⟨before, after ++ more, List.append_assoc .., ?_, hq.move rfl rfl⟩
    simp only [mark, hpage, hx, hy]

/-- The flush begins behind everything, at the start of the last row, and the
text begins with the end of a line. -/
theorem Shown.break (h : Shown fgcol bgcol b text t)
    (hroom : (text ++ newline :: more).length ≤ ttyBufferSize)
    (hmark : mark t.disp = (text.length, 0, 24)) (hlast : (draw fgcol bgcol b text).y = 24) :
    ∃ u, t.pair (newline :: more) = some u ∧ Shown fgcol bgcol b (text ++ newline :: more) u := by
  simp only [mark, Prod.mk.injEq] at hmark
  obtain ⟨hpage, hx, hy⟩ := hmark
  have hdrop : (text ++ newline :: more).drop t.disp.lastPage = newline :: more := by
    rw [hpage, List.drop_left]
  have hcells : (pane t.disp).cells = (draw fgcol bgcol b text).cells := by rw [h.drawn]
  have hline : put fgcol bgcol (begun t.disp) newline =
      put fgcol bgcol (draw fgcol bgcol b text) newline :=
    put_newline hcells (hy.trans hlast.symm)
  refine h.flush hroom hpage.le hy.le ?_ ?_
  · rw [hdrop, draw_append, draw_cons, draw_cons, hline]
  · rw [hdrop]
    rintro ⟨hs, _⟩
    refine absurd ⟨by decide, ?_⟩ hs
    simp [rowFor, begun, hy]

theorem Shown.pair (h : Shown fgcol bgcol b text t) (hb : b.y ≤ 24) (hg : LineStart t more)
    (hroom : (text ++ more).length ≤ ttyBufferSize) :
    ∃ u, t.pair more = some u ∧ Shown fgcol bgcol b (text ++ more) u := by
  rcases h.marked with ⟨before, after, htext, hmark, hquiet⟩ | ⟨hmark, hlast⟩
  · exact h.resume hb hroom htext hmark hquiet
  · have hpage : t.disp.lastPage = t.tty.bufpos := by
      rw [h.position]
      exact congrArg Prod.fst hmark
    rcases hg hpage with hx | hnewline
    · have hcursor : (draw fgcol bgcol b text).x = 0 := (congrArg Pane.x h.drawn).symm.trans hx
      exact h.resume hb hroom (List.append_nil text).symm (by rw [hmark, hcursor, hlast]) trivial
    · obtain ⟨rest, rfl⟩ := List.head?_eq_some_iff.mp hnewline
      exact h.break hroom hmark hlast

/-- Every text that is written piece by piece, each piece at the start of a line
or ending one if the screen has just scrolled, is shown like the text drawn at once. -/
theorem pieces_shown (h : Shown fgcol bgcol b text t) (hb : b.y ≤ 24)
    (hroom : (text ++ pieces.flatten).length ≤ ttyBufferSize)
    (hg : Guarded Terminal.pair LineStart t pieces) :
    ∃ u, run Terminal.pair t pieces = some u ∧ Shown fgcol bgcol b (text ++ pieces.flatten) u := by
  induction pieces generalizing text t with
  | nil => exact ⟨t, rfl, by simpa using h⟩
  | cons more pieces ih =>
    rw [List.flatten_cons, ← List.append_assoc] at hroom ⊢
    obtain ⟨u, hu, hs⟩ := h.pair hb hg.1 (by simp only [List.length_append] at hroom ⊢; omega)
    simp only [run, hu]
    exact ih hs hroom (hg.tail hu)

/-- The 25 rows of 80 cells. -/
def SameScreen (t u : Terminal) : Prop := ∀ i < screenCells, t.disp.cells i = u.disp.cells i

/-- After the last of the pieces the screen is as after writing all of them at
once. -/
theorem split_writes_agree (buffer : Nat → UInt8) (d : Levos.Textmode) (pieces : List Bytes)
    (hroom : pieces.flatten.length ≤ ttyBufferSize)
    (hg : Guarded Terminal.pair LineStart (Terminal.fresh buffer d) pieces) :
    ∃ t u, run Terminal.pair (Terminal.fresh buffer d) pieces = some t ∧
      (Terminal.fresh buffer d).pair pieces.flatten = some u ∧ SameScreen t u := by
  have hfresh := fresh_shown buffer d
  obtain ⟨t, ht, hsplit⟩ := pieces_shown hfresh (Nat.zero_le _) hroom hg
  have hstart : LineStart (Terminal.fresh buffer d) pieces.flatten := fun _ => .inl rfl
  obtain ⟨u, hu, hwhole⟩ := hfresh.pair (Nat.zero_le _) hstart hroom
  refine ⟨t, u, ht, hu, ?_⟩
  intro i _
  exact congrFun (congrArg Pane.cells (hsplit.drawn.trans hwhole.drawn.symm)) i

/-- The display as `priv` declares it, on memory that is zero. -/
def darkDisplay : Levos.Textmode := ⟨fun _ => 0, 0, 0, 0, 0, 0, 0, 15⟩

theorem split_writes_agree_two :
    ∃ t u, run Terminal.pair (Terminal.fresh (fun _ => 0) darkDisplay) [[97], [98]] = some t ∧
      (Terminal.fresh (fun _ => 0) darkDisplay).pair [97, 98] = some u ∧ SameScreen t u := by
  refine split_writes_agree (fun _ => 0) darkDisplay [[97], [98]] (by decide)
    (.cons rfl (fun _ => .inl rfl) (.single ?_))
  intro hpage
  cases hpage

/-- A text that fills the screen with lines and begins the last one is written,
then one more character: it is drawn over the beginning of that line. -/
theorem split_write_overdrawn :
    ¬ ∀ (buffer : Nat → UInt8) (d : Levos.Textmode) (pieces : List Bytes),
      pieces.flatten.length ≤ ttyBufferSize →
      ∃ t u, run Terminal.pair (Terminal.fresh buffer d) pieces = some t ∧
        (Terminal.fresh buffer d).pair pieces.flatten = some u ∧ SameScreen t u := by
  intro h
  obtain ⟨t, u, ht, hu, hsame⟩ := h (fun _ => 0) darkDisplay
    [List.replicate 25 newline ++ [97], [98]] (by decide)
  cases ht
  cases hu
  have hcell := hsame 1920 (by decide)
  revert hcell
  decide +kernel

end Levos.Proofs.Textmode
