import Levos.Textmode

namespace Levos.Proofs.Grid
open Levos.Library

variable {s t : Screen} {k : Key} {text : List Key}

/-- Every character stands in a cell of its own within the grid, the one the layout
has for it, and is shown there. -/
structure Placed (s : Screen) : Prop where
  same : s.placed = s.layout.laid
  inside : ∀ e ∈ s.placed, e.1 < screenCells
  own : (s.placed.map Prod.fst).Nodup
  shown : ∀ e ∈ s.placed, s.disp.cells e.1 = e.2

/-- No store falls outside the visible words. -/
def Visible (s : Screen) : Prop := ∀ r ∈ s.stored, r.1 + r.2 ≤ screenCells

/-- From column `x` of row `y` no line goes on behind its 80th character, but for one
last character that only newlines follow, and these stay within the screen. -/
def Fits : Nat → Nat → List Key → Prop
  | _, _, [] => True
  | x, y, k :: text =>
    if k.c = newline then Fits 0 (min 24 (y + 1)) text
    else if x < 80 then Fits (x + 1) y text
    else y + 1 + text.length ≤ 24 ∧ ∀ l ∈ text, l.c = newline

def newlines (text : List Key) : Nat := text.countP (fun k => k.c = newline)

/-- The cursor is where the layout has it, and every character stands before it. -/
structure Inv (s : Screen) : Prop where
  column : s.layout.x = s.disp.x
  row : s.layout.y = s.disp.y
  width : s.disp.x ≤ 80
  height : s.disp.y ≤ 24
  same : s.placed = s.layout.laid
  before : ∀ e ∈ s.placed, e.1 < 80 * s.disp.y + s.disp.x
  own : (s.placed.map Prod.fst).Nodup
  shown : ∀ e ∈ s.placed, s.disp.cells e.1 = e.2

theorem Inv.placed (h : Inv s) : Placed s where
  same := h.same
  inside e he := by
    have hlt := h.before e he
    have hwidth := h.width
    have hheight := h.height
    simp only [screenCells]
    omega
  own := h.own
  shown := h.shown

theorem row_up_ne {ps : List (Nat × UInt16)} (h : ps ≠ []) : rowUp ps ≠ ps := by
  intro heq
  obtain ⟨e, rest, rfl⟩ := List.exists_cons_of_ne_nil h
  have hlen := congrArg List.length heq
  rw [rowUp, List.length_map, List.length_filter_eq_length_iff] at hlen
  rw [rowUp, List.filter_eq_self.mpr hlen, List.map_cons, List.cons.injEq] at heq
  have hrow := hlen e List.mem_cons_self
  have hsame := congrArg Prod.fst heq.1
  simp only [decide_eq_true_eq] at hrow
  simp only at hsame
  omega

theorem mem_row_up {ps : List (Nat × UInt16)} (he : e ∈ rowUp ps) :
    ∃ p ∈ ps, p.1 = e.1 + 80 ∧ p.2 = e.2 := by
  obtain ⟨p, hp, rfl⟩ := List.mem_map.mp he
  obtain ⟨hmem, hrow⟩ := List.mem_filter.mp hp
  simp only [decide_eq_true_eq] at hrow
  exact ⟨p, hmem, by simp only; omega, rfl⟩

theorem row_up_own {ps : List (Nat × UInt16)} (h : (ps.map Prod.fst).Nodup) :
    ((rowUp ps).map Prod.fst).Nodup := by
  have hrows : ((ps.filter (fun e => 80 ≤ e.1)).map Prod.fst).Nodup :=
    h.sublist (List.filter_sublist.map _)
  have hfst : (rowUp ps).map Prod.fst =
      ((ps.filter (fun e => 80 ≤ e.1)).map Prod.fst).map (· - 80) := by
    simp [rowUp, Function.comp_def]
  rw [hfst]
  refine List.Nodup.map_on ?_ hrows
  intro a ha b hb hab
  obtain ⟨e, he, rfl⟩ := List.mem_map.mp ha
  obtain ⟨f, hf, rfl⟩ := List.mem_map.mp hb
  have hea := (List.mem_filter.mp he).2
  have hfb := (List.mem_filter.mp hf).2
  simp only [decide_eq_true_eq] at hea hfb
  omega

theorem copy_rows_outside (cells : Nat → UInt16) (n : Nat) (hi : 80 * n ≤ i) :
    (List.range n).foldl copyRow cells i = cells i := by
  induction n with
  | zero => rfl
  | succ n ih =>
    rw [List.range_succ, List.foldl_append, List.foldl_cons, List.foldl_nil, copyRow,
      if_neg (by omega)]
    exact ih (by omega)

theorem copy_rows (cells : Nat → UInt16) (n : Nat) (hi : i < 80 * n) :
    (List.range n).foldl copyRow cells i = cells (i + 80) := by
  induction n with
  | zero => omega
  | succ n ih =>
    rw [List.range_succ, List.foldl_append, List.foldl_cons, List.foldl_nil, copyRow]
    split
    · exact copy_rows_outside cells n (by omega)
    · exact ih (by omega)

/-- A newline above the last row. -/
theorem newline_step (hk : k.c = newline) (hy : s.disp.y < 24) :
    s.step k = some
      { disp := { s.disp with x := 0, y := s.disp.y + 1 }
        placed := s.placed
        stored := s.stored
        layout := s.layout.down } := by
  have hrow : ¬ s.disp.y + 1 ≥ 25 := by omega
  have hn : newline ≠ 0 := by decide
  simp [Screen.step, textmodePutchar, Levos.Textmode.wrap, Levos.Textmode.scroll, Layout.step, hk,
    hrow, hn]

/-- A newline in the last row scrolls: what is shown goes a row up. -/
theorem newline_scroll (hk : k.c = newline) (hy : s.disp.y = 24) :
    ∃ d, s.step k = some ⟨d, rowUp s.placed, s.stored ++ Screen.scrollStores, s.layout.down⟩ ∧
      d.x = 0 ∧ d.y = 24 ∧ ∀ i < screenCells, d.cells i = s.disp.cells (i + 80) := by
  have hn : newline ≠ 0 := by decide
  refine ⟨((s.disp.wrap k.c).scroll k.bufpos), ?_, ?_, ?_, ?_⟩
  · simp [Screen.step, textmodePutchar, Levos.Textmode.wrap, Levos.Textmode.scroll, Layout.step,
      hk, hy, hn]
  · simp [Levos.Textmode.wrap, Levos.Textmode.scroll, hk, hy]
  · simp [Levos.Textmode.wrap, Levos.Textmode.scroll, hk, hy]
  · intro i hi
    have hcells : ((s.disp.wrap k.c).scroll k.bufpos).cells i =
        memset16 ((List.range 25).foldl copyRow s.disp.cells) (25 * 80)
          (s.disp.wrap k.c).blank (80 * 2) i := by
      simp [Levos.Textmode.wrap, Levos.Textmode.scroll, textmodeScrollup, hk, hy]
    simp only [screenCells] at hi
    rw [hcells, memset16, if_neg (by omega)]
    exact copy_rows s.disp.cells 25 (by omega)

/-- A character in the line of the cursor; column 80 is still taken for one of it. -/
theorem char_step (hk : k.c ≠ newline) (hx : s.disp.x ≤ 80) (hy : s.disp.y ≤ 24) :
    s.step k = some
      { disp := { s.disp with
          cells := Function.update s.disp.cells (80 * s.disp.y + s.disp.x) k.word
          x := s.disp.x + 1 }
        placed := s.placed ++ [(80 * s.disp.y + s.disp.x, k.word)]
        stored := s.stored ++ [(80 * s.disp.y + s.disp.x, 1)]
        layout := (if s.layout.x < 80 then s.layout else s.layout.down).put k.word } := by
  have hcol : ¬ s.disp.x > 80 := by omega
  have hrow : ¬ s.disp.y ≥ 25 := by omega
  simp [Screen.step, textmodePutchar, Levos.Textmode.wrap, Levos.Textmode.scroll, Layout.step,
    Key.word, hk, hcol, hrow, k.nonzero]

/-- A character behind column 80 begins the next line. -/
theorem char_wrap (hk : k.c ≠ newline) (hx : 80 < s.disp.x) (hy : s.disp.y < 24) :
    s.step k = some
      { disp := { s.disp with
          cells := Function.update s.disp.cells (80 * (s.disp.y + 1)) k.word
          x := 1
          y := s.disp.y + 1 }
        placed := s.placed ++ [(80 * (s.disp.y + 1), k.word)]
        stored := s.stored ++ [(80 * (s.disp.y + 1), 1)]
        layout := (if s.layout.x < 80 then s.layout else s.layout.down).put k.word } := by
  have hrow : ¬ s.disp.y + 1 ≥ 25 := by omega
  simp [Screen.step, textmodePutchar, Levos.Textmode.wrap, Levos.Textmode.scroll, Layout.step,
    Key.word, hk, hx, hrow, k.nonzero]

theorem Inv.feed (h : Inv s) (hk : k.c = newline) :
    ∃ t, s.step k = some t ∧ Inv t ∧ t.disp.x = 0 ∧ t.disp.y = min 24 (s.disp.y + 1) ∧
      t.stored = s.stored ++ if s.disp.y < 24 then [] else Screen.scrollStores := by
  have hrow := h.row
  have hheight := h.height
  rcases Nat.lt_or_eq_of_le hheight with hlt | hlast
  · have hdown : s.layout.down = { s.layout with x := 0, y := s.layout.y + 1 } :=
      if_pos (by omega)
    refine ⟨_, newline_step hk hlt, ?_, rfl, by simp only; omega, by simp [hlt]⟩
    rw [hdown]
    refine ⟨rfl, congrArg (· + 1) hrow, Nat.zero_le _, hlt, h.same, ?_, h.own, h.shown⟩
    intro e he
    have hbefore := h.before e he
    have hwidth := h.width
    simp only
    omega
  · have hdown : s.layout.down = { s.layout with x := 0, laid := rowUp s.layout.laid } :=
      if_neg (by omega)
    obtain ⟨d, hd, hx, hy, hcells⟩ := newline_scroll hk hlast
    refine ⟨_, hd, ?_, hx, by simp only [hy]; omega, by simp [hlast]⟩
    rw [hdown]
    refine ⟨hx.symm, by rw [hy, ← hlast, hrow], by simp [hx], by simp [hy],
      congrArg rowUp h.same, ?_, row_up_own h.own, ?_⟩
    · intro e he
      obtain ⟨p, hp, hcell, -⟩ := mem_row_up he
      have hbefore := h.before p hp
      have hwidth := h.width
      simp only [hx, hy]
      omega
    · intro e he
      obtain ⟨p, hp, hcell, hword⟩ := mem_row_up he
      have hbefore := h.before p hp
      have hwidth := h.width
      have hvisible : e.1 < screenCells := by
        simp only [screenCells]
        omega
      rw [← hword, ← h.shown p hp, hcell]
      exact hcells e.1 hvisible

/-- A cell behind all that are taken can be taken. -/
theorem append_own {ps : List (Nat × UInt16)} (h : (ps.map Prod.fst).Nodup)
    (hb : ∀ e ∈ ps, e.1 < i) (w : UInt16) : ((ps ++ [(i, w)]).map Prod.fst).Nodup := by
  rw [List.map_append, List.map_singleton, List.nodup_append]
  refine ⟨h, List.nodup_singleton _, ?_⟩
  intro a ha b hb'
  obtain ⟨e, he, rfl⟩ := List.mem_map.mp ha
  cases List.mem_singleton.mp hb'
  exact Nat.ne_of_lt (hb e he)

theorem append_shown {ps : List (Nat × UInt16)} {cells : Nat → UInt16}
    (h : ∀ e ∈ ps, cells e.1 = e.2) (hb : ∀ e ∈ ps, e.1 < i) (w : UInt16) :
    ∀ e ∈ ps ++ [(i, w)], Function.update cells i w e.1 = e.2 := by
  intro e he
  rcases List.mem_append.mp he with hold | hnew
  · rw [Function.update_of_ne (Nat.ne_of_lt (hb e hold))]
    exact h e hold
  · cases List.mem_singleton.mp hnew
    exact Function.update_self i w cells

theorem Inv.char (h : Inv s) (hk : k.c ≠ newline) (hx : s.disp.x < 80) :
    ∃ t, s.step k = some t ∧ Inv t ∧ t.disp.x = s.disp.x + 1 ∧ t.disp.y = s.disp.y ∧
      t.stored = s.stored ++ [(80 * s.disp.y + s.disp.x, 1)] := by
  have hcolumn := h.column
  refine ⟨_, char_step hk h.width h.height, ?_, rfl, rfl, rfl⟩
  rw [if_pos (by omega)]
  refine ⟨congrArg (· + 1) hcolumn, h.row, hx, h.height, ?_, ?_, append_own h.own h.before _,
    append_shown h.shown h.before _⟩
  · simp only [Layout.put, h.same, h.row, hcolumn]
  · intro e he
    rcases List.mem_append.mp he with hold | hnew
    · exact Nat.lt_succ_of_lt (h.before e hold)
    · cases List.mem_singleton.mp hnew
      exact Nat.lt_succ_self _

/-- The display has put an 81st character into a line and has not noticed that the
line is over: it is a row behind the layout. -/
structure Over (s : Screen) : Prop where
  placed : Placed s
  height : s.layout.y ≤ 24
  behind : s.layout.y = s.disp.y + 1
  column : 80 < s.disp.x ∧ s.layout.x = 1 ∨ s.disp.x = 0 ∧ s.layout.x = 0
  drawn : s.placed ≠ []

theorem Inv.over (h : Inv s) (hk : k.c ≠ newline) (hx : s.disp.x = 80) (hy : s.disp.y < 24) :
    ∃ t, s.step k = some t ∧ Over t ∧ t.layout.y = s.disp.y + 1 ∧
      t.stored = s.stored ++ [(80 * s.disp.y + s.disp.x, 1)] := by
  have hcolumn := h.column
  have hrow := h.row
  have hdown : s.layout.down = { s.layout with x := 0, y := s.layout.y + 1 } :=
    if_pos (by omega)
  refine ⟨_, char_step hk h.width h.height, ?_, ?_, rfl⟩
  · rw [if_neg (by omega), hdown]
    refine ⟨⟨?_, ?_, append_own h.own h.before _, append_shown h.shown h.before _⟩, ?_, ?_, ?_, ?_⟩
    · simp only [Layout.put, h.same, hrow, hx]
      rw [Nat.mul_add]
    · intro e he
      rcases List.mem_append.mp he with hold | hnew
      · exact h.placed.inside e hold
      · cases List.mem_singleton.mp hnew
        simp only [screenCells]
        omega
    · simp only [Layout.put]
      omega
    · simp only [Layout.put]
      omega
    · exact .inl ⟨by simp only [hx]; omega, rfl⟩
    · simp
  · rw [if_neg (by omega), hdown]
    simp only [Layout.put]
    omega

theorem Over.feed (h : Over s) (hk : k.c = newline) (hy : s.layout.y < 24) :
    ∃ t, s.step k = some t ∧ Over t ∧ t.layout.y = s.layout.y + 1 := by
  have hbehind := h.behind
  have hdown : s.layout.down = { s.layout with x := 0, y := s.layout.y + 1 } := if_pos hy
  refine ⟨_, newline_step hk (by omega), ?_, by rw [hdown]⟩
  rw [hdown]
  exact ⟨⟨h.placed.same, h.placed.inside, h.placed.own, h.placed.shown⟩, hy,
    congrArg (· + 1) hbehind, .inr ⟨rfl, rfl⟩, h.drawn⟩

/-- The layout scrolls and the display does not. -/
theorem Over.scroll (h : Over s) (hk : k.c = newline) (hy : s.layout.y = 24) :
    ∃ t, s.step k = some t ∧ ¬ Placed t := by
  have hbehind := h.behind
  have hdown : s.layout.down = { s.layout with x := 0, laid := rowUp s.layout.laid } :=
    if_neg (by omega)
  refine ⟨_, newline_step hk (by omega), ?_⟩
  rw [hdown]
  intro hp
  have hsame : s.placed = rowUp s.layout.laid := hp.same
  rw [← h.placed.same] at hsame
  exact row_up_ne h.drawn hsame.symm

/-- A further character goes to a cell that the layout has not for it. -/
theorem Over.char (h : Over s) (hk : k.c ≠ newline) : ∃ t, s.step k = some t ∧ ¬ Placed t := by
  have hbehind := h.behind
  have hheight := h.height
  have hlayout : (if s.layout.x < 80 then s.layout else s.layout.down) = s.layout := by
    refine if_pos ?_
    rcases h.column with ⟨-, hx⟩ | ⟨-, hx⟩ <;> omega
  rcases h.column with ⟨hx, hlx⟩ | ⟨hx, hlx⟩
  · refine ⟨_, char_wrap hk hx (by omega), ?_⟩
    rw [hlayout]
    intro hp
    have hsame := hp.same
    simp only [Layout.put, h.placed.same, List.append_cancel_left_eq, List.cons.injEq,
      Prod.mk.injEq] at hsame
    omega
  · refine ⟨_, char_step hk (by omega) (by omega), ?_⟩
    rw [hlayout]
    intro hp
    have hsame := hp.same
    simp only [Layout.put, h.placed.same, List.append_cancel_left_eq, List.cons.injEq,
      Prod.mk.injEq] at hsame
    omega

/-- A step that loses the property. -/
theorem not_throughout {P : Screen → Prop} (h : ∃ t, s.step k = some t ∧ ¬ P t) :
    ¬ Throughout Screen.step P s (k :: text) := by
  obtain ⟨t, ht, hp⟩ := h
  exact fun hall => hp (hall.tail ht).head

theorem throughout_cons {P : Screen → Prop} (hp : P s) (ht : s.step k = some t) :
    Throughout Screen.step P s (k :: text) ↔ Throughout Screen.step P t text := by
  simp only [Throughout, ht, hp, true_and]

/-- Behind the 81st character of a line only newlines are drawn right, as many as the
layout has rows for. -/
theorem Over.throughout (h : Over s) :
    Throughout Screen.step Placed s text ↔
      s.layout.y + text.length ≤ 24 ∧ ∀ l ∈ text, l.c = newline := by
  induction text generalizing s with
  | nil => simp [Throughout, h.placed, h.height]
  | cons k text ih =>
    by_cases hk : k.c = newline
    · rcases Nat.lt_or_eq_of_le h.height with hlt | hlast
      · obtain ⟨t, ht, hover, hrow⟩ := h.feed hk hlt
        rw [throughout_cons h.placed ht, ih hover, hrow]
        simp only [List.length_cons, List.forall_mem_cons, hk, true_and]
        rw [Nat.add_assoc, Nat.add_comm 1]
      · refine iff_of_false (not_throughout (h.scroll hk hlast)) ?_
        simp only [List.length_cons]
        omega
    · refine iff_of_false (not_throughout (h.char hk)) ?_
      simp [hk]

/-- A text is drawn as it is laid out if and only if its lines fit. -/
theorem Inv.throughout (h : Inv s) :
    Throughout Screen.step Placed s text ↔ Fits s.disp.x s.disp.y text := by
  induction text generalizing s with
  | nil => simp [Throughout, Fits, h.placed]
  | cons k text ih =>
    by_cases hk : k.c = newline
    · obtain ⟨t, ht, hinv, hx, hy, -⟩ := h.feed hk
      rw [throughout_cons h.placed ht, ih hinv, hx, hy, Fits, if_pos hk]
    · rcases Nat.lt_or_eq_of_le h.width with hlt | hlast
      · obtain ⟨t, ht, hinv, hx, hy, -⟩ := h.char hk hlt
        rw [throughout_cons h.placed ht, ih hinv, hx, hy, Fits, if_neg hk, if_pos hlt]
      · rw [Fits, if_neg hk, if_neg (by omega)]
        rcases Nat.lt_or_eq_of_le h.height with hrow | hrow
        · obtain ⟨t, ht, hover, hy, -⟩ := h.over hk hlast hrow
          rw [throughout_cons h.placed ht, hover.throughout, hy]
        · refine iff_of_false (not_throughout ⟨_, char_step hk h.width h.height, ?_⟩) (by omega)
          intro hp
          have hinside := hp.inside (80 * s.disp.y + s.disp.x, k.word) (by simp)
          simp only [screenCells] at hinside
          omega

theorem Visible.append (h : Visible s) (ht : t.stored = s.stored ++ rs)
    (hr : ∀ r ∈ rs, r.1 + r.2 ≤ screenCells) : Visible t := by
  intro r hmem
  rw [ht] at hmem
  rcases List.mem_append.mp hmem with hold | hnew
  · exact h r hold
  · exact hr r hnew

/-- Newlines that do not reach the end of the screen store nothing. -/
theorem Visible.newlines (h : Visible s) (hn : ∀ l ∈ text, l.c = newline)
    (hy : s.disp.y + text.length ≤ 24) : Throughout Screen.step Visible s text := by
  induction text generalizing s with
  | nil => exact h
  | cons k text ih =>
    rw [List.length_cons] at hy
    obtain ⟨hk, hrest⟩ := List.forall_mem_cons.mp hn
    rw [throughout_cons h (newline_step hk (by omega))]
    refine ih h hrest ?_
    simp only
    omega

/-- While the lines fit, a store falls outside the screen only when it scrolls. -/
theorem Inv.visible (h : Inv s) (hv : Visible s) (hf : Fits s.disp.x s.disp.y text) :
    Throughout Screen.step Visible s text ↔ s.disp.y + newlines text ≤ 24 := by
  have hheight := h.height
  induction text generalizing s with
  | nil => simp [Throughout, newlines, hv, hheight]
  | cons k text ih =>
    by_cases hk : k.c = newline
    · have hcount : newlines (k :: text) = newlines text + 1 := by simp [newlines, hk]
      obtain ⟨t, ht, hinv, hx, hy, hstored⟩ := h.feed hk
      rw [Fits, if_pos hk] at hf
      rw [hcount]
      rcases Nat.lt_or_eq_of_le hheight with hlt | hlast
      · rw [if_pos hlt] at hstored
        have hrest := ih hinv (hv.append hstored (by simp)) (by rwa [hx, hy]) hinv.height
        refine ((throughout_cons hv ht).trans hrest).trans ?_
        rw [hy]
        omega
      · refine iff_of_false (not_throughout ⟨t, ht, ?_⟩) (by omega)
        rw [if_neg (by omega)] at hstored
        intro hvt
        have hfill := hvt (25 * 80, 80 * 2) (by rw [hstored]; simp [Screen.scrollStores])
        simp [screenCells] at hfill
    · have hcount : newlines (k :: text) = newlines text := by simp [newlines, hk]
      rw [Fits, if_neg hk] at hf
      rw [hcount]
      split at hf
      · rename_i hlt
        obtain ⟨t, ht, hinv, hx, hy, hstored⟩ := h.char hk hlt
        have hvt : Visible t := by
          refine hv.append hstored ?_
          simp only [List.mem_singleton, forall_eq, screenCells]
          omega
        have hrest := ih hinv hvt (by rwa [hx, hy]) hinv.height
        exact ((throughout_cons hv ht).trans hrest).trans (by rw [hy])
      · obtain ⟨hroom, hrest⟩ := hf
        have hwidth := h.width
        have hle : newlines text ≤ text.length := List.countP_le_length
        refine iff_of_true ?_ (by omega)
        rw [throughout_cons hv (char_step hk h.width hheight)]
        refine Visible.newlines (hv.append rfl ?_) hrest ?_
        · simp only [List.mem_singleton, forall_eq, screenCells]
          omega
        · simp only
          omega

theorem start_inv (d : Levos.Textmode) (hx : d.x < 80) (hy : d.y < 25) : Inv (Screen.start d) where
  column := rfl
  row := rfl
  width := Nat.le_of_lt hx
  height := Nat.le_of_lt_succ hy
  same := rfl
  before e he := by cases he
  own := List.nodup_nil
  shown e he := by cases he

/-- A text is stored within the visible words, each character in a cell of its own and
where it is to stand, if and only if its lines fit and nothing scrolls. As far as the
characters alone go, the screen may scroll. -/
theorem text_placed_iff (d : Levos.Textmode) (hx : d.x < 80) (hy : d.y < 25) (text : List Key) :
    (Throughout Screen.step (fun s => Placed s ∧ Visible s) (Screen.start d) text ↔
      Fits d.x d.y text ∧ d.y + newlines text ≤ 24) ∧
    (Throughout Screen.step Placed (Screen.start d) text ↔ Fits d.x d.y text) := by
  have hinv := start_inv d hx hy
  have hfits : Throughout Screen.step Placed (Screen.start d) text ↔ Fits d.x d.y text :=
    hinv.throughout
  refine ⟨?_, hfits⟩
  rw [throughout_and, hfits]
  refine and_congr_right fun hf => hinv.visible ?_ hf
  intro r hr
  cases hr

/-- A display that shows nothing, with the cursor somewhere. -/
def cursorAt (x y : Nat) : Levos.Textmode := ⟨fun _ => 0, x, y, 0, 0, 0, 0, 15⟩

def letter : Key := ⟨97, 15, 0, 0, by decide⟩

def lineFeed : Key := ⟨newline, 15, 0, 0, by decide⟩

theorem text_placed_two_lines :
    Throughout Screen.step (fun s => Placed s ∧ Visible s) (Screen.start (cursorAt 79 23))
      [letter, lineFeed, letter] := by
  refine (text_placed_iff (cursorAt 79 23) (by decide) (by decide) _).1.mpr ⟨?_, by decide⟩
  simp [Fits, cursorAt, letter, lineFeed, newline]

/-- Two characters at the end of the last line: the second one is stored behind the
screen. -/
theorem last_line_overrun :
    ¬ ∀ (d : Levos.Textmode) (text : List Key), d.x < 80 → d.y < 25 →
      Throughout Screen.step (fun s => Placed s ∧ Visible s) (Screen.start d) text := by
  intro h
  have hlast := (h (cursorAt 79 24) [letter, letter] (by decide) (by decide)).last rfl
  have hcell := hlast.1.inside (2000, letter.word) (by simp [cursorAt]; decide)
  exact absurd hcell (by decide)

end Levos.Proofs.Grid
