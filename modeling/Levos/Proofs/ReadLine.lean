import Levos.Library.Lists
import Levos.ReadLine
import Levos.Proofs.Input

namespace Levos.Proofs.ReadLine
open Library
open Levos.ReadLine (Line backspace sysReadLoop sysRead)

/-- The line that is typed: a backspace takes the last byte away, and it ends with a
newline or when it has `len` bytes. -/
def line (len : Nat) : Bytes → Bytes → Bytes
  | kept, [] => kept
  | kept, c :: typed =>
    if kept.length < len then
      if c = newline then kept ++ [c]
      else if c = backspace then line len kept.dropLast typed
      else line len (kept ++ [c]) typed
    else kept

/-- Every backspace before the end of the line comes when at least one byte is kept and
fewer than `len - 1` are; `n` is the number of bytes that are kept. -/
def Erasable (len : Nat) : Nat → Bytes → Prop
  | _, [] => True
  | n, c :: typed =>
    if n < len ∧ c ≠ newline then
      if c = backspace then (0 < n ∧ n + 1 < len) ∧ Erasable len (n - 1) typed
      else Erasable len (n + 1) typed
    else True

instance Erasable.decidable (len : Nat) : ∀ n typed, Decidable (Erasable len n typed)
  | _, [] => .isTrue trivial
  | n, c :: typed =>
    have := Erasable.decidable len (n - 1) typed
    have := Erasable.decidable len (n + 1) typed
    inferInstanceAs (Decidable (if n < len ∧ c ≠ newline then
      if c = backspace then (0 < n ∧ n + 1 < len) ∧ Erasable len (n - 1) typed
      else Erasable len (n + 1) typed
    else True))

/-- What a call has done with the bytes that are kept: they are in the buffer and
counted, nothing has been stored elsewhere, and the count was never negative. -/
structure Holds (len : Nat) (kept : Bytes) (s : Line) : Prop where
  count : s.totalread = kept.length
  bytes : ∀ (i : Nat) c, kept[i]? = some c → s.buf i = c
  inside : ∀ i ∈ s.stored, 0 ≤ i ∧ i < len
  counts : ∀ n ∈ s.counts, 0 ≤ n

variable {len : Nat} {kept typed : Bytes} {s s' : Line} {c : UInt8}

theorem received_holds (h : Holds len kept s) (hlt : kept.length < len) :
    Holds len (kept ++ [c]) (s.received c) := by
  have hcount := h.count
  refine ⟨?_, ?_, ?_, ?_⟩
  · simp [Line.received, Line.count, Line.put, hcount]
  · intro i d hd
    simp only [Line.received, Line.count, Line.put]
    rcases getElem?_concat_cases hd with hold | ⟨rfl, rfl⟩
    · have hi := (List.getElem?_eq_some_iff.mp hold).1
      rw [Function.update_of_ne (by omega)]
      exact h.bytes i d hold
    · rw [hcount, Function.update_self]
  · intro i hi
    rcases List.mem_append.mp hi with hold | hnew
    · exact h.inside i hold
    · obtain rfl := List.mem_singleton.mp hnew
      omega
  · intro n hn
    rcases List.mem_append.mp hn with hold | hnew
    · exact h.counts n hold
    · obtain rfl := List.mem_singleton.mp hnew
      omega

theorem received_byte (s : Line) (c : UInt8) : (s.received c).buf s.totalread = c :=
  Function.update_self _ _ _

/-- A backspace with room on both sides takes itself and the byte before it away. -/
theorem erased_holds (h : Holds len (kept ++ [c]) s) (hpos : 0 < kept.length)
    (hroom : kept.length + 1 < len) : Holds len kept.dropLast s.erased := by
  have hcount : s.totalread = kept.length + 1 := by simpa using h.count
  refine ⟨?_, ?_, ?_, ?_⟩
  · simp only [Line.erased, Line.count, List.length_dropLast]
    omega
  · intro i d hd
    have hi := (List.getElem?_eq_some_iff.mp hd).1
    rw [List.length_dropLast] at hi
    rw [List.getElem?_dropLast, if_pos hi] at hd
    simp only [Line.erased, Line.count, Line.put]
    rw [Function.update_of_ne (by omega), Function.update_of_ne (by omega)]
    exact h.bytes i d (by rw [List.getElem?_append_left (by omega), hd])
  · intro i hi
    simp only [Line.erased, Line.count, Line.put, List.mem_append, List.mem_singleton] at hi
    rcases hi with (hold | rfl) | rfl
    · exact h.inside i hold
    · omega
    · omega
  · intro n hn
    simp only [Line.erased, Line.count, Line.put, List.mem_append, List.mem_singleton] at hn
    rcases hn with hold | rfl
    · exact h.counts n hold
    · omega

/-- A backspace without room has stored behind the buffer, or the count is negative. -/
theorem erased_spoilt (h : Holds len kept s) (hn : ¬ (0 < kept.length ∧ kept.length + 1 < len)) :
    (∃ i ∈ (s.received c).erased.stored, ¬ i < (len : Int)) ∨
      ∃ n ∈ (s.received c).erased.counts, ¬ 0 ≤ n := by
  have hcount := h.count
  by_cases hroom : kept.length + 1 < len
  · right
    refine ⟨s.totalread + 1 - 2, ?_, by omega⟩
    simp [Line.erased, Line.received, Line.count, Line.put]
  · left
    refine ⟨s.totalread + 1 - 0, ?_, by omega⟩
    simp [Line.erased, Line.received, Line.count, Line.put]

/-- The history of one state goes on in the other. -/
def Extends (s s' : Line) : Prop := s.stored ⊆ s'.stored ∧ s.counts ⊆ s'.counts

theorem Extends.refl (s : Line) : Extends s s := ⟨List.Subset.refl _, List.Subset.refl _⟩

theorem Extends.trans (h : Extends s t) (h' : Extends t s') : Extends s s' :=
  ⟨List.Subset.trans h.1 h'.1, List.Subset.trans h.2 h'.2⟩

theorem received_extends (s : Line) (c : UInt8) : Extends s (s.received c) :=
  ⟨List.subset_append_left _ _, List.subset_append_left _ _⟩

theorem erased_extends (s : Line) : Extends s s.erased :=
  ⟨List.Subset.trans (List.subset_append_left _ _) (List.subset_append_left _ _),
    List.subset_append_left _ _⟩

theorem loop_extends (h : sysReadLoop len polls s = some s') : Extends s s' := by
  induction polls generalizing s with
  | nil =>
    rw [sysReadLoop] at h
    split at h
    · cases h
    · cases h
      exact .refl _
  | cons poll polls ih =>
    cases poll with
    | none =>
      rw [sysReadLoop] at h
      split at h
      · exact ih h
      · cases h
        exact .refl _
    | some c =>
      have hreceived := received_extends s c
      rw [sysReadLoop] at h
      split_ifs at h with hlt hnew hback
      · cases h
        exact hreceived
      · exact hreceived.trans ((erased_extends _).trans (ih h))
      · exact hreceived.trans (ih h)
      · cases h
        exact .refl _

/-- The trace of a backspace without room is still there when the call returns. -/
theorem erased_never_holds (h : Holds len kept s)
    (hroom : ¬ (0 < kept.length ∧ kept.length + 1 < len))
    (hloop : sysReadLoop len polls (s.received c).erased = some s') : ¬ Holds len kept' s' := by
  intro hs'
  obtain ⟨hstored, hcounts⟩ := loop_extends hloop
  rcases erased_spoilt h hroom with ⟨i, hi, hout⟩ | ⟨n, hn, hneg⟩
  · exact absurd (hs'.inside i (hstored hi)).2 hout
  · exact absurd (hs'.counts n (hcounts hn)) hneg

/-- A line that is full takes no more bytes. -/
theorem line_full (hfull : ¬ kept.length < len) (typed : Bytes) :
    line len kept typed = kept ∧ Erasable len kept.length typed := by
  cases typed with
  | nil => exact ⟨rfl, trivial⟩
  | cons c typed => simp [line, Erasable, hfull]

/-- From a state with some bytes kept, the rest of the call reads the line exactly when
every backspace has room. -/
theorem loop_iff (polls : List (Option UInt8)) (h : Holds len kept s)
    (hend : kept.length < len → newline ∈ polls.reduceOption) :
    (∃ s', sysReadLoop len polls s = some s' ∧ Holds len (line len kept polls.reduceOption) s') ↔
      Erasable len kept.length polls.reduceOption := by
  have hcount := h.count
  induction polls generalizing s kept with
  | nil =>
    have hfull : ¬ kept.length < len := fun hlt => by simpa using hend hlt
    rw [sysReadLoop, if_neg (by omega)]
    exact ⟨fun _ => trivial, fun _ => ⟨s, rfl, h⟩⟩
  | cons poll polls ih =>
    by_cases hlt : kept.length < len
    case neg =>
      obtain ⟨hline, herasable⟩ := line_full hlt (poll :: polls).reduceOption
      have hloop : sysReadLoop len (poll :: polls) s = some s := by
        cases poll <;> rw [sysReadLoop, if_neg (by omega)]
      rw [hline, hloop]
      exact ⟨fun _ => herasable, fun _ => ⟨s, rfl, h⟩⟩
    cases poll with
    | none =>
      rw [sysReadLoop, if_pos (by omega)]
      exact ih h hend hcount
    | some c =>
      have hreceived : Holds len (kept ++ [c]) (s.received c) := received_holds h hlt
      have hlast := hend hlt
      rw [List.reduceOption_cons_of_some] at hlast ⊢
      simp only [sysReadLoop, received_byte, line, Erasable, if_pos hlt,
        if_pos (show s.totalread < len by omega)]
      by_cases hnew : c = newline
      · simp only [hnew, ↓reduceIte, ne_eq, not_true_eq_false, and_false, iff_true]
        rw [← hnew]
        exact ⟨_, rfl, hreceived⟩
      have hrest : newline ∈ polls.reduceOption :=
        (List.mem_cons.mp hlast).resolve_left (fun he => hnew he.symm)
      simp only [hnew, ↓reduceIte, ne_eq, not_false_eq_true, and_true, hlt]
      by_cases hback : c = backspace
      · simp only [hback, ↓reduceIte]
        rw [← hback]
        by_cases hroom : 0 < kept.length ∧ kept.length + 1 < len
        · have herased := erased_holds hreceived hroom.1 hroom.2
          have hiff := ih herased (fun _ => hrest) herased.count
          rw [List.length_dropLast] at hiff
          exact hiff.trans ⟨fun he => ⟨hroom, he⟩, fun he => he.2⟩
        · refine ⟨?_, fun he => absurd he.1 hroom⟩
          rintro ⟨s', hloop, hs'⟩
          exact absurd hs' (erased_never_holds h hroom hloop)
      · simp only [hback, ↓reduceIte]
        have hiff := ih hreceived (fun _ => hrest) hreceived.count
        rwa [List.length_append, List.length_singleton] at hiff

theorem start_holds (buf : Int → UInt8) (len : Nat) : Holds len [] ⟨buf, 0, [], [0]⟩ :=
  ⟨rfl, by simp, by simp, by simp⟩

/-- `sys_read` reads the line that is typed, and stays within its buffer, exactly when
every backspace has room. -/
theorem read_line_iff (buf : Int → UInt8) (len : Nat) (polls : List (Option UInt8)) (typed : Bytes)
    (hpolls : polls.reduceOption = typed ++ [newline]) :
    (∃ s, sysRead buf len polls = some s ∧ Holds len (line len [] (typed ++ [newline])) s) ↔
      Erasable len 0 (typed ++ [newline]) := by
  have hiff := loop_iff polls (start_holds buf len) (fun _ => by simp [hpolls])
  rwa [hpolls] at hiff

section Tty

/-- What `tty_read` answers along the input of a tty. -/
def answers (s : Typing) : List InputAct → List (Option UInt8)
  | [] => []
  | act :: acts => match s.step act with
    | none => []
    | some t => match act with
      | .push _ => answers t acts
      | .read _ => t.returned[s.returned.length]? :: answers t acts

/-- The bytes that are typed. -/
def keys (acts : List InputAct) : Bytes :=
  acts.filterMap (fun
    | .push c => some c
    | .read _ => none)

theorem read_one {m : Levos.Input} (h : ttyGenericRead m 1 = some r) :
    r.1 = [] ∨ ∃ c, r.1 = [c] := by
  have hloop : readLoop m 1 0 = [] ∨ ∃ c, readLoop m 1 0 = [c] := by
    rw [readLoop]
    split
    · exact .inr ⟨_, rfl⟩
    · exact .inl rfl
  rw [ttyGenericRead] at h
  by_cases hout : m.inbuflen = 0 ∨ 1 = 0
  · rw [if_pos hout] at h
    cases h
    exact .inl rfl
  rw [if_neg hout] at h
  by_cases hnone : readLoop m 1 0 = []
  · rw [if_pos hnone] at h
    cases h
    exact .inl rfl
  · rw [if_neg hnone] at h
    obtain ⟨t, -, rfl⟩ := Option.map_eq_some_iff.mp h
    exact hloop

/-- Asked for one byte at a time, the tty answers with the bytes it returns. -/
theorem answers_returned {s t : Typing} {acts : List InputAct}
    (hone : ∀ n, InputAct.read n ∈ acts → n = 1) (hr : run Typing.step s acts = some t) :
    t.returned = s.returned ++ (answers s acts).reduceOption ∧
      t.pushed = s.pushed ++ keys acts := by
  induction acts generalizing s with
  | nil =>
    cases hr
    simp [answers, keys]
  | cons act acts ih =>
    obtain ⟨u, hu, hru⟩ := run_cons hr
    obtain ⟨hret, hpush⟩ := ih (fun n hn => hone n (List.mem_cons_of_mem _ hn)) hru
    rw [answers, hu]
    cases act with
    | push c =>
      cases hu
      refine ⟨hret, ?_⟩
      rw [hpush, List.append_assoc]
      rfl
    | read n =>
      obtain rfl := hone n List.mem_cons_self
      obtain ⟨r, hread, rfl⟩ := Option.map_eq_some_iff.mp hu
      refine ⟨?_, hpush⟩
      rw [hret]
      rcases read_one hread with hnone | ⟨c, hsome⟩
      · simp [hnone]
      · simp [hsome]

/-- Such a tty is never misled by what is behind the pending bytes. -/
theorem held_run {s t : Typing} {acts : List InputAct} (h : Input.Held s)
    (hone : ∀ n, InputAct.read n ∈ acts → n = 1)
    (htyped : Guarded Typing.step Input.Typed s acts) (hr : run Typing.step s acts = some t) :
    Input.Held t := by
  induction acts generalizing s with
  | nil =>
    cases hr
    exact h
  | cons act acts ih =>
    obtain ⟨u, hu, hru⟩ := run_cons hr
    refine ih ?_ (fun n hn => hone n (List.mem_cons_of_mem _ hn)) (htyped.tail hu) hru
    cases act with
    | push c =>
      obtain ⟨w, hw, hheld⟩ := Input.push_held h htyped.1.1 htyped.1.2
      cases hu.symm.trans hw
      exact hheld
    | read n =>
      obtain rfl := hone n List.mem_cons_self
      have hclean : Input.Clean s (.read 1) := by
        rcases Nat.eq_zero_or_pos s.input.inbuflen with hz | hpos
        · exact .inl hz
        · exact .inr (.inl hpos)
      obtain ⟨w, hw, hheld⟩ := Input.read_held h hclean
      cases hu.symm.trans hw
      exact hheld

/-- When nothing is left in the buffer, the answers are the bytes that were typed. -/
theorem answers_typed (behind : Nat → UInt8) (acts : List InputAct) (t : Typing)
    (hone : ∀ n, InputAct.read n ∈ acts → n = 1)
    (htyped : Guarded Typing.step Input.Typed (Typing.start behind) acts)
    (hr : run Typing.step (Typing.start behind) acts = some t) (hempty : t.input.inbuflen = 0) :
    (answers (Typing.start behind) acts).reduceOption = keys acts := by
  obtain ⟨hreturned, hpushed⟩ := answers_returned hone hr
  have haccount := (held_run (Input.start_held behind) hone htyped hr).account
  rw [hempty, hreturned, hpushed] at haccount
  simpa [slice, Typing.start] using haccount

end Tty

theorem read_line_corrected :
    ∃ s, sysRead (fun _ => 0) (8 : Nat) [some 97, none, some 98, some 8, none, some 10] = some s ∧
      Holds 8 (line 8 [] [97, 98, 8, 10]) s :=
  (read_line_iff (fun _ => 0) 8 [some 97, none, some 98, some 8, none, some 10] [97, 98, 8]
    rfl).mpr (by decide)

/-- A backspace as the first byte makes the count negative. -/
theorem read_line_negative :
    ¬ ∀ (buf : Int → UInt8) (len : Nat) (polls : List (Option UInt8)) (typed : Bytes),
      1 ≤ len → (∀ c ∈ typed, c ≠ 0) → polls.reduceOption = typed ++ [newline] →
      ∃ s, sysRead buf len polls = some s ∧ Holds len (line len [] (typed ++ [newline])) s := by
  intro h
  obtain ⟨s, hread, hholds⟩ := h (fun _ => 0) 4 [some 8, some 10] [8] (by decide) (by simp) rfl
  have hcounts : (sysRead (fun _ => 0) (4 : Nat) [some 8, some 10]).map Line.counts =
      some [0, 1, -1, 0] := by decide
  rw [hread, Option.map_some, Option.some.injEq] at hcounts
  have hneg := hholds.counts (-1) (by rw [hcounts]; decide)
  exact absurd hneg (by decide)

end Levos.Proofs.ReadLine
