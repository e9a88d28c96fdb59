import Levos.Input
import Levos.Proofs.Memcpy

namespace Levos.Proofs.Input
open Library Memcpy

variable {m : Input} {s t : Typing}

/-- The pending bytes are the first ones of the buffer, none of them zero, and with
what has been returned they make up what was pushed. -/
structure Held (s : Typing) : Prop where
  account : s.returned ++ slice s.input.inbuf 0 s.input.inbuflen = s.pushed
  nonzero : ∀ i < s.input.inbuflen, s.input.inbuf i ≠ 0
  fits : s.input.inbuflen ≤ ttyBufferSize

/-- What a queue owes its callers: the reads return the pushed bytes in order, and
the length is that of what is left. -/
def Fifo (s : Typing) : Prop :=
  s.returned <+: s.pushed ∧ s.input.inbuflen = s.pending

/-- Bytes are pushed that are not zero, and never more than the buffer has room for. -/
def Typed (s : Typing) : InputAct → Prop
  | .push c => c ≠ 0 ∧ s.pending < ttyBufferSize
  | .read _ => True

/-- A read that the byte behind the pending ones cannot mislead: nothing is pending,
the request ends before that byte, or the byte is zero. -/
def Clean (s : Typing) : InputAct → Prop
  | .push _ => True
  | .read len =>
    s.input.inbuflen = 0 ∨ len ≤ s.input.inbuflen ∨ s.input.inbuf s.input.inbuflen = 0

theorem Held.pending (h : Held s) : s.input.inbuflen = s.pending := by
  have hlen := congrArg List.length h.account
  simp only [List.length_append, slice_length] at hlen
  simp only [Typing.pending]
  omega

theorem Held.fifo (h : Held s) : Fifo s := ⟨⟨_, h.account⟩, h.pending⟩

theorem start_held (behind : Nat → UInt8) : Held (Typing.start behind) :=
  ⟨rfl, fun i hi => absurd hi (Nat.not_lt_zero i), Nat.zero_le _⟩

section Loop

variable (hn : ∀ i < m.inbuflen, m.inbuf i ≠ 0)
include hn

/-- The loop copies the pending bytes as far as the request goes, and the byte
behind them when the request goes further and that byte is not zero: the test of
the index lets `inbuflen` itself through. -/
theorem read_loop_eq (left : Nat) (hi : i ≤ m.inbuflen) :
    readLoop m left i = slice m.inbuf i (min left (m.inbuflen - i)) ++
      if m.inbuflen - i < left ∧ m.inbuf m.inbuflen ≠ 0 then [m.inbuf m.inbuflen] else [] := by
  induction left generalizing i with
  | zero => simp [readLoop, slice]
  | succ left ih =>
    rcases Nat.lt_or_eq_of_le hi with hlt | rfl
    · have hroom : min (left + 1) (m.inbuflen - i) = min left (m.inbuflen - (i + 1)) + 1 := by omega
      have hover : m.inbuflen - i < left + 1 ↔ m.inbuflen - (i + 1) < left := by omega
      rw [readLoop, if_pos ⟨hn i hlt, hi⟩, ih hlt, hroom, slice_succ]
      simp only [hover, List.cons_append]
    · have hend : ∀ k, readLoop m k (m.inbuflen + 1) = [] := by
        intro k
        cases k with
        | zero => rfl
        | succ k => rw [readLoop, if_neg (by omega)]
      simp [readLoop, hend, slice]

theorem read_loop_clean (hc : len ≤ m.inbuflen ∨ m.inbuf m.inbuflen = 0) :
    readLoop m len 0 = slice m.inbuf 0 (min len m.inbuflen) := by
  have hnone : ¬ (m.inbuflen - 0 < len ∧ m.inbuf m.inbuflen ≠ 0) := by
    rintro ⟨hlt, hne⟩
    rcases hc with hle | hz
    · omega
    · exact hne hz
  rw [read_loop_eq hn len (Nat.zero_le _), if_neg hnone, List.append_nil, Nat.sub_zero]

theorem read_loop_over (hlen : m.inbuflen < len) (hstale : m.inbuf m.inbuflen ≠ 0) :
    (readLoop m len 0).length = m.inbuflen + 1 := by
  rw [read_loop_eq hn len (Nat.zero_le _), if_pos ⟨hlen, hstale⟩, List.length_append, slice_length,
    List.length_singleton]
  omega

end Loop

/-- After the shift every byte that is still pending stands `copied` places lower,
and the last `copied` places of the buffer are as they were. -/
theorem shift_some (hc : copied ≤ m.inbuflen) (hf : m.inbuflen ≤ ttyBufferSize) :
    ∃ t, m.shift copied = some t ∧ t.inbuflen = m.inbuflen - copied ∧
      (∀ i < ttyBufferSize - copied, t.inbuf i = m.inbuf (copied + i)) ∧
      ∀ i ≥ ttyBufferSize - copied, t.inbuf i = m.inbuf i := by
  have hsmall : ttyBufferSize < 2 ^ 32 := by decide
  have hmoved : Moved m.inbuf 0 copied (ttyBufferSize - copied)
      (memcpy m.inbuf 0 copied (ttyBufferSize - copied)) :=
    memcpy_moved m.inbuf (.inl (Nat.zero_le _))
  refine ⟨⟨_, _⟩, if_neg (by omega), ?_, ?_, ?_⟩
  · show (m.inbuflen + 2 ^ 32 - copied) % 2 ^ 32 = m.inbuflen - copied
    omega
  · intro i hi
    have hbyte := hmoved.copied i hi
    rwa [Nat.zero_add] at hbyte
  · intro i hi
    exact hmoved.frame i (fun j hj => by omega)

theorem push_held (h : Held s) (hc : c ≠ 0) (hr : s.pending < ttyBufferSize) :
    ∃ t, s.step (.push c) = some t ∧ Held t := by
  rw [← h.pending] at hr
  have hsmall : ttyBufferSize < 2 ^ 32 := by decide
  have hlen : (s.input.inbuflen + 1) % 2 ^ 32 = s.input.inbuflen + 1 := Nat.mod_eq_of_lt (by omega)
  have hold : ∀ i < s.input.inbuflen,
      Function.update s.input.inbuf s.input.inbuflen c i = s.input.inbuf i :=
    fun i hi => Function.update_of_ne (by omega) _ _
  refine ⟨_, rfl, ?_, ?_, ?_⟩
  · simp only [ttyPushByte, hlen]
    rw [slice_append, slice_congr (fun i hi => by rw [Nat.zero_add, hold i hi]),
      ← List.append_assoc, h.account]
    simp [slice]
  · intro i hi
    simp only [ttyPushByte, hlen] at hi ⊢
    rcases Nat.lt_succ_iff_lt_or_eq.mp hi with hlt | rfl
    · rw [hold i hlt]
      exact h.nonzero i hlt
    · rwa [Function.update_self]
  · simp only [ttyPushByte, hlen]
    omega

theorem read_held (h : Held s) (hc : Clean s (.read len)) :
    ∃ t, s.step (.read len) = some t ∧ Held t := by
  by_cases hout : s.input.inbuflen = 0 ∨ len = 0
  · refine ⟨s, ?_, h⟩
    simp [Typing.step, ttyGenericRead, hout]
  · have hloop := read_loop_clean h.nonzero (hc.resolve_left (fun hz => hout (.inl hz)))
    have hlen : (readLoop s.input len 0).length = min len s.input.inbuflen := by
      rw [hloop, slice_length]
    have hsome : readLoop s.input len 0 ≠ [] := by
      intro hnil
      rw [hnil, List.length_nil] at hlen
      omega
    have hle : min len s.input.inbuflen ≤ s.input.inbuflen := Nat.min_le_right _ _
    obtain ⟨m, hm, hleft, hmoved, -⟩ := shift_some hle h.fits
    have hfits := h.fits
    refine ⟨{ s with input := m, returned := s.returned ++ readLoop s.input len 0 }, ?_, ?_, ?_, ?_⟩
    · simp only [Typing.step, ttyGenericRead, if_neg hout, if_neg hsome, hlen, hm, Option.map_some]
    · have hrest : slice m.inbuf 0 m.inbuflen =
          slice s.input.inbuf (0 + min len s.input.inbuflen) m.inbuflen := by
        refine slice_ext ?_
        intro i hi
        rw [Nat.zero_add, Nat.zero_add]
        exact hmoved i (by omega)
      rw [hloop, hrest, List.append_assoc, ← slice_append, hleft, Nat.add_sub_cancel' hle]
      exact h.account
    · show ∀ i < m.inbuflen, m.inbuf i ≠ 0
      intro i hi
      rw [hmoved i (by omega)]
      exact h.nonzero _ (by omega)
    · show m.inbuflen ≤ ttyBufferSize
      omega

/-- A read that is misled returns a byte more than was pending. -/
theorem read_over (h : Held s) (hc : ¬ Clean s (.read len)) (ht : s.step (.read len) = some t) :
    ¬ Fifo t := by
  simp only [Clean, not_or, not_le] at hc
  obtain ⟨hpos, hlen, hstale⟩ := hc
  have hlong := read_loop_over h.nonzero hlen hstale
  have hout : ¬ (s.input.inbuflen = 0 ∨ len = 0) := by omega
  have hsome : readLoop s.input len 0 ≠ [] := by
    intro hnil
    rw [hnil, List.length_nil] at hlong
    omega
  simp only [Typing.step, ttyGenericRead, if_neg hout, if_neg hsome, Option.map_map,
    Option.map_eq_some_iff, Function.comp_apply] at ht
  obtain ⟨m, -, rfl⟩ := ht
  rintro ⟨hpre, -⟩
  have htotal := hpre.length_le
  have hbefore := congrArg List.length h.account
  simp only [List.length_append, slice_length, hlong] at htotal hbefore
  omega

theorem reads_return_pushed_iff (behind : Nat → UInt8) (acts : List InputAct)
    (ht : Guarded Typing.step Typed (Typing.start behind) acts) :
    (run Typing.step (Typing.start behind) acts).isSome ∧
        Throughout Typing.step Fifo (Typing.start behind) acts ↔
      Guarded Typing.step Clean (Typing.start behind) acts := by
  refine answered_iff_guarded_under (start_held behind) (fun s hs => hs.fifo) ?_ ?_ ht
  · intro s a hs ha hc
    cases a with
    | push c => exact push_held hs ha.1 ha.2
    | read len => exact read_held hs hc
  · intro s a t hs _ hc hst
    cases a with
    | push c => exact absurd trivial hc
    | read len => exact read_over hs hc hst

theorem reads_return_pushed_one_key :
    Guarded Typing.step Typed (Typing.start (fun _ => 0)) [.push 97, .read 5] ∧
    Throughout Typing.step Fifo (Typing.start (fun _ => 0)) [.push 97, .read 5] := by
  have ht : Guarded Typing.step Typed (Typing.start (fun _ => 0)) [.push 97, .read 5] :=
    ⟨⟨by decide, by decide⟩, trivial, trivial⟩
  refine ⟨ht, ((reads_return_pushed_iff _ _ ht).mpr ⟨trivial, .inr (.inr ?_), trivial⟩).2⟩
  decide

/-- The tty after one byte has been pushed `n` times. -/
def filled (behind : Nat → UInt8) (c : UInt8) (n : Nat) : Typing :=
  { input := ⟨blit (Typing.start behind).input.inbuf 0 (List.replicate n c), n⟩
    pushed := List.replicate n c
    returned := [] }

theorem filled_inbuf (behind : Nat → UInt8) (c : UInt8) (hi : i < n) :
    (filled behind c n).input.inbuf i = c := by
  have hplace : (List.replicate n c)[i]? = some c := by simp [hi]
  have hput := blit_inside (Typing.start behind).input.inbuf 0 hplace
  rwa [Nat.zero_add] at hput

theorem filled_held (behind : Nat → UInt8) (hc : c ≠ 0) (hn : n ≤ ttyBufferSize) :
    Held (filled behind c n) where
  account := by
    have hput := slice_blit (Typing.start behind).input.inbuf 0 (List.replicate n c)
    rwa [List.length_replicate] at hput
  nonzero i hi := by rwa [filled_inbuf (n := n) behind c hi]
  fits := hn

theorem push_filled (behind : Nat → UInt8) (c : UInt8) (hn : n < ttyBufferSize) :
    (filled behind c n).step (.push c) = some (filled behind c (n + 1)) := by
  have hsmall : ttyBufferSize < 2 ^ 32 := by decide
  have hlen : (n + 1) % 2 ^ 32 = n + 1 := Nat.mod_eq_of_lt (by omega)
  simp only [Typing.step, ttyPushByte, filled, hlen, List.replicate_succ', blit_concat,
    List.length_replicate, Nat.zero_add]

theorem run_filled (behind : Nat → UInt8) (c : UInt8) (hc : c ≠ 0) (hn : n ≤ ttyBufferSize) :
    run Typing.step (Typing.start behind) (List.replicate n (.push c)) = some (filled behind c n) ∧
    Guarded Typing.step Typed (Typing.start behind) (List.replicate n (.push c)) := by
  induction n with
  | zero => exact ⟨rfl, trivial⟩
  | succ n ih =>
    obtain ⟨hr, hg⟩ := ih (by omega)
    have hroom : Typed (filled behind c n) (.push c) := ⟨hc, by simpa [Typing.pending, filled]⟩
    rw [List.replicate_succ']
    refine ⟨?_, hg.append hr (.single hroom)⟩
    rw [run_append, hr, Option.bind_some, run, push_filled behind c hn]
    rfl

/-- One byte read from a full buffer leaves the last byte where it was. -/
theorem read_full (behind : Nat → UInt8) (hc : c ≠ 0) :
    ∃ t, (filled behind c ttyBufferSize).step (.read 1) = some t ∧
      t.input.inbuflen = ttyBufferSize - 1 ∧ t.input.inbuf (ttyBufferSize - 1) = c := by
  have hfirst := filled_inbuf behind c (i := 0) (n := ttyBufferSize) (by decide)
  have hlast := filled_inbuf behind c (i := ttyBufferSize - 1) (n := ttyBufferSize) (by decide)
  have hloop : readLoop (filled behind c ttyBufferSize).input 1 0 = [c] := by
    simp [readLoop, hfirst, hc]
  have hout : ¬ ((filled behind c ttyBufferSize).input.inbuflen = 0 ∨ 1 = 0) := by
    show ¬ (ttyBufferSize = 0 ∨ 1 = 0)
    decide
  obtain ⟨m, hm, hlen, -, hkept⟩ :=
    shift_some (show 1 ≤ (filled behind c ttyBufferSize).input.inbuflen from
      show 1 ≤ ttyBufferSize by decide) (le_refl ttyBufferSize)
  refine ⟨{ filled behind c ttyBufferSize with input := m, returned := [c] }, ?_, hlen, ?_⟩
  · simp only [Typing.step, ttyGenericRead, if_neg hout, hloop, List.cons_ne_nil, ↓reduceIte,
      List.length_singleton, hm, Option.map_some]
    rfl
  · exact (hkept _ (le_refl _)).trans hlast

/-- A full buffer, one byte read, and a read of the buffer's size: it returns a
byte that had been returned before. -/
theorem stale_byte_read_again :
    ∃ acts, Guarded Typing.step Typed (Typing.start (fun _ => 0)) acts ∧
      ¬ ((run Typing.step (Typing.start (fun _ => 0)) acts).isSome ∧
        Throughout Typing.step Fifo (Typing.start (fun _ => 0)) acts) := by
  have hc : (97 : UInt8) ≠ 0 := by decide
  obtain ⟨hr, hg⟩ := run_filled (fun _ => 0) 97 hc (le_refl ttyBufferSize)
  have hfull := filled_held (fun _ => 0) hc (le_refl ttyBufferSize)
  obtain ⟨t, ht, hlen, hstale⟩ := read_full (fun _ => 0) hc
  have hclean : Clean (filled (fun _ => 0) 97 ttyBufferSize) (.read 1) :=
    .inr (.inl (show 1 ≤ 4192 by decide))
  obtain ⟨u, hu, hheld⟩ := read_held hfull hclean
  cases ht.symm.trans hu
  have hmisled : ¬ Clean t (.read ttyBufferSize) := by
    simp only [Clean, hlen, hstale]
    decide
  have hreads : Guarded Typing.step Typed (filled (fun _ => 0) 97 ttyBufferSize)
      [.read 1, .read ttyBufferSize] := .cons ht trivial (.single (a := InputAct.read _) trivial)
  refine ⟨_, hg.append hr hreads, ?_⟩
  rintro ⟨hsome, hfifo⟩
  obtain ⟨v, hv⟩ := Option.isSome_iff_exists.mp hsome
  have hlast := hfifo.last hv
  rw [run_append, hr, Option.bind_some] at hv
  obtain ⟨w, hw, hv⟩ := run_cons hv
  cases ht.symm.trans hw
  obtain ⟨w, hw, hv⟩ := run_cons hv
  cases hv
  exact read_over hheld hmisled hw hlast

section Bounds

/-- No byte is stored behind the buffer, and the length stays that of a part of it. -/
def Bounded (s : Typing) : InputAct → Prop
  | .push c => s.input.inbuflen < ttyBufferSize ∧ (ttyPushByte s.input c).inbuflen ≤ ttyBufferSize
  | .read len => s.input.left len ≤ ttyBufferSize

/-- A key is delivered while fewer bytes are pending than the buffer holds, and a read
of more than is pending meets a zero among the pending bytes or right behind them. -/
def Paced (s : Typing) : InputAct → Prop
  | .push _ => s.pending < ttyBufferSize
  | .read len => 0 < s.pending → s.pending < len → ∃ i ≤ s.pending, s.input.inbuf i = 0

/-- `inbuflen` counts the bytes that are pending. -/
structure Counted (s : Typing) : Prop where
  account : s.returned.length + s.input.inbuflen = s.pushed.length
  fits : s.input.inbuflen ≤ ttyBufferSize

theorem Counted.pending (h : Counted s) : s.pending = s.input.inbuflen := by
  have haccount := h.account
  simp only [Typing.pending]
  omega

/-- The loop goes up to the byte behind the pending ones at most, and so far only if
it is asked to and meets no zero on the way. -/
theorem read_loop_length (m : Input) (left : Nat) (hi : i ≤ m.inbuflen + 1) :
    (readLoop m left i).length ≤ m.inbuflen + 1 - i ∧
      ((readLoop m left i).length = m.inbuflen + 1 - i ↔
        m.inbuflen + 1 - i ≤ left ∧ ∀ j, i ≤ j → j ≤ m.inbuflen → m.inbuf j ≠ 0) := by
  induction left generalizing i with
  | zero =>
    simp only [readLoop, List.length_nil, nonpos_iff_eq_zero]
    refine ⟨Nat.zero_le _, fun h => ⟨h.symm, fun j hj hle => by omega⟩, fun h => h.1.symm⟩
  | succ left ih =>
    by_cases htest : m.inbuf i ≠ 0 ∧ i ≤ m.inbuflen
    · obtain ⟨hle, hiff⟩ := ih (i := i + 1) (by omega)
      rw [readLoop, if_pos htest, List.length_cons]
      refine ⟨by omega, fun h => ?_, fun h => ?_⟩
      · obtain ⟨hleft, hall⟩ := hiff.mp (by omega)
        refine ⟨by omega, fun j hj hjle => ?_⟩
        rcases Nat.lt_or_eq_of_le hj with hlt | rfl
        · exact hall j hlt hjle
        · exact htest.1
      · have := hiff.mpr ⟨by omega, fun j hj => h.2 j (by omega)⟩
        omega
    · rw [readLoop, if_neg htest, List.length_nil]
      refine ⟨Nat.zero_le _, fun h => ⟨by omega, fun j hj hle => by omega⟩, fun h => ?_⟩
      by_contra hne
      exact htest ⟨h.2 i (le_refl i) (by omega), by omega⟩

/-- A read that returns leaves the length that was computed. -/
theorem read_left (hw : m.inbuflen < 2 ^ 32) (h : ttyGenericRead m len = some (bs, n)) :
    n.inbuflen = m.left len ∧
      bs.length = if m.inbuflen = 0 ∨ len = 0 then 0 else (readLoop m len 0).length := by
  unfold ttyGenericRead at h
  unfold Input.left
  split at h
  · rename_i hout
    cases h
    simp [hout]
  · rename_i hout
    split at h
    · rename_i hnil
      cases h
      simp only [hout, hnil, List.length_nil, ↓reduceIte, and_true]
      omega
    · simp only [Option.map_eq_some_iff, Prod.mk.injEq] at h
      obtain ⟨t, ht, rfl, rfl⟩ := h
      simp only [Input.shift, Option.ite_none_left_eq_some, Option.some.injEq] at ht
      obtain ⟨-, rfl⟩ := ht
      simp [hout]

theorem Counted.push (h : Counted s) (hp : s.pending < ttyBufferSize)
    (ht : s.step (.push c) = some t) : Counted t := by
  rw [h.pending] at hp
  have haccount := h.account
  simp only [ttyBufferSize] at hp
  simp only [Typing.step, Option.some.injEq] at ht
  subst ht
  constructor
  · simp only [ttyPushByte, List.length_append, List.length_singleton]
    omega
  · simp only [ttyPushByte, ttyBufferSize]
    omega

/-- What a paced read copies is pending. -/
theorem Counted.copied_le (h : Counted s) (hp : Paced s (.read len))
    (hout : ¬ (s.input.inbuflen = 0 ∨ len = 0)) :
    (readLoop s.input len 0).length ≤ s.input.inbuflen := by
  obtain ⟨hle, hiff⟩ := read_loop_length s.input len (i := 0) (Nat.zero_le _)
  rcases Nat.lt_or_eq_of_le hle with hlt | heq
  · omega
  · obtain ⟨hlong, hall⟩ := hiff.mp heq
    simp only [Paced, h.pending] at hp
    obtain ⟨i, hi, hz⟩ := hp (by omega) (by omega)
    exact absurd hz (hall i (Nat.zero_le _) hi)

theorem Counted.read (h : Counted s) (hp : Paced s (.read len))
    (ht : s.step (.read len) = some t) : Counted t := by
  have hfits := h.fits
  have haccount := h.account
  simp only [ttyBufferSize] at hfits
  simp only [Typing.step, Option.map_eq_some_iff] at ht
  obtain ⟨⟨bs, n⟩, hread, rfl⟩ := ht
  obtain ⟨hleft, hlen⟩ := read_left (by omega) hread
  by_cases hout : s.input.inbuflen = 0 ∨ len = 0
  · simp only [Input.left, if_pos hout] at hleft hlen
    constructor
    · simp only [List.length_append]
      omega
    · simp only [ttyBufferSize]
      omega
  · have hcopied := h.copied_le hp hout
    simp only [Input.left, if_neg hout] at hleft hlen
    constructor
    · simp only [List.length_append]
      omega
    · simp only [ttyBufferSize]
      omega

theorem Counted.bounded_iff (h : Counted s) (a : InputAct) : Bounded s a ↔ Paced s a := by
  have hfits := h.fits
  cases a with
  | push c =>
    simp only [Bounded, Paced, h.pending, ttyPushByte]
    simp only [ttyBufferSize] at hfits ⊢
    omega
  | read len =>
    simp only [Bounded, Input.left]
    by_cases hout : s.input.inbuflen = 0 ∨ len = 0
    · simp only [if_pos hout, hfits, Paced, h.pending, true_iff]
      omega
    · rw [if_neg hout]
      constructor
      · intro hle
        by_contra hn
        simp only [Paced, h.pending, not_forall, not_exists, not_and] at hn
        obtain ⟨-, hlong, hall⟩ := hn
        -- every byte up to the one behind the pending ones is copied, and the length wraps
        have hover := (read_loop_length s.input len (i := 0) (Nat.zero_le _)).2.mpr
          ⟨by omega, fun j _ hj => hall j hj⟩
        rw [hover] at hle
        simp only [ttyBufferSize] at hfits hle
        omega
      · intro hp
        have hcopied := h.copied_le hp hout
        simp only [ttyBufferSize] at hfits ⊢
        omega

theorem init_counted (inbuf : Nat → UInt8) : Counted (Typing.init inbuf) :=
  ⟨rfl, Nat.zero_le _⟩

/-- Keys and reads in any order keep within the input buffer if and only if the reader
keeps up with the keys and no read takes the byte behind the pending ones. -/
theorem input_bounded_iff (inbuf : Nat → UInt8) (acts : List InputAct) :
    Guarded Typing.step Bounded (Typing.init inbuf) acts ↔
      Guarded Typing.step Paced (Typing.init inbuf) acts := by
  refine guarded_iff_guarded (init_counted inbuf) ?_ (fun s a hs => hs.bounded_iff a)
  intro s a t hs hg ht
  cases a with
  | push c => exact hs.push hg ht
  | read len => exact hs.read hg ht

/-- Keys alone make the length grow, whether there is room or not. -/
theorem run_keys (inbuf : Nat → UInt8) (c : UInt8) (hn : n < 2 ^ 32) :
    ∃ t, run Typing.step (Typing.init inbuf) (List.replicate n (.push c)) = some t ∧
      t.input.inbuflen = n := by
  induction n with
  | zero => exact ⟨_, rfl, rfl⟩
  | succ n ih =>
    obtain ⟨t, ht, hlen⟩ := ih (by omega)
    refine ⟨{ t with input := ttyPushByte t.input c, pushed := t.pushed ++ [c] }, ?_, ?_⟩
    · rw [List.replicate_succ', run_append, ht]
      rfl
    · show (t.input.inbuflen + 1) % 2 ^ 32 = n + 1
      rw [hlen, Nat.mod_eq_of_lt hn]

/-- One key more than the buffer holds, with nobody reading. -/
theorem keys_run_over :
    ¬ ∀ (inbuf : Nat → UInt8) (acts : List InputAct),
      Guarded Typing.step Bounded (Typing.init inbuf) acts := by
  intro h
  obtain ⟨t, ht, hlen⟩ := run_keys (fun _ => 0) 97 (n := ttyBufferSize) (by decide)
  have hbound := (guarded_iff _ _ _ _).mp
    (h (fun _ => 0) (List.replicate ttyBufferSize (.push 97) ++ [.push 97]))
    _ (.push 97) [] t rfl ht
  exact absurd hbound.1 (by rw [hlen]; exact Nat.lt_irrefl _)

end Bounds

end Levos.Proofs.Input
