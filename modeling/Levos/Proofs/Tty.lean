import Levos.Tty

namespace Levos.Proofs.Tty
open Levos.Library

theorem contents_put (m : Levos.Tty) (text : Bytes) (h : m.bufpos ≤ pos) :
    (m.put pos text).contents = m.contents :=
  slice_blit_apart m.buffer (.inl (by simpa [Levos.Tty.put] using h))

theorem contents_advance (m : Levos.Tty) (h : m.bufpos + n < 2 ^ 32) :
    (m.advance n).contents = m.contents ++ slice m.buffer m.bufpos n := by
  have hpos : (m.advance n).bufpos = m.bufpos + n := Nat.mod_eq_of_lt h
  unfold Levos.Tty.contents
  rw [hpos]
  exact (slice_append m.buffer 0 m.bufpos n).trans (by rw [Nat.zero_add])

/-- A call that is not disturbed adds its text, or nothing. -/
theorem write_contents (m : Levos.Tty) (text : Bytes) (h : m.bufpos + text.length ≤ m.buflen)
    (hlen : m.buflen < 2 ^ 32) :
    (ttyGenericWrite m text).1 = 0 ∧ (ttyGenericWrite m text).2.buflen = m.buflen ∧
      (ttyGenericWrite m text).2.bufpos = m.bufpos + text.length ∧
      (ttyGenericWrite m text).2.contents = m.contents ++ text := by
  have hmod : (m.bufpos + text.length) % 2 ^ 32 = m.bufpos + text.length :=
    Nat.mod_eq_of_lt (by omega)
  have hfits : m.full text.length = false := by
    simp only [Levos.Tty.full, hmod, decide_eq_false_iff_not]
    omega
  simp only [ttyGenericWrite, hfits, Bool.false_eq_true, ↓reduceIte]
  refine ⟨trivial, rfl, hmod, ?_⟩
  rw [contents_advance _ (by simpa [Levos.Tty.put] using (by omega : _ < 2 ^ 32)),
    contents_put m text (Nat.le_refl _)]
  exact congrArg _ (slice_blit m.buffer m.bufpos text)

/-- The call inside the lock that has moved `bufpos` already. -/
def finishing (s : Writers) : List (Nat × Bytes) :=
  match s.holder with
  | some ⟨i, text, .moved⟩ => [(i, text)]
  | _ => []

/-- `bufpos` stays within the buffer, and behind what was there before stand the
texts of the calls that return 0, each once and in one piece, and nothing else. -/
def Intact (prior : Bytes) (s : Writers) : Prop :=
  s.tty.bufpos ≤ s.tty.buflen ∧
    s.tty.contents = prior ++ ((finishing s ++ s.succeeded).reverse.map Prod.snd).flatten

/-- A writer that gets the lock finds the room it has tested for. -/
def StillFits (s : Writers) (a : Nat × WriteAct) : Prop :=
  a.2 = .lock → ∀ text, s.waiting a.1 = some text →
    s.tty.bufpos + text.length ≤ s.tty.buflen

/-- What the writer inside has done so far. -/
def Working (m : Levos.Tty) : Holder → Prop
  | ⟨_, text, .copying base copied⟩ =>
    base = m.bufpos ∧ m.bufpos + text.length ≤ m.buflen ∧ copied ≤ text.length ∧
      slice m.buffer base copied = text.take copied
  | ⟨_, _, .moved⟩ => True

structure Filed (prior : Bytes) (s : Writers) : Prop where
  intact : Intact prior s
  word : s.tty.buflen < 2 ^ 32
  working : ∀ h, s.holder = some h → Working s.tty h

variable {prior : Bytes} {s t : Writers}

theorem start_filed (m : Levos.Tty) (hpos : m.bufpos ≤ m.buflen) (hlen : m.buflen < 2 ^ 32) :
    Filed m.contents (Writers.start m) where
  intact := ⟨hpos, by simp [finishing, Writers.start]⟩
  word := hlen
  working := fun h hh => by cases hh

/-- Everything one step can do. -/
inductive Stepped (s : Writers) : Nat × WriteAct → Writers → Prop
  | refused (i : Nat) (text : Bytes) :
    Stepped s (i, .call text) { s with refused := (i, text) :: s.refused }
  | waits (i : Nat) (text : Bytes) : Stepped s (i, .call text)
      { s with waiting := Function.update s.waiting i (some text) }
  | locked (i : Nat) (text : Bytes) (hw : s.waiting i = some text) (hh : s.holder = none) :
    Stepped s (i, .lock)
      { s with
        waiting := Function.update s.waiting i none
        holder := some ⟨i, text, .copying s.tty.bufpos 0⟩ }
  | copied (i : Nat) (text : Bytes) (base copied count : Nat)
      (hh : s.holder = some ⟨i, text, .copying base copied⟩)
      (hle : copied + count ≤ text.length) : Stepped s (i, .copy count)
      { s with
        tty := s.tty.put (base + copied) ((text.drop copied).take count)
        holder := some ⟨i, text, .copying base (copied + count)⟩ }
  | advanced (i : Nat) (text : Bytes) (base : Nat)
      (hh : s.holder = some ⟨i, text, .copying base text.length⟩) : Stepped s (i, .advance)
      { s with tty := s.tty.advance text.length, holder := some ⟨i, text, .moved⟩ }
  | unlocked (i : Nat) (text : Bytes) (hh : s.holder = some ⟨i, text, .moved⟩) :
    Stepped s (i, .unlock) { s with holder := none, succeeded := (i, text) :: s.succeeded }

theorem step_cases (h : s.step a = some t) : Stepped s a t := by
  obtain ⟨i, act⟩ := a
  cases act with
  | call text =>
    simp only [Writers.step] at h
    split at h
    · split at h
      · cases h
        exact .refused i text
      · cases h
        exact .waits i text
    · cases h
  | lock =>
    simp only [Writers.step] at h
    split at h
    · rename_i text hw hh
      cases h
      exact .locked i text hw hh
    · cases h
  | copy count =>
    simp only [Writers.step] at h
    split at h
    · rename_i j text base copied hh
      split at h
      · rename_i hc
        obtain ⟨rfl, hle⟩ := hc
        cases h
        exact .copied j text base copied count hh hle
      · cases h
    · cases h
  | advance =>
    simp only [Writers.step] at h
    split at h
    · rename_i j text base copied hh
      split at h
      · rename_i hc
        obtain ⟨rfl, rfl⟩ := hc
        cases h
        exact .advanced j text base hh
      · cases h
    · cases h
  | unlock =>
    simp only [Writers.step] at h
    split at h
    · rename_i j text hh
      split at h
      · rename_i hj
        subst hj
        cases h
        exact .unlocked j text hh
      · cases h
    · cases h

/-- Between the lock and the move of `bufpos` nothing is finishing. -/
theorem finishing_copying (h : s.holder = some ⟨i, text, .copying base copied⟩) :
    finishing s = [] := by
  simp [finishing, h]

theorem Filed.locked (h : Filed prior s) (hh : s.holder = none)
    (hfits : s.tty.bufpos + text.length ≤ s.tty.buflen) :
    Filed prior { s with
      waiting := Function.update s.waiting i none
      holder := some ⟨i, text, .copying s.tty.bufpos 0⟩ } := by
  obtain ⟨hpos, hcontents⟩ := h.intact
  refine ⟨⟨hpos, ?_⟩, h.word, ?_⟩
  · simpa [finishing, hh] using hcontents
  · rintro _ ⟨⟩
    exact ⟨rfl, hfits, Nat.zero_le _, rfl⟩

theorem Filed.copied (h : Filed prior s)
    (hh : s.holder = some ⟨i, text, .copying base k⟩)
    (hle : k + count ≤ text.length) :
    Filed prior { s with
      tty := s.tty.put (base + k) ((text.drop k).take count)
      holder := some ⟨i, text, .copying base (k + count)⟩ } := by
  obtain ⟨hpos, hcontents⟩ := h.intact
  obtain ⟨rfl, hfits, _, hslice⟩ := h.working _ hh
  refine ⟨⟨hpos, ?_⟩, h.word, ?_⟩
  · rw [finishing_copying hh] at hcontents
    simpa only [contents_put _ _ (Nat.le_add_right _ _), finishing] using hcontents
  · rintro _ ⟨⟩
    refine ⟨rfl, hfits, hle, ?_⟩
    have hlen : ((text.drop k).take count).length = count := by
      simp only [List.length_take, List.length_drop]
      omega
    have hnew := slice_blit s.tty.buffer (s.tty.bufpos + k) ((text.drop k).take count)
    rw [hlen] at hnew
    have hold : slice (s.tty.put (s.tty.bufpos + k) ((text.drop k).take count)).buffer
        s.tty.bufpos k = text.take k :=
      (slice_blit_apart s.tty.buffer (.inl (Nat.le_refl _))).trans hslice
    rw [slice_append, hold, List.take_add]
    exact congrArg _ hnew

theorem Filed.advanced (h : Filed prior s)
    (hh : s.holder = some ⟨i, text, .copying base text.length⟩) :
    Filed prior { s with
      tty := s.tty.advance text.length
      holder := some ⟨i, text, .moved⟩ } := by
  obtain ⟨_, hcontents⟩ := h.intact
  obtain ⟨rfl, hfits, _, hslice⟩ := h.working _ hh
  have hword := h.word
  refine ⟨⟨?_, ?_⟩, h.word, ?_⟩
  · change (s.tty.bufpos + text.length) % 2 ^ 32 ≤ s.tty.buflen
    rwa [Nat.mod_eq_of_lt (by omega)]
  · rw [finishing_copying hh] at hcontents
    simp only [contents_advance s.tty (by omega : s.tty.bufpos + text.length < 2 ^ 32), hcontents,
      hslice, List.take_length, finishing]
    simp
  · rintro _ ⟨⟩
    trivial

theorem Filed.unlocked (h : Filed prior s) (hh : s.holder = some ⟨i, text, .moved⟩) :
    Filed prior { s with holder := none, succeeded := (i, text) :: s.succeeded } := by
  obtain ⟨hpos, hcontents⟩ := h.intact
  refine ⟨⟨hpos, ?_⟩, h.word, fun _ he => by cases he⟩
  simpa [finishing, hh] using hcontents

theorem Filed.step (h : Filed prior s) (hg : StillFits s a) (hs : s.step a = some t) :
    Filed prior t := by
  cases step_cases hs with
  | refused | waits => exact ⟨h.intact, h.word, h.working⟩
  | locked i text hw hh => exact h.locked hh (hg rfl text hw)
  | copied i text base copied count hh hle => exact h.copied hh hle
  | advanced i text base hh => exact h.advanced hh
  | unlocked i text hh => exact h.unlocked hh

/-- The steps of one call that is not disturbed. -/
def wholeCall (i : Nat) (text : Bytes) : List (Nat × WriteAct) :=
  [(i, .call text), (i, .lock), (i, .copy text.length), (i, .advance), (i, .unlock)]

/-- One after the other the steps of a call are `tty_generic_write`. -/
theorem whole_call (m : Levos.Tty) (i : Nat) (text : Bytes) (hlen : text.length < 2 ^ 32)
    (hroom : m.full text.length = false) :
    run Writers.step (Writers.start m) (wholeCall i text) =
      some { Writers.start (ttyGenericWrite m text).2 with succeeded := [(i, text)] } := by
  have hidle : (Writers.mk m (fun _ => none) none [] []).idle i := ⟨rfl, fun h hh => by cases hh⟩
  have hcall : (Writers.mk m (fun _ => none) none [] []).step (i, .call text) =
      some ⟨m, Function.update (fun _ => none) i (some text), none, [], []⟩ := by
    rw [Writers.step, if_pos ⟨hidle, hlen⟩, if_neg (by simp [hroom])]
  rw [wholeCall, Writers.start, run, hcall]
  simp [run, Writers.step, Writers.start, ttyGenericWrite, hroom]

/-- In every interleaving in which each writer that gets the lock still finds
room for its text, the buffer holds the texts of the calls that returned 0. -/
theorem writes_intact (m : Levos.Tty) (as : List (Nat × WriteAct)) (hpos : m.bufpos ≤ m.buflen)
    (hlen : m.buflen < 2 ^ 32)
    (hg : Guarded Writers.step StillFits (Writers.start m) as) :
    Throughout Writers.step (Intact m.contents) (Writers.start m) as :=
  (throughout_of_guarded (start_filed m hpos hlen)
    (fun _ _ _ h hg hs => h.step hg hs) hg).mono (fun _ h => h.intact)

/-- A tty whose buffer has room for two more bytes. -/
def almostFull : Levos.Tty := ⟨fun _ => 32, ttyBufferSize, 4190⟩

/-- Process 0 writes while process 1 finds the buffer full. -/
def oneWriter : List (Nat × WriteAct) :=
  [(0, .call [65, 66]), (0, .lock), (0, .copy 1), (1, .call [67, 68, 69]), (0, .copy 1),
    (0, .advance), (0, .unlock)]

theorem writes_intact_one :
    Throughout Writers.step (Intact almostFull.contents) (Writers.start almostFull) oneWriter := by
  refine writes_intact almostFull oneWriter (by decide) (by decide) ?_
  refine .cons rfl (fun h => by cases h) (.cons rfl ?_ ?_)
  · rintro _ text ⟨⟩
    decide
  · refine .of_forall ?_ _
    intro s a ha hlock
    fin_cases ha <;> cases hlock

/-- Two processes pass the test with two bytes each before either gets the lock. -/
def twoWriters : List (Nat × WriteAct) :=
  [(0, .call [65, 66]), (1, .call [67, 68]), (0, .lock), (0, .copy 2), (0, .advance), (0, .unlock),
    (1, .lock), (1, .copy 2), (1, .advance)]

theorem writes_overrun :
    ¬ ∀ (m : Levos.Tty) (as : List (Nat × WriteAct)), m.bufpos ≤ m.buflen →
      m.buflen = ttyBufferSize →
      Throughout Writers.step (Intact m.contents) (Writers.start m) as := by
  intro h
  have hpos := ((h almostFull twoWriters (by decide) rfl).last rfl).1
  revert hpos
  decide

section Editing

/-- The counters stay within the buffer that was allocated, and so do the stores. -/
structure Within (s : Edited) : Prop where
  position : s.tty.bufpos ≤ s.tty.buflen
  allocated : s.tty.buflen = ttyBufferSize
  stores : ∀ r ∈ s.stored, ∀ i, r.1 ≤ i → i < r.1 + r.2 → i < ttyBufferSize

/-- A write whose end the test can compute in a word. A backspace is never harmless. -/
def Harmless (s : Edited) : EditAct → Prop
  | .write r => s.tty.bufpos + r.val.length < 2 ^ 32
  | .backspace => False

variable {s t : Edited}

theorem Within.write (h : Within s) (r : Request) (hr : s.tty.bufpos + r.val.length < 2 ^ 32)
    (ht : s.step (.write r) = some t) : Within t := by
  obtain ⟨hpos, halloc, hstores⟩ := h
  have hmod : (s.tty.bufpos + r.val.length) % 2 ^ 32 = s.tty.bufpos + r.val.length :=
    Nat.mod_eq_of_lt hr
  simp only [Edited.step, Option.some.injEq] at ht
  subst ht
  cases hfull : s.tty.full r.val.length with
  | true =>
    simp only [ttyGenericWrite, hfull, ↓reduceIte]
    exact ⟨hpos, halloc, hstores⟩
  | false =>
    have hfits : s.tty.bufpos + r.val.length ≤ s.tty.buflen := by
      simpa only [Levos.Tty.full, hmod, decide_eq_false_iff_not, not_lt] using hfull
    simp only [ttyGenericWrite, hfull, Bool.false_eq_true, ↓reduceIte]
    refine ⟨?_, halloc, ?_⟩
    · show (s.tty.bufpos + r.val.length) % 2 ^ 32 ≤ s.tty.buflen
      rwa [hmod]
    · intro x hx i hlow hi
      rcases List.mem_append.mp hx with hold | hnew
      · exact hstores x hold i hlow hi
      · cases List.mem_singleton.mp hnew
        exact Nat.lt_of_lt_of_le hi (by rwa [← halloc])

/-- A write whose end wraps passes the test, since what is left of the sum is less
than `bufpos`; almost 4 GiB are stored. -/
theorem Within.wrapped (h : Within s) (r : Request)
    (hr : ¬ s.tty.bufpos + r.val.length < 2 ^ 32) :
    ∃ t, s.step (.write r) = some t ∧ ¬ Within t := by
  refine ⟨_, rfl, ?_⟩
  have hlen := r.property
  have hpos := h.position
  have halloc := h.allocated
  simp only [ttyBufferSize] at halloc
  have hpass : s.tty.full r.val.length = false := by
    simp only [Levos.Tty.full, decide_eq_false_iff_not, not_lt]
    omega
  intro hw
  have hstores := hw.stores (s.tty.bufpos, r.val.length) (by simp [hpass])
    (s.tty.bufpos + r.val.length - 1) (by omega) (by omega)
  simp only [ttyBufferSize] at hstores
  omega

theorem Within.backspace (h : Within s) : ∃ t, s.step .backspace = some t ∧ ¬ Within t := by
  refine ⟨_, rfl, ?_⟩
  intro hw
  have hbefore := h.allocated
  have hafter : (s.tty.buflen + 2 ^ 32 - 1) % 2 ^ 32 = ttyBufferSize := hw.allocated
  simp only [ttyBufferSize] at hbefore hafter
  omega

theorem init_within (buffer : Nat → UInt8) : Within (Edited.init buffer) :=
  ⟨Nat.zero_le _, rfl, fun r hr => by cases hr⟩

/-- Writes and backspaces in any order keep within the buffer if and only if there is
no backspace and the end of no write wraps. -/
theorem edits_within_iff (buffer : Nat → UInt8) (acts : List EditAct) :
    Throughout Edited.step Within (Edited.init buffer) acts ↔
      Guarded Edited.step Harmless (Edited.init buffer) acts := by
  refine throughout_iff_guarded_taken (init_within buffer) (fun s hs => hs) ?_ ?_
  · intro s a t hs hg ht
    cases a with
    | write r => exact hs.write r hg ht
    | backspace => exact absurd hg id
  · intro s a hs hg
    cases a with
    | write r => exact hs.wrapped r hg
    | backspace => exact hs.backspace

/-- One key and a backspace behind it. -/
theorem backspace_shrinks :
    ¬ ∀ (buffer : Nat → UInt8) (acts : List EditAct),
      Throughout Edited.step Within (Edited.init buffer) acts := by
  intro h
  have hlast := (h (fun _ => 0) [.write ⟨[97], by decide⟩, .backspace]).last rfl
  have hlen : 4191 = ttyBufferSize := hlast.allocated
  revert hlen
  decide

end Editing

end Levos.Proofs.Tty
