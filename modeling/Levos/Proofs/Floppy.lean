import Levos.Replies

namespace Levos.Proofs.Floppy
open Library Levos.Replies

variable {d : Drive} {s : Fdc} {k : Nat} {cyl head : UInt8} {lba : UInt32}

/-- The answers to a seek get it done within ten tries: up to one that reads the cylinder
back every try has its interrupt, or finds `irq_h` set before the first. -/
def Sought (answer : Nat → SeekReply) (cyl : UInt8) (pending : Bool) (n : Nat) : Prop :=
  ∃ i < n, (∀ j ≤ i, pending = true ∧ j = 0 ∨ (answer j).irq = true) ∧
    (answer i).cylinder = cyl ∧ ∀ j < i, (answer j).cylinder ≠ cyl

theorem sought_succ {answer : Nat → SeekReply} {pending : Bool} {n : Nat} :
    Sought answer cyl pending (n + 1) ↔ (pending || (answer 0).irq) = true ∧
      ((answer 0).cylinder = cyl ∨ Sought (fun i => answer (i + 1)) cyl false n) := by
  constructor
  · rintro ⟨i, hi, hirq, hcyl, hother⟩
    have h0 : (pending || (answer 0).irq) = true := by
      rw [Bool.or_eq_true]
      exact (hirq 0 (Nat.zero_le i)).imp And.left id
    refine ⟨h0, ?_⟩
    cases i with
    | zero => exact .inl hcyl
    | succ i =>
      refine .inr ⟨i, by omega, fun j hj => .inr ?_, hcyl, fun j hj => hother (j + 1) (by omega)⟩
      exact (hirq (j + 1) (by omega)).resolve_left fun h => by omega
  · rintro ⟨h0, hrest⟩
    have hirq0 : pending = true ∧ 0 = 0 ∨ (answer 0).irq = true := by
      rw [Bool.or_eq_true] at h0
      exact h0.imp (fun h => ⟨h, rfl⟩) id
    by_cases hfirst : (answer 0).cylinder = cyl
    · refine ⟨0, by omega, fun j hj => ?_, hfirst, fun j hj => absurd hj (Nat.not_lt_zero j)⟩
      cases Nat.le_zero.mp hj
      exact hirq0
    · obtain ⟨i, hi, hirq, hcyl, hother⟩ := hrest.resolve_left hfirst
      refine ⟨i + 1, by omega, fun j hj => ?_, hcyl, fun j hj => ?_⟩
      · cases j with
        | zero => exact hirq0
        | succ j => exact .inr ((hirq j (by omega)).resolve_left fun h => Bool.noConfusion h.1)
      · cases j with
        | zero => exact hfirst
        | succ j => exact hother j (by omega)

/-- What a seek leaves alone when it succeeds. -/
structure Kept (s t : Fdc) : Prop where
  irqH : t.irqH = false
  dma : t.dma = s.dma
  timedOut : t.timedOut = s.timedOut

/-- The tries succeed exactly on such answers. -/
theorem seek_tries (n i : Nat) (s : Fdc) :
    ((seekTries d k cyl head n i s).1 = 0 ↔
      Sought (fun j => d.seek k (i + j) (seekCommand cyl head)) cyl s.irqH n) ∧
    ((seekTries d k cyl head n i s).1 = 0 → Kept s (seekTries d k cyl head n i s).2) := by
  have hone : (1 : UInt8) ≠ 0 := by decide
  induction n generalizing i s with
  | zero =>
    refine ⟨iff_of_false hone ?_, fun h => absurd h hone⟩
    rintro ⟨i, hi, -⟩
    exact absurd hi (Nat.not_lt_zero i)
  | succ n ih =>
    rw [sought_succ]
    unfold seekTries
    dsimp only
    by_cases hseen : (s.irqH || (d.seek k i (seekCommand cyl head)).irq) = true
    · have hw : (waitForIrq (s.send (seekCommand cyl head))
          (d.seek k i (seekCommand cyl head)).irq).1 = true := hseen
      rw [if_pos hw]
      by_cases hcyl : (d.seek k i (seekCommand cyl head)).cylinder = cyl
      · rw [if_pos hcyl]
        refine ⟨iff_of_true rfl ⟨hseen, .inl hcyl⟩, fun _ => ⟨rfl, rfl, ?_⟩⟩
        simp [waitForIrq, Fdc.send, hseen]
      · rw [if_neg hcyl]
        obtain ⟨hiff, hkept⟩ := ih (i + 1) ((waitForIrq (s.send (seekCommand cyl head))
          (d.seek k i (seekCommand cyl head)).irq).2.send checkInt)
        refine ⟨hiff.trans ?_, fun h => ?_⟩
        · simp only [Nat.add_zero, hseen, hcyl, true_and, false_or, Nat.add_right_comm i 1,
            Nat.add_assoc i]
          exact Iff.rfl
        · obtain ⟨hirq, hdma, htime⟩ := hkept h
          refine ⟨hirq, hdma, htime.trans ?_⟩
          simp [waitForIrq, Fdc.send, hseen]
    · have hw : ¬ (waitForIrq (s.send (seekCommand cyl head))
          (d.seek k i (seekCommand cyl head)).irq).1 = true := hseen
      rw [if_neg hw]
      exact ⟨iff_of_false hone fun h => hseen h.1, fun h => absurd h hone⟩

theorem seek_iff (s : Fdc) : (fdcSeek d k cyl head s).1 = 0 ↔
    Sought (fun j => d.seek k j (seekCommand cyl head)) cyl s.irqH 10 := by
  have h := (@seek_tries d k cyl head 10 0 s).1
  simp only [Nat.zero_add] at h
  exact h

theorem seek_kept (h : (fdcSeek d k cyl head s).1 = 0) : Kept s (fdcSeek d k cyl head s).2 :=
  (seek_tries 10 0 s).2 h

theorem motor (s : Fdc) (drive status : UInt8) :
    ∃ dor, fdcSetMotor s drive status = { s with dor } := ⟨_, rfl⟩

/-- What a read command leaves behind, by the answer it gets. -/
structure Transferred (s t : Fdc) (r : ReadReply) : Prop where
  irqH : t.irqH = false
  dma : t.dma = r.data.getD s.dma
  loaded : t.loaded = r.data.isSome
  timedOut : t.timedOut = (s.timedOut || !r.irq)

theorem read_sector (hs : s.irqH = false) (head track sector : UInt8) :
    Transferred s (flpyReadSector d k head track sector s).2
      (d.read k (readCommand head track sector)) := by
  unfold flpyReadSector
  dsimp only
  split
  all_goals exact ⟨rfl, rfl, rfl, by simp [waitForIrq, Fdc.send, hs]⟩

section Request

variable (d : Drive) (lba : UInt32)

/-- The controller's answers to the seek for sector `k` of a request. -/
def seekAnswer (k : Nat) (a : Chs) (i : Nat) : SeekReply :=
  d.seek k i (seekCommand (UInt8.ofInt a.track) (UInt8.ofInt a.head))

/-- Its answer to the read command. -/
def readAnswer (k : Nat) (a : Chs) : ReadReply :=
  d.read k (readCommand (UInt8.ofInt a.head) (UInt8.ofInt a.track) (UInt8.ofInt a.sector))

/-- Where sector `k` of a request is on the disk. -/
def chsAt (k : Nat) : Chs := lbaToChs (lba + UInt32.ofNat k).toInt32.toInt

/-- The seek for sector `k` succeeds; an interrupt left over from before the request is
taken for that of its very first try. -/
def SeekSucceeds (leftOver : Bool) (k : Nat) : Prop :=
  Sought (seekAnswer d k (chsAt lba k)) (UInt8.ofInt (chsAt lba k).track)
    (leftOver && decide (k = 0)) 10

/-- The read command of sector `k` has its interrupt in time, and its data transferred. -/
def TransferSucceeds (k : Nat) : Prop :=
  (readAnswer d k (chsAt lba k)).irq = true ∧ (readAnswer d k (chsAt lba k)).data.isSome = true

end Request

variable {a : Chs}

/-- A seek that fails is told from `flpy_read_lba` by the null address. -/
theorem read_at_fails (h : ¬ Sought (seekAnswer d k a) (UInt8.ofInt a.track) s.irqH 10) :
    (readAt d k a s).1 = 0 := by
  obtain ⟨dor, hmotor⟩ := motor s 0 1
  unfold readAt
  dsimp only
  rw [hmotor, if_pos ((seek_iff { s with dor }).not.mpr h)]

/-- After the seek the sector counts as read, whatever becomes of the transfer. -/
theorem read_at_done (h : Sought (seekAnswer d k a) (UInt8.ofInt a.track) s.irqH 10) :
    (readAt d k a s).1 = dmaBuffer ∧ Transferred s (readAt d k a s).2 (readAnswer d k a) := by
  obtain ⟨dor, hmotor⟩ := motor s 0 1
  have hseek := (seek_iff { s with dor }).mpr h
  have hkept := seek_kept hseek
  have hread := @read_sector d _ k hkept.irqH (UInt8.ofInt a.head) (UInt8.ofInt a.track)
    (UInt8.ofInt a.sector)
  unfold readAt
  dsimp only
  rw [hmotor, if_neg (fun hne => hne hseek)]
  refine ⟨rfl, ?_⟩
  obtain ⟨dor', hoff⟩ := motor (flpyReadSector d k (UInt8.ofInt a.head) (UInt8.ofInt a.track)
    (UInt8.ofInt a.sector) _).2 0 0
  rw [hoff]
  refine ⟨hread.irqH, hread.dma.trans ?_, hread.loaded, hread.timedOut.trans ?_⟩
  · rw [hkept.dma]
    rfl
  · rw [hkept.timedOut]
    rfl

variable {r : FlpyResult} {leftOver : Bool} {n : Nat}

@[simp] theorem copy_rc (k : Nat) (t : Fdc) : (r.copy k t).rc = r.rc := by
  unfold FlpyResult.copy
  rfl

@[simp] theorem copy_fdc (k : Nat) (t : Fdc) : (r.copy k t).fdc = t := by
  unfold FlpyResult.copy
  rfl

@[simp] theorem copy_copied (k : Nat) (t : Fdc) :
    (r.copy k t).copied = r.copied ++ [t.loaded] := by
  unfold FlpyResult.copy
  rfl

/-- One round of the loop after a seek that succeeds. -/
theorem read_sectors_step (hr : r.fdc.irqH = (leftOver && decide (k = 0)))
    (h : SeekSucceeds d lba leftOver k) (n : Nat) :
    ∃ t, Transferred r.fdc t (readAnswer d k (chsAt lba k)) ∧
      readSectors d lba (n + 1) k r = readSectors d lba n (k + 1) (r.copy k t) := by
  unfold SeekSucceeds at h
  rw [← hr] at h
  obtain ⟨haddr, ht⟩ := read_at_done h
  refine ⟨_, ht, ?_⟩
  have hne : (flpyReadLba d k (lba + UInt32.ofNat k).toInt32.toInt r.fdc).1 ≠ 0 := by
    rw [flpyReadLba, ← chsAt, haddr]
    decide
  rw [readSectors, if_neg hne]
  rfl

theorem read_sectors_fails (n k : Nat) (r : FlpyResult)
    (hr : r.fdc.irqH = (leftOver && decide (k = 0)))
    (h : ∃ j, k ≤ j ∧ j < k + n ∧ ¬ SeekSucceeds d lba leftOver j) :
    (readSectors d lba n k r).rc = 1 := by
  induction n generalizing k r with
  | zero =>
    obtain ⟨j, hle, hlt, -⟩ := h
    omega
  | succ n ih =>
    by_cases hk : SeekSucceeds d lba leftOver k
    · obtain ⟨t, ht, hstep⟩ := read_sectors_step hr hk n
      have hnext : (r.copy k t).fdc.irqH = (leftOver && decide (k + 1 = 0)) := by
        simp [ht.irqH]
      rw [hstep]
      refine ih (k + 1) _ hnext ?_
      obtain ⟨j, hle, hlt, hj⟩ := h
      have hne : j ≠ k := fun he => hj (he ▸ hk)
      exact ⟨j, by omega, by omega, hj⟩
    · have hzero : (flpyReadLba d k (lba + UInt32.ofNat k).toInt32.toInt r.fdc).1 = 0 := by
        rw [flpyReadLba, ← chsAt]
        refine read_at_fails ?_
        rw [hr]
        exact hk
      rw [readSectors, if_pos hzero]

/-- If every seek succeeds, the call does, and what it has copied depends on the
transfers alone. -/
theorem read_sectors_done (n k : Nat) (r : FlpyResult)
    (hr : r.fdc.irqH = (leftOver && decide (k = 0)))
    (h : ∀ j, k ≤ j → j < k + n → SeekSucceeds d lba leftOver j) :
    (readSectors d lba n k r).rc = r.rc ∧
      (readSectors d lba n k r).copied = r.copied ++
        (List.range' k n).map (fun j => (readAnswer d j (chsAt lba j)).data.isSome) ∧
      (readSectors d lba n k r).fdc.timedOut = (r.fdc.timedOut ||
        (List.range' k n).any (fun j => !(readAnswer d j (chsAt lba j)).irq)) := by
  induction n generalizing k r with
  | zero => exact ⟨rfl, (List.append_nil _).symm, (Bool.or_false _).symm⟩
  | succ n ih =>
    obtain ⟨t, ht, hstep⟩ := read_sectors_step hr (h k (by omega) (by omega)) n
    have hnext : (r.copy k t).fdc.irqH = (leftOver && decide (k + 1 = 0)) := by
      simp [ht.irqH]
    obtain ⟨hrc, hcopied, htime⟩ := ih (k + 1) _ hnext
      (fun j hle hlt => h j (by omega) (by omega))
    rw [hstep, List.range'_succ]
    rw [copy_rc] at hrc
    refine ⟨hrc, hcopied.trans ?_, htime.trans ?_⟩
    · rw [copy_copied, ht.loaded, List.append_assoc, List.singleton_append, List.map_cons]
    · rw [copy_fdc, List.any_cons, ← Bool.or_assoc, ht.timedOut]

/-- What the caller is told agrees with what was transferred. -/
structure Honest (sectors : UInt32) (r : FlpyResult) : Prop where
  complete : r.rc = 0 → r.copied = List.replicate sectors.toNat true
  reported : r.fdc.timedOut = true → r.rc ≠ 0

theorem honest_of_failed (sectors : UInt32) (h : r.rc = 1) : Honest sectors r := by
  have hne : r.rc ≠ 0 := by
    rw [h]
    exact one_ne_zero
  exact ⟨fun hzero => absurd hzero hne, fun _ => hne⟩

/-- A call that returns 0 is honest if all of the answers it got were good ones. -/
theorem honest_iff {sectors : UInt32} {answer : Nat → ReadReply} (hrc : r.rc = 0)
    (hcopied : r.copied = (List.range sectors.toNat).map (fun k => (answer k).data.isSome))
    (htime : r.fdc.timedOut = (List.range sectors.toNat).any (fun k => !(answer k).irq)) :
    Honest sectors r ↔
      ∀ k < sectors.toNat, (answer k).irq = true ∧ (answer k).data.isSome = true := by
  constructor
  · intro h k hk
    refine ⟨?_, ?_⟩
    · by_contra hirq
      refine h.reported ?_ hrc
      rw [htime]
      exact List.any_eq_true.mpr ⟨k, List.mem_range.mpr hk, by simpa using hirq⟩
    · refine List.eq_of_mem_replicate (n := sectors.toNat) ?_
      rw [← h.complete hrc, hcopied]
      exact List.mem_map.mpr ⟨k, List.mem_range.mpr hk, rfl⟩
  · intro hall
    refine ⟨fun _ => ?_, fun h => ?_⟩
    · rw [hcopied, List.eq_replicate_iff]
      refine ⟨by simp, fun b hb => ?_⟩
      obtain ⟨k, hk, rfl⟩ := List.mem_map.mp hb
      exact (hall k (List.mem_range.mp hk)).2
    · rw [htime] at h
      obtain ⟨k, hk, hirq⟩ := List.any_eq_true.mp h
      rw [(hall k (List.mem_range.mp hk)).1] at hirq
      cases hirq

/-- `flpy_read` is honest exactly about an empty request, one with a failing seek, and
one whose transfers all succeed. -/
theorem flpy_read_honest_iff (d : Drive) (s : Fdc) (buffer : Nat → UInt8) (lba sectors : UInt32) :
    Honest sectors (flpyRead d { s with timedOut := false } buffer lba sectors) ↔
      sectors = 0 ∨ (∃ k < sectors.toNat, ¬ SeekSucceeds d lba s.irqH k) ∨
      ∀ k < sectors.toNat, TransferSucceeds d lba k := by
  by_cases hnone : sectors = 0
  · refine iff_of_true ?_ (.inl hnone)
    rw [flpyRead, if_pos hnone]
    exact honest_of_failed sectors rfl
  have hpending : ({ s with timedOut := false } : Fdc).irqH = (s.irqH && decide (0 = 0)) := by
    simp
  rw [flpyRead, if_neg hnone]
  by_cases hfail : ∃ k < sectors.toNat, ¬ SeekSucceeds d lba s.irqH k
  · obtain ⟨k, hk, hn⟩ := hfail
    refine iff_of_true (honest_of_failed sectors ?_) (.inr (.inl ⟨k, hk, hn⟩))
    exact read_sectors_fails sectors.toNat 0 _ hpending ⟨k, Nat.zero_le k, by omega, hn⟩
  · have hseek : ∀ k < sectors.toNat, SeekSucceeds d lba s.irqH k := by
      intro k hk
      by_contra hn
      exact hfail ⟨k, hk, hn⟩
    obtain ⟨hrc, hcopied, htime⟩ := read_sectors_done sectors.toNat 0
      ⟨0, buffer, { s with timedOut := false }, []⟩ hpending
      (fun j _ hlt => hseek j (by omega))
    rw [← List.range_eq_range', List.nil_append] at hcopied
    rw [← List.range_eq_range', Bool.false_or] at htime
    simp only [hnone, hfail, false_or]
    exact honest_iff hrc hcopied htime

/-- A controller whose seeks work and whose transfers never end. -/
def deadTransfer : Drive := ⟨fun _ _ cmd => ⟨true, cmd.getD 2 0⟩, fun _ _ => ⟨false, none⟩⟩

def idleFdc : Fdc := ⟨false, 4, fun _ => 0, [], false, false⟩

/-- The transfer of the only sector times out, and the call returns 0. -/
theorem dead_transfer_not_honest :
    ¬ Honest 1 (flpyRead deadTransfer { idleFdc with timedOut := false } (fun _ => 0) 0 1) :=
  fun h => h.reported (by decide) (by decide)

end Levos.Proofs.Floppy
