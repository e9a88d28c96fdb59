import Levos.Proofs.Floppy
import Levos.Proofs.FloppyRead

namespace Levos.Proofs.FloppyReplies
open Library Levos.Proofs.Floppy

/-- What the controller does in the meantime leaves the driver's records alone, and
takes no interrupt back. -/
structure Later (s t : Floppy.Fdc) : Prop where
  irqH : s.irqH = true → t.irqH = true
  sent : t.sent = s.sent
  timedOut : t.timedOut = s.timedOut

theorem Later.refl (s : Floppy.Fdc) : Later s s := ⟨id, rfl, rfl⟩

theorem Later.trans {s t u : Floppy.Fdc} (h : Later s t) (h' : Later t u) : Later s u :=
  ⟨fun hi => h'.irqH (h.irqH hi), h'.sent.trans h.sent, h'.timedOut.trans h.timedOut⟩

/-- What the controller has to do is no record of the driver. -/
theorem Later.of_working {s t : Floppy.Fdc} {working : List Floppy.Work}
    (h : Later { s with working } t) : Later s t := ⟨h.irqH, h.sent, h.timedOut⟩

theorem complete_later (s : Floppy.Fdc) (w : Floppy.Work) : Later s (s.complete w) :=
  ⟨fun _ => rfl, rfl, rfl⟩

theorem settle_later (s : Floppy.Fdc) : Later s s.settle := by
  have hfold : ∀ (ws : List Floppy.Work) (t : Floppy.Fdc),
      Later t (ws.foldl Floppy.Fdc.complete t) := by
    intro ws
    induction ws with
    | nil => exact Later.refl
    | cons w ws ih => exact fun t => (complete_later t w).trans (ih (t.complete w))
  exact (hfold _ _).of_working

theorem wait_loop_later (n : Nat) (s : Floppy.Fdc) : Later s (Floppy.waitLoop n s) := by
  induction n generalizing s with
  | zero => exact Later.refl s
  | succ n ih =>
    unfold Floppy.waitLoop
    split
    · exact Later.refl s
    · exact (settle_later _).of_working.trans (ih s.poll)

theorem issue_later (d : Floppy.Drive) (s : Floppy.Fdc) (cmd : FdcCommand) :
    Later { s with sent := s.sent ++ [cmd] } (s.issue d cmd) := by
  unfold Floppy.Fdc.issue
  dsimp only
  split
  · exact Later.refl _
  · exact (settle_later _).of_working

/-- The same driver with and without the polls. Between two waits `irq_h` may be set by a
late interrupt that only shows at the end of the next. -/
structure Seen (s : Floppy.Fdc) (t : Replies.Fdc) : Prop where
  irqH : t.irqH = true → s.irqH = true
  sent : t.sent = s.sent
  timedOut : t.timedOut = s.timedOut

/-- A wait is seen to end as it ends. -/
theorem wait_seen (d : Floppy.Drive) {s : Floppy.Fdc} {t : Replies.Fdc} (h : Seen s t)
    (cmd : FdcCommand) (dma : FloppySector) (loaded : Bool) :
    let w := Floppy.waitForIrq (s.issue d cmd)
    let v := Replies.waitForIrq { t.send cmd with dma, loaded } w.1
    v.1 = w.1 ∧ Seen w.2 v.2 := by
  intro w v
  have hlater := (issue_later d s cmd).trans (wait_loop_later 10 _)
  have hirq : v.1 = w.1 := by
    change (t.irqH || w.1) = w.1
    cases ht : t.irqH with
    | false => rfl
    | true => exact (hlater.irqH (h.irqH ht)).symm
  refine ⟨hirq, fun hi => (by cases hi), ?_, ?_⟩
  · change t.sent ++ [cmd] = (Floppy.waitLoop 10 (s.issue d cmd)).sent
    rw [hlater.sent, h.sent]
  · change (t.timedOut || !v.1) = ((Floppy.waitLoop 10 (s.issue d cmd)).timedOut || !w.1)
    rw [hlater.timedOut, h.timedOut, hirq]

theorem Seen.check {s : Floppy.Fdc} {t : Replies.Fdc} (h : Seen s t) :
    Seen s.check (t.send checkInt) :=
  ⟨h.irqH, congrArg (· ++ [checkInt]) h.sent, h.timedOut⟩

section Observed

variable (d : Floppy.Drive) (lba : UInt32) (s : Floppy.Fdc)

/-- The driver before try `i` of a seek. -/
def tryState (cyl head : UInt8) : Nat → Floppy.Fdc
  | 0 => s
  | i + 1 => (Floppy.waitForIrq ((tryState cyl head i).issue d (seekCommand cyl head))).2.check

/-- The driver before sector `k` of a request. -/
def sectorState : Nat → Floppy.Fdc
  | 0 => s
  | k + 1 => (Floppy.readAt d (chsAt lba k) (sectorState k)).2

/-- What is seen of a controller at the end of the waits. -/
def observed : Replies.Drive where
  seek k i cmd :=
    let start := Floppy.fdcSetMotor (sectorState d lba s k) 0 1
    let w := Floppy.waitForIrq ((tryState d start (UInt8.ofInt (chsAt lba k).track)
      (UInt8.ofInt (chsAt lba k).head) i).issue d cmd)
    ⟨w.1, w.2.cylinder⟩
  read k cmd :=
    let rc := Floppy.fdcSeek d (UInt8.ofInt (chsAt lba k).track) (UInt8.ofInt (chsAt lba k).head)
      (Floppy.fdcSetMotor (sectorState d lba s k) 0 1)
    let w := Floppy.waitForIrq ({ rc.2 with loaded := false }.issue d cmd)
    ⟨w.1, if w.2.loaded then some w.2.dma else none⟩

end Observed

variable {d : Floppy.Drive} {lba : UInt32} {s : Floppy.Fdc}

theorem seek_tries_seen (k n i : Nat) (cyl head : UInt8) (start : Floppy.Fdc) {e : Replies.Drive}
    (he : ∀ i, e.seek k i (seekCommand cyl head) =
      let w := Floppy.waitForIrq ((tryState d start cyl head i).issue d (seekCommand cyl head))
      ⟨w.1, w.2.cylinder⟩)
    {t : Replies.Fdc} (h : Seen (tryState d start cyl head i) t) :
    (Replies.seekTries e k cyl head n i t).1 =
        (Floppy.seekTries d cyl head n (tryState d start cyl head i)).1 ∧
      Seen (Floppy.seekTries d cyl head n (tryState d start cyl head i)).2
        (Replies.seekTries e k cyl head n i t).2 := by
  induction n generalizing i t with
  | zero => exact ⟨rfl, h⟩
  | succ n ih =>
    obtain ⟨hirq, hseen⟩ := wait_seen d h (seekCommand cyl head) t.dma t.loaded
    unfold Replies.seekTries Floppy.seekTries
    dsimp only
    rw [he i]
    dsimp only at hirq hseen ⊢
    have hsend : { t.send (seekCommand cyl head) with dma := t.dma, loaded := t.loaded } =
        t.send (seekCommand cyl head) := rfl
    rw [hsend] at hirq hseen
    rw [hirq]
    split
    · split
      · exact ⟨rfl, hseen.check⟩
      · exact ih (i + 1) hseen.check
    · exact ⟨rfl, hseen⟩

theorem read_sector_seen (k : Nat) (head track sector : UInt8) {e : Replies.Drive}
    (he : e.read k (readCommand head track sector) =
      let w := Floppy.waitForIrq ({ s with loaded := false }.issue d
        (readCommand head track sector))
      ⟨w.1, if w.2.loaded then some w.2.dma else none⟩)
    {t : Replies.Fdc} (h : Seen s t) :
    Seen (Floppy.flpyReadSector d head track sector s).2
        (Replies.flpyReadSector e k head track sector t).2 ∧
      (Replies.flpyReadSector e k head track sector t).2.loaded =
        (Floppy.flpyReadSector d head track sector s).2.loaded := by
  have hstart : Seen { s with loaded := false } t := ⟨h.irqH, h.sent, h.timedOut⟩
  unfold Replies.flpyReadSector Floppy.flpyReadSector
  dsimp only
  rw [he]
  dsimp only
  generalize hw : Floppy.waitForIrq ({ s with loaded := false }.issue d
    (readCommand head track sector)) = w
  obtain ⟨hirq, hseen⟩ := wait_seen d hstart (readCommand head track sector)
    ((if w.2.loaded then some w.2.dma else none).getD t.dma)
    ((if w.2.loaded then some w.2.dma else none).isSome)
  rw [hw] at hirq hseen
  rw [hirq]
  have hloaded : (if w.2.loaded then some w.2.dma else none).isSome = w.2.loaded := by
    cases w.2.loaded <;> rfl
  split
  · exact ⟨hseen.check, hloaded⟩
  · exact ⟨hseen, hloaded⟩

/-- One sector: the address that is returned, and what has been loaded. -/
theorem read_at_seen (k : Nat) {t : Replies.Fdc} (h : Seen (sectorState d lba s k) t) :
    (Replies.readAt (observed d lba s) k (chsAt lba k) t).1 =
        (Floppy.readAt d (chsAt lba k) (sectorState d lba s k)).1 ∧
      Seen (sectorState d lba s (k + 1))
        (Replies.readAt (observed d lba s) k (chsAt lba k) t).2 ∧
      ((Floppy.readAt d (chsAt lba k) (sectorState d lba s k)).1 ≠ 0 →
        (Replies.readAt (observed d lba s) k (chsAt lba k) t).2.loaded =
          (sectorState d lba s (k + 1)).loaded) := by
  have hstart : Seen (Floppy.fdcSetMotor (sectorState d lba s k) 0 1) (Replies.fdcSetMotor t 0 1) :=
    ⟨h.irqH, h.sent, h.timedOut⟩
  obtain ⟨hrc, hseek⟩ := seek_tries_seen (e := observed d lba s) k 10 0
    (UInt8.ofInt (chsAt lba k).track) (UInt8.ofInt (chsAt lba k).head)
    (Floppy.fdcSetMotor (sectorState d lba s k) 0 1) (fun i => rfl) hstart
  obtain ⟨hread, hloaded⟩ := read_sector_seen (e := observed d lba s) k
    (UInt8.ofInt (chsAt lba k).head) (UInt8.ofInt (chsAt lba k).track)
    (UInt8.ofInt (chsAt lba k).sector) rfl hseek
  simp only [tryState] at hrc hseek hread hloaded
  rw [show sectorState d lba s (k + 1) =
    (Floppy.readAt d (chsAt lba k) (sectorState d lba s k)).2 from rfl]
  by_cases hne : (Floppy.seekTries d (UInt8.ofInt (chsAt lba k).track)
      (UInt8.ofInt (chsAt lba k).head) 10
      (Floppy.fdcSetMotor (sectorState d lba s k) 0 1)).1 ≠ 0
  · have htimed : Floppy.readAt d (chsAt lba k) (sectorState d lba s k) = (0, _) := if_pos hne
    have hreply : Replies.readAt (observed d lba s) k (chsAt lba k) t = (0, _) :=
      if_pos (hrc ▸ hne)
    rw [htimed, hreply]
    exact ⟨rfl, hseek, fun h => absurd rfl h⟩
  · have htimed : Floppy.readAt d (chsAt lba k) (sectorState d lba s k) = (dmaBuffer, _) :=
      if_neg hne
    have hreply : Replies.readAt (observed d lba s) k (chsAt lba k) t = (dmaBuffer, _) :=
      if_neg (hrc ▸ hne)
    rw [htimed, hreply]
    exact ⟨rfl, ⟨hread.irqH, hread.sent, hread.timedOut⟩, fun _ => hloaded⟩

theorem read_sectors_seen (n k : Nat) {r : Floppy.Result} {q : Replies.FlpyResult}
    (hr : r.fdc = sectorState d lba s k) (hrc : q.rc = r.rc) (hcopied : q.copied = r.copied)
    (h : Seen r.fdc q.fdc) :
    (Replies.readSectors (observed d lba s) lba n k q).rc = (Floppy.readSectors d lba n k r).rc ∧
      (Replies.readSectors (observed d lba s) lba n k q).copied =
        (Floppy.readSectors d lba n k r).copied ∧
      Seen (Floppy.readSectors d lba n k r).fdc
        (Replies.readSectors (observed d lba s) lba n k q).fdc := by
  induction n generalizing k r q with
  | zero => exact ⟨hrc, hcopied, h⟩
  | succ n ih =>
    obtain ⟨haddr, hseen, hloaded⟩ := read_at_seen k (hr ▸ h)
    rw [← hr] at haddr hloaded
    have hnext : (Floppy.readAt d (chsAt lba k) r.fdc).2 = sectorState d lba s (k + 1) := by
      rw [hr]
      rfl
    rw [← hnext] at hseen hloaded
    by_cases hzero : (Floppy.readAt d (chsAt lba k) r.fdc).1 = 0
    · have htimed : Floppy.readSectors d lba (n + 1) k r =
          { r with rc := 1, fdc := (Floppy.readAt d (chsAt lba k) r.fdc).2 } := if_pos hzero
      have hreply : Replies.readSectors (observed d lba s) lba (n + 1) k q =
          { q with rc := 1, fdc := (Replies.readAt (observed d lba s) k (chsAt lba k) q.fdc).2 } :=
        if_pos (haddr.trans hzero)
      rw [htimed, hreply]
      exact ⟨rfl, hcopied, hseen⟩
    · have htimed : Floppy.readSectors d lba (n + 1) k r = Floppy.readSectors d lba n (k + 1)
          (r.copy k (Floppy.readAt d (chsAt lba k) r.fdc).2) := if_neg hzero
      have hreply : Replies.readSectors (observed d lba s) lba (n + 1) k q =
          Replies.readSectors (observed d lba s) lba n (k + 1)
            (q.copy k (Replies.readAt (observed d lba s) k (chsAt lba k) q.fdc).2) :=
        if_neg (fun h => hzero (haddr.symm.trans h))
      rw [htimed, hreply]
      refine ih (k + 1) ?_ ?_ ?_ ?_
      · rw [FloppyRead.copy_fdc, hnext]
      · rw [copy_rc, FloppyRead.copy_rc, hrc]
      · rw [copy_copied, FloppyRead.copy_copied, hcopied, hloaded hzero]
      · rw [copy_fdc, FloppyRead.copy_fdc]
        exact hseen

/-- A request, timed in any way, is one of those in which only the ends of the waits are
looked at. -/
theorem flpy_read_seen (d : Floppy.Drive) (s : Floppy.Fdc) (t : Replies.Fdc) (h : Seen s t)
    (buffer : Nat → UInt8) (lba sectors : UInt32) :
    (Replies.flpyRead (observed d lba s) t buffer lba sectors).rc =
        (Floppy.flpyRead d s buffer lba sectors).rc ∧
      (Replies.flpyRead (observed d lba s) t buffer lba sectors).copied =
        (Floppy.flpyRead d s buffer lba sectors).copied ∧
      Seen (Floppy.flpyRead d s buffer lba sectors).fdc
        (Replies.flpyRead (observed d lba s) t buffer lba sectors).fdc := by
  unfold Replies.flpyRead Floppy.flpyRead
  split
  · exact ⟨rfl, rfl, h⟩
  · exact read_sectors_seen sectors.toNat 0 rfl rfl rfl h

end Levos.Proofs.FloppyReplies
