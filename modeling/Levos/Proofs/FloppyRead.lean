import Levos.Floppy
import Levos.Library.Words

namespace Levos.Proofs.FloppyRead
open Library Levos.Floppy

theorem byte_of_int {n : Nat} (h : n < 256) : UInt8.ofInt (n : Int) = UInt8.ofNat n := by
  unfold UInt8.ofInt
  congr 1
  omega

theorem byte_to_nat {n : Nat} (h : n < 256) : (UInt8.ofInt (n : Int)).toNat = n := by
  rw [byte_of_int h, UInt8.toNat_ofNat']
  omega

/-- For sector numbers the division of C is that of the naturals. -/
theorem lba_to_chs (n : Nat) :
    lbaToChs n = ⟨(n % 36 / 18 : Nat), (n / 36 : Nat), (n % 18 + 1 : Nat)⟩ := by
  unfold lbaToChs
  rw [Int.tmod_eq_emod_of_nonneg (by omega), Int.tmod_eq_emod_of_nonneg (by omega),
    Int.tdiv_eq_ediv_of_nonneg (by omega), Int.tdiv_eq_ediv_of_nonneg (by omega)]
  simp

/-- The places of a disk with 80 tracks, 2 heads and 18 sectors. -/
def OnDisk (a : Chs) : Prop :=
  (0 ≤ a.track ∧ a.track < 80) ∧ (0 ≤ a.head ∧ a.head < 2) ∧ 1 ≤ a.sector ∧ a.sector ≤ 18

theorem lba_to_chs_bij :
    Set.BijOn (fun n : Nat => lbaToChs n) {n | n < 2880} {a | OnDisk a} := by
  refine ⟨fun n hn => ?_, fun m hm n hn he => ?_, fun a ha => ?_⟩
  · have hn : n < 2880 := hn
    simp only [Set.mem_ofPred_eq, OnDisk, lba_to_chs]
    omega
  · simp only [lba_to_chs, Chs.mk.injEq] at he
    omega
  · obtain ⟨head, track, sector⟩ := a
    obtain ⟨ht, hh, hs⟩ := ha
    refine ⟨(track * 36 + head * 18 + (sector - 1)).toNat, ?_, ?_⟩
    · simp only [Set.mem_ofPred_eq] at ht hh hs ⊢
      omega
    · simp only [lba_to_chs, Chs.mk.injEq] at ht hh hs ⊢
      omega

/-- No part of an address is cut off when it becomes a byte of a command. -/
def Untruncated (a : Chs) : Prop :=
  ((UInt8.ofInt a.head).toNat : Int) = a.head ∧ ((UInt8.ofInt a.track).toNat : Int) = a.track ∧
    ((UInt8.ofInt a.sector).toNat : Int) = a.sector

theorem lba_untruncated {n : Nat} (h : n < 2880) : Untruncated (lbaToChs n) := by
  rw [lba_to_chs]
  refine ⟨?_, ?_, ?_⟩
  · exact congrArg Nat.cast (byte_to_nat (by omega))
  · exact congrArg Nat.cast (byte_to_nat (by omega))
  · exact congrArg Nat.cast (byte_to_nat (by omega))

/-- The sector that the track, head and sector of a read command address, numbered along
the tracks. -/
def addressedSector (cmd : FdcCommand) : Nat :=
  ((cmd.getD 2 0).toNat * 2 + (cmd.getD 3 0).toNat) * 18 + ((cmd.getD 4 0).toNat - 1)

/-- A controller that moves to the cylinder it is sent to, transfers the addressed sector
and raises its interrupt each time, each command after its own number of polls. -/
def goodDrive (image : Nat → FloppySector) (latency : List FdcCommand → Nat) : Drive := fun sent =>
  match sent.getLast? with
  | none => none
  | some cmd => some (latency sent,
      if cmd.headD 0 = 0x0f then ⟨some (cmd.getD 2 0), none⟩
      else ⟨none, some (image (addressedSector cmd))⟩)

theorem addressed_read {n : Nat} (h : n < 2880) :
    addressedSector (readCommand (UInt8.ofInt (lbaToChs n).head) (UInt8.ofInt (lbaToChs n).track)
      (UInt8.ofInt (lbaToChs n).sector)) = n := by
  rw [lba_to_chs]
  simp only [addressedSector, readCommand, List.getD_cons_succ, List.getD_cons_zero]
  rw [byte_to_nat (by omega), byte_to_nat (by omega), byte_to_nat (by omega)]
  omega

/-- The commands sent for one sector. -/
def sectorCommands (a : Chs) : List FdcCommand :=
  [seekCommand (UInt8.ofInt a.track) (UInt8.ofInt a.head), checkInt,
    readCommand (UInt8.ofInt a.head) (UInt8.ofInt a.track) (UInt8.ofInt a.sector), checkInt]

/-- No interrupt is left over from before, and none is still to come. -/
structure Idle (s : Fdc) : Prop where
  irqH : s.irqH = false
  working : s.working = []

/-- The only command the controller works on ends the wait if it is done in time. -/
theorem wait_loop_one {s : Fdc} {w : Work} (hs : s.irqH = false) (hw : s.working = [w])
    (hpos : 0 < w.polls) (hn : w.polls ≤ n) :
    waitLoop n s = { s with working := [] }.complete w := by
  induction n generalizing s w with
  | zero => omega
  | succ n ih =>
    rw [waitLoop, if_neg (by simp [hs])]
    by_cases hlast : w.polls = 1
    · have hpoll : s.poll = { s with working := [] }.complete w := by
        simp [Fdc.poll, Fdc.settle, hw, hlast, Fdc.complete]
      rw [hpoll]
      cases n <;> rfl
    · obtain ⟨p, hp⟩ : ∃ p, w.polls = p + 2 := ⟨w.polls - 2, by omega⟩
      have hpoll : s.poll = { s with working := [{ w with polls := p + 1 }] } := by
        simp [Fdc.poll, Fdc.settle, hw, hp]
      rw [hpoll]
      exact ih (w := { w with polls := p + 1 }) hs rfl (Nat.succ_pos p) (by change p + 1 ≤ n; omega)

/-- A command that an idle controller is done with in time ends its wait, and the
controller is idle again. -/
theorem wait_issued {d : Drive} {s : Fdc} (hs : Idle s) (cmd : FdcCommand) {polls : Nat}
    {finish : Finish}
    (hd : d (s.sent ++ [cmd]) = some (polls, finish)) (hp : polls ≤ 10) :
    waitForIrq (s.issue d cmd) = (true, { s with
      dma := finish.data.getD s.dma
      cylinder := finish.cylinder.getD s.cylinder
      sent := s.sent ++ [cmd]
      loaded := s.loaded || finish.data.isSome }) := by
  obtain ⟨irqH, dor, dma, cylinder, sent, working, timedOut, loaded⟩ := s
  obtain ⟨rfl, rfl⟩ := hs
  have hloop :
      waitLoop 10 (Fdc.issue d ⟨false, dor, dma, cylinder, sent, [], timedOut, loaded⟩ cmd) =
      ⟨true, dor, finish.data.getD dma, finish.cylinder.getD cylinder, sent ++ [cmd], [], timedOut,
        loaded || finish.data.isSome⟩ := by
    rcases Nat.eq_zero_or_pos polls with rfl | hpos
    · simp [Fdc.issue, hd, Fdc.settle, Fdc.complete, waitLoop]
    · have hissue : Fdc.issue d ⟨false, dor, dma, cylinder, sent, [], timedOut, loaded⟩ cmd =
          ⟨false, dor, dma, cylinder, sent ++ [cmd],
            [⟨(sent ++ [cmd]).length, polls, finish⟩], timedOut, loaded⟩ := by
        simp [Fdc.issue, hd, Fdc.settle, hpos.ne']
      rw [hissue, wait_loop_one rfl rfl hpos hp]
      simp [Fdc.complete]
  simp [waitForIrq, hloop]

@[simp] theorem copy_rc (r : Result) (k : Nat) (t : Fdc) : (r.copy k t).rc = r.rc := by
  unfold Result.copy
  rfl

@[simp] theorem copy_fdc (r : Result) (k : Nat) (t : Fdc) : (r.copy k t).fdc = t := by
  unfold Result.copy
  rfl

@[simp] theorem copy_copied (r : Result) (k : Nat) (t : Fdc) :
    (r.copy k t).copied = r.copied ++ [t.loaded] := by
  unfold Result.copy
  rfl

section Good

variable (image : Nat → FloppySector) (latency : List FdcCommand → Nat)

theorem good_seek (sent : List FdcCommand) (cyl head : UInt8) :
    goodDrive image latency (sent ++ [seekCommand cyl head]) =
      some (latency (sent ++ [seekCommand cyl head]), ⟨some cyl, none⟩) := by
  simp [goodDrive, seekCommand]

theorem good_read (sent : List FdcCommand) (head track sector : UInt8) :
    goodDrive image latency (sent ++ [readCommand head track sector]) =
      some (latency (sent ++ [readCommand head track sector]),
        ⟨none, some (image (addressedSector (readCommand head track sector)))⟩) := by
  have hread : ¬ ((0x06 ||| 0x80 ||| 0x20 ||| 0x40 : UInt8) = 0x0f) := by decide
  simp [goodDrive, readCommand, hread]

variable (hl : ∀ sent, latency sent ≤ 10)

include hl

/-- The good controller needs one try for a seek, and the sector is in the DMA buffer
when the wait for it ends. -/
theorem good_read_at (a : Chs) {s : Fdc} (hs : Idle s) :
    ∃ t, readAt (goodDrive image latency) a s = (dmaBuffer, t) ∧ Idle t ∧
      t.dma = image (addressedSector (readCommand (UInt8.ofInt a.head) (UInt8.ofInt a.track)
        (UInt8.ofInt a.sector))) ∧
      t.sent = s.sent ++ sectorCommands a := by
  obtain ⟨irqH, dor, dma, cylinder, sent, working, timedOut, loaded⟩ := s
  obtain ⟨rfl, rfl⟩ := hs
  let cmd := seekCommand (UInt8.ofInt a.track) (UInt8.ofInt a.head)
  have hseek : fdcSeek (goodDrive image latency) (UInt8.ofInt a.track) (UInt8.ofInt a.head)
      (fdcSetMotor ⟨false, dor, dma, cylinder, sent, [], timedOut, loaded⟩ 0 1) =
      (0, ⟨false, motorRegister dor 0 1, dma, UInt8.ofInt a.track, sent ++ [cmd] ++ [checkInt], [],
        timedOut, loaded⟩) := by
    have hwait := wait_issued
      (s := fdcSetMotor ⟨false, dor, dma, cylinder, sent, [], timedOut, loaded⟩ 0 1) ⟨rfl, rfl⟩ cmd
      (good_seek image latency sent _ _) (hl _)
    rw [fdcSeek, seekTries, hwait]
    simp [fdcSetMotor, Fdc.check]
  unfold readAt
  dsimp only
  rw [hseek, if_neg (fun h => h rfl)]
  refine ⟨_, rfl, ?_⟩
  have hwait := wait_issued
    (s := ⟨false, motorRegister dor 0 1, dma, UInt8.ofInt a.track, sent ++ [cmd] ++ [checkInt], [],
      timedOut, false⟩) ⟨rfl, rfl⟩
    (readCommand (UInt8.ofInt a.head) (UInt8.ofInt a.track) (UInt8.ofInt a.sector))
    (good_read image latency _ _ _ _) (hl _)
  simp only [flpyReadSector]
  rw [hwait]
  refine ⟨⟨rfl, rfl⟩, rfl, ?_⟩
  simp [fdcSetMotor, Fdc.check, sectorCommands, cmd]

variable (lba : UInt32)

/-- The contents of the sectors read so far stand in the buffer, each in its place. -/
theorem good_read_sectors (n k : Nat) (r : Result) (hs : Idle r.fdc)
    (hn : lba.toNat + (k + n) ≤ 2880) :
    (readSectors (goodDrive image latency) lba n k r).rc = r.rc ∧
      Idle (readSectors (goodDrive image latency) lba n k r).fdc ∧
      (readSectors (goodDrive image latency) lba n k r).buffer =
        (List.range' k n).foldl (fun m j => blit m (j * 512) (image (lba.toNat + j)).bytes)
          r.buffer ∧
      (readSectors (goodDrive image latency) lba n k r).fdc.sent = r.fdc.sent ++
        (List.range' k n).flatMap (fun j => sectorCommands (lbaToChs (lba.toNat + j : Nat))) := by
  induction n generalizing k r with
  | zero => exact ⟨rfl, hs, rfl, (List.append_nil _).symm⟩
  | succ n ih =>
    have hk : (UInt32.ofNat k).toNat = k := by
      rw [UInt32.toNat_ofNat']
      omega
    have hsum : (lba + UInt32.ofNat k).toNat = lba.toNat + k := by
      rw [UInt32.toNat_add, hk]
      omega
    have hplace : (UInt32.ofNat k * 512).toNat = k * 512 := by
      rw [UInt32.toNat_mul, hk]
      exact Nat.mod_eq_of_lt (by simp; omega)
    have hlba : (lba + UInt32.ofNat k).toInt32.toInt = ((lba.toNat + k : Nat) : Int) := by
      rw [int_of_word (by omega), hsum]
    obtain ⟨t, hread, hidle, hdma, hsent⟩ :=
      good_read_at image latency hl (lbaToChs (lba.toNat + k : Nat)) hs
    rw [addressed_read (by omega)] at hdma
    have hstep : readSectors (goodDrive image latency) lba (n + 1) k r =
        readSectors (goodDrive image latency) lba n (k + 1) (r.copy k t) := by
      rw [readSectors, flpyReadLba, hlba, hread, if_neg (show dmaBuffer ≠ 0 by decide)]
    obtain ⟨hrc, hlast, hbuffer, hall⟩ := ih (k + 1) (r.copy k t)
      (by rwa [copy_fdc]) (by omega)
    rw [copy_rc] at hrc
    rw [hstep, List.range'_succ]
    refine ⟨hrc, hlast, hbuffer.trans ?_, hall.trans ?_⟩
    · rw [List.foldl_cons, Result.copy, hplace, hdma]
    · rw [copy_fdc, hsent, List.flatMap_cons, List.append_assoc]

end Good

/-- The buffer holds the sectors in their order, each was sought and read once, and the
driver is ready for the next request. -/
structure Filled (image : Nat → FloppySector) (s : Fdc) (lba sectors : UInt32) (r : Result) :
    Prop where
  contents : ∀ k < sectors.toNat,
    slice r.buffer (k * 512) 512 = (image (lba.toNat + k)).bytes
  sent : r.fdc.sent = s.sent ++ (List.range sectors.toNat).flatMap
    (fun k => sectorCommands (lbaToChs (lba.toNat + k : Nat)))
  rc : sectors ≠ 0 → r.rc = 0
  idle : Idle r.fdc

theorem flpy_read_fills (image : Nat → FloppySector) (latency : List FdcCommand → Nat)
    (hl : ∀ sent, latency sent ≤ 10) (s : Fdc) (hs : Idle s) (buffer : Nat → UInt8)
    (lba sectors : UInt32) (h : lba.toNat + sectors.toNat ≤ 2880) :
    Filled image s lba sectors (flpyRead (goodDrive image latency) s buffer lba sectors) ∧
      Set.BijOn (fun n : Nat => lbaToChs n) {n | n < 2880} {a | OnDisk a} ∧
      ∀ k < sectors.toNat, Untruncated (lbaToChs (lba.toNat + k : Nat)) := by
  refine ⟨?_, lba_to_chs_bij, fun k hk => lba_untruncated (by omega)⟩
  unfold flpyRead
  split
  · rename_i hnone
    subst hnone
    exact ⟨fun k hk => absurd hk (Nat.not_lt_zero k), (List.append_nil _).symm,
      fun hne => absurd rfl hne, hs⟩
  · obtain ⟨hrc, hidle, hbuffer, hsent⟩ := good_read_sectors image latency hl lba sectors.toNat 0
      ⟨0, buffer, s, []⟩ hs (by omega)
    refine ⟨fun k hk => ?_, ?_, fun _ => hrc, hidle⟩
    · have htile := slice_tiled buffer 0 (fun j => (image (lba.toNat + j)).bytes)
        (fun j => List.length_ofFn) hk
      rw [hbuffer, ← List.range_eq_range']
      simpa only [Nat.zero_add] using htile
    · rw [hsent, ← List.range_eq_range']

def idleFdc : Fdc := ⟨false, 4, fun _ => 0, 0, [], [], false, false⟩

/-- The last sector of one head and the first of the other; every other command takes all
of the ten polls. -/
theorem flpy_read_fills_across_heads :
    Filled (fun n _ => UInt8.ofNat n) idleFdc 17 2
      (flpyRead (goodDrive (fun n _ => UInt8.ofNat n) (fun sent => sent.length % 2 * 10)) idleFdc
        (fun _ => 0) 17 2) :=
  (flpy_read_fills (fun n _ => UInt8.ofNat n) (fun sent => sent.length % 2 * 10)
    (fun sent => by have := Nat.mod_lt sent.length (show 0 < 2 by decide); omega)
    idleFdc ⟨rfl, rfl⟩ (fun _ => 0) 17 2 (by decide)).1

end Levos.Proofs.FloppyRead
