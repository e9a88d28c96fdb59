import Levos.Library.Lists
import Levos.Ne2k

namespace Levos.Proofs.Ne2k
open Library Levos.Ne2k

/-- The bytes the card gets through its data port, the low one of a word first. -/
def dataBytes (trace : List PortAccess) : List UInt8 :=
  trace.flatMap fun
    | .outportw reg v => if reg = dataPort then [v.toUInt8, (v >>> 8).toUInt8] else []
    | _ => []

/-- The byte count written to a pair of count registers. -/
def programmed (lo hi : UInt8) : Nat := lo.toNat + 256 * hi.toNat

/-- A write to the command register that starts a transmission. -/
def transmits : PortAccess → Bool
  | .outportb reg v => reg == p0Cr && v &&& crTxp != 0
  | _ => false

/-- The accesses send the `len` bytes of the payload and nothing else. -/
structure Copied (len : UInt32) (payload : Nat → UInt8) (trace : List PortAccess) : Prop where
  bytes : ∃ pad : List UInt8, pad.length = len.toNat % 2 ∧
    dataBytes trace = slice payload 0 len.toNat ++ pad
  counted : ∃ lo hi, .outportb p0Rbcr0 lo ∈ trace ∧ .outportb p0Rbcr1 hi ∈ trace ∧
    programmed lo hi = len.toNat
  inside : ∀ offset, .load offset ∈ trace → offset + 2 ≤ len.toNat

/-- No transmission starts before the status has been read with the bit set. -/
def Ordered (trace : List PortAccess) : Prop :=
  ∀ before a after, trace = before ++ a :: after → transmits a = true →
    ∃ v, .inportb p0Isr v ∈ before ∧ v &&& isrRdc ≠ 0

/-- `ne2k_send_packet` returns, and its accesses are as they should be. -/
def Sends (fuel : Nat) (len : UInt32) (payload : Nat → UInt8) (nextmempage page : UInt8)
    (isr : Nat → UInt8) : Prop :=
  ∃ trace next, ne2kSendPacket fuel len payload nextmempage page isr = some (trace, next) ∧
    Copied len payload trace ∧ Ordered trace

/-- A negated status is 0 or 1 and never has the bit: one read ends the wait. -/
theorem wait_once (isr : Nat → UInt8) (fuel k : Nat) :
    waitComplete isr (fuel + 1) k = some [.inportb p0Isr (isr k)] := by
  unfold waitComplete
  rw [if_neg]
  split <;> decide

/-- Every round loads one word, and the words lie one behind the other. -/
theorem mem_copy_words {payload : Nat → UInt8} {a : PortAccess} {n offset : Nat} :
    a ∈ copyWords payload n offset ↔ ∃ i < n, a = .load (offset + 2 * i) ∨
      a = .outportw dataPort (payloadWord payload (offset + 2 * i)) := by
  induction n generalizing offset with
  | zero => simp [copyWords]
  | succ n ih =>
    rw [copyWords, List.mem_cons, List.mem_cons, ih]
    constructor
    · rintro (h | h | ⟨i, hi, h⟩)
      · exact ⟨0, by omega, .inl h⟩
      · exact ⟨0, by omega, .inr h⟩
      · refine ⟨i + 1, by omega, ?_⟩
        rwa [show offset + 2 * (i + 1) = offset + 2 + 2 * i by omega]
    · rintro ⟨i, hi, h⟩
      cases i with
      | zero => exact h.elim .inl (fun h => .inr (.inl h))
      | succ i =>
        refine .inr (.inr ⟨i, by omega, ?_⟩)
        rwa [show offset + 2 + 2 * i = offset + 2 * (i + 1) by omega]

section Trace

variable (len : UInt32) (payload : Nat → UInt8) (page : UInt8) (status : UInt8)

/-- The accesses up to the status read. -/
def beforeStatus : List PortAccess := setupSend len page ++ copyWords payload len.toNat 0

/-- All accesses of a call whose status read returns `status`. -/
def sendTrace : List PortAccess :=
  beforeStatus len payload page ++ .inportb p0Isr status :: finishSend page

theorem before_status_quiet : ∀ a ∈ beforeStatus len payload page, transmits a = false := by
  intro a ha
  rcases List.mem_append.mp ha with ha | ha
  · have hsetup : (setupSend len page).any transmits = false := rfl
    exact Bool.eq_false_iff.mpr (List.any_eq_false.mp hsetup a ha)
  · obtain ⟨i, -, rfl | rfl⟩ := mem_copy_words.mp ha <;> rfl

/-- The transmission waits for a set bit exactly when the one read found it. -/
theorem ordered_iff : Ordered (sendTrace len payload page status) ↔ status &&& isrRdc ≠ 0 := by
  constructor
  · intro h
    obtain ⟨v, hv, hbit⟩ := h (beforeStatus len payload page ++
      [.inportb p0Isr status, .outportb p0Isr 0x40, .outportb p0Tpsr page])
      (.outportb p0Cr (0x10 ||| 0x4 ||| 0x2)) []
      (by simp [sendTrace, finishSend]) rfl
    rcases List.mem_append.mp hv with hv | hv
    · rcases List.mem_append.mp hv with hv | hv
      · simp [setupSend] at hv
      · obtain ⟨i, -, h | h⟩ := mem_copy_words.mp hv <;> cases h
    · simp only [List.mem_cons, PortAccess.inportb.injEq, reduceCtorEq, List.not_mem_nil,
        or_false, true_and] at hv
      rwa [← hv]
  · intro hbit before a after he htx
    refine ⟨status, ?_, hbit⟩
    refine mem_before_of_split (P := fun a => transmits a = true) he.symm ?_ ?_ htx
    · intro b hb
      rw [before_status_quiet len payload page b hb]
      exact Bool.false_ne_true
    · exact Bool.false_ne_true

theorem load_mem (i : Nat) (hi : i < len.toNat) :
    .load (2 * i) ∈ sendTrace len payload page status := by
  refine List.mem_append_left _ (List.mem_append_right _ (mem_copy_words.mpr ⟨i, hi, .inl ?_⟩))
  rw [Nat.zero_add]

/-- The last word loaded lies behind the payload, however long that is. -/
theorem copied_iff : Copied len payload (sendTrace len payload page status) ↔ len = 0 := by
  constructor
  · intro h
    by_contra hne
    have hpos : 0 < len.toNat := Nat.pos_of_ne_zero fun h0 => hne (UInt32.toNat_inj.mp h0)
    have := h.inside _ (load_mem len payload page status (len.toNat - 1) (by omega))
    omega
  · rintro rfl
    refine ⟨⟨[], rfl, rfl⟩, ⟨0, 0, ?_, ?_, rfl⟩, ?_⟩
    · exact List.mem_append_left _ (by simp [beforeStatus, setupSend])
    · exact List.mem_append_left _ (by simp [beforeStatus, setupSend])
    · intro offset h
      simp [sendTrace, beforeStatus, setupSend, finishSend, copyWords] at h

end Trace

/-- The packet is sent as it should be exactly when it is empty and the first status
read has the bit. -/
theorem sends_iff (fuel : Nat) (len : UInt32) (payload : Nat → UInt8) (nextmempage page : UInt8)
    (isr : Nat → UInt8) :
    Sends (fuel + 1) len payload nextmempage page isr ↔ len = 0 ∧ isr 0 &&& isrRdc ≠ 0 := by
  have hcall : ne2kSendPacket (fuel + 1) len payload nextmempage page isr =
      some (sendTrace len payload page (isr 0), ne2kGetWritePage nextmempage len.toUInt16) := by
    rw [ne2kSendPacket, wait_once, Option.map_some]
    simp [sendTrace, beforeStatus]
  rw [← copied_iff len payload page (isr 0), ← ordered_iff len payload page (isr 0)]
  constructor
  · rintro ⟨trace, next, hsend, h⟩
    cases hcall.symm.trans hsend
    exact h
  · exact fun h => ⟨_, _, hcall, h⟩

/-- Of a packet of two bytes four are written, and the status is never right. -/
theorem two_bytes_not_sent : ¬ Sends 1 2 (fun _ => 0xAB) 0x40 0x40 (fun _ => 0) := by
  rintro ⟨trace, next, hsend, hcopied, -⟩
  have hinside := hcopied.inside 2
  have : (some (trace, next)).map (fun r => decide (.load 2 ∈ r.1)) = some true := by
    rw [← hsend]
    decide
  simp only [Option.map_some, Option.some.injEq, decide_eq_true_eq] at this
  exact absurd (hinside this) (by decide)

end Levos.Proofs.Ne2k
