import Levos.Proofs.Ledger

namespace Levos.Proofs.Holders
open Levos.Library Levos.Proofs.Bitmap Levos.Proofs.Phymem Levos.Proofs.Kernel
open Levos.Proofs.Ledger

variable {procs : List (Option Process)} {live : List (Nat × Nat)} {p p' : Process} {i : Nat}

/-- Every live allocation is held by exactly as many structs as it is live. -/
def Held (procs : List (Option Process)) (live : List (Nat × Nat)) : Prop :=
  ∀ a, live.count a = procs.countP (holds a)

theorem Held.owned (h : Held procs live) : Owned procs live := fun a => (h a).ge

theorem holds_nonzero (hz : p.palloc ≠ 0) (a : Nat × Nat) :
    (if holds a (some p) then 1 else 0) = if (p.palloc, p.pallocLen) = a then 1 else 0 := by
  by_cases ha : (p.palloc, p.pallocLen) = a
  · rw [if_pos ha, if_pos (holds_iff.mpr ⟨hz, ha⟩)]
  · rw [if_neg ha, if_neg (fun hh => ha (holds_iff.mp hh).2)]

theorem holds_zero (hz : p.palloc = 0) (a : Nat × Nat) : holds a (some p) = false := by
  simp [holds, hz]

theorem Held.set (h : Held procs live) (hp : procAt procs i = some p)
    (ha : p'.palloc = p.palloc) (hl : p'.pallocLen = p.pallocLen) :
    Held (procs.set i (some p')) live := by
  intro a
  rw [holders_same hp ha hl]
  exact h a

theorem Held.push_new (h : Held procs live) (hz : p.palloc = 0) :
    Held (procs ++ [some p]) live := by
  intro a
  rw [holders_push, holds_zero hz]
  exact h a

theorem Held.push (h : Held procs live) (p : Process) (hz : p.palloc ≠ 0) :
    Held (procs ++ [some p]) ((p.palloc, p.pallocLen) :: live) := by
  intro a
  rw [holders_push, live_cons, holds_nonzero hz, h a]

theorem Held.load (h : Held procs live) (hp : procAt procs i = some p) (hz : p.palloc = 0)
    (p' : Process) (hz' : p'.palloc ≠ 0) :
    Held (procs.set i (some p')) ((p'.palloc, p'.pallocLen) :: live) := by
  intro a
  have hs := holders_set hp (some p') a
  rw [holds_zero hz, holds_nonzero hz'] at hs
  rw [live_cons, h a]
  simpa using hs.symm

theorem count_erase_add (hm : b ∈ live) (a : Nat × Nat) :
    (live.erase b).count a + (if b = a then 1 else 0) = live.count a := by
  by_cases he : b = a
  · subst he
    have := List.count_pos_iff.mpr hm
    rw [List.count_erase_self, if_pos rfl]
    omega
  · rw [List.count_erase_of_ne (fun hb => he hb.symm), if_neg he, Nat.add_zero]

theorem Held.release (h : Held procs live) (hp : procAt procs i = some p) (hz : p.palloc ≠ 0) :
    Held (procs.set i none) (live.erase (p.palloc, p.pallocLen)) := by
  intro a
  have hs := holders_clear hp a
  have hc := count_erase_add (h.owned.mem hp hz) a
  rw [holds_nonzero hz] at hs
  have := h a
  omega

theorem Held.replace (h : Held procs live) (hp : procAt procs i = some p) (hz : p.palloc ≠ 0)
    (p' : Process) (hz' : p'.palloc ≠ 0) :
    Held (procs.set i (some p'))
      (((p'.palloc, p'.pallocLen) :: live).erase (p.palloc, p.pallocLen)) := by
  intro a
  have hs := holders_set hp (some p') a
  have hc := count_erase_add (List.mem_cons_of_mem (p'.palloc, p'.pallocLen) (h.owned.mem hp hz)) a
  rw [holds_nonzero hz, holds_nonzero hz'] at hs
  rw [live_cons] at hc
  have := h a
  omega

/-- The frames of a kernel: no bit is set without an allocation, and no
allocation is live without a struct that holds it. -/
structure Exact (bytes : Nat) (k : Kernel) : Prop where
  arena : Arena k.phymem k.live
  sound : Sound k.phymem (k.live.map pages)
  held : Held k.procs k.live
  length : k.phymem.phyBitmap.length = bytes

/-- Requests find their frames free, no call ends in a page fault, frames are replaced
only by an image that is accepted, processes exit only with frames, and nobody kills
another one. -/
def Guard (k : Kernel) : KernelOp → Prop
  | .elfStart img rest => NextPageFree k.phymem.phyBitmap (pagesFor img.esize) ∧
      (k.effect (.elfStart img rest)).fault = false ∧
      (img.accepted = false → ∀ h p, k.getProcess = some (h, p) → p.palloc = 0)
  | .sysFork f => (k.effect (.sysFork f)).fault = false ∧ ∀ h p, k.getProcess = some (h, p) →
      NextPageFree k.phymem.phyBitmap (pagesFor p.execLen)
  | .schedulerKillSelf => ∀ h p, k.getProcess = some (h, p) → p.palloc ≠ 0
  | .schedulerKillPid pid => ∀ h p, k.getProcess = some (h, p) →
      (pid = p.pid → p.palloc ≠ 0) ∧ (pid ≠ p.pid → ∀ j, k.onTable pid j = false)
  | _ => True

theorem Guard.requests {k : Kernel} {op : KernelOp} (h : Guard k op) : Requests k op := by
  cases op with
  | elfStart => exact fun _ => h.1
  | sysFork => exact h.2
  | _ => trivial

/-- A step that meets the guard does not fault. -/
theorem Guard.smooth {k k₁ : Kernel} {op : KernelOp} (h : Guard k op) (hb : Began k op k₁) :
    (k.effect op).fault = false := by
  cases hb with
  | clearing | loading => exact h.2.1
  | forkClearing | forkCopying => exact h.1

theorem Guard.ledger {k : Kernel} {op : KernelOp} (h : Guard k op) : Ledger.Guard k op := by
  intro i p hc hends
  cases op with
  | schedulerKillSelf => exact h i p hc
  | schedulerKillPid pid => exact (h i p hc).1 hends
  | elfStart img rest =>
    obtain ⟨ht, palloc, k', ha⟩ := hends
    have hsmooth := h.2.1
    simp [Kernel.effect, Kernel.elfStart, hc, ht, ha, Kernel.excPf] at hsmooth
  | sysFork f => exact absurd (h.1.symm.trans hends) (by decide)
  | _ => exact absurd hends id

theorem alloc_length {m m' : Phymem} (h : phymemAlloc m len = some (palloc, m')) :
    m'.phyBitmap.length = m.phyBitmap.length := by
  obtain ⟨_, i, b, hb, _, rfl⟩ := alloc_pages_shape h
  exact (bitmap_find_zero_spec (Nat.succ_pos _) hb).2.2.1

theorem free_length {m m' : Phymem} (h : phymemFree m ptr len = some m') :
    m'.phyBitmap.length = m.phyBitmap.length := by
  obtain ⟨_, b, hb, rfl⟩ := free_pages_shape h
  exact (range_length (fun _ _ _ => unset_length) hb).1

theorem mask_nothing (procs : List (Option Process)) {f : Nat → Bool} (h : ∀ i, f i = false) :
    procs.mapIdx (fun i q => if f i then none else q) = procs := by
  refine List.ext_getElem? ?_
  intro i
  simp [List.getElem?_mapIdx, h]

/-- A kernel step that meets the guard keeps bitmap, allocations and structs in
step. -/
theorem Exact.step {k k' : Kernel} {op : KernelOp} (h : Exact bytes k) (hg : Guard k op)
    (hs : k.step op = some k') : Exact bytes k' := by
  obtain ⟨harena, -, hsound⟩ :=
    Ledger.step_invariant ⟨h.arena, h.held.owned, h.sound⟩ hg.requests hg.ledger hs
  cases step_cases hs with
  | same | drew | added => exact ⟨harena, hsound, h.held, h.length⟩
  | created t => exact ⟨harena, hsound, h.held.push_new rfl, h.length⟩
  | loaded hc _ ha _ hk =>
    have hz : _ = 0 := hk.elim (fun hr => hg.2.2 hr _ _ hc) id
    exact ⟨harena, hsound, h.held.load (get_process_proc hc).2 hz (loadedProcess _ _ _ _)
      (harena.nonzero List.mem_cons_self), (alloc_length ha).trans h.length⟩
  | replaced hc _ ha _ hz hf =>
    have hp := (get_process_proc hc).2
    have hz' := (h.arena.alloc ha).nonzero List.mem_cons_self
    refine ⟨harena, hsound, ?_, (free_length hf).trans ((alloc_length ha).trans h.length)⟩
    rw [live_removed (alloc_sound h.sound hg.1 ha)]
    exact h.held.replace hp hz (loadedProcess _ _ _ _) hz'
  | forkedFull hc _ ha | forked hc _ ha =>
    exact ⟨harena, hsound, h.held.push (forkedProcess _ _ _ _)
      (harena.nonzero List.mem_cons_self), (alloc_length ha).trans h.length⟩
  | faulted hb hn =>
    rw [hg.smooth hb] at hn
    cases hn
  | exited hop hc hf =>
    have hz := hg.ledger.exit hop hc
    refine ⟨harena, hsound, ?_, (free_length hf).trans h.length⟩
    unfold afterExit
    rw [live_removed h.sound]
    exact h.held.release (get_process_proc hc).2 hz
  | killed hc hne =>
    refine ⟨harena, hsound, ?_, h.length⟩
    rw [mask_nothing _ ((hg _ _ hc).2 hne)]
    exact h.held
  | switched hp => exact ⟨harena, hsound, h.held.set hp rfl rfl, h.length⟩
  | recorded hc hp =>
    obtain ⟨table, handles, rfl⟩ := post_allocation_shape hp
    exact ⟨harena, hsound, h.held.set (get_process_proc hc).2 rfl rfl, h.length⟩
  | opened hc => exact ⟨harena, hsound, h.held.set (get_process_proc hc).2 rfl rfl, h.length⟩

theorem Exact.boot {k : Kernel} (hstop : stop < 0xFFFFB000)
    (h : Kernel.boot stop memory = some k) : Exact k.phymem.phyBitmap.length k := by
  have hinv := Ledger.boot_invariant hstop h
  obtain ⟨m, hm, rfl⟩ := Option.map_eq_some_iff.mp h
  exact ⟨hinv.arena, hinv.sound, fun a => rfl, rfl⟩

/-- When no struct is left, no frame is in use. -/
theorem Exact.empty {k : Kernel} (h : Exact bytes k) (hnone : ∀ i, procAt k.procs i = none) :
    k.phymem.phyBitmap = List.replicate bytes 0 := by
  have hlive : k.live = [] := by
    refine List.eq_nil_iff_forall_not_mem.mpr ?_
    intro a ha
    have hpos := List.count_pos_iff.mpr ha
    rw [h.held a, List.countP_pos_iff] at hpos
    obtain ⟨q, hq, hh⟩ := hpos
    obtain ⟨i, hi⟩ := List.mem_iff_getElem?.mp hq
    have hq' := hnone i
    rw [procAt, hi] at hq'
    cases q with
    | none => cases hh
    | some p => cases hq'
  have hsound := h.sound
  rw [hlive] at hsound
  refine List.ext_getElem? ?_
  intro j
  by_cases hj : j < k.phymem.phyBitmap.length
  · have hzero : k.phymem.phyBitmap[j]? = some 0 := by
      refine (zero_byte_iff _ j).mpr ⟨hj, ?_⟩
      intro n _
      by_contra hbit
      obtain ⟨a, ha, -⟩ := (hsound.bits n).mp (by simpa using hbit)
      cases ha
    rw [hzero, List.getElem?_replicate, if_pos (h.length ▸ hj)]
  · rw [List.getElem?_eq_none (by omega), List.getElem?_eq_none (by simp [← h.length]; omega)]

end Levos.Proofs.Holders
