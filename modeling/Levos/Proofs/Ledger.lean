import Levos.Library.Lists
import Levos.Proofs.Kernel
import Levos.Proofs.Phymem

namespace Levos.Proofs.Ledger
open Levos.Library Levos.Proofs.Bitmap Levos.Proofs.Phymem Levos.Proofs.Kernel

/-- The bits `phymem_free` clears for an allocation are those of the pages at
its address, and all of them lie inside the bitmap. -/
def Inside (m : Phymem) (a : Nat × Nat) : Prop :=
  a.1 = pagePointer m (pageIndex m a.1) ∧
    pageIndex m a.1 + pagesFor a.2 ≤ 8 * m.phyBitmap.length

/-- Every free a step makes gives back an allocation that is live when it is made. -/
def FreesLive (k : Kernel) (op : KernelOp) : Prop :=
  ∀ s a, (s, a) ∈ (k.effect op).frees → a ∈ s.live ∧ Inside s.phymem a

/-- A request for frames is made while the page behind the first run of zero bytes is
free, should the search take it for free. -/
def Requests (k : Kernel) : KernelOp → Prop
  | .elfStart img _ => img.eType = 2 → NextPageFree k.phymem.phyBitmap (pagesFor img.esize)
  | .sysFork _ => ∀ h p, k.getProcess = some (h, p) →
      NextPageFree k.phymem.phyBitmap (pagesFor p.execLen)
  | _ => True

/-- The step ends the running process `p` with the frames it has, by an exit or by a
page fault. -/
def Ends (k : Kernel) (p : Process) : KernelOp → Prop
  | .schedulerKillSelf => True
  | .schedulerKillPid pid => pid = p.pid
  | .elfStart img _ => img.eType = 2 ∧
      ∃ palloc k', k.allocFrames img.esize = some (palloc, .fault, k')
  | .sysFork f => (k.effect (.sysFork f)).fault = true
  | _ => False

/-- A process comes to its end only after it has been given frames. -/
def Guard (k : Kernel) (op : KernelOp) : Prop :=
  ∀ h p, k.getProcess = some (h, p) → Ends k p op → p.palloc ≠ 0

/-- The allocator of a machine on which no page number wraps around, with its
live allocations. -/
structure Arena (m : Phymem) (live : List (Nat × Nat)) : Prop where
  start : m.phyStart = physStart
  small : 8 * m.phyBitmap.length + 772 ≤ 2 ^ 20
  inside : ∀ a ∈ live, Inside m a

theorem Arena.nonzero (h : Arena m live) (ha : a ∈ live) : a.1 ≠ 0 := by
  obtain ⟨hptr, hin⟩ := h.inside a ha
  have hs := h.small
  have hpos : 0 < pagesFor a.2 := Nat.succ_pos _
  rw [hptr]
  simp only [pagePointer, h.start, physStart]
  omega

theorem Arena.alloc (h : Arena m live) (ha : phymemAlloc m len = some (p, m')) :
    Arena m' ((p, len) :: live) := by
  obtain ⟨_, i, b, hb, rfl, rfl⟩ := alloc_pages_shape ha
  obtain ⟨_, hin, hl, _⟩ := bitmap_find_zero_spec (Nat.succ_pos _) hb
  have hs := h.small
  refine ⟨h.start, by simpa only [hl] using hs, ?_⟩
  intro a hm
  simp only [Inside, hl]
  rcases List.mem_cons.mp hm with rfl | hm
  · have hidx : pageIndex m (pagePointer m i) = i :=
      page_index_pointer m i (by rw [h.start]; decide) (by omega)
    refine ⟨congrArg (pagePointer m) hidx.symm, ?_⟩
    change pageIndex m (pagePointer m i) + _ ≤ _
    rw [hidx]
    exact hin
  · exact h.inside a hm

theorem Arena.free (h : Arena m live) (hf : phymemFree m p len = some m') :
    Arena m' (live.filter (· != (p, len))) := by
  obtain ⟨_, b, hb, rfl⟩ := free_pages_shape hf
  obtain ⟨hl, _⟩ := range_length (fun _ _ _ => unset_length) hb
  refine ⟨h.start, by simpa only [hl] using h.small, ?_⟩
  intro a hm
  simp only [Inside, hl]
  exact h.inside a (List.mem_of_mem_filter hm)

/-- An allocation by its pages, as the frame allocator sees it. -/
def pages (a : Nat × Nat) : Nat × Nat := (a.1, pagesFor a.2)

section Soundness

variable {m m' : Phymem} {live : List (Nat × Nat)}

theorem alloc_sound (h : Sound m (live.map pages)) (hg : NextPageFree m.phyBitmap (pagesFor len))
    (ha : phymemAlloc m len = some (p, m')) : Sound m' (((p, len) :: live).map pages) :=
  h.alloc (Nat.succ_pos _) hg ha

theorem free_sound (h : Sound m (live.map pages)) (hm : a ∈ live)
    (hf : phymemFree m a.1 a.2 = some m') : Sound m' ((live.erase a).map pages) := by
  have hp : (live.map pages).Perm (pages a :: (live.erase a).map pages) :=
    (List.perm_cons_erase hm).map pages
  exact (h.perm hp).free hf

theorem pages_apart (h : Sound m (live.map pages)) :
    live.Pairwise (fun a b => Apart (pages a) (pages b)) :=
  List.pairwise_map.mp h.disjoint

theorem apart_self (a : Nat × Nat) : ¬ Apart (pages a) (pages a) :=
  fun h => h 0 (Nat.succ_pos _) 0 (Nat.succ_pos _) rfl

theorem live_nodup (h : Sound m (live.map pages)) : live.Nodup := by
  refine (pages_apart h).imp ?_
  intro a b hab he
  subst b
  exact apart_self a hab

theorem live_removed (h : Sound m (live.map pages)) (a : Nat × Nat) :
    live.filter (· != a) = live.erase a :=
  ((live_nodup h).erase_eq_filter a).symm

end Soundness

/-- The struct holds the allocation. -/
def holds (a : Nat × Nat) : Option Process → Bool
  | none => false
  | some p => p.palloc != 0 && (p.palloc, p.pallocLen) == a

/-- No allocation is held more often than it is live. -/
def Owned (procs : List (Option Process)) (live : List (Nat × Nat)) : Prop :=
  ∀ a, procs.countP (holds a) ≤ live.count a

theorem holds_iff : holds a (some p) = true ↔ p.palloc ≠ 0 ∧ (p.palloc, p.pallocLen) = a := by
  simp [holds]

theorem holders_set (hp : procAt procs i = some p) (v : Option Process) (a : Nat × Nat) :
    (procs.set i v).countP (holds a) + (if holds a (some p) then 1 else 0) =
      procs.countP (holds a) + (if holds a v then 1 else 0) :=
  countP_set_add (holds a) (Option.join_eq_some_iff.mp hp) v

theorem holders_push (procs : List (Option Process)) (v : Option Process) (a : Nat × Nat) :
    (procs ++ [v]).countP (holds a) = procs.countP (holds a) + (if holds a v then 1 else 0) := by
  rw [List.countP_append, List.countP_singleton]

theorem live_cons (a b : Nat × Nat) (live : List (Nat × Nat)) :
    (b :: live).count a = live.count a + (if b = a then 1 else 0) := by
  rw [List.count_cons]
  simp only [beq_iff_eq]

theorem holds_le (p : Process) (a : Nat × Nat) :
    (if holds a (some p) then 1 else 0) ≤ (if (p.palloc, p.pallocLen) = a then 1 else 0) := by
  split
  · rename_i hh
    rw [if_pos (holds_iff.mp hh).2]
  · exact Nat.zero_le _

theorem holders_clear (hp : procAt procs i = some p) (a : Nat × Nat) :
    (procs.set i none).countP (holds a) + (if holds a (some p) then 1 else 0) =
      procs.countP (holds a) :=
  holders_set hp none a

/-- A struct whose frames stay the same. -/
theorem holders_same (hp : procAt procs i = some p) (ha : p'.palloc = p.palloc)
    (hl : p'.pallocLen = p.pallocLen) (a : Nat × Nat) :
    (procs.set i (some p')).countP (holds a) = procs.countP (holds a) := by
  have hs := holders_set hp (some p') a
  have hsame : holds a (some p') = holds a (some p) := by
    simp only [holds, ha, hl]
  rw [hsame] at hs
  omega

/-- An allocation that is given back is live once less, and the struct that held it
is one holder less. -/
theorem released_le {live : List (Nat × Nat)} (hz : p.palloc ≠ 0)
    (hle : n + (if holds a (some p) then 1 else 0) ≤ live.count a) :
    n ≤ (live.erase (p.palloc, p.pallocLen)).count a := by
  rw [List.count_erase]
  by_cases he : (p.palloc, p.pallocLen) = a
  · rw [if_pos (holds_iff.mpr ⟨hz, he⟩)] at hle
    rw [if_pos (beq_iff_eq.mpr he)]
    omega
  · rw [if_neg (fun hb => he (beq_iff_eq.mp hb))]
    omega

theorem Owned.mem (h : Owned procs live) (hp : procAt procs i = some p) (hz : p.palloc ≠ 0) :
    (p.palloc, p.pallocLen) ∈ live := by
  have hs := holders_clear hp (p.palloc, p.pallocLen)
  rw [if_pos (holds_iff.mpr ⟨hz, rfl⟩)] at hs
  have hle := h (p.palloc, p.pallocLen)
  refine List.count_pos_iff.mp ?_
  omega

theorem Owned.set (h : Owned procs live) (hp : procAt procs i = some p)
    (ha : p'.palloc = p.palloc) (hl : p'.pallocLen = p.pallocLen) :
    Owned (procs.set i (some p')) live := by
  intro a
  rw [holders_same hp ha hl]
  exact h a

/-- A struct that has no frames yet holds nothing. -/
theorem Owned.push_new (h : Owned procs live) (hz : p.palloc = 0) :
    Owned (procs ++ [some p]) live := by
  intro a
  have hn : ¬ holds a (some p) = true := fun hh => (holds_iff.mp hh).1 hz
  rw [holders_push, if_neg hn]
  exact h a

theorem Owned.push (h : Owned procs live) (p : Process) :
    Owned (procs ++ [some p]) ((p.palloc, p.pallocLen) :: live) := by
  intro a
  rw [holders_push, live_cons]
  exact Nat.add_le_add (h a) (holds_le p a)

theorem Owned.load (h : Owned procs live) (hp : procAt procs i = some p) (p' : Process) :
    Owned (procs.set i (some p')) ((p'.palloc, p'.pallocLen) :: live) := by
  intro a
  have hs := holders_set hp (some p') a
  rw [live_cons]
  have := h a
  have := holds_le p' a
  omega

/-- Giving back what a struct holds, when the struct lets go of it. -/
theorem Owned.release (h : Owned procs live) (hp : procAt procs i = some p)
    (hz : p.palloc ≠ 0) : Owned (procs.set i none) (live.erase (p.palloc, p.pallocLen)) := by
  intro a
  refine released_le hz ?_
  rw [holders_clear hp a]
  exact h a

/-- Executing a new image is letting go of the old frames and being given the
new ones. -/
theorem Owned.replace (h : Owned procs live) (hp : procAt procs i = some p)
    (hz : p.palloc ≠ 0) (p' : Process) :
    Owned (procs.set i (some p'))
      (((p'.palloc, p'.pallocLen) :: live).erase (p.palloc, p.pallocLen)) := by
  intro a
  refine released_le hz ?_
  rw [holders_set hp (some p') a, live_cons]
  exact Nat.add_le_add (h a) (holds_le p' a)

theorem Owned.mask (h : Owned procs live) (f : Nat → Bool) :
    Owned (procs.mapIdx (fun i q => if f i then none else q)) live := by
  intro a
  refine Nat.le_trans ?_ (h a)
  clear h
  induction procs generalizing f with
  | nil => exact Nat.le_refl _
  | cons q procs ih =>
    rw [List.mapIdx_cons, List.countP_cons, List.countP_cons]
    refine Nat.add_le_add (ih (fun i => f (i + 1))) ?_
    cases f 0 with
    | true => exact Nat.zero_le _
    | false => exact Nat.le_refl _

/-- The allocator, the structs and the live allocations agree. -/
structure Booked (m : Phymem) (procs : List (Option Process)) (live : List (Nat × Nat)) :
    Prop where
  arena : Arena m live
  owned : Owned procs live
  sound : Sound m (live.map pages)

def Invariant (k : Kernel) : Prop := Booked k.phymem k.procs k.live

section Steps

variable {m m' : Phymem} {procs : List (Option Process)} {live : List (Nat × Nat)}
  {k k' k₁ : Kernel} {op : KernelOp} {p p' : Process} {i palloc len : Nat}

theorem Booked.set (h : Booked m procs live) (hp : procAt procs i = some p)
    (ha : p'.palloc = p.palloc) (hl : p'.pallocLen = p.pallocLen) :
    Booked m (procs.set i (some p')) live :=
  ⟨h.arena, h.owned.set hp ha hl, h.sound⟩

/-- Frames that no struct holds yet. -/
theorem Booked.alloc (h : Booked m procs live) (hr : NextPageFree m.phyBitmap (pagesFor len))
    (ha : phymemAlloc m len = some (palloc, m')) : Booked m' procs ((palloc, len) :: live) := by
  refine ⟨h.arena.alloc ha, ?_, alloc_sound h.sound hr ha⟩
  intro a
  exact Nat.le_trans (h.owned a) (List.count_le_count_cons)

theorem Booked.load (h : Booked m procs live) (hr : NextPageFree m.phyBitmap (pagesFor len))
    (ha : phymemAlloc m len = some (palloc, m')) (hp : procAt procs i = some p)
    (rest : PageDirectory) :
    Booked m' (procs.set i (some (loadedProcess p rest palloc len))) ((palloc, len) :: live) :=
  ⟨h.arena.alloc ha, h.owned.load hp (loadedProcess p rest palloc len),
    alloc_sound h.sound hr ha⟩

theorem Booked.push (h : Booked m procs live)
    (hr : NextPageFree m.phyBitmap (pagesFor p.pallocLen))
    (ha : phymemAlloc m p.pallocLen = some (p.palloc, m')) :
    Booked m' (procs ++ [some p]) ((p.palloc, p.pallocLen) :: live) :=
  ⟨h.arena.alloc ha, h.owned.push p, alloc_sound h.sound hr ha⟩

theorem Booked.push_new (h : Booked m procs live) (hz : p.palloc = 0) :
    Booked m (procs ++ [some p]) live :=
  ⟨h.arena, h.owned.push_new hz, h.sound⟩

theorem Booked.exit (h : Booked m procs live) (hp : procAt procs i = some p)
    (hz : p.palloc ≠ 0) (hf : phymemFree m p.palloc p.pallocLen = some m') :
    Booked m' (procs.set i none) (live.filter (· != (p.palloc, p.pallocLen))) := by
  refine ⟨h.arena.free hf, ?_, ?_⟩
  · rw [live_removed h.sound]
    exact h.owned.release hp hz
  · rw [live_removed h.sound]
    exact free_sound h.sound (h.owned.mem hp hz) hf

theorem Booked.replace (h : Booked m procs live)
    (hr : NextPageFree m.phyBitmap (pagesFor len)) (ha : phymemAlloc m len = some (palloc, m'))
    (hp : procAt procs i = some p) (hz : p.palloc ≠ 0)
    (hf : phymemFree m' p.palloc p.pallocLen = some m'') (rest : PageDirectory) :
    Booked m'' (procs.set i (some (loadedProcess p rest palloc len)))
      (((palloc, len) :: live).filter (· != (p.palloc, p.pallocLen))) := by
  have hsound := alloc_sound h.sound hr ha
  refine ⟨(h.arena.alloc ha).free hf, ?_, ?_⟩
  · rw [live_removed hsound]
    exact h.owned.replace hp hz (loadedProcess p rest palloc len)
  · rw [live_removed hsound]
    exact free_sound hsound (List.mem_cons_of_mem _ (h.owned.mem hp hz)) hf

theorem began_invariant (h : Invariant k) (hr : Requests k op) (hb : Began k op k₁) :
    Invariant k₁ := by
  cases hb with
  | clearing ht ha => exact Booked.alloc h (hr ht) ha
  | loading hc ht ha => exact Booked.load h (hr ht) ha (get_process_proc hc).2 _
  | forkClearing hc ha => exact Booked.push_new (Booked.alloc h (hr _ _ hc) ha) rfl
  | @forkCopying _ p palloc _ f hc ha =>
    exact Booked.push (p := { forkedProcess k f.rest palloc p.execLen with threadslen := 0 }) h
      (hr _ _ hc) ha

/-- Who is ended by a page fault has the frames it had before the call, or those the
call has given it. -/
theorem began_running (hb : Began k op k₁) (hn : (k.effect op).fault = true) :
    (k₁.getProcess = k.getProcess ∧ ∀ p, Ends k p op) ∨
      ((∀ p, ¬ Ends k p op) ∧
        ∀ i p, k₁.getProcess = some (i, p) → (p.palloc, p.pallocLen) ∈ k₁.live) := by
  cases hb with
  | clearing ht ha hf =>
    refine .inl ⟨rfl, fun p => ⟨ht, ?_⟩⟩
    rw [alloc_frames_eq ha, hf]
    exact ⟨_, _, rfl⟩
  | loading hg ht ha hf =>
    obtain ⟨hcur, hp⟩ := get_process_proc hg
    refine .inr ⟨?_, ?_⟩
    · rintro q ⟨_, palloc', k', hq⟩
      rw [alloc_frames_eq ha, hf] at hq
      cases hq
    · intro i p hc
      obtain ⟨hi, hq⟩ := get_process_proc hc
      rcases proc_at_replaced hp hq with ⟨_, rfl⟩ | ⟨hne, _⟩
      · exact List.mem_cons_self
      · exact absurd (Option.some.inj (hi.symm.trans hcur)) hne
  | forkClearing hg | forkCopying hg =>
    refine .inl ⟨?_, fun _ => hn⟩
    rw [hg]
    exact get_process_push hg rfl rfl

theorem Guard.exit (h : Guard k op) (hop : op = .schedulerKillSelf ∨ op = .schedulerKillPid p.pid)
    (hc : k.getProcess = some (i, p)) : p.palloc ≠ 0 := by
  refine h i p hc ?_
  rcases hop with rfl | rfl
  · trivial
  · rfl

theorem step_invariant (h : Invariant k) (hr : Requests k op) (hg : Guard k op)
    (hs : k.step op = some k') : Invariant k' := by
  cases step_cases hs with
  | same | drew | added => exact h
  | created t => exact Booked.push_new h rfl
  | loaded hc ht ha => exact Booked.load h (hr ht) ha (get_process_proc hc).2 _
  | replaced hc ht ha _ hz hf =>
    exact Booked.replace h (hr ht) ha (get_process_proc hc).2 hz hf _
  | @forkedFull _ p f palloc _ hc _ ha | @forked _ p f palloc _ _ hc _ ha =>
    exact Booked.push (p := forkedProcess k f.rest palloc p.execLen) h (hr _ _ hc) ha
  | faulted hb hn hc hf =>
    have hk := began_invariant h hr hb
    refine Booked.exit hk (get_process_proc hc).2 ?_ hf
    rcases began_running hb hn with ⟨hsame, hends⟩ | ⟨_, hlive⟩
    · exact hg _ _ (hsame ▸ hc) (hends _)
    · exact hk.arena.nonzero (hlive _ _ hc)
  | exited hop hc hf => exact Booked.exit h (get_process_proc hc).2 (hg.exit hop hc) hf
  | killed => exact ⟨h.arena, h.owned.mask _, h.sound⟩
  | switched hp => exact Booked.set h hp rfl rfl
  | recorded hc hp =>
    obtain ⟨table, handles, rfl⟩ := post_allocation_shape hp
    exact Booked.set h (get_process_proc hc).2 rfl rfl
  | opened hc => exact Booked.set h (get_process_proc hc).2 rfl rfl

theorem Booked.held_live (h : Booked m procs live) (hp : procAt procs i = some p)
    (hz : p.palloc ≠ 0) :
    (p.palloc, p.pallocLen) ∈ live ∧ Inside m (p.palloc, p.pallocLen) :=
  ⟨h.owned.mem hp hz, h.arena.inside _ (h.owned.mem hp hz)⟩

/-- What an exit gives back is live exactly if the process was given frames. -/
theorem kill_self_frees (h : Invariant k) :
    (∀ s a, (s, a) ∈ k.schedulerKillSelf.frees → a ∈ s.live ∧ Inside s.phymem a) ↔
      ∀ i p, k.getProcess = some (i, p) → p.palloc ≠ 0 := by
  unfold Kernel.schedulerKillSelf
  cases hc : k.getProcess with
  | none => simp [Effect.stuck]
  | some q =>
    obtain ⟨i, p⟩ := q
    simp only [Kernel.freeFrames, List.mem_singleton, Prod.mk.injEq]
    constructor
    · rintro hl j q ⟨⟩ hz
      exact h.arena.nonzero (hl _ _ ⟨rfl, rfl⟩).1 hz
    · rintro hz s a ⟨rfl, rfl⟩
      exact Booked.held_live h (get_process_proc hc).2 (hz i p rfl)

/-- Whoever comes to an end passes its frames to `phymem_free`. -/
theorem ends_frees (hc : k.getProcess = some (i, p)) (he : Ends k p op) :
    (k.effect op).frees ≠ [] := by
  have hkill : k.schedulerKillSelf.frees ≠ [] := by
    simp [Kernel.schedulerKillSelf, hc, Kernel.freeFrames]
  cases op with
  | schedulerKillSelf => exact hkill
  | schedulerKillPid pid =>
    simp only [Kernel.effect, Kernel.schedulerKillPid, hc, show pid = p.pid from he, ↓reduceIte]
    exact hkill
  | elfStart img rest =>
    obtain ⟨ht, palloc, k', ha⟩ := he
    obtain ⟨m, _, _, rfl⟩ := alloc_frames_shape ha
    have hc' : Kernel.getProcess { k with phymem := m, live := (palloc, img.esize) :: k.live } =
        some (i, p) := hc
    simp [Kernel.effect, Kernel.elfStart, hc, ht, ha, Kernel.excPf, Kernel.schedulerKillSelf, hc',
      Kernel.freeFrames]
  | sysFork f =>
    have ho := effect_outcome k (.sysFork f)
    have hf : (k.effect (.sysFork f)).fault = true := he
    generalize hq : k.effect (.sysFork f) = e at ho hf
    cases ho with
    | quiet => cases hf
    | replacing hop => cases hop
    | exiting hop =>
      rcases hop i p hc with h | h <;> cases h
    | @faulting k₁ hb =>
      have hrun : k₁.getProcess = some (i, p) := by
        rw [← hc]
        rcases began_running hb he with ⟨hsame, _⟩ | ⟨hends, _⟩
        · exact hsame
        · exact absurd he (hends p)
      simp [Kernel.excPf, Kernel.schedulerKillSelf, hrun, Kernel.freeFrames]
  | _ => exact absurd he id

theorem frees_live_iff (h : Invariant k) (hr : Requests k op) : FreesLive k op ↔ Guard k op := by
  have ho := effect_outcome k op
  unfold FreesLive
  generalize he : k.effect op = e at ho
  cases ho with
  | quiet =>
    refine iff_of_true (fun s a ha => by cases ha) ?_
    intro i p hc hends
    exact absurd (by rw [he]) (ends_frees hc hends)
  | @faulting k₁ hb =>
    have hk := began_invariant h hr hb
    have hn : (k.effect op).fault = true := by
      rw [he]
      rfl
    refine (kill_self_frees hk).trans ?_
    rcases began_running hb hn with ⟨hsame, hends⟩ | ⟨hends, hlive⟩
    · rw [hsame]
      exact ⟨fun hz i p hc _ => hz i p hc, fun hg i p hc => hg i p hc (hends p)⟩
    · exact iff_of_true (fun i p hc => hk.arena.nonzero (hlive i p hc))
        (fun i p _ he => absurd he (hends p))
  | @replacing img _ _ p palloc m hop hc ht ha hf hz =>
    subst hop
    refine iff_of_true ?_ ?_
    · intro s a hm
      obtain ⟨rfl, rfl⟩ := Prod.mk.inj (List.mem_singleton.mp hm)
      have hlive : (p.palloc, p.pallocLen) ∈ (palloc, img.esize) :: k.live :=
        List.mem_cons_of_mem _ (h.owned.mem (get_process_proc hc).2 hz)
      exact ⟨hlive, (h.arena.alloc ha).inside _ hlive⟩
    · rintro i p _ ⟨_, palloc', k', hq⟩
      rw [alloc_frames_eq ha, hf] at hq
      cases hq
  | exiting hop =>
    refine (kill_self_frees h).trans ?_
    constructor
    · intro hz i p hc _
      exact hz i p hc
    · intro hg i p hc
      exact hg.exit (hop i p hc) hc

end Steps

/-- Memory that ends below 0xFFFFB000 has no page number that wraps around. -/
theorem boot_arena {k : Kernel} (hstop : stop < 0xFFFFB000)
    (h : Kernel.boot stop memory = some k) : Arena k.phymem k.live := by
  obtain ⟨m, hm, rfl⟩ := Option.map_eq_some_iff.mp h
  obtain ⟨hle, rfl⟩ := init_shape hm
  refine ⟨rfl, ?_, List.forall_mem_nil _⟩
  simp only [List.length_replicate, layoutBytes, layoutPages, physStart] at hle ⊢
  omega

theorem boot_invariant {k : Kernel} (hstop : stop < 0xFFFFB000)
    (h : Kernel.boot stop memory = some k) : Invariant k := by
  have harena := boot_arena hstop h
  obtain ⟨m, hm, rfl⟩ := Option.map_eq_some_iff.mp h
  refine ⟨harena, fun a => Nat.le_refl _, Sound.boot (by omega) ?_ hm⟩
  simp only [layoutPages, physStart]
  omega

/-- In every run whose requests find their frames free, each free gives back a live
allocation if and only if no process comes to its end before it has been given frames. -/
theorem frees_live_iff_guarded (stop : Nat) (memory : Nat → Nat) (k : Kernel)
    (ops : List KernelOp) (hstop : stop < 0xFFFFB000)
    (hboot : Kernel.boot stop memory = some k) (hreq : Guarded Kernel.step Requests k ops) :
    Guarded Kernel.step FreesLive k ops ↔ Guarded Kernel.step Guard k ops :=
  guarded_iff_guarded_under (boot_invariant hstop hboot) (fun _ _ _ => step_invariant)
    (fun _ _ => frees_live_iff) hreq

/-- A process executes an image and exits; the next one executes an image with a
segment outside the window, at which the copy faults. -/
def twoImages : List KernelOp :=
  [.createNewProcess 1 none, .schedulerAddProcess 0, .schedulerSwitch,
    .elfStart ⟨0xC0000100, 5, 2, 0, []⟩ bootDirectory, .schedulerKillSelf,
    .createNewProcess 1 none, .schedulerAddProcess 1, .schedulerSwitch,
    .elfStart ⟨0xC0000100, 5, 2, 0, [⟨1, 0, 0x900000, 1⟩]⟩ bootDirectory]

theorem one_page_free {b : Bitmap} (h : bit b 0 = false) : NextPageFree b 1 := by
  intro _ j hj
  have hfirst : FirstZeroRun b 0 (1 / 8) :=
    ⟨fun k hk => absurd hk (by omega), fun i hi => absurd hi (Nat.not_lt_zero i)⟩
  obtain rfl := first_run_unique hj hfirst
  exact h

theorem frees_live_two_images :
    ∃ k, run Kernel.step smallKernel twoImages = some k ∧ k.live = [] ∧
      Guarded Kernel.step FreesLive smallKernel twoImages := by
  have hreq : Guarded Kernel.step Requests smallKernel twoImages :=
    .cons rfl trivial <| .cons rfl trivial <| .cons rfl trivial <|
      .cons rfl (fun _ => one_page_free (by decide)) <| .cons rfl trivial <|
      .cons rfl trivial <| .cons rfl trivial <| .cons rfl trivial <|
      .single (fun _ => one_page_free (by decide))
  have hends : ∀ {k op}, (∀ p, ¬ Ends k p op) → Guard k op :=
    fun hn _ p _ he => absurd he (hn p)
  have hfill : ∀ {k : Kernel} {img rest},
      (k.allocFrames img.esize).map (fun r => r.2.1) = some .done →
        Guard k (.elfStart img rest) := by
    intro k img rest ha
    refine hends ?_
    rintro p ⟨_, palloc, k', hq⟩
    rw [hq] at ha
    cases ha
  refine ⟨_, rfl, rfl, (frees_live_iff_guarded 0x31b000 (fun _ => 0) smallKernel _ (by decide) rfl
    hreq).mpr ?_⟩
  refine .cons rfl (hends fun _ => id) <| .cons rfl (hends fun _ => id) <|
    .cons rfl (hends fun _ => id) <| .cons rfl (hfill (by decide)) <| .cons rfl ?_ <|
    .cons rfl (hends fun _ => id) <| .cons rfl (hends fun _ => id) <|
    .cons rfl (hends fun _ => id) <| .single (hfill (by decide))
  intro h p hc _
  cases hc
  decide

/-- A process that never executed an image exits: the kernel frees address 0. -/
theorem frees_address_zero :
    ¬ ∀ stop memory k ops, stop < 0xFFFFB000 → Kernel.boot stop memory = some k →
      Guarded Kernel.step FreesLive k ops := by
  intro h
  have hg := h 0x31b000 (fun _ => 0) smallKernel
    [.createNewProcess 1 none, .schedulerAddProcess 0, .schedulerSwitch, .schedulerKillSelf]
    (by decide) rfl
  have hf := (guarded_iff _ _ _ _).mp hg
    [.createNewProcess 1 none, .schedulerAddProcess 0, .schedulerSwitch] .schedulerKillSelf []
    _ rfl rfl
  have hlive := (hf _ (0, 0) List.mem_cons_self).1
  exact absurd hlive (by decide)

end Levos.Proofs.Ledger
