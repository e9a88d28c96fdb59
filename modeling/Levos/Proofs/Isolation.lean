import Levos.Proofs.Ledger
import Levos.Proofs.Paging

namespace Levos.Proofs.Isolation
open Levos.Library Levos.Proofs.Bitmap Levos.Proofs.Phymem Levos.Proofs.Kernel
open Levos.Proofs.Paging

/-- The address lies in a frame of the allocation. -/
def Owns (a : Nat × Nat) (f : Nat) : Prop :=
  ∃ i < pagesFor a.2, f / 0x1000 * 0x1000 = (a.1 + i * 0x1000) % 2 ^ 32

/-- Every window leads into the frames of its own process, and no two windows
lead to one frame. -/
structure Isolated (k : Kernel) : Prop where
  own : ∀ h p v f, procAt k.procs h = some p → p.palloc ≠ 0 → InWindow v →
    translate p.paged v = some f → Owns (p.palloc, p.pallocLen) f
  apart : ∀ h j p q v w f g, h ≠ j → procAt k.procs h = some p → procAt k.procs j = some q →
    p.palloc ≠ 0 → q.palloc ≠ 0 → InWindow v → InWindow w →
    translate p.paged v = some f → translate q.paged w = some g → f / 0x1000 ≠ g / 0x1000

/-- The window lies inside the allocation exactly if the allocation has all of
its 1024 pages. -/
theorem window_own_iff (rest : PageDirectory) (palloc len : Nat) (ha : palloc % 0x1000 = 0) :
    (∀ v f, InWindow v → translate (createNewPageDirectory rest 0x400000 palloc) v = some f →
      Owns (palloc, len) f) ↔ 0x3FF000 ≤ len := by
  constructor
  · intro h
    have hv : InWindow 0x7FF000 := ⟨by decide, by decide⟩
    have ht := window_translate rest palloc _ ha hv
    obtain ⟨i, hi, he⟩ := h _ _ hv ht
    rw [window_frame ha hv ht] at he
    simp only [pagesFor] at hi
    omega
  · intro h v f hv ht
    refine ⟨(v - 0x400000) / 0x1000, ?_, window_frame ha hv ht⟩
    obtain ⟨_, h2⟩ := hv
    simp only [pagesFor]
    omega

/-- Where the frames of an image can begin. -/
structure Spot (palloc : Nat) : Prop where
  aligned : palloc % 0x1000 = 0
  low : physStart ≤ palloc
  high : palloc ≤ 0x504000

/-- The directories a process can have. -/
inductive Known : PageDirectory → Prop
  | boot : Known bootDirectory
  | built (rest : PageDirectory) (hq : Spot q) : Known (createNewPageDirectory rest 0x400000 q)

section Clearing

variable {pd rest : PageDirectory} {palloc len v : Nat}

theorem kernel_owned_heap (h1 : 0x400000 ≤ a) (h2 : a < 0x800000) : kernelOwned a = true := by
  simp [kernelOwned, h1, h2]

/-- Above the frames that the kernel maps at their own addresses, a known directory
leads nowhere or into the kernel heap. -/
theorem Known.owned (h : Known pd) (h1 : 0x4FC000 ≤ v) (h2 : v ≤ 0x504000)
    (ha : translate pd v = some a) : kernelOwned a = true := by
  have hv : InWindow v := ⟨by omega, by omega⟩
  cases h with
  | boot =>
    have hdir : v >>> 22 = 1 := by
      rw [Nat.shiftRight_eq_div_pow]
      omega
    simp [translate, hdir, bootDirectory] at ha
  | @built q rest hq =>
    rw [window_translate rest q v hq.aligned hv, Option.some.injEq] at ha
    obtain ⟨haligned, hlow, hhigh⟩ := hq
    simp only [physStart] at hlow
    exact kernel_owned_heap (by omega) (by omega)

/-- A `memset` that gets through has stayed below the kernel heap. -/
theorem Known.cleared (h : Known pd) (hp : Spot palloc) (hn : 0 < len)
    (hl : Lands pd palloc len (fun a => kernelOwned a = false)) : palloc + len ≤ 0x4FC000 := by
  by_contra hlt
  obtain ⟨_, _, hhigh⟩ := hp
  obtain ⟨a, ha, hfree⟩ := hl (max palloc 0x4FC000 - palloc) (by omega)
  rw [Nat.mod_eq_of_lt (by omega)] at ha
  rw [h.owned (by omega) (by omega) ha] at hfree
  cases hfree

theorem built_translates (rest : PageDirectory) (hq : Spot q) (hv : v < 0x800000) :
    ∃ a, translate (createNewPageDirectory rest 0x400000 q) v = some a := by
  by_cases hlow : v < 0x400000
  · have hdir : v >>> 22 = 0 := by
      rw [Nat.shiftRight_eq_div_pow]
      omega
    exact ⟨_, translate_table firstPt 0 (by rw [hdir]; rfl) rfl rfl⟩
  · exact ⟨_, window_translate rest q v hq.aligned ⟨by omega, hv⟩⟩

/-- With a window, the `memset` runs into the kernel heap before it can fault. -/
theorem built_no_fault (rest : PageDirectory) (hq : Spot q) (hp : Spot palloc) :
    access (createNewPageDirectory rest 0x400000 q) (Touch.stores palloc len) ≠ .fault := by
  intro hf
  obtain ⟨k, _, hnone, hl⟩ := stores_fault hf
  have hhigh := hp.high
  by_cases hk : palloc + k < 0x800000
  · obtain ⟨a, ha⟩ := built_translates rest hq hk
    rw [Nat.mod_eq_of_lt (by omega), ha] at hnone
    cases hnone
  · have := (Known.built rest hq).cleared hp (by omega) hl
    omega

end Clearing

section Allocator

variable {m m' : Phymem} {live : List (Nat × Nat)} {palloc len : Nat}

/-- No frame is in use above the first 512. -/
def Lowly (m : Phymem) : Prop := ∀ j, 512 ≤ j → bit m.phyBitmap j = false

theorem Scanned.start_le {b : Bitmap} (h : Scanned b n s n)
    (hb : ∀ j, 512 ≤ j → bit b j = false) : s ≤ 512 := by
  rcases h.before with rfl | hset
  · omega
  · obtain ⟨j, hj, hbit⟩ := get_true hset
    by_contra hlt
    rw [hb j (by omega)] at hbit
    cases hbit

/-- The search for one page takes page 0, whether or not it is in use. -/
theorem Scanned.one_page {b : Bitmap} (h : Scanned b 1 s 1) (hin : s + 1 ≤ 8 * b.length) :
    s = 0 := by
  by_contra hs
  obtain ⟨p, _, hp, hset⟩ := h.blocked 0 (by omega)
  rw [get_first (by omega) (by omega)] at hset
  cases hset

/-- Frames begin low, and if they also end low nothing above is in use. -/
theorem Lowly.alloc (h : Lowly m) (hs : m.phyStart = physStart)
    (ha : phymemAlloc m len = some (palloc, m')) :
    Spot palloc ∧ (len = 0 ∨ palloc + len ≤ 0x4FC000 → Lowly m') := by
  obtain ⟨_, i, b, hb, rfl, rfl⟩ := alloc_pages_shape ha
  have hn : 0 < pagesFor len := Nat.succ_pos _
  obtain ⟨hscan, hin, hl, hbits⟩ := bitmap_find_zero_spec hn hb
  have hi := Scanned.start_le hscan h
  have hptr : pagePointer m i = 0x304000 + i * 0x1000 := by
    simp only [pagePointer, hs, physStart]
    omega
  rw [hptr]
  refine ⟨⟨by omega, by simp only [physStart]; omega, by omega⟩, ?_⟩
  intro hfit j hj
  have hend : i + pagesFor len ≤ 512 := by
    rcases hfit with rfl | hfit
    · rw [Scanned.one_page hscan hin]
      decide
    · simp only [pagesFor]
      omega
  by_contra hbit
  rcases (hbits j).mp (by simpa using hbit) with hold | ⟨_, hlt⟩
  · rw [h j hj] at hold
    cases hold
  · omega

theorem Lowly.release (h : Lowly m) (hf : phymemFree m palloc len = some m') : Lowly m' := by
  obtain ⟨_, b, hb, rfl⟩ := free_pages_shape hf
  intro j hj
  by_contra hbit
  have hold := ((bit_unset_range hb j).mp (by simpa using hbit)).1
  rw [h j hj] at hold
  cases hold

/-- The bit of address 0 lies behind the bitmap. -/
theorem null_not_freed (h : Ledger.Arena m live) : phymemFree m 0 len = none := by
  by_contra hsome
  obtain ⟨m', hf⟩ := Option.ne_none_iff_exists'.mp hsome
  obtain ⟨_, b, hb, rfl⟩ := free_pages_shape hf
  have hin := (range_length (fun _ _ _ => unset_length) hb).2 (Nat.succ_pos _)
  have hs := h.small
  simp only [pageIndex, h.start, physStart] at hin
  omega

end Allocator

/-- The directory of a process is a known one; if it has frames, they begin low, they
are too few for the window, and the directory was built for them. -/
structure Lodged (p : Process) : Prop where
  known : Known p.paged
  spot : p.palloc ≠ 0 → Spot p.palloc
  short : p.palloc ≠ 0 → p.pallocLen < 0x3FF000
  built : p.palloc ≠ 0 → ∃ rest, p.paged = createNewPageDirectory rest 0x400000 p.palloc

structure Invariant (k : Kernel) : Prop where
  arena : Ledger.Arena k.phymem k.live
  lowly : Lowly k.phymem
  lodged : ∀ i p, procAt k.procs i = some p → Lodged p

section Steps

variable {k k' k₁ : Kernel} {op : KernelOp} {p p' : Process} {procs : List (Option Process)}
  {palloc len : Nat} {m m' : Phymem}

theorem Invariant.cr3 (h : Invariant k) : Known k.cr3 := by
  unfold Kernel.cr3
  cases hc : k.getProcess with
  | none => exact .boot
  | some q => exact (h.lodged q.1 q.2 (get_process_proc hc).2).known

/-- Frames that have been cleared begin and end low, and are too few for the window. -/
theorem Invariant.frames (h : Invariant k) (ha : phymemAlloc k.phymem len = some (palloc, m))
    (hc : access k.cr3 (Touch.stores palloc len) = .done) :
    Lowly m ∧ Spot palloc ∧ len < 0x3FF000 := by
  obtain ⟨hspot, hlow⟩ := h.lowly.alloc h.arena.start ha
  have hlen : len = 0 ∨ palloc + len ≤ 0x4FC000 := by
    rcases Nat.eq_zero_or_pos len with hz | hpos
    · exact .inl hz
    · exact .inr (h.cr3.cleared hspot hpos (stores_done_iff.mp hc))
  refine ⟨hlow hlen, hspot, ?_⟩
  have := hspot.low
  simp only [physStart] at this
  omega

theorem lodged_frames (rest : PageDirectory) (hspot : Spot p.palloc)
    (hlen : p.pallocLen < 0x3FF000)
    (hpd : p.paged = createNewPageDirectory rest 0x400000 p.palloc) : Lodged p :=
  ⟨hpd ▸ .built rest hspot, fun _ => hspot, fun _ => hlen, fun _ => ⟨rest, hpd⟩⟩

theorem Lodged.keep (h : Lodged p) (hpd : p'.paged = p.paged) (ha : p'.palloc = p.palloc)
    (hl : p'.pallocLen = p.pallocLen) : Lodged p' := by
  obtain ⟨hknown, hspot, hshort, hbuilt⟩ := h
  rw [← hpd] at hknown
  rw [← ha] at hspot hshort hbuilt
  rw [← hl] at hshort
  rw [← hpd] at hbuilt
  exact ⟨hknown, hspot, hshort, hbuilt⟩

theorem lodged_set (h : ∀ i p, procAt procs i = some p → Lodged p)
    (hp : procAt procs i = some p) (hl : Lodged p') :
    ∀ j q, procAt (procs.set i (some p')) j = some q → Lodged q := by
  intro j q hq
  rcases proc_at_replaced hp hq with ⟨_, rfl⟩ | ⟨_, hq⟩
  · exact hl
  · exact h j q hq

theorem lodged_push (h : ∀ i p, procAt procs i = some p → Lodged p) (hl : Lodged p') :
    ∀ j q, procAt (procs ++ [some p']) j = some q → Lodged q := by
  intro j q hq
  rcases push_lookup hq with ⟨_, rfl⟩ | hq
  · exact hl
  · exact h j q hq

/-- A process whose `memset` faults has no frames to give back. -/
theorem Invariant.fault_null (h : Invariant k) (hc : k.getProcess = some (i, p))
    (ha : phymemAlloc k.phymem len = some (palloc, m))
    (hf : access k.cr3 (Touch.stores palloc len) = .fault) : p.palloc = 0 := by
  by_contra hz
  have hl := h.lodged i p (get_process_proc hc).2
  obtain ⟨rest, hpd⟩ := hl.built hz
  have hcr3 : k.cr3 = createNewPageDirectory rest 0x400000 p.palloc := by
    rw [Kernel.cr3, hc]
    exact hpd
  rw [hcr3] at hf
  exact built_no_fault rest (hl.spot hz) (h.lowly.alloc h.arena.start ha).1 hf

theorem Invariant.exit (h : Invariant k) (hc : k.getProcess = some (i, p))
    (hf : phymemFree k.phymem p.palloc p.pallocLen = some m) : Invariant (afterExit k i p m) := by
  refine ⟨h.arena.free hf, h.lowly.release hf, ?_⟩
  intro j q hq
  exact h.lodged j q (proc_at_gone (get_process_proc hc).2 hq).1

theorem Invariant.load (h : Invariant k) (hc : k.getProcess = some (i, p))
    (ha : phymemAlloc k.phymem len = some (palloc, m))
    (hd : access k.cr3 (Touch.stores palloc len) = .done) (rest : PageDirectory) :
    Invariant (entered k i p rest palloc m len) := by
  obtain ⟨hlow, hspot, hlen⟩ := h.frames ha hd
  exact ⟨h.arena.alloc ha, hlow,
    lodged_set h.lodged (get_process_proc hc).2 (lodged_frames rest hspot hlen rfl)⟩

/-- A fault in the `memset` would end with address 0 given back, which cannot be
followed; after a later one the process gives back frames of its own. -/
theorem fault_invariant (h : Invariant k) (hb : Began k op k₁) (hc : k₁.getProcess = some (i, p))
    (hf : phymemFree k₁.phymem p.palloc p.pallocLen = some m) :
    Invariant (afterExit k₁ i p m) := by
  cases hb with
  | clearing _ ha hfault =>
    rw [h.fault_null hc ha hfault, null_not_freed (h.arena.alloc ha)] at hf
    cases hf
  | loading hg _ ha hdone => exact (h.load hg ha hdone _).exit hc hf
  | forkClearing hg ha hfault =>
    obtain ⟨-, rfl⟩ := get_process_pushed hg hc rfl rfl
    rw [h.fault_null hg ha hfault, null_not_freed (h.arena.alloc ha)] at hf
    cases hf
  | forkCopying hg ha hdone =>
    obtain ⟨hlow, hspot, hlen⟩ := h.frames ha hdone
    exact Invariant.exit ⟨h.arena.alloc ha, hlow,
      lodged_push h.lodged (lodged_frames _ hspot hlen rfl)⟩ hc hf

theorem step_invariant (h : Invariant k) (hs : k.step op = some k') : Invariant k' := by
  cases step_cases hs with
  | same | drew | added => exact ⟨h.arena, h.lowly, h.lodged⟩
  | created t =>
    exact ⟨h.arena, h.lowly, lodged_push h.lodged
      ⟨h.cr3, fun hz => absurd rfl hz, fun hz => absurd rfl hz, fun hz => absurd rfl hz⟩⟩
  | loaded hc _ ha hd => exact h.load hc ha hd _
  | replaced hc _ ha hd _ hf =>
    have hlow := (h.frames ha hd).1
    exact ⟨(h.arena.alloc ha).free hf, hlow.release hf, (h.load hc ha hd _).lodged⟩
  | forkedFull hc _ ha hd | forked hc _ ha hd =>
    obtain ⟨hlow, hspot, hlen⟩ := h.frames ha hd
    exact ⟨h.arena.alloc ha, hlow, lodged_push h.lodged (lodged_frames _ hspot hlen rfl)⟩
  | faulted hb _ hc hf => exact fault_invariant h hb hc hf
  | exited _ hc hf => exact h.exit hc hf
  | killed =>
    refine ⟨h.arena, h.lowly, ?_⟩
    intro j q hq
    exact h.lodged j q (proc_at_unmasked hq).1
  | switched hp =>
    exact ⟨h.arena, h.lowly, lodged_set h.lodged hp ((h.lodged _ _ hp).keep rfl rfl rfl)⟩
  | recorded hc hp =>
    obtain ⟨table, handles, rfl⟩ := post_allocation_shape hp
    have hproc := (get_process_proc hc).2
    exact ⟨h.arena, h.lowly, lodged_set h.lodged hproc ((h.lodged _ _ hproc).keep rfl rfl rfl)⟩
  | opened hc =>
    have hproc := (get_process_proc hc).2
    exact ⟨h.arena, h.lowly, lodged_set h.lodged hproc ((h.lodged _ _ hproc).keep rfl rfl rfl)⟩

theorem boot_invariant (hstop : stop < 0xFFFFB000) (h : Kernel.boot stop memory = some k) :
    Invariant k := by
  have harena := Ledger.boot_arena hstop h
  obtain ⟨m, hm, rfl⟩ := Option.map_eq_some_iff.mp h
  obtain ⟨_, rfl⟩ := init_shape hm
  refine ⟨harena, ?_, ?_⟩
  · intro j _
    unfold bit
    rw [List.getElem?_replicate]
    split <;> simp
  · intro i p hp
    cases hp

/-- The window of a process with frames leads out of them. -/
theorem Invariant.escapes (h : Invariant k) (hp : procAt k.procs i = some p)
    (hz : p.palloc ≠ 0) : ¬ ∀ v f, InWindow v → translate p.paged v = some f →
      Owns (p.palloc, p.pallocLen) f := by
  have hl := h.lodged i p hp
  obtain ⟨rest, hpd⟩ := hl.built hz
  rw [hpd, window_own_iff rest p.palloc p.pallocLen (hl.spot hz).aligned]
  exact Nat.not_le.mpr (hl.short hz)

/-- Some frame is in both windows. -/
def Shared (p q : Process) : Prop :=
  ∃ v w f g, InWindow v ∧ InWindow w ∧ translate p.paged v = some f ∧
    translate q.paged w = some g ∧ f / 0x1000 = g / 0x1000

theorem Shared.symm (h : Shared p q) : Shared q p := by
  obtain ⟨v, w, f, g, hv, hw, hf, hg, he⟩ := h
  exact ⟨w, v, g, f, hw, hv, hg, hf, he.symm⟩

/-- Windows of four megabytes that begin less than that apart overlap. -/
theorem shared_of_le (hp : Lodged p) (hq : Lodged q) (hzp : p.palloc ≠ 0) (hzq : q.palloc ≠ 0)
    (hle : p.palloc ≤ q.palloc) : Shared p q := by
  obtain ⟨rest, hpd⟩ := hp.built hzp
  obtain ⟨rest', hqd⟩ := hq.built hzq
  obtain ⟨hpa, hpl, _⟩ := hp.spot hzp
  obtain ⟨hqa, _, hqh⟩ := hq.spot hzq
  simp only [physStart] at hpl
  have hv : InWindow (0x400000 + (q.palloc - p.palloc)) := ⟨by omega, by omega⟩
  have hw : InWindow 0x400000 := ⟨by omega, by omega⟩
  have hf := window_translate rest p.palloc _ hpa hv
  have hg := window_translate rest' q.palloc _ hqa hw
  rw [← hpd] at hf
  rw [← hqd] at hg
  exact ⟨_, _, _, _, hv, hw, hf, hg, by omega⟩

theorem Invariant.shared (h : Invariant k) (hp : procAt k.procs i = some p)
    (hq : procAt k.procs j = some q) (hzp : p.palloc ≠ 0) (hzq : q.palloc ≠ 0) :
    Shared p q := by
  have hlp := h.lodged i p hp
  have hlq := h.lodged j q hq
  rcases Nat.le_total p.palloc q.palloc with hle | hle
  · exact shared_of_le hlp hlq hzp hzq hle
  · exact (shared_of_le hlq hlp hzq hzp hle).symm

end Steps

/-- In every state the kernel reaches, the windows are isolated if and only if no
process has been given one, and any two that have been share a frame. -/
theorem windows_isolated_iff (stop : Nat) (memory : Nat → Nat) (k₀ k : Kernel)
    (ops : List KernelOp) (hstop : stop < 0xFFFFB000)
    (hboot : Kernel.boot stop memory = some k₀) (hrun : run Kernel.step k₀ ops = some k) :
    (Isolated k ↔ ∀ i p, procAt k.procs i = some p → p.palloc = 0) ∧
      ∀ i j p q, procAt k.procs i = some p → procAt k.procs j = some q → p.palloc ≠ 0 →
        q.palloc ≠ 0 → Shared p q := by
  have hinv : Invariant k :=
    run_keeps hrun (boot_invariant hstop hboot) (fun _ _ _ => step_invariant)
  refine ⟨⟨?_, ?_⟩, fun i j p q hp hq hzp hzq => hinv.shared hp hq hzp hzq⟩
  · intro hiso i p hp
    by_contra hz
    exact hinv.escapes hp hz (fun v f hv hf => hiso.own i p v f hp hz hv hf)
  · intro hnone
    refine ⟨?_, ?_⟩
    · intro i p v f hp hz
      exact absurd (hnone i p hp) hz
    · intro i j p q v w f g _ hp _ hz
      exact absurd (hnone i p hp) hz

/-- Two processes execute an image each, of five bytes and of one page. -/
def twoWindows : List KernelOp :=
  [.createNewProcess 1 none, .schedulerAddProcess 0, .schedulerSwitch,
    .elfStart ⟨0xC0000100, 5, 2, 0, []⟩ bootDirectory,
    .createNewProcess 1 none, .schedulerAddProcess 1, .schedulerSwitch,
    .elfStart ⟨0xC0000100, 0x1000, 2, 0, []⟩ bootDirectory]

def framesOf (k : Kernel) : List (Option (Nat × Nat)) :=
  k.procs.map (Option.map fun p => (p.palloc, p.pallocLen))

theorem two_windows_frames : (run Kernel.step smallKernel twoWindows).map framesOf =
    some [some (0x304000, 5), some (0x30C000, 0x1000)] := by
  decide +kernel

theorem windows_shared_two : ∃ k p q, run Kernel.step smallKernel twoWindows = some k ∧
    procAt k.procs 0 = some p ∧ procAt k.procs 1 = some q ∧ p.palloc ≠ q.palloc ∧
    ¬ Isolated k ∧ Shared p q := by
  obtain ⟨k, hrun, hframes⟩ := Option.map_eq_some_iff.mp two_windows_frames
  have hproc : ∀ i a, (framesOf k)[i]? = some (some a) →
      ∃ p, procAt k.procs i = some p ∧ p.palloc = a.1 := by
    intro i a hi
    obtain ⟨o, ho, he⟩ := List.getElem?_map ▸ hi |> Option.map_eq_some_iff.mp
    obtain ⟨p, rfl, rfl⟩ := Option.map_eq_some_iff.mp he
    exact ⟨p, Option.join_eq_some_iff.mpr ho, rfl⟩
  rw [hframes] at hproc
  obtain ⟨p, hp, hpa⟩ := hproc 0 _ rfl
  obtain ⟨q, hq, hqa⟩ := hproc 1 _ rfl
  obtain ⟨hiso, hshared⟩ := windows_isolated_iff 0x31b000 (fun _ => 0) smallKernel k twoWindows
    (by decide) rfl hrun
  have hzp : p.palloc ≠ 0 := by simp [hpa]
  have hzq : q.palloc ≠ 0 := by simp [hqa]
  exact ⟨k, p, q, hrun, hp, hq, by simp [hpa, hqa], fun h => hzp (hiso.mp h 0 p hp),
    hshared 0 1 p q hp hq hzp hzq⟩

/-- A one-page image: the second page of the window is a frame that was never
allocated. -/
theorem windows_escape :
    ¬ ∀ stop memory k ops, stop < 0xFFFFB000 → Kernel.boot stop memory = some k →
      Throughout Kernel.step Isolated k ops := by
  intro h
  have hi := (h 0x31b000 (fun _ => 0) smallKernel
    [.createNewProcess 1 none, .schedulerAddProcess 0, .schedulerSwitch,
      .elfStart ⟨0xC0000100, 0x10, 2, 0, [⟨1, 0, 0x400000, 0x10⟩]⟩ bootDirectory]
    (by decide) rfl).last rfl
  obtain ⟨i, hlt, he⟩ := hi.own 0 _ 0x401000 0x305000 rfl (by decide) ⟨by decide, by decide⟩
    (by decide)
  have hzero : i = 0 := Nat.lt_one_iff.mp hlt
  subst i
  exact absurd he (by decide)

end Levos.Proofs.Isolation
