import Levos.Proofs.Fork
import Levos.Proofs.Kernel

namespace Levos.Proofs.Refinement
open Levos Levos.Library Levos.Elf Levos.Proofs.Kernel Levos.Proofs.Memory Levos.Proofs.Elf
open Levos.Proofs.Paging

variable {k k' : Kernel} {w w' : World} {procs : List (Option Process)} {p q : Process}
variable {rest : PageDirectory}

/-- The two lengths every process records for its image agree. -/
def Sized (procs : List (Option Process)) : Prop :=
  ∀ h p, procAt procs h = some p → p.execLen = p.pallocLen

theorem Sized.set (hs : Sized procs) (hp : procAt procs h = some p)
    (hq : q.execLen = q.pallocLen) : Sized (procs.set h (some q)) := by
  intro j r hr
  rcases proc_at_replaced hp hr with ⟨_, rfl⟩ | ⟨_, hr⟩
  · exact hq
  · exact hs j r hr

theorem Sized.push (hs : Sized procs) (hp : p.execLen = p.pallocLen) :
    Sized (procs ++ [some p]) := by
  intro j r hr
  rw [proc_at_push] at hr
  split at hr
  · cases hr
    exact hp
  · exact hs j r hr

theorem began_sized (hs : Sized k.procs) (hb : Began k op k₁) : Sized k₁.procs := by
  cases hb with
  | clearing => exact hs
  | loading hg => exact hs.set (get_process_proc hg).2 rfl
  | forkClearing | forkCopying => exact hs.push rfl

theorem Sized.exit (hs : Sized k.procs) (hg : k.getProcess = some (h, p)) :
    Sized (k.procs.set h none) := by
  intro j r hr
  exact hs j r (proc_at_gone (get_process_proc hg).2 hr).1

theorem step_sized (hs : Sized k.procs) (h : k.step op = some k') : Sized k'.procs := by
  cases step_cases h with
  | same => exact hs
  | drew => exact hs
  | created t => exact hs.push rfl
  | added => exact hs
  | loaded hg => exact hs.set (get_process_proc hg).2 rfl
  | replaced hg => exact hs.set (get_process_proc hg).2 rfl
  | forkedFull => exact hs.push rfl
  | forked => exact hs.push rfl
  | faulted hb _ hg => exact (began_sized hs hb).exit hg
  | exited _ hg => exact hs.exit hg
  | killed =>
    intro j r hr
    exact hs j r (proc_at_unmasked hr).1
  | switched hp =>
    have hlens := hs _ _ hp
    exact hs.set hp hlens
  | recorded hg hp =>
    obtain ⟨table, handles, rfl⟩ := post_allocation_shape hp
    have hproc := (get_process_proc hg).2
    have hlens := hs _ _ hproc
    exact hs.set hproc hlens
  | opened hg =>
    have hproc := (get_process_proc hg).2
    have hlens := hs _ _ hproc
    exact hs.set hproc hlens

/-- No run of the kernel makes a process whose two lengths differ. -/
theorem run_sized (hs : Sized k.procs) (h : run Kernel.step k ops = some k') :
    Sized k'.procs :=
  run_keeps (I := fun k : Kernel => Sized k.procs) h hs (fun _ _ _ hk hstep => step_sized hk hstep)

theorem boot_sized (hb : Kernel.boot stop memory = some k) (h : run Kernel.step k ops = some k') :
    Sized k'.procs := by
  obtain ⟨m, -, rfl⟩ := Option.map_eq_some_iff.mp hb
  refine run_sized ?_ h
  intro j r hr
  cases hr

/-- The process and its memory are those of the kernel's running process. -/
structure Views (k : Kernel) (p : Process) (w : World) : Prop where
  frames : k.phymem = w.phymem
  directory : p.paged = w.directory
  palloc : p.palloc = w.caller.palloc
  pallocLen : p.pallocLen = w.caller.pallocLen
  execLen : p.execLen = w.caller.execLen

/-- The kernel's call of `phymem_alloc` with its memory. -/
theorem alloc_frames_refines (hg : k.getProcess = some (h, p)) (hv : Views k p w)
    (ha : w.phymemAlloc len = some (palloc, w')) :
    k.allocFrames len = some (palloc, .done,
      { k with phymem := w'.phymem, live := (palloc, len) :: k.live }) := by
  obtain ⟨m, hm, hstore⟩ := phymem_alloc_some ha
  have hcr3 : k.cr3 = w.directory := by
    rw [Kernel.cr3, hg]
    exact hv.directory
  rw [alloc_frames_eq (hv.frames ▸ hm), hcr3, stores_done_iff.mpr (phymem_alloc_lands ha),
    (store_keeps hstore).1]

/-- The copy into the child's window gets through and leaves the frames alone. -/
theorem fill_some (hfill : Fork.fill w (Fork.child rest palloc len) buf = some w') :
    w'.phymem = w.phymem ∧
      access (createNewPageDirectory rest 0x400000 palloc) (Touch.stores 0x400000 len) =
        .done := by
  unfold Fork.fill at hfill
  split at hfill
  · cases hfill
  · rename_i bytes hbytes
    obtain ⟨w₃, hstore, rfl⟩ := Option.map_eq_some_iff.mp hfill
    have hlands := store_lands hstore
    rw [(Loading.slice_some hbytes).2] at hlands
    exact ⟨(store_keeps hstore).1, stores_done_iff.mpr (hlands.mono (fun _ ha => ha.1))⟩

/-- The copies of `sys_fork` with their memory get through in the kernel's step. -/
theorem fork_access_refines (hd : p.paged = w.directory) (hl : p.pallocLen = w.caller.pallocLen)
    (hfetch : w.fetch 0x400000 w.caller.pallocLen = some buf)
    (hfill : Fork.fill w (Fork.child rest palloc len) buf = some w') {c : Process}
    (hc : c.paged = createNewPageDirectory rest 0x400000 palloc)
    (hcl : c.pallocLen = len) {f : ForkSite}
    (hr : access p.paged (Touch.loads (f.paged + 4 * (f.stack >>> 22)) 4 ++
      Touch.stores (f.table + 4 * (f.stack % 0x400000)) 4) = .done) :
    Kernel.forkAccess p c f = .done := by
  have hread : access p.paged (Touch.loads 0x400000 p.pallocLen) = .done := by
    obtain ⟨as, has, -, -⟩ := fetch_some hfetch
    rw [hd, hl, loads_done_iff, lands_iff has]
    exact fun _ _ => trivial
  rw [Kernel.forkAccess, hread, hc, hcl, (fill_some hfill).2, hr]
  rfl

theorem add_keeps (k : Kernel) (h : Nat) :
    (k.schedulerAddProcess h).1.phymem = k.phymem ∧
      (k.schedulerAddProcess h).1.procs = k.procs := by
  rcases add_cases k h with hs | ⟨q, j, -, -, -, -, hs⟩ <;> rw [hs] <;> exact ⟨rfl, rfl⟩

/-- A fork with its memory is a step of the kernel, if `replace_page` gets through, and
the child is the same. -/
theorem sys_fork_refines {f : ForkSite} (hg : k.getProcess = some (h, p)) (hv : Views k p w)
    (hf : Fork.sysFork w f.rest = some (c, w'))
    (hr : access p.paged (Touch.loads (f.paged + 4 * (f.stack >>> 22)) 4 ++
      Touch.stores (f.table + 4 * (f.stack % 0x400000)) 4) = .done) :
    ∃ k', k.step (.sysFork f) = some k' ∧ k'.phymem = w'.phymem ∧
      procAt k'.procs k.procs.length = some (forkedProcess k f.rest c.palloc c.execLen) ∧
      c.pallocLen = c.execLen ∧ c.paged = createNewPageDirectory f.rest 0x400000 c.palloc := by
  unfold Fork.sysFork at hf
  split at hf
  · cases hf
  · rename_i palloc w₁ halloc
    split at hf
    · cases hf
    · rename_i buf hbuf
      obtain ⟨w₂, hfill, heq⟩ := Option.map_eq_some_iff.mp hf
      cases heq
      obtain ⟨m, -, hclear⟩ := phymem_alloc_some halloc
      obtain ⟨-, hcaller, hdir⟩ := store_keeps hclear
      have hkernel := alloc_frames_refines hg hv halloc
      rw [← hv.execLen] at hkernel
      have haccess := fork_access_refines (w := w₁) (p := p) (f := f)
        (c := { k.newProcess with
          paged := createNewPageDirectory f.rest 0x400000 palloc
          palloc := palloc
          pallocLen := p.execLen
          execLen := p.execLen })
        (hv.directory.trans hdir.symm) (by rw [hcaller]; exact hv.pallocLen)
        (by rw [hcaller]; exact hbuf) hfill rfl hv.execLen hr
      have hstep : k.step (.sysFork f) = some (Kernel.schedulerAddProcess
          ((({ k with phymem := w₁.phymem, live := (palloc, p.execLen) :: k.live } :
            Kernel).nextPid).pushProcess (forkedProcess k f.rest palloc p.execLen))
          k.procs.length).1 := by
        simp only [Kernel.step, Kernel.effect, Kernel.sysFork, hg, hkernel, haccess, Effect.of]
        rfl
      obtain ⟨hframes, hprocs⟩ := add_keeps
        ((({ k with phymem := w₁.phymem, live := (palloc, p.execLen) :: k.live } :
          Kernel).nextPid).pushProcess (forkedProcess k f.rest palloc p.execLen)) k.procs.length
      refine ⟨_, hstep, hframes.trans (fill_some hfill).1.symm, ?_, rfl, rfl⟩
      rw [hprocs, hv.execLen]
      exact (proc_at_push _ _ _).trans (if_pos rfl)

/-- A program header table, as far as it can be read. -/
def tableSegments (b : Bytes) : Nat → Nat → List Segment
  | 0, _ => []
  | n + 1, ph => match pType b ph with
    | none => []
    | some t =>
      ⟨t, (pOffset b ph).getD 0, (pVaddr b ph).getD 0, (pFilesz b ph).getD 0⟩ ::
        tableSegments b n (ph + phSize)

/-- What the kernel's step looks at in a buffer that lies at `base`. -/
def imageOf (base : Nat) (b : Bytes) (esize : Nat) : Image :=
  ⟨base, esize, (eType b).getD 0, (ePhoff b).getD 0,
    tableSegments b ((ePhnum b).getD 0) ((ePhoff b).getD 0)⟩

theorem segment_loop_accepted (h : segmentLoop b n ph w = some (l, w')) :
    (tableSegments b n ph).all (fun s => s.pType == 0 || s.pType == 1) =
      decide (l = .finished) := by
  induction n generalizing ph w with
  | zero =>
    cases h
    rfl
  | succ n ih =>
    obtain ⟨ht, hloop⟩ | ⟨ht, w₁, -, hloop⟩ | ⟨t, ht, h0, h1, rfl, -⟩ := segment_loop_cases h
    · simpa [tableSegments, ht] using ih hloop
    · simpa [tableSegments, ht] using ih hloop
    · simp [tableSegments, ht, h0, h1]

theorem le_inside {mem : Bytes} (h : le mem i n = some x) (hn : 0 < n) : i + n ≤ mem.length := by
  induction n generalizing i x with
  | zero => omega
  | succ n ih =>
    simp only [le] at h
    split at h
    · rename_i y m hy hm
      have hi := (List.getElem?_eq_some_iff.mp hy).1
      rcases Nat.eq_zero_or_pos n with rfl | hpos
      · omega
      · have := ih hm hpos
        omega
    · cases h

/-- The bytes of a buffer can be read. -/
def Readable (pd : PageDirectory) (base n : Nat) : Prop :=
  ∀ i m, i + m ≤ n → Lands pd (base + i) m (fun _ => True)

/-- A buffer in the kernel heap can be read under every directory. -/
theorem heap_readable (rest : PageDirectory) (palloc : Nat) (h1 : 0xC0000000 ≤ base)
    (h2 : base + n ≤ 0xC0400000) :
    Readable (createNewPageDirectory rest 0x400000 palloc) base n := by
  intro i m hm k hk
  have hmod : (base + i + k) % 2 ^ 32 = base + i + k := Nat.mod_eq_of_lt (by omega)
  have hdir : (base + i + k) >>> 22 = 768 := by
    rw [Nat.shiftRight_eq_div_pow]
    omega
  rw [hmod]
  exact ⟨_, translate_table kernelHeapPt 0x400000 (by rw [hdir]; rfl) rfl rfl, trivial⟩

/-- The segment loop with its memory gets through in the kernel's step. -/
theorem segment_loop_touches (h : segmentLoop b n ph w = some (l, w'))
    (hr : Readable w.directory base b.length) :
    access w.directory (Image.touchesFrom base (base + ph) (tableSegments b n ph)) = .done := by
  induction n generalizing ph w with
  | zero => rfl
  | succ n ih =>
    have htype : ∀ t, pType b ph = some t →
        access w.directory (Touch.loads (base + ph) 4) = .done := by
      intro t ht
      exact loads_done_iff.mpr (hr ph 4 (le_inside ht (by decide)))
    obtain ⟨ht, hloop⟩ | ⟨ht, w₁, hload, hloop⟩ | ⟨t, ht, h0, h1, rfl, -⟩ := segment_loop_cases h
    · simp only [tableSegments, ht, Image.touchesFrom, access_append, htype 0 ht]
      rw [Nat.add_assoc]
      exact ih hloop hr
    · obtain ⟨offset, vaddr, filesz, bytes, ho, hv, hf, hslice, hstore⟩ := load_segment_some hload
      have hdir := (store_keeps hstore).2.2
      have hfields : access w.directory (Touch.loads (base + ph + 4) 16) = .done := by
        have hin := le_inside hf (by decide)
        rw [Nat.add_assoc]
        exact loads_done_iff.mpr (hr (ph + 4) 16 (by omega))
      have hcopy : access w.directory (Touch.copies vaddr (base + offset) filesz) = .done := by
        obtain ⟨hbuf, hlen⟩ := Loading.slice_some hslice
        have hlands := store_lands hstore
        rw [hlen] at hlands
        refine copies_done_iff.mpr ⟨?_, hlands.mono (fun _ ha => ha.1)⟩
        rcases hbuf with rfl | hbuf
        · exact lands_zero
        · exact hr offset filesz hbuf
      have hrest := ih hloop (hdir ▸ hr)
      rw [hdir] at hrest
      simp only [tableSegments, ht, Image.touchesFrom, access_append, htype 1 ht, ho, hv, hf,
        Option.getD_some, hfields, hcopy]
      rw [Nat.add_assoc]
      exact hrest
    · obtain ⟨t, rfl⟩ : ∃ j, t = j + 2 := ⟨t - 2, by omega⟩
      simp only [tableSegments, ht, Image.touchesFrom, access_append, htype _ ht]
      rfl

theorem entered_views (k' : Kernel) (w' : World) (hg : k.getProcess = some (h, p))
    (hd : w'.directory = createNewPageDirectory rest 0x400000 palloc)
    (hc : w'.caller = ⟨paged, palloc, len, len⟩)
    (hk : k'.procs = (entered k h p rest palloc m len).procs) (hm : k'.phymem = w'.phymem) :
    ∃ q, procAt k'.procs h = some q ∧ Views k' q w' := by
  refine ⟨loadedProcess p rest palloc len, ?_, hm, hd.symm, ?_, ?_, ?_⟩
  · rw [hk]
    exact (proc_at_set _ _ _ _ (proc_at_lt (get_process_proc hg).2)).trans (if_pos rfl)
  · rw [hc]
    rfl
  · rw [hc]
    rfl
  · rw [hc]
    rfl

/-- The frames of the image before are given back. -/
theorem replaced_views (hg : k.getProcess = some (h, p))
    (hd : w.directory = createNewPageDirectory rest 0x400000 palloc)
    (hc : w.caller = ⟨paged, palloc, len, len⟩)
    (hfree : phymemFree m p.palloc p.pallocLen = some m') :
    ∃ k' q, ((entered k h p rest palloc m len).freeFrames p.palloc p.pallocLen).next = some k' ∧
      procAt k'.procs h = some q ∧ Views k' q { w with phymem := m' } := by
  obtain ⟨k', hnext, hprocs, hframes⟩ : ∃ k',
      ((entered k h p rest palloc m len).freeFrames p.palloc p.pallocLen).next = some k' ∧
        k'.procs = (entered k h p rest palloc m len).procs ∧ k'.phymem = m' := by
    simp [Kernel.freeFrames, entered, hfree]
  obtain ⟨q, hq, hview⟩ := entered_views k' { w with phymem := m' } hg hd hc hprocs hframes
  exact ⟨k', q, hnext, hq, hview⟩

/-- The kernel's step on an executable whose frames were cleared and whose segments
were copied. -/
theorem elf_start_entered (rest : PageDirectory) (hg : k.getProcess = some (h, p))
    (ht : img.eType = 2) (hm : k.allocFrames img.esize = some (palloc, .done,
      { k with phymem := m, live := (palloc, img.esize) :: k.live }))
    (hc : access (createNewPageDirectory rest 0x400000 palloc) img.touches = .done) :
    k.step (.elfStart img rest) =
      (if img.accepted = false then Effect.of (entered k h p rest palloc m img.esize)
      else if p.palloc = 0 then Effect.of (entered k h p rest palloc m img.esize)
      else (entered k h p rest palloc m img.esize).freeFrames p.palloc p.pallocLen).next := by
  simp only [Kernel.step, Kernel.effect, Kernel.elfStart, hg, ht, hm, hc, ne_eq,
    not_true_eq_false, ↓reduceIte]
  rfl

/-- A call of `elf_start` with its memory, on a buffer in the kernel heap, is a step of
the kernel. -/
theorem elf_start_refines (hg : k.getProcess = some (h, p)) (hv : Views k p w)
    (h1 : 0xC0000000 ≤ base) (h2 : base + (buf ++ after).length ≤ 0xC0400000)
    (hs : Elf.elfStart w buf after paged rest = some (o, w')) :
    ∃ k' q, k.step (.elfStart (imageOf base (buf ++ after) buf.length) rest) = some k' ∧
      procAt k'.procs h = some q ∧ Views k' q w' := by
  unfold Elf.elfStart at hs
  cases hload : elfLoad w buf after paged rest with
  | none => simp [hload] at hs
  | some r =>
    obtain ⟨l, w₂⟩ := r
    rw [hload] at hs
    obtain ⟨t, ht, hne, rfl, rfl⟩ | ⟨ht, palloc, w₁, phoff, phnum, halloc, hoff, hnum, hloop⟩ :=
      elf_load_cases hload
    · cases hs
      refine ⟨k, p, ?_, (get_process_proc hg).2, hv⟩
      simp [Kernel.step, Kernel.effect, Kernel.elfStart, hg, imageOf, ht, hne, Effect.of]
    · obtain ⟨hm₂, hc₂, hd₂⟩ := segment_loop_keeps hloop
      have hframes : w₂.phymem = w₁.phymem := hm₂
      have haccept : (imageOf base (buf ++ after) buf.length).accepted =
          decide (l = .finished) := by
        simpa [Image.accepted, imageOf, hoff, hnum] using segment_loop_accepted hloop
      have htouch : access (createNewPageDirectory rest 0x400000 palloc)
          (imageOf base (buf ++ after) buf.length).touches = .done := by
        have hfrom := segment_loop_touches hloop (heap_readable rest palloc h1 h2)
        simpa [Image.touches, imageOf, hoff, hnum, enterImage] using hfrom
      have hstep := elf_start_entered rest hg
        (show (imageOf base (buf ++ after) buf.length).eType = 2 by simp [imageOf, ht])
        (alloc_frames_refines hg hv halloc) htouch
      rw [haccept] at hstep
      cases l with
      | rejected =>
        cases hs
        obtain ⟨q, hq, hview⟩ := entered_views _ _ hg hd₂ hc₂ rfl hframes.symm
        exact ⟨_, q, hstep, hq, hview⟩
      | finished =>
        simp only at hs
        cases hentry : eEntry (buf ++ after) with
        | none => simp [hentry] at hs
        | some entry =>
          simp only [hentry] at hs
          by_cases hz : w.caller.palloc = 0
          · rw [if_pos hz] at hs
            cases hs
            rw [if_neg (by simp), if_pos (hv.palloc.trans hz)] at hstep
            obtain ⟨q, hq, hview⟩ := entered_views _ _ hg hd₂ hc₂ rfl hframes.symm
            exact ⟨_, q, hstep, hq, hview⟩
          · rw [if_neg hz] at hs
            obtain ⟨m', hfree, heq⟩ := Option.map_eq_some_iff.mp hs
            cases heq
            rw [if_neg (by simp), if_neg (fun hp => hz (hv.palloc.symm.trans hp))] at hstep
            rw [hframes, ← hv.palloc, ← hv.pallocLen] at hfree
            obtain ⟨k', q, hnext, hviews⟩ := replaced_views hg hd₂ hc₂ hfree
            exact ⟨k', q, hstep.trans hnext, hviews⟩

end Levos.Proofs.Refinement
