import Levos.Proofs.Exits
import Levos.Switch
import Levos.Library.Lists
import Levos.Library.Writes

namespace Levos.Proofs.Switch
open Levos.Library Levos.Scheduler Levos.Switch Levos.Proofs.Exits Levos.Proofs.RoundRobin

/-- The stack of a thread that has been switched out, from its stack pointer up. -/
def frame (r : Registers) : List Word :=
  [r.gs, r.fs, r.es, r.ds, r.general.ebp, r.general.edi, r.general.esi, r.general.edx,
    r.general.ecx, r.general.ebx, r.general.eax, r.eip, r.cs, r.eflags]

/-- The pops and the `iret` read a frame back; only cr3 comes from elsewhere. -/
theorem load_context (h : Holds mem a (frame r)) (regs : Registers) :
    Core.loadContext ⟨regs, ⟨mem, a⟩⟩ = ⟨{ r with cr3 := regs.cr3 }, ⟨mem, a + 14⟩⟩ := by
  simp only [Core.loadContext, Core.popInto, Core.sendEoi, Core.setGeneral, Stack.top, Stack.drop,
    Nat.add_assoc, Nat.reduceAdd]
  rw [h.head, h 1 _ rfl, h 2 _ rfl, h 3 _ rfl, h 4 _ rfl, h 5 _ rfl, h 6 _ rfl, h 7 _ rfl,
    h 8 _ rfl, h 9 _ rfl, h 10 _ rfl, h 11 _ rfl, h 12 _ rfl, h 13 _ rfl]

/-- `popa` undoes `pusha`, whatever stands in the registers in between. -/
theorem popa_pusha (c : Core) (scratch : General) (h : 8 ≤ c.stack.sp) :
    ((c.pusha).setGeneral scratch).popa = ⟨c.regs, ⟨c.pusha.stack.mem, c.stack.sp⟩⟩ := by
  have hsp : c.pusha.stack.sp = c.stack.sp - 8 := c.stack.push_all_sp _
  have hheld : Holds c.pusha.stack.mem (c.stack.sp - 8) [c.regs.general.edi, c.regs.general.esi,
      c.regs.general.ebp, pointer c.stack.sp, c.regs.general.ebx, c.regs.general.edx,
      c.regs.general.ecx, c.regs.general.eax] := hsp ▸ c.stack.push_all_holds _ h
  simp only [Core.popa, Core.popInto, Core.setGeneral, Stack.top, Stack.drop, hsp, Nat.add_assoc,
    Nat.reduceAdd]
  rw [hheld.head, hheld 1 _ rfl, hheld 2 _ rfl, hheld 4 _ rfl, hheld 5 _ rfl, hheld 6 _ rfl,
    hheld 7 _ rfl, Nat.sub_add_cancel h]
  rfl

/-- Two registers that are pushed and popped again around a change of `eax`. -/
theorem pop_push_two (c : Core) (eax : Word) (h : 2 ≤ c.stack.sp) :
    ((c.pushAll [c.regs.general.eax, c.regs.general.ebx]).setGeneral
        { c.regs.general with eax := eax }
      |>.popInto (fun r w => { r with general.ebx := w })
      |>.popInto (fun r w => { r with general.eax := w })) =
    ⟨c.regs, ⟨(c.pushAll [c.regs.general.eax, c.regs.general.ebx]).stack.mem, c.stack.sp⟩⟩ := by
  have hheld := c.stack.push_all_holds [c.regs.general.eax, c.regs.general.ebx] h
  have hsp : (c.stack.pushAll [c.regs.general.eax, c.regs.general.ebx]).sp = c.stack.sp - 2 :=
    c.stack.push_all_sp _
  rw [hsp] at hheld
  simp only [Core.pushAll, Core.popInto, Core.setGeneral, Stack.top, Stack.drop, hsp,
    Nat.add_assoc, Nat.reduceAdd]
  rw [hheld.head, hheld.tail.head, Nat.sub_add_cancel h]

/-- What `scheduler_switch` leaves of the processor: the registers, the return
frame on the stack, and nothing changed but the words below the stack pointer. -/
theorem through_scheduler (c : Core) (scratch : General) (h : 14 ≤ c.stack.sp) :
    (c.throughScheduler scratch).regs = c.regs ∧
    (c.throughScheduler scratch).stack.sp = c.stack.sp - 3 ∧
    Holds (c.throughScheduler scratch).stack.mem (c.stack.sp - 3)
      [c.regs.eip, c.regs.cs, c.regs.eflags] ∧
    SameExcept c.stack.mem (c.throughScheduler scratch).stack.mem c.stack.sp 14 := by
  have hsp : c.interrupt.stack.sp = c.stack.sp - 3 := c.stack.push_all_sp _
  have hheld : Holds c.interrupt.stack.mem (c.stack.sp - 3)
      [c.regs.eip, c.regs.cs, c.regs.eflags] :=
    hsp ▸ c.stack.push_all_holds [c.regs.eflags, c.regs.cs, c.regs.eip] (by simp; omega)
  have hint : SameExcept c.stack.mem c.interrupt.stack.mem c.stack.sp 14 :=
    (c.stack.push_all_same [c.regs.eflags, c.regs.cs, c.regs.eip] (by simp; omega)).mono
      (by simp)
  have hpusha : SameExcept c.interrupt.stack.mem c.interrupt.pusha.stack.mem
      (c.stack.sp - 3) 8 :=
    hsp ▸ c.interrupt.stack.push_all_same _ (by simp; omega)
  let mid : Core := ⟨c.regs, ⟨c.interrupt.pusha.stack.mem, c.stack.sp - 3⟩⟩
  let last := mid.pushAll [c.regs.general.eax, c.regs.general.ebx]
  have htwo : SameExcept mid.stack.mem last.stack.mem (c.stack.sp - 3) 2 :=
    mid.stack.push_all_same _ (by simp [mid]; omega)
  have hrest : SameExcept c.interrupt.stack.mem last.stack.mem (c.stack.sp - 3) 8 :=
    hpusha.trans (htwo.mono (by omega))
  have hcore : c.throughScheduler scratch = ⟨c.regs, ⟨last.stack.mem, c.stack.sp - 3⟩⟩ := by
    have hmid : ((c.interrupt.pusha).setGeneral scratch).popa = mid := by
      rw [popa_pusha c.interrupt scratch (by omega), hsp]
      rfl
    unfold Core.throughScheduler
    rw [hmid]
    exact pop_push_two mid scratch.eax (by simp [mid]; omega)
  rw [hcore]
  refine ⟨rfl, rfl, ?_, hint.trans ((hrest.widen (by omega)).mono (by omega))⟩
  exact hheld.congr (fun b hb _ => hrest b (.inl hb))

/-- With the pushes of `switch_to_thread` the stack holds the whole context. -/
theorem save_context (c : Core) (scratch : General) (h : 14 ≤ c.stack.sp) :
    (c.throughScheduler scratch).saveContext.stack.sp = c.stack.sp - 14 ∧
    Holds (c.throughScheduler scratch).saveContext.stack.mem (c.stack.sp - 14) (frame c.regs) ∧
    SameExcept c.stack.mem (c.throughScheduler scratch).saveContext.stack.mem c.stack.sp 14 := by
  obtain ⟨hregs, hsp, hheld, hsame⟩ := through_scheduler c scratch h
  let d := c.throughScheduler scratch
  have hlen : d.saveContext.stack.sp = c.stack.sp - 14 := by
    have : d.saveContext.stack.sp = d.stack.sp - 11 := d.stack.push_all_sp _
    rw [this, hsp]
    omega
  have hpush : SameExcept d.stack.mem d.saveContext.stack.mem (c.stack.sp - 3) 11 :=
    hsp ▸ d.stack.push_all_same _ (by simp [d, hsp]; omega)
  have htop : Holds d.saveContext.stack.mem (c.stack.sp - 14)
      [c.regs.gs, c.regs.fs, c.regs.es, c.regs.ds, c.regs.general.ebp, c.regs.general.edi,
        c.regs.general.esi, c.regs.general.edx, c.regs.general.ecx, c.regs.general.ebx,
        c.regs.general.eax] := by
    rw [← hlen, ← hregs]
    exact d.stack.push_all_holds _ (by simp [d, hsp]; omega)
  have hreturn := hheld.congr (fun b hb _ => hpush b (.inl hb))
  refine ⟨hlen, ?_, hsame.trans ((hpush.widen (by omega)).mono (by omega))⟩
  have hplace : c.stack.sp - 3 = c.stack.sp - 14 + 11 := by omega
  rw [hplace] at hreturn
  exact htop.append hreturn

/-- Where the block begins that `malloc` returned for the stack of a thread; a
forked thread has it in `rstack`. -/
def base (t : Thread) : Nat := if t.rstack = 0 then t.stackbot else t.rstack

def InBlock (t : Thread) (a : Nat) : Prop := base t ≤ a ∧ a < base t + threadStackSize

/-- The address lies in the stack of a thread that does not run. -/
def Foreign (m : Machine) (a : Nat) : Prop :=
  ∃ i t, m.threads[i]? = some t ∧ m.sched.newThread ≠ some i ∧ InBlock t a

/-- Below the stack pointer there is room for a context, in the running
thread's own stack, or outside all stacks while no thread runs yet. -/
def Fits (m : Machine) (esp : Nat) : Prop :=
  match m.sched.newThread with
  | some i => ∃ t, m.threads[i]? = some t ∧ base t + 14 ≤ esp ∧ esp ≤ base t + threadStackSize
  | none => 14 ≤ esp ∧ ∀ t ∈ m.threads, esp ≤ base t ∨ base t + threadStackSize + 14 ≤ esp

/-- The block at `a` is apart from all stacks. -/
def Unused (m : Machine) (a : Nat) : Prop :=
  (∀ t ∈ m.threads, a + threadStackSize ≤ base t ∨ base t + threadStackSize ≤ a) ∧
    (m.sched.newThread = none →
      m.core.stack.sp ≤ a ∨ a + threadStackSize + 14 ≤ m.core.stack.sp)

instance (m : Machine) (a : Nat) : Decidable (Unused m a) := inferInstanceAs (Decidable (_ ∧ _))

/-- What runs between two switches keeps the directory in cr3 and stays out of
the stacks of the other threads, a new stack is a block of its own, and a process
is forked by its first thread, on the stack that `create_new_thread` gave it. -/
def Confined (m : Machine) : Switch.Op → Prop
  | .compute regs esp stores =>
    regs.cr3 = m.core.regs.cr3 ∧ Fits m esp ∧ ∀ x ∈ stores, ¬ Foreign m x.1
  | .createNewThread _ _ stackbot => Unused m stackbot
  | .sysFork _ _ rstack => 0 < rstack ∧ Unused m rstack ∧ ∀ t ∈ m.parentThread,
    t.stackbot + 14 ≤ m.core.stack.sp ∧ m.core.stack.sp ≤ t.stackbot + threadStackSize
  | _ => True

/-- The context in which `create_new_thread` or `sys_fork` lets a thread begin. -/
def entered (t : Thread) (cr3 : Word) : Context where
  regs :=
    { general := ⟨0, 0, 0, 0, 0, 0, pointer t.stacktop⟩
      ds := 0x10, es := 0x10, fs := 0x10, gs := 0x10
      eip := t.ip, cs := 0x8, eflags := 0x202, cr3 := cr3 }
  esp := if t.rstack = 0 then t.stacktop else t.stack + 14

/-- The same context under another directory. -/
def under (c : Context) (cr3 : Word) : Context := { c with regs := { c.regs with cr3 := cr3 } }

/-- The context a thread has to get when it runs next: the one in which it was
last switched out, under the directory it was last given unless that has been
replaced, or the one made for it if it has never run. -/
def Due (m : Machine) (i : Nat) (t : Thread) (c : Context) : Prop :=
  (∀ d, m.saved i = some d → c = under d c.regs.cr3 ∧ (m.replaced i = false → c = d)) ∧
    (m.saved i = none → c = entered t c.regs.cr3)

/-- The stack of a thread holds a context, and its process the directory. -/
structure Parked (mem : Nat → Word) (paged : List Word) (t : Thread) (c : Context) : Prop where
  held : Holds mem t.stack (frame c.regs)
  esp : c.esp = t.stack + 14
  low : base t ≤ t.stack
  high : t.stack + 14 ≤ base t + threadStackSize
  cr3 : paged[t.paged]? = some c.regs.cr3

structure Sound (m : Machine) : Prop where
  census : Census m.sched
  counted : m.threads.length = m.sched.threads
  paged : m.paged.length = m.sched.procs.length
  apart : ∀ (i j : Nat) (t u : Thread), m.threads[i]? = some t → m.threads[j]? = some u → i ≠ j →
    base t + threadStackSize ≤ base u ∨ base u + threadStackSize ≤ base t
  fits : Fits m m.core.stack.sp
  running : ∀ (i : Nat) (t : Thread), m.sched.newThread = some i → m.threads[i]? = some t →
    ∃ w, m.paged[t.paged]? = some w ∧ (m.replaced i = false → m.core.regs.cr3 = w)
  fresh : ∀ i, m.threads.length ≤ i → m.saved i = none
  parked : ∀ (i : Nat) (t : Thread), m.threads[i]? = some t → m.sched.newThread ≠ some i →
    ∃ c, Due m i t c ∧ Parked m.core.stack.mem m.paged t c

/-- A context stays parked while its stack and the directories stay. -/
theorem Parked.congr (h : Parked mem paged t c)
    (hmem : ∀ a, InBlock t a → mem' a = mem a)
    (hpaged : ∀ w, paged[t.paged]? = some w → paged'[t.paged]? = some w) :
    Parked mem' paged' t c := by
  refine ⟨h.held.congr ?_, h.esp, h.low, h.high, hpaged _ h.cr3⟩
  intro b hb hlt
  have hlen : (frame c.regs).length = 14 := rfl
  have := h.low
  have := h.high
  exact hmem b ⟨by omega, by omega⟩

/-- The stack of a parked thread says nothing of the directory. -/
theorem Parked.under (h : Parked mem paged t c) (hw : paged'[t.paged]? = some w) :
    Parked mem paged' t (under c w) :=
  ⟨h.held, h.esp, h.low, h.high, hw⟩

theorem boot_sound (core : Core) (h : 14 ≤ core.stack.sp) : Sound (Machine.boot core) where
  census := boot_census
  counted := rfl
  paged := rfl
  apart := fun i j t u ht => by simp [Machine.boot] at ht
  fits := ⟨h, fun t ht => by cases ht⟩
  running := fun i t hi => by cases hi
  fresh := fun i _ => rfl
  parked := fun i t ht => by simp [Machine.boot] at ht

theorem Sound.running_lt {m : Machine} (hs : Sound m) (h : m.sched.newThread = some i) :
    ∃ t, m.threads[i]? = some t ∧ base t + 14 ≤ m.core.stack.sp ∧
      m.core.stack.sp ≤ base t + threadStackSize := by
  have hfits := hs.fits
  simp only [Fits, h] at hfits
  exact hfits

/-- A process joins, with any directory. -/
theorem Sound.process {m : Machine} (hs : Sound m) (pd : Word) :
    Sound { m with sched := m.sched.createNewProcessNothread, paged := m.paged ++ [pd] } := by
  have hold (t : Thread) (w : Word) (hw : m.paged[t.paged]? = some w) :
      (m.paged ++ [pd])[t.paged]? = some w := by
    rw [List.getElem?_append_left (List.getElem?_eq_some_iff.mp hw).1, hw]
  refine ⟨hs.census.create, hs.counted, ?_, hs.apart, hs.fits, ?_, hs.fresh, ?_⟩
  · simp [State.createNewProcessNothread, hs.paged]
  · intro i t hi ht
    obtain ⟨w, hw, hsame⟩ := hs.running i t hi ht
    exact ⟨w, hold t w hw, hsame⟩
  · intro i t ht hi
    obtain ⟨c, hdue, hparked⟩ := hs.parked i t ht hi
    exact ⟨c, hdue, hparked.congr (fun _ _ => rfl) (hold t)⟩

theorem paged_set {paged : List Word} (hw : paged[j]? = some w) (k : Nat) (pd : Word) :
    (paged.set k pd)[j]? = some (if j = k then pd else w) := by
  have hlt := (List.getElem?_eq_some_iff.mp hw).1
  rw [List.getElem?_set]
  split
  · rename_i heq
    rw [if_pos heq.symm, if_pos (heq ▸ hlt)]
  · rename_i hne
    rw [if_neg (Ne.symm hne), hw]

/-- `elf_start` leaves the stacks as they are; the threads of the process are
due under the new directory. -/
theorem Sound.elfStart {m m' : Machine} (hs : Sound m) (h : m.elfStart pd = some m') :
    Sound m' := by
  unfold Machine.elfStart at h
  split at h
  · cases h
  rename_i k hk
  cases h
  refine ⟨hs.census, hs.counted, ?_, hs.apart, hs.fits, ?_, hs.fresh, ?_⟩
  · simpa using hs.paged
  · intro i t hi ht
    obtain ⟨w, hw, hsame⟩ := hs.running i t hi ht
    refine ⟨_, paged_set hw k pd, ?_⟩
    intro hr
    obtain ⟨hr, hne⟩ : m.replaced i = false ∧ t.paged ≠ k := by
      simpa [show m.threads[i]? = some t from ht] using hr
    rw [if_neg hne]
    exact hsame hr
  · intro i t ht hi
    obtain ⟨c, hdue, hparked⟩ := hs.parked i t ht hi
    by_cases hp : t.paged = k
    · -- a thread of this process is due under the new directory
      refine ⟨under c pd, ⟨?_, ?_⟩, hparked.under ?_⟩
      · intro d hd
        refine ⟨?_, fun hr => ?_⟩
        · rw [(hdue.1 d hd).1]
          rfl
        · simp [show m.threads[i]? = some t from ht, hp] at hr
      · intro hd
        rw [hdue.2 hd]
        rfl
      · exact (paged_set hparked.cr3 k pd).trans (by rw [if_pos hp])
    · refine ⟨c, ⟨?_, hdue.2⟩, hparked.congr (fun _ _ => rfl) ?_⟩
      · intro d hd
        refine ⟨(hdue.1 d hd).1, fun hr => (hdue.1 d hd).2 ?_⟩
        exact (Bool.or_eq_false_iff.mp hr).1
      · intro w hw
        exact (paged_set hw k pd).trans (by rw [if_neg hp])

theorem Sound.compute {m : Machine} (hs : Sound m)
    (hg : Confined m (.compute regs esp stores)) : Sound (m.compute regs esp stores) := by
  obtain ⟨hcr3, hfits, hstores⟩ := hg
  refine ⟨hs.census, hs.counted, hs.paged, hs.apart, hfits, ?_, hs.fresh, ?_⟩
  · intro i t hi ht
    obtain ⟨w, hw, hsame⟩ := hs.running i t hi ht
    exact ⟨w, hw, fun hr => hcr3.trans (hsame hr)⟩
  · intro i t ht hi
    obtain ⟨c, hdue, hparked⟩ := hs.parked i t ht hi
    refine ⟨c, hdue, hparked.congr ?_ (fun _ hw => hw)⟩
    intro a ha
    -- stores outside the stacks of the other threads leave those stacks alone
    refine (writes_of_ne ?_ : writes m.core.stack.mem stores a = m.core.stack.mem a)
    rintro x hx rfl
    exact hstores x hx ⟨i, t, ht, hi, ha⟩

theorem Sound.add {m : Machine} (hs : Sound m) (h : m.sched.schedulerAddProcess k = some sched) :
    Sound { m with sched := sched } := by
  have hcensus := hs.census.add h
  obtain rfl | ⟨p, i, -, -, -, -, rfl⟩ := add_cases h
  · exact hs
  · exact ⟨hcensus, hs.counted, hs.paged, hs.apart, hs.fits, hs.running, hs.fresh, hs.parked⟩

/-- The frame of a thread that begins, pushed from `top` down in a block of which
nothing is known. -/
theorem initial_stack (mem mem' : Nat → Word) (s : Word) (stacktop bot top : Nat)
    (hblock : ∀ a, ¬ (bot ≤ a ∧ a < bot + threadStackSize) → mem' a = mem a)
    (hlow : bot + 14 ≤ top) (hhigh : top ≤ bot + threadStackSize) :
    let stack := (⟨mem', top⟩ : Stack Word).pushAll (initialFrame s stacktop)
    (∀ t cr3, t.ip = s → t.stacktop = stacktop →
      Holds stack.mem stack.sp (frame (entered t cr3).regs)) ∧
    stack.sp = top - 14 ∧
    ∀ a, ¬ (bot ≤ a ∧ a < bot + threadStackSize) → stack.mem a = mem a := by
  intro stack
  let block : Stack Word := ⟨mem', top⟩
  have hroom : (initialFrame s stacktop).length ≤ block.sp := by
    simp only [initialFrame, block, List.length_cons, List.length_nil]
    omega
  refine ⟨?_, block.push_all_sp _, ?_⟩
  · rintro t cr3 rfl rfl
    exact block.push_all_holds (initialFrame t.ip t.stacktop) hroom
  · intro a ha
    have hpush := block.push_all_same _ hroom a (by
      simp only [initialFrame, block, List.length_cons, List.length_nil]
      omega)
    exact hpush.trans (hblock a ha)

/-- The room below the stack pointer is still there when a thread joins. -/
theorem Fits.join {m m' : Machine} (hfits : Fits m esp)
    (hnew : m'.sched.newThread = m.sched.newThread)
    (hboot : m.sched.newThread = none → esp ≤ base t ∨ base t + threadStackSize + 14 ≤ esp)
    (hthreads : m'.threads = m.threads ++ [t]) : Fits m' esp := by
  simp only [Fits, hnew, hthreads] at hfits ⊢
  split at hfits
  · obtain ⟨u, hu, hroom⟩ := hfits
    refine ⟨u, ?_, hroom⟩
    rw [List.getElem?_append_left (List.getElem?_eq_some_iff.mp hu).1, hu]
  · rename_i hnone
    refine ⟨hfits.1, ?_⟩
    intro u hu
    rcases List.mem_append.mp hu with hu | hu
    · exact hfits.2 u hu
    · rw [List.mem_singleton.mp hu]
      exact hboot hnone

/-- A thread with a stack of its own joins, ready to begin. -/
theorem Sound.join {m : Machine} (hs : Sound m) (cr3 : Word) (hcensus : Census sched)
    (hnew : sched.newThread = m.sched.newThread) (hcount : sched.threads = m.sched.threads + 1)
    (hprocs : sched.procs.length = m.sched.procs.length) (hunused : Unused m (base t))
    (hmem : ∀ a, ¬ InBlock t a → mem a = m.core.stack.mem a)
    (hparked : Parked mem m.paged t (entered t cr3)) :
    Sound { m with
      sched := sched
      core := { m.core with stack := ⟨mem, m.core.stack.sp⟩ }
      threads := m.threads ++ [t] } := by
  obtain ⟨hapart, hboot⟩ := hunused
  have hblock (u : Thread) (hu : u ∈ m.threads) (a : Nat) (ha : InBlock u a) :
      mem a = m.core.stack.mem a := by
    refine hmem a ?_
    have := hapart u hu
    simp only [InBlock] at ha ⊢
    omega
  refine ⟨hcensus, ?_, ?_, ?_, ?_, ?_, ?_, ?_⟩
  · simp [hs.counted, hcount]
  · exact hs.paged.trans hprocs.symm
  · intro i j u v hu hv hij
    rcases getElem?_concat_cases hu with hold | ⟨rfl, rfl⟩
    · rcases getElem?_concat_cases hv with hold' | ⟨rfl, rfl⟩
      · exact hs.apart i j u v hold hold' hij
      · exact (hapart u (List.mem_of_getElem? hold)).symm
    · rcases getElem?_concat_cases hv with hold' | ⟨rfl, rfl⟩
      · exact hapart v (List.mem_of_getElem? hold')
      · exact absurd rfl hij
  · exact hs.fits.join hnew hboot rfl
  · intro i u hi hu
    obtain ⟨v, hv, -⟩ := hs.running_lt (hnew ▸ hi)
    rcases getElem?_concat_cases hu with hu | ⟨rfl, -⟩
    · exact hs.running i u (hnew ▸ hi) hu
    · exact absurd (List.getElem?_eq_some_iff.mp hv).1 (Nat.lt_irrefl _)
  · intro i hi
    rw [List.length_append] at hi
    exact hs.fresh i (by omega)
  · intro i u hu hi
    rcases getElem?_concat_cases hu with hu | ⟨rfl, rfl⟩
    · obtain ⟨c, hdue, hpark⟩ := hs.parked i u hu (hnew ▸ hi)
      exact ⟨c, hdue, hpark.congr (hblock u (List.mem_of_getElem? hu)) (fun _ hw => hw)⟩
    · have hnever : m.saved m.threads.length = none := hs.fresh _ le_rfl
      exact ⟨_, ⟨fun d hd => (by simp [hnever] at hd), fun _ => rfl⟩, hparked⟩

theorem Sound.createThread {m m' : Machine} (hs : Sound m)
    (hg : Confined m (.createNewThread k s stackbot))
    (h : m.createNewThread k s stackbot = some m') : Sound m' := by
  unfold Machine.createNewThread at h
  split at h
  · cases h
  rename_i sched hsched
  have hcensus := hs.census.createThread hsched
  obtain rfl | ⟨p, hp, -, rfl⟩ := create_thread_cases hsched
  · rw [if_pos rfl] at h
    cases h
    exact hs
  rw [if_neg (by simp)] at h
  have hk : k < m.paged.length := by
    rw [hs.paged]
    exact (List.getElem?_eq_some_iff.mp (Option.join_eq_some_iff.mp hp)).1
  obtain ⟨hheld, hsp, hmem⟩ :=
    initial_stack m.core.stack.mem (Machine.clearStack m.core.stack.mem stackbot) s
      ((stackbot + 1000) / 4 * 4) stackbot ((stackbot + 1000) / 4 * 4) (fun a ha => if_neg ha)
      (by omega) (by simp only [threadStackSize]; omega)
  cases h
  refine hs.join (m.paged.get ⟨k, hk⟩) hcensus rfl rfl (List.length_set) hg hmem
    ⟨hheld _ _ rfl rfl, ?_, ?_, ?_, ?_⟩
  · simp only [entered, hsp, ↓reduceIte]
    omega
  · simp only [base, hsp, ↓reduceIte]
    omega
  · simp only [base, hsp, threadStackSize, ↓reduceIte]
    omega
  · exact List.getElem?_eq_getElem hk

/-- The scheduler after `sys_fork`: a process with one thread, which
`scheduler_add_process` then is asked to place. -/
theorem fork_sched {s : State} (h : (s.createNewProcessNothread.createNewThread
      s.procs.length).bind (fun t => t.schedulerAddProcess s.procs.length) = some sched) :
    ∃ mid, s.createNewProcessNothread.createNewThread s.procs.length = some mid ∧
      mid.threads = s.threads + 1 ∧ mid.newThread = s.newThread ∧
      mid.procs.length = s.procs.length + 1 ∧
      mid.schedulerAddProcess s.procs.length = some sched := by
  obtain ⟨mid, hmid, hadd⟩ := Option.bind_eq_some_iff.mp h
  refine ⟨mid, hmid, ?_⟩
  have hproc : s.createNewProcessNothread.proc s.procs.length =
      some ⟨0, 0, .empty maxThreads Nat, s.lastpid⟩ := by
    simp [State.proc, State.createNewProcessNothread]
  obtain rfl | ⟨p, -, -, rfl⟩ := create_thread_cases hmid
  · simp only [State.createNewThread, hproc] at hmid
    have := congrArg State.threads (Option.some.inj hmid)
    simp at this
  · exact ⟨rfl, rfl, by simp [State.setProc, State.createNewProcessNothread], hadd⟩

theorem Sound.sysFork {m m' : Machine} (hs : Sound m) (hg : Confined m (.sysFork pd eip rstack))
    (h : m.sysFork pd eip rstack = some m') : Sound m' := by
  obtain ⟨hpos, hunused, hparent⟩ := hg
  unfold Machine.sysFork at h
  split at h
  · cases h
  rename_i parent hp
  obtain ⟨hlow, hhigh⟩ := hparent parent hp
  dsimp only at h
  split at h
  · cases h
  rename_i sched hsched
  obtain ⟨mid, hmid, hcount, hnew, hlen, hadd⟩ := fork_sched hsched
  cases h
  have hprocess := hs.process pd
  obtain ⟨hheld, hsp, hmem⟩ :=
    initial_stack m.core.stack.mem (Machine.copyStack m.core.stack.mem parent.stackbot rstack) eip
      0 rstack (rstack + m.core.stack.sp - parent.stackbot) (fun a ha => if_neg ha)
      (by omega) (by omega)
  generalize Stack.pushAll _ (initialFrame eip 0) = stack at hheld hsp hmem ⊢
  have hbase : ∀ sp k, base ⟨eip, sp, 0, 0, rstack, k⟩ = rstack :=
    fun _ _ => if_neg (by exact hpos.ne')
  have hjoin := hprocess.join (t := ⟨eip, stack.sp, 0, 0, rstack, m.sched.procs.length⟩) pd
    (hprocess.census.createThread hmid) hnew hcount (by simpa [State.createNewProcessNothread])
    (by rw [hbase]; exact hunused)
    (by simpa only [InBlock, hbase] using hmem)
    ⟨hheld _ _ rfl rfl, ?_, ?_, ?_, ?_⟩
  · exact hjoin.add hadd
  · exact if_neg (by exact hpos.ne')
  · rw [hbase]
    simp only [hsp]
    omega
  · rw [hbase]
    simp only [hsp]
    omega
  · rw [← hs.paged]
    simp [entered]

/-- The machine that enters `switch_to_thread`. -/
def leaving (m : Machine) (sched : State) (scratch : General) : Machine :=
  { m with sched := sched, core := m.core.throughScheduler scratch, saved := m.record }

/-- After the first half of `switch_to_thread` every thread is parked, the one
that ran last in the context it had when the switch began. -/
structure AllParked (m out : Machine) : Prop where
  length : out.threads.length = m.threads.length
  base : ∀ (i : Nat) (t : Thread), out.threads[i]? = some t →
    ∃ u, m.threads[i]? = some u ∧ base t = base u
  saved : out.saved = m.record
  replaced : out.replaced = m.replaced
  parked : ∀ (i : Nat) (t : Thread), out.threads[i]? = some t →
    ∃ c, Due out i t c ∧ Parked out.core.stack.mem out.paged t c

/-- The first switch, which has no old thread. -/
theorem Sound.first_out {m : Machine} (hs : Sound m) (hnone : m.sched.newThread = none)
    (hold : sched.oldThread = none) (scratch : General) :
    AllParked m (leaving m sched scratch).saveOld := by
  have hfits := hs.fits
  simp only [Fits, hnone] at hfits
  obtain ⟨-, -, -, hsame⟩ := through_scheduler m.core scratch hfits.1
  have hout : (leaving m sched scratch).saveOld = leaving m sched scratch := by
    simp [Machine.saveOld, leaving, hold]
  rw [hout]
  refine ⟨rfl, fun i t ht => ⟨t, ht, rfl⟩, rfl, rfl, ?_⟩
  intro i t ht
  obtain ⟨c, hdue, hparked⟩ := hs.parked i t ht (by simp [hnone])
  have hsaved : (leaving m sched scratch).saved = m.saved := by
    simp [leaving, Machine.record, hnone]
  have hnow : Due (leaving m sched scratch) i t c := by
    unfold Due
    rw [hsaved]
    exact hdue
  refine ⟨c, hnow, hparked.congr ?_ (fun _ hw => hw)⟩
  intro a ha
  refine hsame a ?_
  have := hfits.2 t (List.mem_of_getElem? ht)
  simp only [InBlock] at ha
  omega

/-- The context that is saved on the stack of the running thread is the one it
has, under the directory of its process. -/
theorem Sound.saved_parked {m : Machine} (hs : Sound m) (hrun : m.sched.newThread = some o)
    (hu : m.threads[o]? = some u) (hw : m.paged[u.paged]? = some w) (scratch : General) :
    Parked (m.core.throughScheduler scratch).saveContext.stack.mem m.paged
      { u with stack := (m.core.throughScheduler scratch).saveContext.stack.sp }
      (under m.context w) := by
  obtain ⟨v, hv, hlow, hhigh⟩ := hs.running_lt hrun
  cases hu.symm.trans hv
  obtain ⟨hsp, hheld, -⟩ := save_context m.core scratch (by omega)
  refine ⟨hsp ▸ hheld, ?_, ?_, ?_, hw⟩
  · simp only [under, Machine.context, hsp]
    omega
  · simp only [hsp]
    exact Nat.le_sub_of_add_le hlow
  · simp only [hsp]
    exact (Nat.sub_add_cancel (by omega)).trans_le hhigh

/-- A switch away from a running thread. -/
theorem Sound.switch_out {m : Machine} (hs : Sound m) (hrun : m.sched.newThread = some o)
    (hold : sched.oldThread = some o) (scratch : General) :
    AllParked m (leaving m sched scratch).saveOld := by
  obtain ⟨u, hu, hlow, hhigh⟩ := hs.running_lt hrun
  obtain ⟨-, -, hsame⟩ := save_context m.core scratch (by omega)
  let core := (m.core.throughScheduler scratch).saveContext
  let out : Machine := { leaving m sched scratch with
    core := core.setGeneral { core.regs.general with eax := pointer core.stack.sp }
    threads := m.threads.modify o (fun t => { t with stack := core.stack.sp }) }
  have hout : (leaving m sched scratch).saveOld = out := by
    simp only [Machine.saveOld, leaving, hold]
    rfl
  have hsaved : out.saved = Function.update m.saved o (some m.context) := by
    simp [out, leaving, Machine.record, hrun]
  have hcases (i : Nat) (t : Thread) (ht : out.threads[i]? = some t) :
      ∃ v, m.threads[i]? = some v ∧
        t = if o = i then { v with stack := core.stack.sp } else v := by
    rw [List.getElem?_modify] at ht
    obtain ⟨v, hv, rfl⟩ := Option.map_eq_some_iff.mp ht
    exact ⟨v, hv, rfl⟩
  rw [hout]
  refine ⟨List.length_modify _ _ _, ?_, ?_, rfl, ?_⟩
  · intro i t ht
    obtain ⟨v, hv, rfl⟩ := hcases i t ht
    exact ⟨v, hv, by split <;> rfl⟩
  · simp [hsaved, Machine.record, hrun]
  · intro i t ht
    obtain ⟨v, hv, rfl⟩ := hcases i t ht
    by_cases hi : o = i
    · subst hi
      cases hu.symm.trans hv
      rw [if_pos rfl]
      obtain ⟨w, hw, hsame⟩ := hs.running o u hrun hu
      refine ⟨under m.context w, ⟨?_, ?_⟩, hs.saved_parked hrun hu hw scratch⟩
      · intro d hd
        rw [hsaved, Function.update_self] at hd
        cases hd
        refine ⟨rfl, fun hr => ?_⟩
        rw [← hsame hr]
        rfl
      · intro hd
        simp [hsaved] at hd
    · rw [if_neg hi]
      obtain ⟨c, hdue, hparked⟩ := hs.parked i v hv (by simp [hrun, hi])
      have hkept : out.saved i = m.saved i := by
        rw [hsaved, Function.update_of_ne (Ne.symm hi)]
      refine ⟨c, ?_, hparked.congr ?_ (fun _ hw => hw)⟩
      · unfold Due
        rw [hkept]
        exact hdue
      · intro a ha
        refine hsame a ?_
        have := hs.apart o i u v hu hv hi
        simp only [InBlock] at ha
        omega

theorem Sound.out {m : Machine} (hs : Sound m) (h : m.sched.schedulerSwitch = some (sel, sched))
    (scratch : General) : AllParked m (leaving m sched scratch).saveOld := by
  obtain ⟨-, hold, -⟩ := switch_cases h
  cases hrun : m.sched.newThread with
  | none => exact hs.first_out hrun (hold.trans hrun) scratch
  | some o => exact hs.switch_out hrun (hold.trans hrun) scratch

@[simp] theorem save_old_sched (m : Machine) : m.saveOld.sched = m.sched := by
  unfold Machine.saveOld
  split <;> rfl

@[simp] theorem save_old_paged (m : Machine) : m.saveOld.paged = m.paged := by
  unfold Machine.saveOld
  split <;> rfl

/-- The second half of `switch_to_thread` gives a parked thread its context. -/
theorem load_new {m : Machine} (hnew : m.sched.newThread = some i)
    (ht : m.threads[i]? = some t) (h : Parked m.core.stack.mem m.paged t c) :
    m.loadNew = some { m with
      core := ⟨c.regs, ⟨m.core.stack.mem, c.esp⟩⟩
      replaced := Function.update m.replaced i false } := by
  simp only [Machine.loadNew, hnew, ht, h.cr3, load_context h.held, h.esp]

/-- Everything a switch does, from a sound machine: the selected thread gets the
context that is due to it. -/
theorem Sound.switch_cases {m m' : Machine} (hs : Sound m)
    (h : m.schedulerSwitch scratch = some m') :
    ∃ sel sched t c, m.sched.schedulerSwitch = some (sel, sched) ∧
      (leaving m sched scratch).saveOld.threads[sel.thread]? = some t ∧
      Due (leaving m sched scratch).saveOld sel.thread t c ∧
      Parked (leaving m sched scratch).saveOld.core.stack.mem m.paged t c ∧
      m' = { (leaving m sched scratch).saveOld with
        core := ⟨c.regs, ⟨(leaving m sched scratch).saveOld.core.stack.mem, c.esp⟩⟩
        replaced := Function.update m.replaced sel.thread false } := by
  unfold Machine.schedulerSwitch at h
  split at h
  · cases h
  rename_i sel sched hsw
  have hout := hs.out hsw scratch
  obtain ⟨-, -, hnew, -⟩ := RoundRobin.switch_cases hsw
  have hlt : sel.thread < (leaving m sched scratch).saveOld.threads.length := by
    rw [hout.length, hs.counted]
    exact (hs.census.selected hsw).1
  obtain ⟨c, hdue, hparked⟩ := hout.parked sel.thread _ (List.getElem?_eq_getElem hlt)
  have hload := load_new (by simpa [leaving] using hnew) (List.getElem?_eq_getElem hlt) hparked
  refine ⟨sel, sched, _, c, hsw, List.getElem?_eq_getElem hlt, hdue, ?_, ?_⟩
  · simpa [leaving] using hparked
  · rw [hout.replaced] at hload
    exact Option.some.inj (h.symm.trans hload)

theorem Sound.switch {m m' : Machine} (hs : Sound m) (h : m.schedulerSwitch scratch = some m') :
    Sound m' := by
  obtain ⟨sel, sched, t, c, hsw, ht, -, hparked, rfl⟩ := hs.switch_cases h
  have hout := hs.out hsw scratch
  obtain ⟨-, -, hnew, -, hthreads, hprocs⟩ := RoundRobin.switch_cases hsw
  have hnow : (leaving m sched scratch).saveOld.sched.newThread = some sel.thread := by
    simpa [leaving] using hnew
  refine ⟨?_, ?_, ?_, ?_, ?_, ?_, ?_, ?_⟩
  · simpa [leaving] using hs.census.switch hsw
  · have hsched : (leaving m sched scratch).saveOld.sched.threads = m.sched.threads := by
      simpa [leaving] using hthreads
    exact (hout.length.trans hs.counted).trans hsched.symm
  · simpa [leaving, hprocs] using hs.paged
  · intro i j u v hu hv hij
    obtain ⟨u', hu', hub⟩ := hout.base i u hu
    obtain ⟨v', hv', hvb⟩ := hout.base j v hv
    rw [hub, hvb]
    exact hs.apart i j u' v' hu' hv' hij
  · simp only [Fits, hnow]
    refine ⟨t, ht, ?_⟩
    have := hparked.low
    have := hparked.high
    rw [hparked.esp]
    omega
  · intro i u hi hu
    cases hnow.symm.trans hi
    cases ht.symm.trans hu
    exact ⟨c.regs.cr3, by simpa [leaving] using hparked.cr3, fun _ => rfl⟩
  · intro i hi
    have hle : m.threads.length ≤ i := hout.length ▸ hi
    refine (congrFun hout.saved i).trans ?_
    cases ho : m.sched.newThread with
    | none => simpa only [Machine.record, ho] using hs.fresh i hle
    | some o =>
      obtain ⟨u, hu, -⟩ := hs.running_lt ho
      have hne : i ≠ o := by
        have := (List.getElem?_eq_some_iff.mp hu).1
        omega
      simpa only [Machine.record, ho, Function.update_of_ne hne] using hs.fresh i hle
  · intro i u hu hi
    obtain ⟨d, hdue, hpark⟩ := hout.parked i u hu
    have hne : i ≠ sel.thread := fun h => hi (h ▸ hnow)
    refine ⟨d, ⟨?_, hdue.2⟩, hpark⟩
    intro e he
    refine ⟨(hdue.1 e he).1, fun hr => (hdue.1 e he).2 ?_⟩
    rw [hout.replaced]
    exact (Function.update_of_ne hne false m.replaced).symm.trans hr

/-- At a switch the selected thread gets the directory of its process, and
continues exactly as it was switched out; only the directory is another one if it
has been replaced since the thread was last given one. A thread that has never run
begins as `create_new_thread` or `sys_fork` prepared it. -/
def Resumes (m : Machine) (op : Switch.Op) : Prop :=
  ∀ scratch m', op = .schedulerSwitch scratch → m.step op = some m' →
    ∃ i t, m'.sched.newThread = some i ∧ m'.threads[i]? = some t ∧
      m'.paged[t.paged]? = some m'.core.regs.cr3 ∧
      (∀ c, m'.saved i = some c → m'.context = under c m'.core.regs.cr3 ∧
        (m.replaced i = false → m'.context = c)) ∧
      (m'.saved i = none → m'.context = entered t m'.core.regs.cr3)

theorem Sound.resumes {m : Machine} (hs : Sound m) (op : Switch.Op) : Resumes m op := by
  rintro scratch m' rfl h
  obtain ⟨sel, sched, t, c, hsw, ht, hdue, hparked, rfl⟩ := hs.switch_cases h
  obtain ⟨-, -, hnew, -⟩ := RoundRobin.switch_cases hsw
  have hout := hs.out hsw scratch
  refine ⟨sel.thread, t, by simpa [leaving] using hnew, ht, ?_, ?_, hdue.2⟩
  · simpa [leaving] using hparked.cr3
  · intro d hd
    refine ⟨(hdue.1 d hd).1, fun hr => (hdue.1 d hd).2 ?_⟩
    rw [hout.replaced]
    exact hr

theorem Sound.step {m m' : Machine} (hs : Sound m) (hg : Confined m op)
    (h : m.step op = some m') : Sound m' := by
  cases op with
  | createNewProcessNothread =>
    cases h
    exact hs.process m.core.regs.cr3
  | createNewThread k s stackbot => exact hs.createThread hg h
  | schedulerAddProcess k =>
    obtain ⟨sched, hadd, rfl⟩ := Option.map_eq_some_iff.mp h
    exact hs.add hadd
  | elfStart pd => exact hs.elfStart h
  | sysFork pd eip rstack => exact hs.sysFork hg h
  | compute regs esp stores =>
    cases h
    exact hs.compute hg
  | schedulerSwitch scratch => exact hs.switch h

/-- In every run in which the threads keep to their own stacks, every switch
gives the selected thread the registers, the stack pointer and the return frame
it had when it was last switched out, or, the first time, those of its initial
frame, and the directory of its process, which is the one it had unless
`elf_start` has replaced it. -/
theorem switch_resumes (core : Core) (hb : 14 ≤ core.stack.sp) (as : List Switch.Op)
    (hg : Guarded Machine.step Confined (.boot core) as) :
    Guarded Machine.step Resumes (.boot core) as :=
  Guarded.imp (boot_sound core hb) (fun _ _ _ hs hc h => hs.step hc h)
    (fun _ op hs _ => hs.resumes op) hg

/-- The processor at boot, with the boot stack below word 100. -/
def bootCore : Core := ⟨⟨⟨0, 0, 0, 0, 0, 0, 0⟩, 0, 0, 0, 0, 0, 0, 0, 0x1000⟩, ⟨fun _ => 0, 100⟩⟩

/-- One thread is made and entered. -/
def started : List Switch.Op :=
  [.createNewProcessNothread, .createNewThread 0 0x1000 200, .schedulerAddProcess 0,
    .schedulerSwitch ⟨1, 2, 3, 4, 5, 6, 7⟩]

/-- The thread forks, the child runs, and the parent runs again. -/
def forkRun : List Switch.Op :=
  started ++ [.sysFork 0x5000 0x2000 2000, .schedulerSwitch ⟨7, 6, 5, 4, 3, 2, 1⟩,
    .schedulerSwitch ⟨7, 6, 5, 4, 3, 2, 1⟩]

theorem fork_confined : Guarded Machine.step Confined (.boot bootCore) forkRun := by
  refine .cons rfl trivial <| .cons rfl (by decide : Unused _ _) <| .cons rfl trivial <|
    .cons rfl trivial <| .cons rfl ⟨by decide, by decide, by decide⟩ <|
    .cons rfl trivial <| .single trivial

theorem switch_resumes_fork :
    (run Machine.step (.boot bootCore) (forkRun.take 6)).map (·.core.regs.cr3) = some 0x5000 ∧
      (run Machine.step (.boot bootCore) forkRun).map (·.core.regs.cr3) = some 0x1000 ∧
      Guarded Machine.step Resumes (.boot bootCore) forkRun :=
  ⟨rfl, rfl, switch_resumes bootCore (by decide) forkRun fork_confined⟩

/-- A thread that has run before continues exactly as it was switched out, its
directory included. -/
def Continues (m : Machine) (op : Switch.Op) : Prop :=
  ∀ scratch m', op = .schedulerSwitch scratch → m.step op = some m' →
    ∀ i c, m'.sched.newThread = some i → m'.saved i = some c → m'.context = c

/-- The thread is in `elf_start`, which schedules away to have cr3 updated. -/
def execRun : List Switch.Op :=
  started ++ [.elfStart 0x5000, .schedulerSwitch ⟨7, 6, 5, 4, 3, 2, 1⟩]

/-- The switch of `elf_start` resumes the thread under another directory. -/
theorem elf_start_changes_directory :
    ¬ ∀ as, Guarded Machine.step Confined (.boot bootCore) as →
      Guarded Machine.step Continues (.boot bootCore) as := by
  intro h
  have hconfined : Guarded Machine.step Confined (.boot bootCore) execRun := by
    refine .cons rfl trivial <| .cons rfl (by decide : Unused _ _) <| .cons rfl trivial <|
      .cons rfl trivial <| .cons rfl trivial <| .single trivial
  have hrun := h execRun hconfined
  have hlast := ((((hrun.tail rfl).tail rfl).tail rfl).tail rfl).tail rfl
  have hsame := hlast.1 _ _ rfl rfl 0 _ rfl rfl
  have hcr3 : (0x5000 : Word) = 0x1000 := congrArg (·.regs.cr3) hsame
  exact absurd hcr3 (by decide)

end Levos.Proofs.Switch
