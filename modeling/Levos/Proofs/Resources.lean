import Levos.Resources
import Levos.Proofs.Heap
import Levos.Proofs.Holders

namespace Levos.Proofs.Resources
open Levos.Library Levos.Proofs.Kernel Levos.Proofs.Holders

/-- The block is a part of the process, which points to it, or of none. A forked
process has no pointer to its stack. -/
def PointsTo (m : Home) (h : Nat) (b : Block) : Prop :=
  match b.use with
  | .struct i => i = h ∧ b.base = m.self
  | .name i => i = h ∧ b.base = m.namebuf
  | .stack i => i = h ∧ (m.origin = .created → b.base = m.stackbot)
  | .thread _ | .plain _ => True

theorem PointsTo.part (h : PointsTo m i b) (hp : b.use.partOf = some j) : j = i := by
  unfold PointsTo at h
  cases hu : b.use <;> simp [hu, Use.partOf] at h hp
  all_goals exact hp ▸ h.1

/-- Every live part has its process, except those still pending, and nothing is
live that was recorded for a process that is gone. -/
structure Accounted (procs : List (Option Process)) (homes : List Home) (blocks : List Block)
    (serial : Nat) (pending : List Block) : Prop where
  parts : ∀ b ∈ blocks, b ∉ pending → ∀ h, b.use.partOf = some h →
    ∃ p m, procAt procs h = some p ∧ homes[h]? = some m ∧ PointsTo m h b
  records : ∀ (h : Nat) (m : Home), homes[h]? = some m → ∀ b ∈ m.records, b ∈ blocks →
    ∃ p, procAt procs h = some p
  past : ∀ (h : Nat) (m : Home), homes[h]? = some m → ∀ b ∈ m.records, b.serial < serial

/-- The parts of processes are accounted for, up to some blocks. -/
def Settled (s : Heap) (pending : List Block) : Prop :=
  Accounted s.kernel.procs s.homes s.blocks s.serial pending

variable {procs procs' : List (Option Process)} {homes : List Home} {blocks : List Block}
  {serial : Nat} {pending : List Block} {s s' t : Heap}

theorem Accounted.mono (h : Accounted procs homes blocks serial pending)
    (hp : ∀ b ∈ pending, b ∈ pending') : Accounted procs homes blocks serial pending' :=
  ⟨fun b hb hn => h.parts b hb (fun hin => hn (hp b hin)), h.records, h.past⟩

/-- Blocks that are no part of a process need not be accounted for. -/
theorem Accounted.settle (h : Accounted procs homes blocks serial pending)
    (hp : ∀ b ∈ pending, b.use.partOf = none) : Accounted procs homes blocks serial [] := by
  refine ⟨?_, h.records, h.past⟩
  intro b hb _ i hi
  refine h.parts b hb ?_ i hi
  intro hin
  rw [hp b hin] at hi
  cases hi

/-- Structs that stay keep their blocks accounted for. -/
theorem Accounted.evolve (h : Accounted procs homes blocks serial pending)
    (hp : ∀ i p, procAt procs i = some p → ∃ p', procAt procs' i = some p') :
    Accounted procs' homes blocks serial pending := by
  refine ⟨?_, ?_, h.past⟩
  · intro b hb hn i hi
    obtain ⟨p, m, hproc, hm, hpoint⟩ := h.parts b hb hn i hi
    obtain ⟨p', hp'⟩ := hp i p hproc
    exact ⟨p', m, hp', hm, hpoint⟩
  · intro i m hm b hb hin
    obtain ⟨p, hproc⟩ := h.records i m hm b hb hin
    exact hp i p hproc

theorem Accounted.push_block (h : Accounted procs homes blocks serial pending) (base : Nat)
    (use : Use) : Accounted procs homes (⟨base, use, serial⟩ :: blocks) (serial + 1)
      (⟨base, use, serial⟩ :: pending) := by
  refine ⟨?_, ?_, fun i m hm b hb => Nat.lt_succ_of_lt (h.past i m hm b hb)⟩
  · intro b hb hn
    rcases List.mem_cons.mp hb with rfl | hb
    · exact absurd List.mem_cons_self hn
    · exact h.parts b hb (fun hin => hn (List.mem_cons_of_mem _ hin))
  · intro i m hm b hb hin
    rcases List.mem_cons.mp hin with rfl | hin
    · exact absurd (h.past i m hm _ hb) (Nat.lt_irrefl _)
    · exact h.records i m hm b hb hin

theorem set_alive {procs : List (Option Process)} (hp : procAt procs i = some p) (p' : Process)
    (j : Nat) (q : Process) (hq : procAt procs j = some q) :
    ∃ q', procAt (procs.set i (some p')) j = some q' := by
  rw [proc_at_set _ _ _ _ (proc_at_lt hp)]
  split
  · exact ⟨p', rfl⟩
  · exact ⟨q, hq⟩

/-- Recording a block for a process that is there. -/
theorem Accounted.record {b : Block} (h : Accounted procs homes blocks serial pending)
    (hp : procAt procs i = some p) (hb : b.serial < serial) :
    Accounted (procs.set i (some p'))
      (homes.modify i (fun m => { m with records := m.records ++ [b] })) blocks serial pending := by
  have hkept := h.evolve (set_alive hp p')
  refine ⟨?_, ?_, ?_⟩
  · intro c hc hn j hj
    obtain ⟨q, m, hq, hm, hpoint⟩ := hkept.parts c hc hn j hj
    refine ⟨q, _, hq, by rw [List.getElem?_modify, hm]; rfl, ?_⟩
    dsimp only
    split <;> exact hpoint
  · intro j m' hm' c hc hin
    obtain ⟨m, hm, rfl⟩ := Heap.modify_lookup hm'
    by_cases hij : j = i
    · subst j
      exact set_alive hp p' i p hp
    · rw [if_neg hij] at hc
      exact hkept.records j m hm c hc hin
  · intro j m' hm' c hc
    obtain ⟨m, hm, rfl⟩ := Heap.modify_lookup hm'
    by_cases hij : j = i
    · rw [if_pos hij] at hc
      rcases List.mem_append.mp hc with hc | hc
      · exact h.past j m hm c hc
      · rw [List.mem_singleton.mp hc]
        exact hb
    · rw [if_neg hij] at hc
      exact h.past j m hm c hc

/-- A process comes to be, and what was pending are its parts. -/
theorem Accounted.push_process (h : Accounted procs homes blocks serial pending)
    (hal : homes.length = procs.length) (hr : m.records = [])
    (hpend : ∀ b ∈ pending, PointsTo m procs.length b) :
    Accounted (procs ++ [some p]) (homes ++ [m]) blocks serial [] := by
  have hlast : (homes ++ [m])[procs.length]? = some m := by
    rw [← hal, List.getElem?_concat_length]
  have hnew : procAt (procs ++ [some p]) procs.length = some p := by
    rw [proc_at_push, if_pos rfl]
  have hold : ∀ j q, procAt procs j = some q → procAt (procs ++ [some p]) j = some q := by
    intro j q hq
    rw [proc_at_push, if_neg (Nat.ne_of_lt (proc_at_lt hq))]
    exact hq
  have hhome : ∀ j m', (homes ++ [m])[j]? = some m' → (j = procs.length ∧ m' = m) ∨
      homes[j]? = some m' := by
    intro j m' hm'
    by_cases hj : j < homes.length
    · exact .inr (by rwa [List.getElem?_append_left hj] at hm')
    · have hlt : j < (homes ++ [m]).length := slot_lt hm'
      rw [List.length_append, List.length_singleton] at hlt
      obtain rfl : j = procs.length := by omega
      rw [hlast] at hm'
      exact .inl ⟨rfl, (Option.some.inj hm').symm⟩
  refine ⟨?_, ?_, ?_⟩
  · intro b hb _ i hi
    by_cases hin : b ∈ pending
    · obtain rfl := (hpend b hin).part hi
      exact ⟨p, m, hnew, hlast, hpend b hin⟩
    · obtain ⟨q, m', hq, hm', hpoint⟩ := h.parts b hb hin i hi
      refine ⟨q, m', hold i q hq, ?_, hpoint⟩
      rw [List.getElem?_append_left (slot_lt hm'), hm']
  · intro j m' hm' b hb hin
    rcases hhome j m' hm' with ⟨rfl, rfl⟩ | hm'
    · exact ⟨p, hnew⟩
    · obtain ⟨q, hq⟩ := h.records j m' hm' b hb hin
      exact ⟨q, hold j q hq⟩
  · intro j m' hm' b hb
    rcases hhome j m' hm' with ⟨rfl, rfl⟩ | hm'
    · rw [hr] at hb
      cases hb
    · exact h.past j m' hm' b hb

/-- Freeing what was pending settles the account. -/
theorem Accounted.free (h : Accounted procs homes blocks serial pending) {addrs : List Nat}
    (hp : ∀ b ∈ pending, b ∈ pending' ∨ b.base ∈ addrs) :
    Accounted procs homes (blocks.filter (fun b => b.base ∉ addrs)) serial pending' := by
  refine ⟨?_, ?_, h.past⟩
  · intro b hb hn
    obtain ⟨hb, hout⟩ := List.mem_filter.mp hb
    refine h.parts b hb ?_
    intro hin
    rcases hp b hin with hin | hin
    · exact hn hin
    · simp [hin] at hout
  · intro i m hm b hb hin
    exact h.records i m hm b hb (List.mem_of_mem_filter hin)

/-- An exit frees the parts of the process and what was recorded for it. -/
theorem Accounted.exit (h : Accounted procs homes blocks serial []) (hp : procAt procs i = some p)
    (hm : homes[i]? = some m) (ho : m.origin = .created)
    (hr : p.recorded = m.records.map Block.base) :
    Accounted (procs.set i none) homes
      (blocks.filter (fun b => b.base ∉ Heap.killFrees m p)) serial [] := by
  have hother : ∀ j q, j ≠ i → procAt procs j = some q → procAt (procs.set i none) j = some q := by
    intro j q hne hq
    rw [proc_at_set _ _ _ _ (proc_at_lt hp), if_neg hne]
    exact hq
  refine ⟨?_, ?_, h.past⟩
  · intro b hb hn j hj
    obtain ⟨hb, hout⟩ := List.mem_filter.mp hb
    obtain ⟨q, m', hq, hm', hpoint⟩ := h.parts b hb hn j hj
    by_cases hji : j = i
    · subst j
      rw [hm] at hm'
      cases hm'
      have hin : b.base ∈ Heap.killFrees m p := by
        unfold PointsTo at hpoint
        unfold Use.partOf at hj
        cases hu : b.use <;> simp [hu, Heap.killFrees, ho] at hj hpoint ⊢ <;> simp [hpoint]
      simp [hin] at hout
    · exact ⟨q, m', hother j q hji hq, hm', hpoint⟩
  · intro j m' hm' b hb hin
    obtain ⟨hin, hout⟩ := List.mem_filter.mp hin
    obtain ⟨q, hq⟩ := h.records j m' hm' b hb hin
    by_cases hji : j = i
    · subst j
      rw [hm] at hm'
      cases hm'
      have hbase : b.base ∈ Heap.killFrees m p := by
        simp only [Heap.killFrees, hr]
        exact List.mem_append_left _ (List.mem_cons_of_mem _ (List.mem_cons_of_mem _
          (List.mem_map_of_mem hb)))
      simp [hbase] at hout
    · exact ⟨q, hother j q hji hq⟩

/-- The kernel as calls of `malloc` leave it. -/
structure Alike (k k' : Kernel) : Prop where
  phymem : k'.phymem = k.phymem
  current : k'.current = k.current
  procs : ∀ i p', procAt k'.procs i = some p' →
    ∃ p, procAt k.procs i = some p ∧ p'.execLen = p.execLen

theorem Alike.refl (k : Kernel) : Alike k k := ⟨rfl, rfl, fun _ p hp => ⟨p, hp, rfl⟩⟩

theorem Alike.trans {k k' k'' : Kernel} (h : Alike k k') (h' : Alike k' k'') : Alike k k'' := by
  refine ⟨h'.phymem.trans h.phymem, h'.current.trans h.current, ?_⟩
  intro i q hq
  obtain ⟨q', hq', he'⟩ := h'.procs i q hq
  obtain ⟨q'', hq'', he''⟩ := h.procs i q' hq'
  exact ⟨q'', hq'', he'.trans he''⟩

theorem Alike.get_process {k k' : Kernel} (h : Alike k k') (hc : k'.getProcess = some (i, p')) :
    ∃ p, k.getProcess = some (i, p) ∧ p'.execLen = p.execLen := by
  obtain ⟨hcur, hp'⟩ := get_process_proc hc
  obtain ⟨p, hp, he⟩ := h.procs i p' hp'
  refine ⟨p, ?_, he⟩
  rw [h.current] at hcur
  unfold Kernel.getProcess
  rw [hcur]
  exact Option.map_eq_some_iff.mpr ⟨p, hp, rfl⟩

theorem record_step {k : Kernel} (hc : k.getProcess = some (i, p))
    (hp : postAllocation p base = some p') :
    k.step (.postAllocation base) = some (k.setProc i p') := by
  simp only [Kernel.step, Kernel.effect, Kernel.recordAllocation, Effect.of, hc, hp]

theorem record_alike {k k' : Kernel} (hs : k.step (.postAllocation base) = some k') :
    Alike k k' := by
  cases step_cases hs with
  | same => exact .refl k
  | created _ hop => rcases hop with ⟨_, _, he⟩ | ⟨_, he⟩ <;> cases he
  | faulted hb => cases hb
  | exited hop => rcases hop with he | he <;> cases he
  | recorded hc hp =>
    obtain ⟨table, handles, rfl⟩ := post_allocation_shape hp
    exact ⟨rfl, rfl, proc_at_set_related (fun q' q => q'.execLen = q.execLen) (fun _ => rfl)
      (get_process_proc hc).2 rfl⟩

/-- A call of `malloc` leaves its block pending, and of the kernel changes the
table of allocations at most. -/
theorem malloc_settled {b? : Option Block} (h : Settled s pending) (he : Exact bytes s.kernel)
    (hm : s.malloc use o = some (t, b?)) :
    Settled t (b?.toList ++ pending) ∧ Exact bytes t.kernel ∧ Alike s.kernel t.kernel := by
  cases Heap.malloc_cases hm with
  | full => exact ⟨h, he, .refl _⟩
  | placed => exact ⟨Accounted.push_block h _ use, he, .refl _⟩
  | @recorded base _ _ _ _ hc hp =>
    have hstep := record_step hc hp
    have hfree : Holders.Guard s.kernel (.postAllocation base) := trivial
    have hpush := Accounted.push_block h base use
    exact ⟨hpush.record (get_process_proc hc).2 (Nat.lt_succ_self _), he.step hfree hstep,
      record_alike hstep⟩

theorem mallocs_settled {calls : List (Use × Option Placed)} {bs : List Block} {ok : Bool}
    (h : Settled s pending) (he : Exact bytes s.kernel)
    (hm : s.mallocs calls = some (t, bs, ok)) :
    Settled t (bs ++ pending) ∧ Exact bytes t.kernel ∧ Alike s.kernel t.kernel := by
  induction calls generalizing s bs pending with
  | nil =>
    cases hm
    exact ⟨h, he, .refl _⟩
  | cons call calls ih =>
    obtain ⟨use, o⟩ := call
    simp only [Heap.mallocs] at hm
    split at hm
    · cases hm
    · rename_i u hu
      cases hm
      exact malloc_settled h he hu
    · rename_i u b hu
      obtain ⟨hb, hkb, hab⟩ := malloc_settled h he hu
      obtain ⟨⟨v, cs, ok'⟩, hr, heq⟩ := Option.map_eq_some_iff.mp hm
      cases heq
      obtain ⟨hcs, hkcs, hacs⟩ := ih hb hkb hr
      refine ⟨hcs.mono ?_, hkcs, hab.trans hacs⟩
      intro c hc
      simp only [List.mem_append, List.mem_cons, Option.toList_some, List.not_mem_nil] at hc ⊢
      tauto

/-- The blocks are tidy and accounted for, and the frames are those the structs
hold. -/
structure Kept (bytes : Nat) (s : Heap) : Prop where
  tidy : Heap.Invariant s
  settled : Settled s []
  frames : Exact bytes s.kernel

theorem abandon_settled {calls : List (Use × Option Placed)} {bs : List Block} {ok : Bool}
    (h : Kept bytes s) (hm : s.mallocs calls = some (t, bs, ok)) :
    Settled (t.freeAll (bs.map Block.base)) [] ∧ Exact bytes t.kernel := by
  obtain ⟨hset, hex, _⟩ := mallocs_settled h.settled h.frames hm
  refine ⟨hset.free ?_, hex⟩
  intro b hb
  rw [List.append_nil] at hb
  exact .inr (List.mem_map_of_mem hb)

theorem create_kept (h : Kept bytes s)
    (hs : s.createNewProcess addr process name thread stack = some t) : Kept bytes t := by
  have htidy := Heap.create_invariant h.tidy hs
  unfold Heap.createNewProcess at hs
  simp only at hs
  split at hs
  · cases hs
  · rename_i u p n th st hm
    obtain ⟨hi, hl, _⟩ := Heap.mallocs_spec h.tidy hm
    obtain ⟨ha, hu1, hu2, hu3, hu4⟩ := Heap.created_uses h.tidy hm
    obtain ⟨hset, hex, _⟩ := mallocs_settled h.settled h.frames hm
    cases hs
    have hfree : Holders.Guard u.kernel (.createNewProcess addr none) := trivial
    refine ⟨htidy, ?_, hex.step hfree rfl⟩
    unfold Settled
    rw [Heap.created_procs u.kernel ha]
    refine hset.push_process hi.aligned rfl ?_
    intro b hb
    simp only [List.append_nil, List.mem_cons, List.not_mem_nil, or_false] at hb
    rcases hb with rfl | rfl | rfl | rfl <;> simp [PointsTo, *]
  · rename_i u bs ok _ hm
    obtain ⟨hset, hex⟩ := abandon_settled h hm
    cases hs
    refine ⟨htidy, ?_, ?_⟩
    · unfold Settled at hset ⊢
      split <;> exact hset
    · dsimp only
      split
      · exact hex
      · exact ⟨hex.arena, hex.sound, hex.held, hex.length⟩

theorem nothread_kept (h : Kept bytes s)
    (hs : s.createNewProcessNothread process name = some t) : Kept bytes t := by
  have htidy := Heap.nothread_invariant h.tidy hs
  unfold Heap.createNewProcessNothread at hs
  simp only at hs
  split at hs
  · cases hs
  · rename_i u p n hm
    obtain ⟨hi, hl, _, _, rest, huse, hok⟩ := Heap.mallocs_spec h.tidy hm
    rw [hok rfl] at huse
    simp only [List.append_nil, List.map_cons, List.map_nil, List.cons.injEq, and_true] at huse
    obtain ⟨hu1, hu2⟩ := huse
    obtain ⟨hset, hex, _⟩ := mallocs_settled h.settled h.frames hm
    cases hs
    have hfree : Holders.Guard u.kernel (.createNewProcessNothread none) := trivial
    refine ⟨htidy, hset.push_process hi.aligned rfl ?_, hex.step hfree rfl⟩
    intro b hb
    simp only [List.append_nil, List.mem_cons, List.not_mem_nil, or_false] at hb
    rcases hb with rfl | rfl
    · simp [PointsTo, ← hu1, hl]
    · simp [PointsTo, ← hu2, hl]
  · rename_i u bs ok _ hm
    obtain ⟨hset, hex⟩ := abandon_settled h hm
    cases hs
    exact ⟨htidy, hset, hex⟩

theorem fork_procs {k k' : Kernel} (hn : (k.effect (.sysFork f)).fault = false)
    (hs : k.step (.sysFork f) = some k') :
    ∃ p, k'.procs = k.procs ++ [some p] ∧ p.allocs = 0 ∧
      p.allocationTable.length = maxAllocationsPerProcess := by
  cases step_cases hs with
  | same _ hfork => exact absurd rfl (hfork f)
  | created _ hop => rcases hop with ⟨_, _, he⟩ | ⟨_, he⟩ <;> cases he
  | faulted _ hf => exact absurd (hn.symm.trans hf) (by decide)
  | exited hop => rcases hop with he | he <;> cases he
  | forkedFull | forked => exact ⟨_, rfl, rfl, List.length_replicate⟩

theorem fork_kept (h : Kept bytes s)
    (hg : ∀ i p, s.kernel.getProcess = some (i, p) →
      Phymem.NextPageFree s.kernel.phymem.phyBitmap (pagesFor p.execLen))
    (hs : Resources.sysFork s f process name pd pt buf thread stack = some t) :
    Kept bytes t := by
  unfold Resources.sysFork at hs
  simp only at hs
  split at hs
  · rename_i u p n d e b hm
    split at hs
    · rename_i v th st hm'
      split at hs
      · cases hs
      rename_i hn
      have hn : (v.kernel.effect (.sysFork f)).fault = false := by simpa using hn
      obtain ⟨k, hk, rfl⟩ := Option.map_eq_some_iff.mp hs
      obtain ⟨hi, hl, hparts⟩ := Heap.fork_parts hm hm' h.tidy
      obtain ⟨hu1, hu2, hu3, hu4, _⟩ := Heap.fork_first_uses hm h.tidy
      obtain ⟨hu6, hu7⟩ := Heap.fork_second_uses hm hm' h.tidy
      obtain ⟨hset, hex, halike⟩ := mallocs_settled h.settled h.frames hm
      have hfreed : Settled (u.freeAll [b.base]) [p, n, d, e] := by
        refine hset.free ?_
        intro c hc
        simp only [List.append_nil, List.mem_cons, List.not_mem_nil, or_false] at hc ⊢
        rcases hc with hc | hc | hc | hc | rfl
        all_goals simp [*]
      obtain ⟨hset', hex', halike'⟩ := mallocs_settled hfreed hex hm'
      have hall := halike.trans halike'
      have hguard : Holders.Guard v.kernel (.sysFork f) := by
        refine ⟨hn, ?_⟩
        intro i q hq
        obtain ⟨q', hq', he⟩ := hall.get_process hq
        rw [hall.phymem, he]
        exact hg i q' hq'
      obtain ⟨q, hq, ha, ht⟩ := fork_procs hn hk
      refine ⟨?_, ?_, hex'.step hguard hk⟩
      · unfold Heap.Invariant
        rw [hq]
        exact hi.push_process hparts rfl ha ht
      · unfold Settled
        rw [hq]
        refine hset'.push_process hi.aligned rfl ?_
        intro c hc
        simp only [List.cons_append, List.nil_append, List.mem_cons, List.not_mem_nil,
          or_false] at hc
        rcases hc with rfl | rfl | rfl | rfl | rfl | rfl <;> simp [PointsTo, *]
    · cases hs
  · cases hs

theorem elf_kept (h : Kept bytes s)
    (hg : img.eType = 2 → Holders.Guard s.kernel (.elfStart img rest))
    (hs : Resources.elfStart s img rest pd pt = some t) : Kept bytes t := by
  unfold Resources.elfStart at hs
  split at hs
  · cases hs
    exact h
  · rename_i htype
    split at hs
    · cases hs
    split at hs
    · cases hs
    · rename_i k hk
      have hkept : Kept bytes { s with kernel := k } := by
        have hex := h.frames.step (hg (not_not.mp htype)) hk
        cases step_cases hk with
        | same => exact h
        | created _ hop => rcases hop with ⟨_, _, he⟩ | ⟨_, he⟩ <;> cases he
        | exited hop => rcases hop with he | he <;> cases he
        | faulted hb hn =>
          exact absurd ((hg (not_not.mp htype)).smooth hb |>.symm.trans hn) (by decide)
        | loaded hc | replaced hc =>
          have hp := (get_process_proc hc).2
          exact ⟨Heap.Tidy.evolve h.tidy List.length_set (Heap.set_keeps hp rfl rfl rfl),
            Accounted.evolve h.settled (set_alive hp _), hex⟩
      split at hs
      · rename_i u b c hm
        cases hs
        obtain ⟨hi, _, _, _, rest', huse, hok⟩ := Heap.mallocs_spec hkept.tidy hm
        rw [hok rfl] at huse
        simp only [List.append_nil, List.map_cons, List.map_nil, List.cons.injEq, and_true] at huse
        obtain ⟨hset, hex, _⟩ := mallocs_settled hkept.settled hkept.frames hm
        refine ⟨hi, hset.settle ?_, hex⟩
        intro a ha
        simp only [List.append_nil, List.mem_cons, List.not_mem_nil, or_false] at ha
        rcases ha with rfl | rfl
        · rw [← huse.1]
          rfl
        · rw [← huse.2]
          rfl
      · cases hs

theorem exit_procs {k k' : Kernel} (hc : k.getProcess = some (i, p))
    (hs : k.step .schedulerKillSelf = some k') : k'.procs = k.procs.set i none := by
  simp only [Kernel.step, Kernel.effect, Kernel.schedulerKillSelf, hc, Kernel.freeFrames] at hs
  obtain ⟨m, _, rfl⟩ := Option.map_eq_some_iff.mp hs
  rfl

theorem exit_kept {op : HeapOp} (h : Kept bytes s)
    (hg : Holders.Guard s.kernel .schedulerKillSelf) (hown : Heap.Guard s op)
    (hop : ∀ i p, s.kernel.getProcess = some (i, p) →
      op = .schedulerKillSelf ∨ op = .schedulerKillPid p.pid)
    (hs : Resources.schedulerKillSelf s = some t) : Kept bytes t := by
  unfold Resources.schedulerKillSelf at hs
  split at hs
  · cases hs
  · rename_i i p hc
    split at hs
    · rename_i m k hm hk
      cases hs
      have hp := (get_process_proc hc).2
      have hexit : Heap.Exits s op i p m := ⟨hc, hm, hop i p hc⟩
      refine ⟨?_, ?_, h.frames.step hg hk⟩
      · unfold Heap.Invariant
        rw [exit_procs hc hk]
        exact Heap.exit_tidy h.tidy hown hexit
      · unfold Settled
        rw [exit_procs hc hk]
        exact Accounted.exit h.settled hp hm (hown i p m hexit).1
          (h.tidy.recorded i p m hp hm).entries
    · cases hs

theorem kill_kept {k : Kernel} (h : Kept bytes s) (hc : s.kernel.getProcess = some (i, p))
    (hne : pid ≠ p.pid) (hg : Holders.Guard s.kernel (.schedulerKillPid pid))
    (hs : s.kernel.step (.schedulerKillPid pid) = some k) : Kept bytes { s with kernel := k } := by
  refine ⟨Heap.kill_invariant h.tidy hc hne hs, ?_, h.frames.step hg hs⟩
  simp only [Kernel.step, Kernel.effect, Kernel.schedulerKillPid, hc, if_neg hne, Effect.of,
    Option.some.injEq] at hs
  subst k
  unfold Settled
  simp only [mask_nothing _ ((hg i p hc).2 hne)]
  exact h.settled

theorem switch_kept {k : Kernel} {op : KernelOp} (h : Kept bytes s)
    (hop : (∃ i, op = .schedulerAddProcess i) ∨ op = .schedulerSwitch)
    (hs : s.kernel.step op = some k) : Kept bytes { s with kernel := k } := by
  have hg : Holders.Guard s.kernel op := by
    rcases hop with ⟨i, rfl⟩ | rfl <;> trivial
  refine ⟨Heap.kernel_step_invariant h.tidy hop hs, ?_, h.frames.step hg hs⟩
  unfold Settled
  rcases Heap.scheduling_procs hop hs with he | ⟨i, p, p', hp, he, _⟩
  · rw [he]
    exact h.settled
  · rw [he]
    exact Accounted.evolve h.settled (set_alive hp p')

theorem malloc_kept {b? : Option Block} (h : Kept bytes s)
    (hm : s.malloc (.plain i) o = some (t, b?)) : Kept bytes t := by
  obtain ⟨hi, _, _, huse⟩ := Heap.malloc_spec h.tidy hm
  obtain ⟨hset, hex, _⟩ := malloc_settled h.settled h.frames hm
  refine ⟨hi, hset.settle ?_, hex⟩
  intro b hb
  rw [List.append_nil, Option.mem_toList] at hb
  rw [(huse b hb).2]
  rfl

theorem free_kept (h : Kept bytes s) (hs : s.free a = some t) : Kept bytes t := by
  have htidy := Heap.free_invariant h.tidy hs
  unfold Heap.free at hs
  split at hs
  · split at hs
    · cases hs
      exact ⟨htidy, Accounted.free h.settled (by simp), h.frames⟩
    · cases hs
  · cases hs

/-- The conditions on frames, on page faults, on heap blocks and on kills together. -/
def Guard (s : Heap) : ResourceOp → Prop
  | .elfStart img rest _ _ => img.eType = 2 → Holders.Guard s.kernel (.elfStart img rest)
  | .sysFork f _ _ _ _ _ _ _ => Holders.Guard s.kernel (.sysFork f)
  | .schedulerKillSelf =>
    Holders.Guard s.kernel .schedulerKillSelf ∧ Heap.Guard s .schedulerKillSelf
  | .schedulerKillPid pid =>
    Holders.Guard s.kernel (.schedulerKillPid pid) ∧ Heap.Guard s (.schedulerKillPid pid)
  | _ => True

theorem step_kept {op : ResourceOp} (h : Kept bytes s) (hg : Guard s op)
    (hs : Resources.step s op = some t) : Kept bytes t := by
  cases op with
  | createNewProcess addr process name thread stack => exact create_kept h hs
  | createNewProcessNothread process name => exact nothread_kept h hs
  | schedulerAddProcess i =>
    obtain ⟨k, hk, rfl⟩ := Option.map_eq_some_iff.mp hs
    exact switch_kept h (.inl ⟨i, rfl⟩) hk
  | malloc o =>
    obtain ⟨⟨u, b⟩, hu, rfl⟩ := Option.map_eq_some_iff.mp hs
    exact malloc_kept h hu
  | free a => exact free_kept h hs
  | schedulerSwitch =>
    obtain ⟨k, hk, rfl⟩ := Option.map_eq_some_iff.mp hs
    exact switch_kept h (.inr rfl) hk
  | elfStart img rest pd pt => exact elf_kept h hg hs
  | sysFork f process name pd pt buf thread stack => exact fork_kept h hg.2 hs
  | schedulerKillSelf => exact exit_kept h hg.1 hg.2 (fun _ _ _ => .inl rfl) hs
  | schedulerKillPid pid =>
    simp only [Resources.step, Resources.schedulerKillPid] at hs
    split at hs
    · cases hs
    · rename_i i p hc
      split at hs
      · rename_i hpid
        have hself : ∀ j q, s.kernel.getProcess = some (j, q) → pid = q.pid ∧ q.palloc ≠ 0 := by
          intro j q hq
          have he : q.pid = p.pid := by
            rw [hc] at hq
            cases hq
            rfl
          exact ⟨hpid.trans he.symm, (hg.1 j q hq).1 (hpid.trans he.symm)⟩
        exact exit_kept h (fun j q hq => (hself j q hq).2) hg.2
          (fun j q hq => .inr (congrArg HeapOp.schedulerKillPid (hself j q hq).1)) hs
      · rename_i hpid
        obtain ⟨k, hk, rfl⟩ := Option.map_eq_some_iff.mp hs
        exact kill_kept h hc hpid hg.1 hk

/-- A block of a process: a part of it, or recorded for it. -/
def ProcessOwned (s : Heap) (b : Block) : Prop :=
  b.use.partOf.isSome ∨ ∃ m ∈ s.homes, b ∈ m.records

/-- When every process is gone, the frames are as at the start, and no block of
a process is left. -/
def Clean (k : Kernel) (s : Heap) : Prop :=
  (∀ i, procAt s.kernel.procs i = none) →
    s.kernel.phymem.phyBitmap = k.phymem.phyBitmap ∧ ∀ b ∈ s.blocks, ¬ ProcessOwned s b

/-- A process is created, scheduled and given an image. -/
def execRun : List ResourceOp :=
  [.createNewProcess 1 (some ⟨0xC0000100, true⟩) (some ⟨0xC0000200, true⟩)
      (some ⟨0xC0000300, true⟩) (some ⟨0xC0000400, true⟩), .schedulerAddProcess 0, .schedulerSwitch,
    .elfStart ⟨0xC0000B00, 5, 2, 0, [⟨1, 0, 0x400000, 5⟩]⟩ bootDirectory
      (some ⟨0xC0000500, true⟩) (some ⟨0xC0000600, false⟩)]

end Levos.Proofs.Resources
