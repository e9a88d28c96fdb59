import Levos.Heap
import Levos.Proofs.Kernel

namespace Levos.Proofs.Heap
open Levos.Library Levos.Proofs.Kernel

/-- The operation makes the running process exit. -/
def Exits (s : Heap) (op : HeapOp) (h : Nat) (p : Process) (m : Home) : Prop :=
  s.kernel.getProcess = some (h, p) ∧ s.homes[h]? = some m ∧
    (op = .schedulerKillSelf ∨ op = .schedulerKillPid p.pid)

/-- Every pointer an exit passes to `free` is a live block, is passed once, and
serves no other process on the table. -/
def FreesOwn (s : Heap) (op : HeapOp) : Prop :=
  ∀ h p m, Exits s op h p m → (Heap.killFrees m p).Nodup ∧
    ∀ a ∈ Heap.killFrees m p, ∃ b ∈ s.blocks, b.base = a ∧
      ∀ j, b.use.user = some j → j ≠ h → some j ∉ s.kernel.processes

/-- A process exits only if it was made by `create_new_process`, and what
`malloc` has recorded for it are blocks of its own it has not freed. -/
def Guard (s : Heap) (op : HeapOp) : Prop :=
  ∀ h p m, Exits s op h p m → m.origin = .created ∧
    ∀ b ∈ m.records, b ∈ s.blocks ∧ b.use = .plain (some h)

/-- The blocks a process has been given by its creation. -/
structure Parts (blocks : List Block) (h : Nat) (m : Home) : Prop where
  struct : ∃ n, ⟨m.self, .struct h, n⟩ ∈ blocks
  name : ∃ n, ⟨m.namebuf, .name h, n⟩ ∈ blocks
  stack : m.origin = .created → ∃ n, ⟨m.stackbot, .stack h, n⟩ ∈ blocks

/-- The table of a process lists what has been recorded for it, in order. -/
structure Recorded (serial : Nat) (p : Process) (m : Home) : Prop where
  room : p.allocationTable.length = maxAllocationsPerProcess
  count : p.allocs = m.records.length
  entries : p.recorded = m.records.map Block.base
  nodup : m.records.Nodup
  past : ∀ b ∈ m.records, b.serial < serial

/-- Blocks have distinct addresses, and every process has its own. -/
structure Tidy (procs : List (Option Process)) (homes : List Home) (blocks : List Block)
    (serial : Nat) : Prop where
  aligned : homes.length = procs.length
  bases : (blocks.map Block.base).Nodup
  past : ∀ b ∈ blocks, b.serial < serial
  parts : ∀ h p m, procAt procs h = some p → homes[h]? = some m → Parts blocks h m
  recorded : ∀ h p m, procAt procs h = some p → homes[h]? = some m → Recorded serial p m

def Invariant (s : Heap) : Prop := Tidy s.kernel.procs s.homes s.blocks s.serial

variable {procs procs' : List (Option Process)} {homes : List Home} {blocks : List Block}
  {serial : Nat} {s s' : Heap}

theorem Tidy.same_block (h : Tidy procs homes blocks serial) (hb : b ∈ blocks) (hc : c ∈ blocks)
    (he : b.base = c.base) : b = c :=
  List.inj_on_of_nodup_map h.bases hb hc he

theorem Parts.mono (h : Parts blocks i m) (hm : ∀ b ∈ blocks, b.use.user = some i →
    (∀ j, b.use ≠ .plain j) → b ∈ blocks') : Parts blocks' i m := by
  obtain ⟨n1, h1⟩ := h.struct
  obtain ⟨n2, h2⟩ := h.name
  refine ⟨⟨n1, hm _ h1 rfl (by simp)⟩, ⟨n2, hm _ h2 rfl (by simp)⟩, ?_⟩
  intro hc
  obtain ⟨n3, h3⟩ := h.stack hc
  exact ⟨n3, hm _ h3 rfl (by simp)⟩

theorem Recorded.later (h : Recorded serial p m) (hle : serial ≤ serial') :
    Recorded serial' p m :=
  ⟨h.room, h.count, h.entries, h.nodup, fun b hb => Nat.lt_of_lt_of_le (h.past b hb) hle⟩

/-- Structs that keep their table of allocations change nothing. -/
theorem Tidy.evolve (h : Tidy procs homes blocks serial) (hl : procs'.length = procs.length)
    (hp : ∀ i p', procAt procs' i = some p' → ∃ p, procAt procs i = some p ∧
      p'.allocs = p.allocs ∧ p'.allocationTable = p.allocationTable ∧
      p'.filehandles = p.filehandles) : Tidy procs' homes blocks serial := by
  refine ⟨h.aligned.trans hl.symm, h.bases, h.past, ?_, ?_⟩
  · intro i p' m hi hm
    obtain ⟨p, hq, _⟩ := hp i p' hi
    exact h.parts i p m hq hm
  · intro i p' m hi hm
    obtain ⟨p, hq, ha, ht, hf⟩ := hp i p' hi
    have hr := h.recorded i p m hq hm
    refine ⟨by rw [ht]; exact hr.room, by rw [ha]; exact hr.count, ?_, hr.nodup, hr.past⟩
    have he := hr.entries
    unfold Process.recorded at he ⊢
    rw [ha, ht, hf]
    exact he

theorem set_keeps {procs : List (Option Process)} (hp : procAt procs h = some p)
    (ha : p'.allocs = p.allocs) (ht : p'.allocationTable = p.allocationTable)
    (hf : p'.filehandles = p.filehandles) (i : Nat) (q' : Process)
    (hi : procAt (procs.set h (some p')) i = some q') :
    ∃ q, procAt procs i = some q ∧ q'.allocs = q.allocs ∧
      q'.allocationTable = q.allocationTable ∧ q'.filehandles = q.filehandles :=
  proc_at_set_related (fun q' q => q'.allocs = q.allocs ∧
    q'.allocationTable = q.allocationTable ∧ q'.filehandles = q.filehandles)
    (fun _ => ⟨rfl, rfl, rfl⟩) hp ⟨ha, ht, hf⟩ i q' hi

/-- Freeing spares the processes whose blocks are not among those freed. -/
theorem Tidy.free (h : Tidy procs homes blocks serial) {addrs : List Nat}
    (hf : ∀ b ∈ blocks, b.base ∈ addrs → ∀ j p, b.use.user = some j →
      (∀ i, b.use ≠ .plain i) → procAt procs j ≠ some p) :
    Tidy procs homes (blocks.filter (fun b => b.base ∉ addrs)) serial := by
  refine ⟨h.aligned, h.bases.sublist (List.filter_sublist.map _), ?_, ?_, h.recorded⟩
  · intro b hb
    exact h.past b (List.mem_of_mem_filter hb)
  · intro i p m hp hm
    refine (h.parts i p m hp hm).mono ?_
    intro b hb hu hn
    refine List.mem_filter.mpr ⟨hb, ?_⟩
    by_cases hin : b.base ∈ addrs
    · exact absurd hp (hf b hb hin i p hu hn)
    · simpa using hin

theorem Tidy.push_block (h : Tidy procs homes blocks serial)
    (hb : base ∉ blocks.map Block.base) :
    Tidy procs homes (⟨base, use, serial⟩ :: blocks) (serial + 1) := by
  refine ⟨h.aligned, List.nodup_cons.mpr ⟨hb, h.bases⟩, ?_, ?_, ?_⟩
  · intro b hm
    rcases List.mem_cons.mp hm with rfl | hm
    · exact Nat.lt_succ_self _
    · exact Nat.lt_succ_of_lt (h.past b hm)
  · intro i p m hp hm
    exact (h.parts i p m hp hm).mono (fun b hb _ _ => List.mem_cons_of_mem _ hb)
  · intro i p m hp hm
    exact (h.recorded i p m hp hm).later (Nat.le_succ _)

/-- A new process, with the blocks made for it. -/
theorem Tidy.push_process (h : Tidy procs homes blocks serial)
    (hm : Parts blocks procs.length m) (hr : m.records = []) (ha : p.allocs = 0)
    (ht : p.allocationTable.length = maxAllocationsPerProcess) :
    Tidy (procs ++ [some p]) (homes ++ [m]) blocks serial := by
  have hhome : ∀ i m', i < procs.length → (homes ++ [m])[i]? = some m' → homes[i]? = some m' := by
    intro i m' hi hm'
    rwa [List.getElem?_append_left (by rw [h.aligned]; exact hi)] at hm'
  have hlast : ∀ m', (homes ++ [m])[procs.length]? = some m' → m' = m := by
    intro m' hm'
    rw [← h.aligned, List.getElem?_concat_length] at hm'
    exact (Option.some.inj hm').symm
  refine ⟨by simp [h.aligned], h.bases, h.past, ?_, ?_⟩
  · intro i q m' hq hm'
    rcases push_lookup hq with ⟨rfl, _⟩ | hq
    · rw [hlast m' hm']
      exact hm
    · exact h.parts i q m' hq (hhome i m' (proc_at_lt hq) hm')
  · intro i q m' hq hm'
    rcases push_lookup hq with ⟨rfl, rfl⟩ | hq
    · rw [hlast m' hm']
      refine ⟨ht, by rw [ha, hr]; rfl, ?_, by rw [hr]; exact List.nodup_nil, ?_⟩
      · unfold Process.recorded
        rw [ha, hr]
        rfl
      · intro b hb
        rw [hr] at hb
        cases hb
    · exact h.recorded i q m' hq (hhome i m' (proc_at_lt hq) hm')

/-- `post_allocation` appends one entry, in the table or in the field behind it. -/
theorem post_allocation_entry (h : postAllocation p base = some p')
    (hr : p.allocationTable.length = maxAllocationsPerProcess) :
    p'.allocationTable.length = maxAllocationsPerProcess ∧ p'.allocs = p.allocs + 1 ∧
      p'.recorded = p.recorded ++ [base] := by
  unfold postAllocation at h
  split at h
  · cases h
  · split at h
    · cases h
    · rename_i hle
      split at h
      · rename_i he
        cases h
        refine ⟨hr, rfl, ?_⟩
        have hfull : (p.allocationTable ++ [base]).length ≤ maxAllocationsPerProcess + 1 := by
          rw [List.length_append, hr]
          exact Nat.le_refl _
        simp only [Process.recorded, he]
        rw [List.take_of_length_le hfull, ← hr, List.take_left]
      · rename_i hne
        cases h
        refine ⟨by rw [List.length_set]; exact hr, rfl, ?_⟩
        simp only [Process.recorded]
        rw [List.take_append_of_le_length (by rw [List.length_set]; omega),
          List.take_append_of_le_length (by omega), List.take_add_one,
          List.getElem?_set_self (by omega), List.take_set,
          List.set_eq_of_length_le (by rw [List.length_take]; omega)]
        rfl

theorem modify_lookup {l : List α} {f : α → α} (h : (l.modify i f)[j]? = some a') :
    ∃ a, l[j]? = some a ∧ a' = if j = i then f a else a := by
  rw [List.getElem?_modify] at h
  obtain ⟨a, ha, he⟩ := Option.map_eq_some_iff.mp h
  refine ⟨a, ha, ?_⟩
  rw [← he]
  by_cases hj : i = j
  · rw [if_pos hj, if_pos hj.symm]
  · rw [if_neg hj, if_neg (Ne.symm hj)]

/-- Recording touches the struct and the history of one process. -/
theorem Tidy.record (h : Tidy procs homes blocks serial) (hp : procAt procs i = some p)
    (ha : postAllocation p b.base = some p') (hb : b.serial < serial)
    (hnew : ∀ m, homes[i]? = some m → b ∉ m.records) :
    Tidy (procs.set i (some p'))
      (homes.modify i (fun m => { m with records := m.records ++ [b] })) blocks serial := by
  have hlt := proc_at_lt hp
  refine ⟨by rw [List.length_modify, List.length_set]; exact h.aligned, h.bases, h.past, ?_, ?_⟩
  · intro j q m' hq hm'
    obtain ⟨m, hm, rfl⟩ := modify_lookup hm'
    rw [proc_at_set _ _ _ _ hlt] at hq
    by_cases hj : j = i
    · subst j
      rw [if_pos rfl]
      obtain ⟨h1, h2, h3⟩ := h.parts i p m hp hm
      exact ⟨h1, h2, h3⟩
    · rw [if_neg hj] at hq ⊢
      exact h.parts j q m hq hm
  · intro j q m' hq hm'
    obtain ⟨m, hm, rfl⟩ := modify_lookup hm'
    rw [proc_at_set _ _ _ _ hlt] at hq
    by_cases hj : j = i
    · subst j
      rw [if_pos rfl] at hq ⊢
      cases hq
      have hr := h.recorded i p m hp hm
      obtain ⟨hroom, hcount, hentries⟩ := post_allocation_entry ha hr.room
      refine ⟨hroom, ?_, ?_, ?_, ?_⟩
      · rw [hcount, hr.count, List.length_append, List.length_singleton]
      · rw [hentries, hr.entries, List.map_append]
        rfl
      · exact List.nodup_append.mpr ⟨hr.nodup, List.nodup_singleton b, fun c hc d hd he =>
          hnew m hm (List.mem_singleton.mp hd ▸ he ▸ hc)⟩
      · intro c hc
        rcases List.mem_append.mp hc with hc | hc
        · exact hr.past c hc
        · rw [List.mem_singleton.mp hc]
          exact hb
    · rw [if_neg hj] at hq ⊢
      exact h.recorded j q m hq hm

/-- What a call of `malloc` comes to. -/
inductive Malloced (s : Heap) (use : Use) : Heap → Option Block → Prop
  | full : Malloced s use s none
  | placed (hb : base ∉ s.blocks.map Block.base) : Malloced s use
      { s with blocks := ⟨base, use, s.serial⟩ :: s.blocks, serial := s.serial + 1 }
      (some ⟨base, use, s.serial⟩)
  | recorded (hb : base ∉ s.blocks.map Block.base) (hc : s.kernel.getProcess = some (i, p))
      (hp : postAllocation p base = some p') : Malloced s use
      ⟨s.kernel.setProc i p', s.homes.modify i
          (fun m => { m with records := m.records ++ [⟨base, use, s.serial⟩] }),
        ⟨base, use, s.serial⟩ :: s.blocks, s.serial + 1⟩
      (some ⟨base, use, s.serial⟩)

theorem malloc_cases (hm : s.malloc use o = some (s', b?)) : Malloced s use s' b? := by
  cases o with
  | none =>
    cases hm
    exact .full
  | some pl =>
    simp only [Heap.malloc] at hm
    split at hm
    · cases hm
    · rename_i hfree
      have hbase : pl.base ∉ s.blocks.map Block.base := fun hin => hfree (.inr hin)
      simp only [Option.some.injEq, Prod.mk.injEq] at hm
      obtain ⟨rfl, rfl⟩ := hm
      split
      · unfold Heap.record
        split
        · exact .placed hbase
        · rename_i hc
          split
          · exact .placed hbase
          · rename_i hp
            exact .recorded hbase hc hp
      · exact .placed hbase

theorem malloc_spec (h : Invariant s) (hm : s.malloc use o = some (s', b?)) :
    Invariant s' ∧ s'.kernel.procs.length = s.kernel.procs.length ∧
      (∀ b ∈ s.blocks, b ∈ s'.blocks) ∧ ∀ b, b? = some b → b ∈ s'.blocks ∧ b.use = use := by
  have hself : ∀ base b, some (⟨base, use, s.serial⟩ : Block) = some b →
      b ∈ (⟨base, use, s.serial⟩ : Block) :: s.blocks ∧ b.use = use := by
    intro base b hb
    cases hb
    exact ⟨List.mem_cons_self, rfl⟩
  cases malloc_cases hm with
  | full => exact ⟨h, rfl, fun b hb => hb, fun b hb => by cases hb⟩
  | placed hb =>
    exact ⟨Tidy.push_block h hb, rfl, fun b hb => List.mem_cons_of_mem _ hb, hself _⟩
  | recorded hb hc hp' =>
    have hp := (get_process_proc hc).2
    have hpush : Tidy s.kernel.procs s.homes (⟨_, use, s.serial⟩ :: s.blocks) (s.serial + 1) :=
      Tidy.push_block h hb
    refine ⟨hpush.record hp hp' (Nat.lt_succ_self _) ?_, List.length_set,
      fun b hb => List.mem_cons_of_mem _ hb, hself _⟩
    intro m hm hin
    exact absurd ((h.recorded _ _ m hp hm).past _ hin) (Nat.lt_irrefl _)

/-- The blocks of a sequence of calls, in the order of the calls. -/
theorem mallocs_spec {calls : List (Use × Option Placed)} {bs : List Block} {ok : Bool}
    (h : Invariant s) (hm : s.mallocs calls = some (s', bs, ok)) :
    Invariant s' ∧ s'.kernel.procs.length = s.kernel.procs.length ∧
      (∀ b ∈ s.blocks, b ∈ s'.blocks) ∧ (∀ b ∈ bs, b ∈ s'.blocks) ∧
      (∃ rest, calls.map Prod.fst = bs.map Block.use ++ rest ∧ (ok = true → rest = [])) := by
  induction calls generalizing s bs with
  | nil =>
    cases hm
    exact ⟨h, rfl, fun b hb => hb, List.forall_mem_nil _, [], rfl, fun _ => rfl⟩
  | cons call calls ih =>
    obtain ⟨use, o⟩ := call
    simp only [Heap.mallocs] at hm
    split at hm
    · cases hm
    · rename_i t ht
      cases hm
      obtain ⟨hi, hl, hb, _⟩ := malloc_spec h ht
      exact ⟨hi, hl, hb, List.forall_mem_nil _, _, rfl, fun he => absurd he (by simp)⟩
    · rename_i t b ht
      obtain ⟨hi, hl, hold, hnew⟩ := malloc_spec h ht
      obtain ⟨⟨u, cs, ok'⟩, hr, he⟩ := Option.map_eq_some_iff.mp hm
      cases he
      obtain ⟨hi', hl', hold', hnew', rest, huse, hok⟩ := ih hi hr
      obtain ⟨hin, hu⟩ := hnew b rfl
      refine ⟨hi', hl'.trans hl, fun c hc => hold' c (hold c hc), ?_, rest, ?_, hok⟩
      · intro c hc
        rcases List.mem_cons.mp hc with rfl | hc
        · exact hold' c hin
        · exact hnew' c hc
      · simp only [List.map_cons, huse, hu, List.cons_append]

/-- Freeing what was just made for a process that never came to be. -/
theorem abandon {calls : List (Use × Option Placed)} {bs : List Block} {ok : Bool} {n : Nat}
    (h : Invariant s) (hm : s.mallocs calls = some (s', bs, ok))
    (hn : n = s.kernel.procs.length) (hcalls : ∀ u ∈ calls.map Prod.fst, u.user = some n) :
    Invariant (s'.freeAll (bs.map Block.base)) := by
  obtain ⟨hi, hl, _, hnew, rest, huse, _⟩ := mallocs_spec h hm
  refine Tidy.free hi ?_
  intro b hb hin j p hu _ hp
  obtain ⟨c, hc, he⟩ := List.mem_map.mp hin
  have hsame : c = b := Tidy.same_block hi (hnew c hc) hb he
  subst c
  have hmem : b.use ∈ calls.map Prod.fst := by
    rw [huse]
    exact List.mem_append_left _ (List.mem_map_of_mem hc)
  have hj : j = n := Option.some.inj (hu.symm.trans (hcalls b.use hmem))
  have hlt := proc_at_lt hp
  omega

theorem new_parts {b : Block} {blocks : List Block} (hb : b ∈ blocks) (hu : b.use = use) :
    ∃ n, ⟨b.base, use, n⟩ ∈ blocks :=
  ⟨b.serial, hu ▸ hb⟩

theorem created_procs (k : Kernel) (ha : addr ≠ 0) :
    (k.createNewProcess addr none).procs =
      k.procs ++ [some { k.newProcess with threadslen := 1 }] := by
  simp [Kernel.createNewProcess, createNewThread, ha, Kernel.newProcess, maxThreads,
    Kernel.pushProcess, Kernel.nextPid]

/-- What the four blocks of a new process are for. -/
theorem created_uses {i : Nat} {th st : Block} {t : Heap} (h : Invariant s)
    (hm : s.mallocs ([(Use.struct i, process), (Use.name i, name)] ++
      if addr = 0 then [] else [(Use.thread i, thread), (Use.stack i, stack)]) =
        some (t, [p, n, th, st], true)) :
    addr ≠ 0 ∧ p.use = .struct i ∧ n.use = .name i ∧ th.use = .thread i ∧ st.use = .stack i := by
  obtain ⟨_, _, _, _, rest, huse, hok⟩ := mallocs_spec h hm
  rw [hok rfl] at huse
  by_cases ha : addr = 0
  · simp [ha] at huse
  · simp only [ha, ↓reduceIte, List.cons_append, List.nil_append, List.append_nil,
      List.map_cons, List.map_nil, List.cons.injEq, and_true] at huse
    obtain ⟨hu1, hu2, hu3, hu4⟩ := huse
    exact ⟨ha, hu1.symm, hu2.symm, hu3.symm, hu4.symm⟩

theorem create_invariant (h : Invariant s)
    (hs : s.createNewProcess addr process name thread stack = some s') : Invariant s' := by
  have hcalls : ∀ u ∈ (([(Use.struct s.kernel.procs.length, process),
      (Use.name s.kernel.procs.length, name)] ++ if addr = 0 then [] else
        [(Use.thread s.kernel.procs.length, thread), (Use.stack s.kernel.procs.length, stack)] :
        List (Use × Option Placed))).map Prod.fst, u.user = some s.kernel.procs.length := by
    intro u hu
    split at hu <;> simp at hu
    · rcases hu with rfl | rfl <;> rfl
    · rcases hu with rfl | rfl | rfl | rfl <;> rfl
  unfold Heap.createNewProcess at hs
  simp only at hs
  split at hs
  · cases hs
  · rename_i t p n th st hm
    obtain ⟨hi, hl, _, hnew, _⟩ := mallocs_spec h hm
    obtain ⟨ha, hu1, hu2, _, hu4⟩ := created_uses h hm
    cases hs
    unfold Invariant
    rw [created_procs t.kernel ha]
    refine Tidy.push_process hi ?_ rfl rfl List.length_replicate
    rw [hl]
    exact ⟨new_parts (hnew p (by simp)) hu1, new_parts (hnew n (by simp)) hu2,
      fun _ => new_parts (hnew st (by simp)) hu4⟩
  · rename_i t bs ok _ hm
    cases hs
    have hi := abandon h hm rfl hcalls
    unfold Invariant at hi ⊢
    split <;> exact hi

theorem nothread_invariant (h : Invariant s)
    (hs : s.createNewProcessNothread process name = some s') : Invariant s' := by
  have hcalls : ∀ u ∈ ([(.struct s.kernel.procs.length, process),
      (.name s.kernel.procs.length, name)] : List (Use × Option Placed)).map Prod.fst,
      u.user = some s.kernel.procs.length := by
    intro u hu
    simp at hu
    rcases hu with rfl | rfl <;> rfl
  unfold Heap.createNewProcessNothread at hs
  simp only at hs
  split at hs
  · cases hs
  · rename_i t p n hm
    obtain ⟨hi, hl, _, hnew, rest, huse, hok⟩ := mallocs_spec h hm
    rw [hok rfl] at huse
    simp only [List.append_nil, List.map_cons, List.map_nil, List.cons.injEq, and_true] at huse
    obtain ⟨hu1, hu2⟩ := huse
    cases hs
    have hparts : Parts t.blocks t.kernel.procs.length ⟨p.base, n.base, 0, .nothread, []⟩ := by
      rw [hl]
      exact ⟨new_parts (hnew p (by simp)) hu1.symm, new_parts (hnew n (by simp)) hu2.symm,
        fun hc => by cases hc⟩
    exact Tidy.push_process hi hparts rfl rfl List.length_replicate
  · cases hs
    rename_i hm
    exact abandon h hm rfl hcalls

theorem add_procs (k : Kernel) (i : Nat) : (k.schedulerAddProcess i).1.procs = k.procs := by
  rcases add_cases k i with hs | ⟨p, j, _, _, _, _, hs⟩ <;> rw [hs]

/-- A plain block can be freed without harm to any process. -/
theorem free_plain (h : Invariant s) (hb : b ∈ s.blocks) (hu : b.use = .plain i) :
    Invariant (s.freeAll [b.base]) := by
  refine Tidy.free h ?_
  intro c hc hin j p _ hn _
  have hsame : c = b := Tidy.same_block h hc hb (List.mem_singleton.mp hin)
  subst c
  exact hn i hu

theorem free_spares (h : Invariant s) (hb : b ∈ s.blocks) (hc : c ∈ s.blocks) (hne : c ≠ b) :
    c ∈ (s.freeAll [b.base]).blocks := by
  refine List.mem_filter.mpr ⟨hc, ?_⟩
  have hbase : c.base ≠ b.base := fun he => hne (Tidy.same_block h hc hb he)
  simpa using hbase

section Fork

variable {process name pd pt buf thread stack : Option Placed} {p n d e b th st : Block}
  {t t' : Heap}
  (hm : s.mallocs [(.struct s.kernel.procs.length, process), (.name s.kernel.procs.length, name),
    (.plain s.kernel.current, pd), (.plain s.kernel.current, pt),
    (.plain s.kernel.current, buf)] = some (t, [p, n, d, e, b], true))
  (hm' : (t.freeAll [b.base]).mallocs [(.thread s.kernel.procs.length, thread),
    (.stack s.kernel.procs.length, stack)] = some (t', [th, st], true))
include hm

theorem fork_first_uses (h : Invariant s) :
    p.use = .struct s.kernel.procs.length ∧ n.use = .name s.kernel.procs.length ∧
      d.use = .plain s.kernel.current ∧ e.use = .plain s.kernel.current ∧
        b.use = .plain s.kernel.current := by
  obtain ⟨_, _, _, _, rest, huse, hok⟩ := mallocs_spec h hm
  rw [hok rfl] at huse
  simp only [List.append_nil, List.map_cons, List.map_nil, List.cons.injEq, and_true] at huse
  obtain ⟨hu1, hu2, hu3, hu4, hu5⟩ := huse
  exact ⟨hu1.symm, hu2.symm, hu3.symm, hu4.symm, hu5.symm⟩

theorem fork_freed (h : Invariant s) : Invariant (t.freeAll [b.base]) := by
  obtain ⟨hi, _, _, hnew, _⟩ := mallocs_spec h hm
  exact free_plain hi (hnew b (by simp)) (fork_first_uses hm h).2.2.2.2

include hm'

theorem fork_second_uses (h : Invariant s) : th.use = .thread s.kernel.procs.length ∧
    st.use = .stack s.kernel.procs.length := by
  obtain ⟨_, _, _, _, rest, huse, hok⟩ := mallocs_spec (fork_freed hm h) hm'
  rw [hok rfl] at huse
  simp only [List.append_nil, List.map_cons, List.map_nil, List.cons.injEq, and_true] at huse
  exact ⟨huse.1.symm, huse.2.symm⟩

/-- The blocks of a fork: the buffer in between is given back at once. -/
theorem fork_parts (h : Invariant s) :
    Invariant t' ∧ t'.kernel.procs.length = s.kernel.procs.length ∧
      Parts t'.blocks t'.kernel.procs.length ⟨p.base, n.base, 0, .forked, []⟩ := by
  obtain ⟨hi, hl, _, hnew, _⟩ := mallocs_spec h hm
  obtain ⟨hu1, hu2, _, _, hu5⟩ := fork_first_uses hm h
  have hb := hnew b (by simp)
  obtain ⟨hi', hl', hold', _⟩ := mallocs_spec (fork_freed hm h) hm'
  have hkeep : ∀ c ∈ [p, n], c ∈ t'.blocks := by
    intro c hc
    refine hold' c (free_spares hi hb (hnew c (by simp at hc ⊢; tauto)) ?_)
    intro he
    subst c
    rcases List.mem_cons.mp hc with rfl | hc
    · rw [hu1] at hu5
      cases hu5
    · rw [← List.mem_singleton.mp hc, hu5] at hu2
      cases hu2
  have hlen : t'.kernel.procs.length = s.kernel.procs.length := hl'.trans hl
  refine ⟨hi', hlen, ?_⟩
  rw [hlen]
  exact ⟨new_parts (hkeep p (by simp)) hu1, new_parts (hkeep n (by simp)) hu2,
    fun hc => by cases hc⟩

end Fork

theorem fork_invariant (h : Invariant s)
    (hs : s.sysFork process name pd pt buf thread stack = some s') : Invariant s' := by
  unfold Heap.sysFork at hs
  simp only at hs
  split at hs
  · rename_i t p n d e b hm
    split at hs
    · rename_i t' th st hm'
      obtain ⟨hi, _, hparts⟩ := fork_parts hm hm' h
      cases hs
      unfold Invariant
      simp only [add_procs]
      exact Tidy.push_process hi hparts rfl rfl List.length_replicate
    · cases hs
  · cases hs

/-- The blocks an exit gives back, in the order of its calls. -/
theorem kill_frees_blocks (h : Invariant s) (hg : Guard s op) (he : Exits s op i p m) :
    ∃ bs : List Block, Heap.killFrees m p = bs.map Block.base ∧ bs.Nodup ∧
      ∀ b ∈ bs, b ∈ s.blocks ∧ b.use.user = some i := by
  obtain ⟨horigin, hrec⟩ := hg i p m he
  obtain ⟨hc, hm, _⟩ := he
  have hp := (get_process_proc hc).2
  have hparts := h.parts i p m hp hm
  have hr := h.recorded i p m hp hm
  obtain ⟨n1, h1⟩ := hparts.struct
  obtain ⟨n2, h2⟩ := hparts.name
  obtain ⟨n3, h3⟩ := hparts.stack horigin
  have hplain : ∀ b ∈ m.records, b.use = .plain (some i) := fun b hb => (hrec b hb).2
  refine ⟨⟨m.namebuf, .name i, n2⟩ :: ⟨m.stackbot, .stack i, n3⟩ :: m.records ++
    [⟨m.self, .struct i, n1⟩], ?_, ?_, ?_⟩
  · simp [Heap.killFrees, hr.entries]
  · have hname : (⟨m.namebuf, .name i, n2⟩ : Block) ∉ m.records :=
      fun hin => by have := hplain _ hin; cases this
    have hstack : (⟨m.stackbot, .stack i, n3⟩ : Block) ∉ m.records :=
      fun hin => by have := hplain _ hin; cases this
    have hself : (⟨m.self, .struct i, n1⟩ : Block) ∉ m.records :=
      fun hin => by have := hplain _ hin; cases this
    simp [List.nodup_append, hr.nodup, hname, hstack]
    intro b hb he
    exact hself (he ▸ hb)
  · intro b hb
    simp only [List.cons_append, List.mem_cons, List.mem_append, List.not_mem_nil, or_false] at hb
    rcases hb with rfl | rfl | hb | rfl
    · exact ⟨h2, rfl⟩
    · exact ⟨h3, rfl⟩
    · refine ⟨(hrec b hb).1, ?_⟩
      rw [hplain b hb]
      rfl
    · exact ⟨h1, rfl⟩

theorem frees_own (h : Invariant s) (hg : Guard s op) : FreesOwn s op := by
  intro i p m he
  obtain ⟨bs, hbs, hnodup, hown⟩ := kill_frees_blocks h hg he
  rw [hbs]
  constructor
  · exact hnodup.map_on (fun b hb c hc hbc => Tidy.same_block h (hown b hb).1 (hown c hc).1 hbc)
  · intro a ha
    obtain ⟨b, hb, rfl⟩ := List.mem_map.mp ha
    obtain ⟨hin, hu⟩ := hown b hb
    refine ⟨b, hin, rfl, ?_⟩
    intro j hj hne
    rw [hu] at hj
    exact absurd (Option.some.inj hj).symm hne

/-- An exit spares the blocks of every other process. -/
theorem exit_tidy (h : Invariant s) (hg : Guard s op) (he : Exits s op i p m) :
    Tidy (s.kernel.procs.set i none) s.homes
      (s.blocks.filter (fun b => b.base ∉ Heap.killFrees m p)) s.serial := by
  obtain ⟨bs, hbs, _, hown⟩ := kill_frees_blocks h hg he
  have hp := (get_process_proc he.1).2
  have hgone : Tidy (s.kernel.procs.set i none) s.homes s.blocks s.serial := by
    refine Tidy.evolve h List.length_set ?_
    intro j q hq
    exact ⟨q, (proc_at_gone hp hq).1, rfl, rfl, rfl⟩
  refine hgone.free ?_
  intro b hb hin j q hu _ hq
  rw [hbs] at hin
  obtain ⟨c, hcs, hcb⟩ := List.mem_map.mp hin
  have hsame : c = b := Tidy.same_block h (hown c hcs).1 hb hcb
  subst c
  have hj : i = j := Option.some.inj ((hown b hcs).2.symm.trans hu)
  subst j
  exact (proc_at_gone hp hq).2 rfl

theorem exit_invariant (h : Invariant s) (hg : Guard s op)
    (hop : ∀ i p, s.kernel.getProcess = some (i, p) →
      op = .schedulerKillSelf ∨ op = .schedulerKillPid p.pid)
    (hs : s.schedulerKillSelf = some s') : Invariant s' := by
  unfold Heap.schedulerKillSelf at hs
  split at hs
  · cases hs
  · rename_i i p hc
    obtain ⟨m, hm, rfl⟩ := Option.map_eq_some_iff.mp hs
    exact exit_tidy h hg ⟨hc, hm, hop i p hc⟩

/-- Adding a process and switching leave the tables of allocations alone. -/
theorem scheduling_procs {k k' : Kernel} {op : KernelOp}
    (hop : (∃ i, op = .schedulerAddProcess i) ∨ op = .schedulerSwitch)
    (hs : k.step op = some k') : k'.procs = k.procs ∨
      ∃ i p p', procAt k.procs i = some p ∧ k'.procs = k.procs.set i (some p') ∧
        p'.allocs = p.allocs ∧ p'.allocationTable = p.allocationTable ∧
          p'.filehandles = p.filehandles := by
  cases step_cases hs with
  | same | added => exact .inl rfl
  | switched hp => exact .inr ⟨_, _, _, hp, rfl, rfl, rfl, rfl⟩
  | created _ hcreate =>
    rcases hop with ⟨i, rfl⟩ | rfl <;> rcases hcreate with ⟨_, _, he⟩ | ⟨_, he⟩ <;> cases he
  | exited hexit => rcases hop with ⟨i, rfl⟩ | rfl <;> rcases hexit with he | he <;> cases he
  | faulted hb => rcases hop with ⟨i, rfl⟩ | rfl <;> cases hb
  | _ => rcases hop with ⟨i, he⟩ | he <;> cases he

theorem kernel_step_invariant {k : Kernel} {op : KernelOp} (h : Invariant s)
    (hop : (∃ i, op = .schedulerAddProcess i) ∨ op = .schedulerSwitch)
    (hs : s.kernel.step op = some k) : Invariant { s with kernel := k } := by
  unfold Invariant
  rcases scheduling_procs hop hs with he | ⟨i, p, p', hp, he, ha, ht, hf⟩
  · rw [he]
    exact h
  · rw [he]
    exact Tidy.evolve h List.length_set (set_keeps hp ha ht hf)

theorem kill_invariant {k : Kernel} (h : Invariant s)
    (hc : s.kernel.getProcess = some (i, p)) (hne : pid ≠ p.pid)
    (hs : s.kernel.step (.schedulerKillPid pid) = some k) :
    Invariant { s with kernel := k } := by
  cases step_cases hs with
  | same => exact h
  | created _ hcreate => rcases hcreate with ⟨_, _, he⟩ | ⟨_, he⟩ <;> cases he
  | faulted hb => cases hb
  | exited hexit hc' =>
    rw [hc] at hc'
    cases hc'
    rcases hexit with he | he
    · cases he
    · cases he
      exact absurd rfl hne
  | killed =>
    refine Tidy.evolve h List.length_mapIdx ?_
    intro j q hq
    exact ⟨q, (proc_at_unmasked hq).1, rfl, rfl, rfl⟩

theorem free_invariant (h : Invariant s) (hs : s.free a = some s') : Invariant s' := by
  unfold Heap.free at hs
  split at hs
  · rename_i b i hb hc
    split at hs
    · rename_i hu
      cases hs
      have hbase : b.base = a := by simpa using List.find?_some hb
      subst a
      exact free_plain h (List.mem_of_find?_eq_some hb) hu
    · cases hs
  · cases hs

theorem step_invariant {op : HeapOp} (h : Invariant s) (hg : Guard s op)
    (hs : s.step op = some s') : Invariant s' := by
  cases op with
  | createNewProcess addr process name thread stack => exact create_invariant h hs
  | createNewProcessNothread process name => exact nothread_invariant h hs
  | schedulerAddProcess i =>
    obtain ⟨k, hk, rfl⟩ := Option.map_eq_some_iff.mp hs
    exact kernel_step_invariant h (.inl ⟨i, rfl⟩) hk
  | sysFork process name pd pt buf thread stack => exact fork_invariant h hs
  | malloc o =>
    obtain ⟨⟨t, b⟩, ht, rfl⟩ := Option.map_eq_some_iff.mp hs
    exact (malloc_spec h ht).1
  | free a => exact free_invariant h hs
  | schedulerSwitch =>
    obtain ⟨k, hk, rfl⟩ := Option.map_eq_some_iff.mp hs
    exact kernel_step_invariant h (.inr rfl) hk
  | schedulerKillSelf => exact exit_invariant h hg (fun _ _ _ => .inl rfl) hs
  | schedulerKillPid pid =>
    simp only [Heap.step, Heap.schedulerKillPid] at hs
    split at hs
    · cases hs
    · rename_i i p hc
      split at hs
      · rename_i hpid
        refine exit_invariant h hg ?_ hs
        intro j q hq
        rw [hc] at hq
        cases hq
        exact .inr (congrArg HeapOp.schedulerKillPid hpid)
      · rename_i hpid
        obtain ⟨k, hk, rfl⟩ := Option.map_eq_some_iff.mp hs
        exact kill_invariant h hc hpid hk

theorem boot_invariant {k : Kernel} (h : Kernel.boot stop memory = some k) :
    Invariant (Heap.boot k) := by
  obtain ⟨m, _, rfl⟩ := Option.map_eq_some_iff.mp h
  refine ⟨rfl, List.nodup_nil, List.forall_mem_nil _, ?_, ?_⟩
  · intro i p m hp
    cases hp
  · intro i p m hp
    cases hp

/-- In every run in which only created processes exit, each while the blocks
recorded for it are its own and still live, every exit frees what is its own. -/
theorem exits_free_own_blocks (stop : Nat) (memory : Nat → Nat) (k : Kernel) (ops : List HeapOp)
    (hboot : Kernel.boot stop memory = some k)
    (hg : Guarded Heap.step Guard (Heap.boot k) ops) :
    Guarded Heap.step FreesOwn (Heap.boot k) ops :=
  hg.imp (boot_invariant hboot) (fun _ _ _ => step_invariant) (fun _ _ => frees_own)

theorem guard_other {op : HeapOp} (hself : op ≠ .schedulerKillSelf)
    (hpid : ∀ pid, op ≠ .schedulerKillPid pid) (s : Heap) : Guard s op := by
  intro i p m he
  rcases he.2.2 with h | h
  · exact absurd h hself
  · exact absurd h (hpid _)

/-- A process is created and scheduled, asks for two blocks, the first of which
is recorded, and frees the second. -/
def tidyRun : List HeapOp :=
  [.createNewProcess 1 (some ⟨0xC0000100, true⟩) (some ⟨0xC0000200, true⟩)
      (some ⟨0xC0000300, true⟩) (some ⟨0xC0000400, true⟩), .schedulerAddProcess 0, .schedulerSwitch,
    .malloc (some ⟨0xC0000500, true⟩), .malloc (some ⟨0xC0000600, false⟩), .free 0xC0000600]

theorem exits_free_own_tidy :
    Guarded Heap.step FreesOwn (Heap.boot smallKernel) (tidyRun ++ [.schedulerKillSelf]) := by
  obtain ⟨t, ht, p, m, hc, hm, horigin, hrec, hin⟩ :
      ∃ t, run Heap.step (Heap.boot smallKernel) tidyRun = some t ∧
        ∃ p m, t.kernel.getProcess = some (0, p) ∧ t.homes[0]? = some m ∧ m.origin = .created ∧
          m.records = [⟨0xC0000500, .plain (some 0), 4⟩] ∧
          ⟨0xC0000500, .plain (some 0), 4⟩ ∈ t.blocks :=
    ⟨_, rfl, _, _, rfl, rfl, rfl, rfl, by decide⟩
  refine exits_free_own_blocks 0x31b000 (fun _ => 0) smallKernel _ rfl
    (Guarded.append (.of_forall ?_ _) ht (.single ?_))
  · intro s op hop
    refine guard_other ?_ ?_ s
    · rintro rfl
      simp [tidyRun] at hop
    · rintro pid rfl
      simp [tidyRun] at hop
  · intro i q m' he
    obtain ⟨hc', hm', _⟩ := he
    rw [hc] at hc'
    cases hc'
    rw [hm] at hm'
    cases hm'
    refine ⟨horigin, ?_⟩
    rw [hrec]
    exact List.forall_mem_singleton.mpr ⟨hin, rfl⟩

/-- A block that was recorded and then freed is passed to `free` once more. -/
theorem exit_frees_twice :
    ¬ ∀ stop memory k ops, Kernel.boot stop memory = some k →
      Guarded Heap.step FreesOwn (Heap.boot k) ops := by
  intro h
  have hg := h 0x31b000 (fun _ => 0) smallKernel
    ([HeapOp.createNewProcess 1 (some ⟨0xC0000100, true⟩) (some ⟨0xC0000200, true⟩)
        (some ⟨0xC0000300, true⟩) (some ⟨0xC0000400, true⟩), .schedulerAddProcess 0,
      .schedulerSwitch, .malloc (some ⟨0xC0000500, true⟩), .free 0xC0000500] ++
        [HeapOp.schedulerKillSelf]) rfl
  have hf := (guarded_iff _ _ _ _).mp hg _ _ [] _ rfl rfl
  obtain ⟨b, hb, hbase, _⟩ := (hf 0 _ _ ⟨rfl, rfl, .inl rfl⟩).2 0xC0000500 (by decide)
  revert b
  decide

end Levos.Proofs.Heap
