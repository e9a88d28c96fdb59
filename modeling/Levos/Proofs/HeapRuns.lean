import Levos.Library.Answers
import Levos.Proofs.Objects

namespace Levos.Proofs.HeapRuns
open Library Pool Levos.Proofs.Blocks Levos.Proofs.Headers Levos.Proofs.Serving
open Levos.Proofs.HeapCalls Levos.Proofs.Freeing Levos.Proofs.Resizing Levos.Proofs.Objects
open Liballoc (HeapCall ptr owner)

/-- What happens to the heap: a call for a process, with what the page allocator answers
it, or a store of a user into its own memory. -/
inductive Event
  | call (current : Option Nat) (page : Nat → UInt32) (call : HeapCall)
  | store (p : UInt32) (i : Nat) (v : UInt8)

/-- The pointer a call returns, and the calls of `post_allocation` it makes. -/
abbrev Response := UInt32 × List (Option Nat × UInt32)

/-- Rounds enough for every loop of the allocator. -/
def rounds : Nat := 2 ^ 30

/-- The heap as the code has it. -/
def poolStep (s : Pool) : Event → Option (Pool × Response)
  | .call current page call =>
    (s.call rounds current page call).map (fun r => (r.heap, r.p, r.posted))
  | .store p i v => some ({ s with mem := Function.update s.mem (p.toNat + i) v }, 0, [])

/-- The heap as a list of blocks. -/
def listStep (h : Liballoc) : Event → Option (Liballoc × Response)
  | .call current page call =>
    (h.call current (answers page) call).map (fun r => (r.heap, r.p.getD 0, r.posted))
  | .store _ _ _ => some (h, 0, [])

/-- The heap as its users have it: their objects, and behind them the blocks, which say when
a request finds no memory. -/
inductive Sees : Owned × Liballoc → Event → Response → Owned × Liballoc → Prop
  | call {o o' : Owned} {h h' : Liballoc} {current : Option Nat} {page : Nat → UInt32}
      {c : HeapCall} {p : UInt32} {posted : List (Option Nat × UInt32)}
      (blocks : listStep h (.call current page c) = some (h', p, posted))
      (serves : Serves (Exhausted h.majors page) o c p o') :
      Sees (o, h) (.call current page c) (p, posted) (o', h')
  | store {o : Owned} {p : UInt32} {bs : List UInt8} {i : Nat} (h : Liballoc) (v : UInt8)
      (hp : o p = some bs) (hi : i < bs.length) :
      Sees (o, h) (.store p i v) (0, []) (Function.update o p (some (bs.set i v)), h)

/-- The users store only into memory they have. -/
def Permitted (h : Liballoc) : Event → Prop
  | .call _ page call => Allowed h page call
  | .store p i _ => ∃ m c, h.owner p = some (m, c) ∧ i < c.reqSize.toNat

variable {s : Pool} {h : Liballoc} {mem : Nat → UInt8} {events : List Event}

/-- The two levels belong together. -/
def Together (s : Pool) (h : Liballoc) : Prop := Intact s h ∧ NoEmpty h.majors

theorem init_together (mem : Nat → UInt8) : Together (Pool.init mem) ⟨[], none⟩ := by
  refine ⟨⟨⟨⟨nofun, .nil⟩, ⟨Linked.nil _ _ _, nofun⟩, rfl, rfl, nofun, rfl, rfl⟩, nofun⟩, nofun⟩

/-- A store into an object changes that byte of it. -/
theorem store_seen (hh : Intact s h) {m : Major} {c : Minor} {p : UInt32} {i : Nat} {v : UInt8}
    (ho : h.owner p = some (m, c)) (hi : i < c.reqSize.toNat) :
    Intact { s with mem := Function.update s.mem (p.toNat + i) v } h ∧
      seen { s with mem := Function.update s.mem (p.toNat + i) v } h = Function.update (seen s h) p
        (some ((slice s.mem p.toNat c.reqSize.toNat).set i v)) := by
  obtain ⟨hm, hcm, rfl⟩ := owner_mem ho
  have hc := mem_chunks hm hcm
  have hp : Payload c ((ptr c).toNat + i) := ⟨by omega, by omega⟩
  refine ⟨holds_store hh _ ?_, ?_⟩
  · intro a ha
    refine Function.update_of_ne ?_ _ _
    rintro rfl
    exact ha c hc hp
  · have hperm := List.perm_cons_erase hc
    have hrest : ∀ d ∈ (chunks h.majors).erase c,
        slice (Function.update s.mem ((ptr c).toNat + i) v) (ptr d).toNat d.reqSize.toNat =
          slice s.mem (ptr d).toNat d.reqSize.toNat := by
      intro d hd
      refine slice_congr ?_
      intro j hj
      refine Function.update_of_ne ?_ _ _
      intro he
      have hd' := List.mem_of_mem_erase hd
      have hdc : d = c := body_unique hh.sound hd' hc
        (payload_body (fitted hh.sound hd') ⟨by omega, by omega⟩ : Body d ((ptr d).toNat + j))
        (he ▸ payload_body (fitted hh.sound hc) hp)
      subst hdc
      exact (chunks_nodup hh.sound).not_mem_erase hd
    have hnd := ptrs_nodup hh.sound
    rw [seen, seen, objects_perm hnd hperm, objects_perm hnd hperm, objects_cons, objects_cons,
      Function.update_idem, objects_congr hrest, slice_update]

/-- One event on both levels and for the users. -/
theorem event_simulates (s : Pool) (h : Liballoc) (e : Event) (ht : Together s h)
    (hp : Permitted h e) :
    ∃ s' h' b, poolStep s e = some (s', b) ∧ listStep h e = some (h', b) ∧ Together s' h' ∧
      Sees (seen s h, h) e b (seen s' h', h') := by
  obtain ⟨hh, hne⟩ := ht
  cases e with
  | call current page call =>
    obtain ⟨r, r', hr, hr', ha⟩ := call_agrees hh hne (Nat.le_refl _) hp current
    have hlist : listStep h (.call current page call) = some (r'.heap, r.p, r.posted) := by
      rw [listStep, hr', ha.p, ha.posted]
      rfl
    refine ⟨r.heap, r'.heap, (r.p, r.posted), ?_, hlist, ⟨ha.holds, ha.full⟩, .call hlist ha.serves⟩
    rw [poolStep, rounds, hr]
    rfl
  | store p i v =>
    obtain ⟨m, c, ho, hi⟩ := hp
    obtain ⟨hholds, hseen⟩ := store_seen hh ho hi (v := v)
    refine ⟨_, h, (0, []), rfl, rfl, ⟨hholds, hne⟩, ?_⟩
    rw [hseen]
    exact .store h v (objects_owner s.mem hh.sound ho) (by rwa [slice_length])

/-- A first request, answered from the first page of the heap of the kernel. -/
def firstCall : Event := .call none (fun _ => 0xC0000000) (.malloc 100)

def oneChunk : Liballoc :=
  ⟨[⟨0xC0000000, 65536, 180, [⟨0xC0000018, 132, 100⟩]⟩], some 0xC0000000⟩

theorem first_call_answer :
    listStep ⟨[], none⟩ firstCall = some (oneChunk, 0xC0000040, [(none, 0xC0000040)]) := by
  decide

theorem first_call_guarded (hrest : Guarded (silent listStep) Permitted oneChunk events) :
    Guarded (silent listStep) Permitted ⟨[], none⟩ (firstCall :: events) := by
  refine .cons (t := oneChunk) (by rw [silent, first_call_answer]; rfl) ?_ hrest
  exact ⟨by decide, ⟨fun _ _ => ⟨by decide, by decide, List.forall_mem_nil _⟩,
    fun hne => absurd rfl hne⟩⟩

theorem first_call_alone : Guarded (silent listStep) Permitted ⟨[], none⟩ [firstCall] :=
  first_call_guarded (trivial : Guarded (silent listStep) Permitted oneChunk [])

theorem first_call_run :
    runWith listStep ⟨[], none⟩ [firstCall] =
      some (oneChunk, [(0xC0000040, [(none, 0xC0000040)])]) :=
  runWith_cons first_call_answer rfl

/-- A user stores into the chunk and gives it back. -/
def useAndFree : List Event :=
  [.store 0xC0000040 99 7, .call none (fun _ => 0) (.free 0xC0000040)]

theorem use_and_free_guarded : Guarded (silent listStep) Permitted oneChunk useAndFree := by
  refine .cons (t := oneChunk) rfl ?_ (.single (.inr (by decide)))
  exact ⟨⟨0xC0000000, 65536, 180, [⟨0xC0000018, 132, 100⟩]⟩, ⟨0xC0000018, 132, 100⟩,
    by decide, by decide⟩

section Runs

variable (hg : Guarded (silent listStep) Permitted ⟨[], none⟩ events) (mem : Nat → UInt8)
include hg

/-- Runs of the events the users and the page allocator keep to. -/
theorem runs_together :
    ∃ s h bs, runWith poolStep (Pool.init mem) events = some (s, bs) ∧
      runWith listStep ⟨[], none⟩ events = some (h, bs) ∧ Together s h ∧
      Traced Sees (fun _ => none, ⟨[], none⟩) events bs (seen s h, h) :=
  runs_simulate event_simulates (init_together mem) hg

theorem run_together (hl : runWith listStep ⟨[], none⟩ events = some (h, bs)) :
    ∃ s, runWith poolStep (Pool.init mem) events = some (s, bs) ∧ Together s h := by
  obtain ⟨s, h', bs', hs, hl', ht, -⟩ := runs_together hg mem
  cases hl.symm.trans hl'
  exact ⟨s, hs, ht⟩

/-- Every run through the pointers of the headers is one on the list of the blocks: it ends,
with the same answers, and the headers then hold that list. -/
theorem liballoc_runs_refine_blocks :
    ∃ s h bs, runWith poolStep (Pool.init mem) events = some (s, bs) ∧
      runWith listStep ⟨[], none⟩ events = some (h, bs) ∧ Represents s.get h.majors ∧
      s.memRoot = (h.majors.map (·.addr)).head?.getD 0 ∧ s.bestBet = h.bestBet.getD 0 := by
  obtain ⟨s, h, bs, hs, hl, ht, -⟩ := runs_together hg mem
  exact ⟨s, h, bs, hs, hl, ht.1.shown, ht.1.root, ht.1.bet⟩

end Runs

theorem first_call_refines :
    ∃ s h bs, runWith poolStep (Pool.init fun _ => 0xFF) (firstCall :: useAndFree) =
        some (s, bs) ∧
      runWith listStep ⟨[], none⟩ (firstCall :: useAndFree) = some (h, bs) ∧
      Represents s.get h.majors ∧ s.memRoot = (h.majors.map (·.addr)).head?.getD 0 ∧
      s.bestBet = h.bestBet.getD 0 :=
  liballoc_runs_refine_blocks (first_call_guarded use_and_free_guarded) _

/-- An object is one of the chunks. -/
theorem seen_chunk {p : UInt32} {xs : List UInt8} (hp : seen s h p = some xs) :
    ∃ c ∈ chunks h.majors, p = ptr c ∧ xs = slice s.mem p.toNat c.reqSize.toNat := by
  obtain ⟨c, hc, rfl⟩ := Option.map_eq_some_iff.mp hp
  exact ⟨c, List.mem_of_find?_eq_some hc, (by simpa using List.find?_some hc : ptr c = p).symm, rfl⟩

/-- The users of the heap have objects of their own: what a run answers is what a store of
objects may answer, with a null pointer for a request if and only if there is no memory for
it, and at the end the bytes of each object stand under its pointer, apart from those of
every other one. -/
theorem heap_runs_serve_objects
    (hg : Guarded (silent listStep) Permitted ⟨[], none⟩ events) (mem : Nat → UInt8) :
    ∃ s bs o h, runWith poolStep (Pool.init mem) events = some (s, bs) ∧
      Represents s.get h.majors ∧ Traced Sees (fun _ => none, ⟨[], none⟩) events bs (o, h) ∧
      (∀ p xs, o p = some xs → slice s.mem p.toNat xs.length = xs) ∧
      ∀ p q xs ys, o p = some xs → o q = some ys → p ≠ q →
        p.toNat + xs.length ≤ q.toNat ∨ q.toNat + ys.length ≤ p.toNat := by
  obtain ⟨s, h, bs, hs, -, ht, htr⟩ := runs_together hg mem
  refine ⟨s, bs, seen s h, h, hs, ht.1.shown, htr, ?_, ?_⟩
  · intro p xs hp
    obtain ⟨c, -, -, rfl⟩ := seen_chunk hp
    rw [slice_length]
  · intro p q xs ys hp hq hpq
    obtain ⟨c, hc, rfl, rfl⟩ := seen_chunk hp
    obtain ⟨d, hd, rfl, rfl⟩ := seen_chunk hq
    rw [slice_length, slice_length]
    exact payloads_apart ht.1.sound hc hd (fun he => hpq (he ▸ rfl))

theorem first_call_serves_object :
    ∃ s bs o h, runWith poolStep (Pool.init fun _ => 0xFF) (firstCall :: useAndFree) =
        some (s, bs) ∧ Represents s.get h.majors ∧
      Traced Sees (fun _ => none, ⟨[], none⟩) (firstCall :: useAndFree) bs (o, h) ∧
      (∀ p xs, o p = some xs → slice s.mem p.toNat xs.length = xs) ∧
      ∀ p q xs ys, o p = some xs → o q = some ys → p ≠ q →
        p.toNat + xs.length ≤ q.toNat ∨ q.toNat + ys.length ≤ p.toNat :=
  heap_runs_serve_objects (first_call_guarded use_and_free_guarded) _

section Counters

variable {majors : List Major}

/-- A block pays for its header and for the headers and the memory of its chunks. -/
theorem block_paid {m : Major} (hb : SoundBlock m) :
    (m.minors.map (·.size.toNat)).sum + 24 * (m.minors.length + 1) ≤ m.size.toNat := by
  have htaken := hb.spaced.covered_le
  have hsum : covered lo hi m.minors =
      (m.minors.map (·.size.toNat)).sum + 24 * m.minors.length := by
    induction m.minors with
    | nil => rfl
    | cons c cs ih =>
      rw [covered_cons, ih, hi_sub_lo, List.map_cons, List.sum_cons, List.length_cons]
      omega
  simp only [base, top] at htaken
  omega

theorem blocks_paid (hb : ∀ m ∈ majors, SoundBlock m) :
    usedBytes majors + 24 * (majors.length + (chunks majors).length) ≤ acquired majors := by
  induction majors with
  | nil => exact Nat.le_refl 0
  | cons m rest ih =>
    have hrest := ih (fun n hn => hb n (List.mem_cons_of_mem _ hn))
    have hm := block_paid (hb m List.mem_cons_self)
    simp only [usedBytes, acquired, chunks, List.flatMap_cons, List.map_append, List.sum_append,
      List.map_cons, List.sum_cons, List.length_append, List.length_cons] at hrest ⊢
    omega

theorem acquired_lt (hs : Sound majors) : acquired majors < 2 ^ 64 := by
  have hcount := majors_count hs
  have hsum : acquired majors ≤ majors.length * 2 ^ 32 := by
    have hle := List.sum_le_card_nsmul (majors.map (·.size.toNat)) (2 ^ 32) (by
      intro n hn
      obtain ⟨m, -, rfl⟩ := List.mem_map.mp hn
      exact Nat.le_of_lt m.size.toNat_lt)
    rwa [List.length_map, smul_eq_mul] at hle
  simp only [headerRoom] at hcount
  omega

end Counters

/-- The two counters are exact after every run, what is in use with all headers is not more
than what has been acquired, and when every chunk has been given back nothing is kept. -/
theorem heap_counters_exact (hg : Guarded (silent listStep) Permitted ⟨[], none⟩ events)
    (hl : runWith listStep ⟨[], none⟩ events = some (h, bs)) (mem : Nat → UInt8) :
    ∃ s, runWith poolStep (Pool.init mem) events = some (s, bs) ∧
      s.inuse.toNat = ((chunks h.majors).map (·.size.toNat)).sum ∧
      s.allocated.toNat = (h.majors.map (·.size.toNat)).sum ∧
      s.inuse.toNat + 24 * (h.majors.length + (chunks h.majors).length) ≤ s.allocated.toNat ∧
      (chunks h.majors = [] → s.memRoot = 0 ∧ s.bestBet = 0 ∧ s.allocated = 0) := by
  obtain ⟨s, hs, hh, hne⟩ := run_together hg mem hl
  have hlt := acquired_lt hh.sound
  have hpaid := blocks_paid hh.sound.block
  have hinuse : s.inuse.toNat = usedBytes h.majors := by
    rw [hh.inuse, UInt64.toNat_ofNat']
    exact Nat.mod_eq_of_lt (by omega)
  have hallocated : s.allocated.toNat = acquired h.majors := by
    rw [hh.allocated, UInt64.toNat_ofNat']
    exact Nat.mod_eq_of_lt hlt
  refine ⟨s, hs, hinuse, hallocated, by rw [hinuse, hallocated]; exact hpaid, ?_⟩
  intro hnone
  have hnil : h.majors = [] := by
    refine List.eq_nil_iff_forall_not_mem.mpr ?_
    intro m hm
    exact hne m hm (List.flatMap_eq_nil_iff.mp hnone m hm)
  have hbet : h.bestBet = none := by
    cases hb : h.bestBet with
    | none => rfl
    | some b =>
      have hin := hh.betBlock b hb
      simp [hnil] at hin
  refine ⟨?_, ?_, ?_⟩
  · rw [hh.root, hnil]
    rfl
  · rw [hh.bet, hbet]
    rfl
  · rw [hh.allocated, hnil]
    rfl

theorem first_call_counted :
    ∃ s, runWith poolStep (Pool.init fun _ => 0xFF) [firstCall] =
        some (s, [(0xC0000040, [(none, 0xC0000040)])]) ∧
      s.inuse.toNat = ((chunks oneChunk.majors).map (·.size.toNat)).sum ∧
      s.allocated.toNat = (oneChunk.majors.map (·.size.toNat)).sum ∧
      s.inuse.toNat + 24 * (oneChunk.majors.length + (chunks oneChunk.majors).length) ≤
        s.allocated.toNat ∧
      (chunks oneChunk.majors = [] → s.memRoot = 0 ∧ s.bestBet = 0 ∧ s.allocated = 0) :=
  heap_counters_exact first_call_alone first_call_run _

section Requests

variable {n : UInt32} {page : Nat → UInt32} {majors majors' : List Major} {x : Minor}

/-- `malloc` returns a null pointer if and only if the page allocator has no pages and no
block has a gap for the request, its alignment and its header: the search overlooks none. -/
theorem malloc_null_iff_no_room (hg : Guarded (silent listStep) Permitted ⟨[], none⟩ events)
    (hl : runWith listStep ⟨[], none⟩ events = some (h, bs)) (hroom : Room h n page)
    (mem : Nat → UInt8) (current : Option Nat) :
    ∃ s r, runWith poolStep (Pool.init mem) events = some (s, bs) ∧
      s.malloc rounds current page n = some r ∧
      (r.p = 0 ↔ page (pageAsked h.majors) = 0 ∧
        ∀ m ∈ h.majors, ∀ a, ¬ Gap m (n.toNat + 56) a) := by
  obtain ⟨s, hs, hh, -⟩ := run_together hg mem hl
  obtain ⟨r, r', hr, -, -, -, hholds, -, hanswer⟩ := take_refines hh (Nat.le_refl _) hroom current
  exact ⟨s, r, hs, hr, null_iff_exhausted hh hholds.sound hroom hanswer⟩

/-- No page is left for a second request. -/
theorem second_call_room (hn : n.toNat + 4176 ≤ 2 ^ 32) : Room oneChunk n (fun _ => 0) :=
  ⟨hn, ⟨fun hnil => absurd hnil (by decide), fun _ _ hz => absurd rfl hz⟩⟩

theorem second_call_null_iff :
    ∃ s r, runWith poolStep (Pool.init fun _ => 0xFF) [firstCall] =
        some (s, [(0xC0000040, [(none, 0xC0000040)])]) ∧
      s.malloc rounds none (fun _ => 0) 70000 = some r ∧
      (r.p = 0 ↔ (0 : UInt32) = 0 ∧ ∀ m ∈ oneChunk.majors, ∀ a, ¬ Gap m (70000 + 56) a) :=
  malloc_null_iff_no_room first_call_alone first_call_run
    (second_call_room (by decide)) _ _

/-- A chunk that has been made and is given back leaves the blocks as they were. -/
theorem supply_undone {size reqSize : UInt32} (hne : NoEmpty majors) (hs : Sound majors')
    (hperm : (chunks majors').Perm (x :: chunks majors))
    (hsupply : Supply majors majors' size reqSize page) :
    ∃ pre m' post as bs, majors' = pre ++ m' :: post ∧ m'.minors = as ++ x :: bs ∧
      ∀ bet, (Liballoc.release ⟨pre ++ m' :: post, bet⟩ m' x).majors = majors := by
  cases hsupply with
  | gap pre m post as bs y m' hold hnew hv hins =>
    have hyx : y = x := by
      rw [hold, hnew] at hperm
      have hboth := Multiset.coe_eq_coe.mpr ((inserted_chunks hins pre post).symm.trans hperm)
      rw [← Multiset.cons_coe, ← Multiset.cons_coe] at hboth
      exact (Multiset.cons_inj_left _).mp hboth
    subst hyx
    have hm' : m'.minors = as ++ y :: bs := by rw [hins.new]
    have hcut : cut m' y as bs = m := by
      rw [cut, hins.new]
      simp only [UInt32.add_sub_cancel, ← hins.old]
    refine ⟨pre, m', post, as, bs, hnew, hm', ?_⟩
    intro bet
    have hnil : as ++ bs ≠ [] := hins.old ▸ hne m (by simp [hold])
    rw [release_eq (hnew ▸ hs) hm', if_neg hnil, hcut, hold]
  | pages k m' hk hfull hpage hnew =>
    have hm' : m'.minors = [] ++ x :: [] := by
      have hlast : (chunks majors ++ m'.minors).Perm (chunks majors ++ [x]) := by
        have hchunks : chunks (majors ++ [m']) = chunks majors ++ m'.minors := by simp [chunks]
        rw [← hchunks, ← hnew]
        exact hperm.trans (List.perm_append_singleton x _).symm
      exact List.perm_singleton.mp ((List.perm_append_left_iff _).mp hlast)
    refine ⟨majors, m', [], [], [], hnew, hm', ?_⟩
    intro bet
    rw [release_eq (hnew ▸ hs) hm', if_pos (List.append_nil []), List.append_nil]

/-- `free` undoes `malloc`: the headers hold the blocks they held before, the counters and
the objects are those from before; only the best bet may be another one. -/
theorem free_undoes_malloc (hg : Guarded (silent listStep) Permitted ⟨[], none⟩ events)
    (hl : runWith listStep ⟨[], none⟩ events = some (h, bs)) (hroom : Room h n page)
    (mem : Nat → UInt8) (current : Option Nat) :
    ∃ s r, runWith poolStep (Pool.init mem) events = some (s, bs) ∧
      s.malloc rounds current page n = some r ∧
      (r.p ≠ 0 → Represents (r.heap.free r.p).get h.majors ∧
        (r.heap.free r.p).memRoot = s.memRoot ∧ (r.heap.free r.p).inuse = s.inuse ∧
        (r.heap.free r.p).allocated = s.allocated ∧ seen (r.heap.free r.p) h = seen s h) := by
  obtain ⟨s, hs, hh, hne⟩ := run_together hg mem hl
  obtain ⟨r, r', hr, -, -, -, hholds, hu, hanswer⟩ := take_refines hh (Nat.le_refl _) hroom current
  refine ⟨s, r, hs, hr, ?_⟩
  intro hp
  cases hanswer with
  | null hz => exact absurd hz hp
  | chunk x hx hreq hperm hclear hsupply =>
    obtain ⟨pre, m', post, as, bs', hnew, hm', hback⟩ :=
      supply_undone hne hholds.sound hperm hsupply
    have hheap : r'.heap = ⟨pre ++ m' :: post, r'.heap.bestBet⟩ := by rw [← hnew]
    obtain ⟨hfree, hf⟩ := free_holds (hheap ▸ hholds) hm'
    rw [← hx] at hfree hf
    rw [← hnew] at hf
    have hback := hback r'.heap.bestBet
    generalize Liballoc.release _ m' x = h₂ at hfree hback
    have hu' : Untouched s (r.heap.free r.p) h.majors := by
      intro c hc a ha
      have hc' := hperm.symm.subset (List.mem_cons_of_mem _ hc)
      exact (hf a (body_off hholds.sound hc' ha)).trans (hu c hc a ha)
    refine ⟨hback ▸ hfree.shown, ?_, ?_, ?_, objects_untouched hh.sound hu'⟩
    · rw [hfree.root, hh.root, hback]
    · rw [hfree.inuse, hh.inuse, hback]
    · rw [hfree.allocated, hh.allocated, hback]

theorem second_call_undone :
    ∃ s r, runWith poolStep (Pool.init fun _ => 0xFF) [firstCall] =
        some (s, [(0xC0000040, [(none, 0xC0000040)])]) ∧
      s.malloc rounds none (fun _ => 0) 20 = some r ∧
      (r.p ≠ 0 → Represents (r.heap.free r.p).get oneChunk.majors ∧
        (r.heap.free r.p).memRoot = s.memRoot ∧ (r.heap.free r.p).inuse = s.inuse ∧
        (r.heap.free r.p).allocated = s.allocated ∧
        seen (r.heap.free r.p) oneChunk = seen s oneChunk) :=
  free_undoes_malloc first_call_alone first_call_run (second_call_room (by decide)) _ _

end Requests

section DoubleFree

variable {s' : Pool} {h' : Liballoc} {c : Minor} {p : UInt32} {more : List Event}

/-- The header of a chunk that has been given back is still there: nothing that is in use
reaches into it. -/
structure Dead (s : Pool) (h : Liballoc) (c : Minor) : Prop where
  fitted : Fitted c
  noted : Noted s.mem c
  magic : s.get c.addr magicAt = liballocDead
  chunk : ∀ d ∈ chunks h.majors, hi c ≤ lo d ∨ hi d ≤ lo c
  block : ∀ m ∈ h.majors, hi c ≤ m.addr.toNat ∨ m.addr.toNat + 24 ≤ lo c

/-- `free` of it only counts an error. -/
theorem Dead.refused (hd : Dead s h c) :
    s.free (ptr c) = { s with errorCount := s.errorCount + 1 } := by
  have hmask : ¬ (liballocDead &&& 0xFFFFFF = liballocMagic &&& 0xFFFFFF ∨
      liballocDead &&& 0xFFFF = liballocMagic &&& 0xFFFF ∨
      liballocDead &&& 0xFF = liballocMagic &&& 0xFF) := by decide
  have hne : liballocDead ≠ liballocMagic := by decide
  rw [Pool.free, if_neg hd.fitted.ptr_ne_zero]
  simp only [minor_of_ptr hd.fitted hd.noted, hd.magic, refuse, if_pos hne, if_neg hmask]

/-- It stays so while its memory does and nothing new comes into use. -/
theorem Dead.keep (hd : Dead s h c) (hmem : ∀ a, lo c ≤ a → a < hi c → s'.mem a = s.mem a)
    (hsub : ∀ d ∈ chunks h'.majors, d ∈ chunks h.majors)
    (haddr : ∀ m ∈ h'.majors, ∃ n ∈ h.majors, n.addr = m.addr) : Dead s' h' c := by
  have hbody := hd.fitted.note_body
  simp only [Body] at hbody
  refine ⟨hd.fitted, ?_, ?_, fun d hc => hd.chunk d (hsub d hc), ?_⟩
  · rw [Noted, hmem _ (by omega) hbody.2]
    exact hd.noted
  · refine (field_congr magicAt ?_).trans hd.magic
    intro i hi
    refine hmem _ (Nat.le_add_right _ _) ?_
    have hsized := hd.fitted.sized
    simp only [Blocks.hi]
    omega
  · intro m hm
    obtain ⟨n, hn, he⟩ := haddr m hm
    rw [← he]
    exact hd.block n hn

theorem Dead.off (hd : Dead s h c) (hlo : lo c ≤ a) (hhi : a < hi c) :
    ∀ b ∈ headers h.majors, Views.Off b a := by
  intro b hb
  obtain ⟨m, hm, rfl | ⟨d, hdm, rfl⟩⟩ := mem_headers.mp hb
  · have hblock := hd.block m hm
    simp only [Views.Off]
    omega
  · have hchunk := hd.chunk d (mem_chunks hm hdm)
    simp only [Views.Off]
    simp only [lo, hi] at hchunk hlo hhi
    omega

/-- The blocks `free` leaves stand where they stood. -/
theorem release_addrs {pre post : List Major} {m : Major} {as bs : List Minor}
    {bet : Option UInt32} (hs : Sound (pre ++ m :: post)) (hm : m.minors = as ++ c :: bs) :
    ∀ n ∈ (Liballoc.release ⟨pre ++ m :: post, bet⟩ m c).majors,
      ∃ o ∈ pre ++ m :: post, o.addr = n.addr := by
  intro n hn
  rw [release_eq hs hm] at hn
  split at hn
  case isTrue => exact ⟨n, mem_of_rest hn, rfl⟩
  case isFalse =>
    rcases mem_split hn with rfl | hn
    · exact ⟨m, by simp, rfl⟩
    · exact ⟨n, mem_of_rest hn, rfl⟩

theorem give_addrs (hs : Sound h.majors) {m : Major} (ho : h.owner p = some (m, c)) :
    ∀ n ∈ (h.release m c).majors, ∃ o ∈ h.majors, o.addr = n.addr := by
  obtain ⟨pre, post, bet, as, bs, rfl, hm, -⟩ := owner_split ho
  exact release_addrs hs hm

/-- No block begins in a chunk. -/
theorem chunk_off_block {majors : List Major} (hs : Sound majors) (hc : c ∈ chunks majors) :
    ∀ n ∈ majors, hi c ≤ n.addr.toNat ∨ n.addr.toNat + 24 ≤ lo c := by
  intro n hn
  obtain ⟨m, hm, hcm⟩ := List.mem_flatMap.mp hc
  have hin := (hs.block m hm).spaced.mem hcm
  have hbase := (hs.block n hn).spaced.bounds
  simp only [base] at hin hbase
  rcases same_or_apart hs hm hn with rfl | hap
  · exact .inr hin.1
  · omega

theorem dead_of_free (hh : Intact s h) {m : Major} (ho : h.owner p = some (m, c)) :
    Dead (s.free p) (h.release m c) c := by
  obtain ⟨pre, post, bet, as, bs, rfl, hm, rfl⟩ := owner_split ho
  obtain ⟨hholds, hf⟩ := free_holds hh hm
  have hperm : (chunks (pre ++ m :: post)).Perm
      (c :: chunks (Liballoc.release ⟨pre ++ m :: post, bet⟩ m c).majors) :=
    release_chunks hh.sound hm
  have hc : c ∈ chunks (pre ++ m :: post) := hperm.symm.subset List.mem_cons_self
  have hfit := fitted hh.sound hc
  refine ⟨hfit, ?_, free_dead hh hm, ?_, ?_⟩
  · rw [Noted, hf _ (body_off hh.sound hc hfit.note_body)]
    exact hh.noted c hc
  · have hapart := hperm.pairwise (chunks_apart hh.sound) Or.symm
    exact (List.pairwise_cons.mp hapart).1
  · intro n hn
    obtain ⟨o, ho', he⟩ := release_addrs hh.sound hm n hn
    rw [← he]
    exact chunk_off_block hh.sound hc o ho'

/-- The events that bring nothing new into use. -/
def Quiet : Event → Prop
  | .call _ _ (.free _) => True
  | .call _ _ _ => False
  | .store _ _ _ => True

theorem quiet_keeps_dead (s : Pool) (h : Liballoc) (e : Event)
    (ht : Together s h ∧ Dead s h c) (hp : Permitted h e ∧ Quiet e) :
    ∃ s' h' b, poolStep s e = some (s', b) ∧ listStep h e = some (h', b) ∧
      (Together s' h' ∧ Dead s' h' c) ∧ Sees (seen s h, h) e b (seen s' h', h') := by
  obtain ⟨ht, hd⟩ := ht
  obtain ⟨hp, hq⟩ := hp
  obtain ⟨s', h', b, hs', hh', ht', hsees⟩ := event_simulates s h e ht hp
  refine ⟨s', h', b, hs', hh', ⟨ht', ?_⟩, hsees⟩
  cases e with
  | call current page call =>
    cases call with
    | malloc => exact hq.elim
    | calloc => exact hq.elim
    | realloc => exact hq.elim
    | free q =>
      obtain ⟨h₁, hgive, -, hf, hcase⟩ := give_refines ht.1 hp
      cases hs'
      rw [listStep, Liballoc.call, hgive] at hh'
      cases hh'
      have hmem : ∀ a, lo c ≤ a → a < hi c → (s.free q).mem a = s.mem a :=
        fun a hlo hhi => hf a (hd.off hlo hhi)
      rcases hcase with ⟨-, rfl⟩ | ⟨m, d, ho, rfl, hperm⟩
      · exact hd.keep hmem (fun _ hc => hc) (fun m hm => ⟨m, hm, rfl⟩)
      · exact hd.keep hmem (fun d hd => hperm.symm.subset (List.mem_cons_of_mem _ hd))
          (give_addrs ht.1.sound ho)
  | store q i v =>
    cases hs'
    cases hh'
    obtain ⟨m, d, ho, hi⟩ := hp
    obtain ⟨hm, hdm, rfl⟩ := owner_mem ho
    have hdc := mem_chunks hm hdm
    have hbounds := (fitted ht.1.sound hdc).ptr_bounds
    have hap := hd.chunk d hdc
    refine hd.keep ?_ (fun _ hc => hc) (fun m hm => ⟨m, hm, rfl⟩)
    intro a hlo hhi
    exact Function.update_of_ne (by omega) _ _

/-- A pointer that is freed a second time, with only other frees and stores in between, is
found out: the call counts an error and does nothing else. -/
theorem double_free_only_counts {current : Option Nat} {page : Nat → UInt32}
    (hg : Guarded (silent listStep) Permitted ⟨[], none⟩
      (events ++ .call current page (.free p) :: more))
    (hp : p ≠ 0) (hq : ∀ e ∈ more, Quiet e) (mem : Nat → UInt8) :
    ∃ t bs, runWith poolStep (Pool.init mem) (events ++ .call current page (.free p) :: more) =
      some (t, bs) ∧ t.free p = { t with errorCount := t.errorCount + 1 } := by
  obtain ⟨hg₁, hrest⟩ := guarded_append_iff.mp hg
  obtain ⟨s, h, bs₁, hs, hl, ht, -⟩ := runs_together hg₁ mem
  have hg₂ := hrest h (run_silent hl)
  obtain ⟨⟨m, c⟩, ho⟩ := Option.isSome_iff_exists.mp (Or.resolve_left hg₂.1 hp)
  obtain ⟨s₁, h₁, b, hs₁, hl₁, ht₁, -⟩ := event_simulates s h _ ht hg₂.1
  have hd : Dead s₁ h₁ c := by
    have hgive : h.give p = some (h.release m c) := by
      rw [Liballoc.give, if_neg hp, ho]
      rfl
    cases hs₁
    rw [listStep, Liballoc.call, hgive] at hl₁
    cases hl₁
    exact dead_of_free ht.1 ho
  have hg₃ : Guarded (silent listStep) Permitted h₁ more :=
    hg₂.tail (by rw [silent, hl₁]; rfl)
  obtain ⟨t, k, bs₂, hs₂, -, hend, -⟩ :=
    runs_simulate quiet_keeps_dead ⟨ht₁, hd⟩ (hg₃.and_forall hq)
  refine ⟨t, bs₁ ++ b :: bs₂, runWith_append hs (runWith_cons hs₁ hs₂), ?_⟩
  rw [← (owner_mem ho).2.2]
  exact hend.2.refused

theorem first_chunk_freed_twice :
    ∃ t bs, runWith poolStep (Pool.init fun _ => 0xFF)
        ([firstCall] ++ .call none (fun _ => 0) (.free 0xC0000040) ::
          [.call none (fun _ => 0) (.free 0)]) = some (t, bs) ∧
      t.free 0xC0000040 = { t with errorCount := t.errorCount + 1 } := by
  refine double_free_only_counts (first_call_guarded ?_) (by decide) ?_ _
  · refine .cons (t := ⟨[], none⟩) (by decide) (.inr (by decide)) ?_
    exact .single (.inl rfl)
  · intro e he
    rw [List.mem_singleton.mp he]
    trivial

end DoubleFree

end Levos.Proofs.HeapRuns
