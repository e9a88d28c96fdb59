import Levos.Proofs.Resizing

namespace Levos.Proofs.Objects
open Library Pool Levos.Proofs.Blocks Levos.Proofs.Serving Levos.Proofs.HeapCalls
open Levos.Proofs.Freeing Levos.Proofs.Resizing
open Liballoc (HeapCall ptr owner shrink)

variable {s s' : Pool} {h h' : Liballoc} {m : Major} {c x : Minor} {cs ds : List Minor}
  {majors majors' : List Major} {mem mem' : Nat → UInt8} {n p : UInt32} {page : Nat → UInt32}
  {fuel : Nat} {current : Option Nat}

/-- What the users of the heap have: bytes under pointers. -/
abbrev Owned := UInt32 → Option (List UInt8)

/-- The bytes of the chunks. -/
def objects (mem : Nat → UInt8) (cs : List Minor) : Owned := fun p =>
  (cs.find? (fun c => ptr c = p)).map (fun c => slice mem p.toNat c.reqSize.toNat)

theorem objects_cons (mem : Nat → UInt8) (c : Minor) (cs : List Minor) :
    objects mem (c :: cs) = Function.update (objects mem cs) (ptr c)
      (some (slice mem (ptr c).toNat c.reqSize.toNat)) := by
  funext p
  by_cases hp : p = ptr c
  · subst hp
    simp [objects]
  · rw [Function.update_of_ne hp, objects, List.find?_cons_of_neg (by simpa using Ne.symm hp)]
    rfl

theorem objects_absent (hc : ∀ d ∈ cs, ptr d ≠ p) : objects mem cs p = none := by
  rw [objects, List.find?_eq_none.mpr (fun d hd => by simpa using hc d hd)]
  rfl

theorem objects_congr (hc : ∀ c ∈ cs, slice mem' (ptr c).toNat c.reqSize.toNat =
    slice mem (ptr c).toNat c.reqSize.toNat) : objects mem' cs = objects mem cs := by
  induction cs with
  | nil => rfl
  | cons c cs ih =>
    rw [objects_cons, objects_cons, ih (fun d hd => hc d (List.mem_cons_of_mem _ hd)),
      hc c List.mem_cons_self]

/-- The order of the chunks does not matter. -/
theorem objects_perm (hnd : (cs.map ptr).Nodup) (hperm : cs.Perm ds) :
    objects mem cs = objects mem ds := by
  induction hperm with
  | nil => rfl
  | cons c _ ih => rw [objects_cons, objects_cons, ih hnd.of_cons]
  | swap c d cs =>
    have hne : ptr d ≠ ptr c := by
      intro he
      simp [he] at hnd
    simp only [objects_cons]
    exact (Function.update_comm hne _ _ _).symm
  | trans h₁ _ ih₁ ih₂ => rw [ih₁ hnd, ih₂ ((h₁.map ptr).nodup_iff.mp hnd)]

theorem ptrs_nodup (hs : Sound majors) : ((chunks majors).map ptr).Nodup :=
  List.Nodup.map_on (fun _ hc _ hd he => ptr_inj hs hc hd he) (chunks_nodup hs)

theorem payload_slice (hs : Sound majors) (hc : c ∈ chunks majors) (hu : Untouched s s' majors) :
    slice s'.mem (ptr c).toNat c.reqSize.toNat = slice s.mem (ptr c).toNat c.reqSize.toNat := by
  refine slice_congr ?_
  intro i hi
  exact hu c hc _ (payload_body (fitted hs hc) ⟨by omega, by omega⟩)

theorem objects_untouched (hs : Sound majors) (hu : Untouched s s' majors) :
    objects s'.mem (chunks majors) = objects s.mem (chunks majors) :=
  objects_congr (fun _ hc => payload_slice hs hc hu)

/-- The bytes of two chunks do not overlap. -/
theorem payloads_apart {d : Minor} (hs : Sound majors) (hc : c ∈ chunks majors)
    (hd : d ∈ chunks majors) (hcd : c ≠ d) :
    (ptr c).toNat + c.reqSize.toNat ≤ (ptr d).toNat ∨
      (ptr d).toNat + d.reqSize.toNat ≤ (ptr c).toNat := by
  have hsymm : Std.Symm (fun c d : Minor => hi c ≤ lo d ∨ hi d ≤ lo c) := ⟨fun _ _ => Or.symm⟩
  have hapart := (chunks_apart hs).forall hc hd hcd
  have hcb := (fitted hs hc).ptr_bounds
  have hdb := (fitted hs hd).ptr_bounds
  omega

section Changes

variable (hs : Sound majors) (hs' : Sound majors') (hu : Untouched s s' majors)
include hs hu

include hs' in
/-- A new chunk is a new object. -/
theorem objects_new (hperm : (chunks majors').Perm (x :: chunks majors)) :
    objects s.mem (chunks majors) (ptr x) = none ∧
      objects s'.mem (chunks majors') = Function.update (objects s.mem (chunks majors)) (ptr x)
        (some (slice s'.mem (ptr x).toNat x.reqSize.toNat)) := by
  have hnd := ptrs_nodup hs'
  refine ⟨?_, ?_⟩
  · have hnew := (hperm.map ptr).nodup_iff.mp hnd
    refine objects_absent ?_
    intro d hd he
    exact (List.nodup_cons.mp hnew).1 (he ▸ List.mem_map_of_mem hd)
  · rw [objects_perm hnd hperm, objects_cons, objects_untouched hs hu]

/-- A chunk that is gone takes its object with it. -/
theorem objects_gone (hperm : (chunks majors).Perm (c :: chunks majors')) :
    objects s'.mem (chunks majors') =
      Function.update (objects s.mem (chunks majors)) (ptr c) none := by
  have hnd := ptrs_nodup hs
  have hnew := (hperm.map ptr).nodup_iff.mp hnd
  have hnone : objects s'.mem (chunks majors') (ptr c) = none := by
    refine objects_absent ?_
    intro d hd he
    exact (List.nodup_cons.mp hnew).1 (he ▸ List.mem_map_of_mem hd)
  rw [← objects_untouched hs hu, objects_perm hnd hperm, objects_cons, Function.update_idem,
    ← hnone, Function.update_eq_self]

end Changes

/-- The object of a chunk. -/
theorem objects_owner (mem : Nat → UInt8) (hs : Sound h.majors) (ho : h.owner p = some (m, c)) :
    objects mem (chunks h.majors) p = some (slice mem p.toNat c.reqSize.toNat) := by
  obtain ⟨hm, hc, rfl⟩ := owner_mem ho
  have hperm := List.perm_cons_erase (mem_chunks hm hc)
  rw [objects_perm (ptrs_nodup hs) hperm, objects_cons, Function.update_self]

/-- A chunk that is used for less is a shorter object. -/
theorem objects_trimmed {pre post : List Major} {as bs : List Minor}
    (hs : Sound (pre ++ m :: post)) (hm : m.minors = as ++ c :: bs) (hle : n ≤ c.reqSize)
    (hu : Untouched s s' (pre ++ m :: post)) :
    objects s'.mem (chunks (pre ++ trimmed m c as bs n :: post)) =
      Function.update (objects s.mem (chunks (pre ++ m :: post))) (ptr c)
        (some ((slice s.mem (ptr c).toNat c.reqSize.toNat).take n.toNat)) := by
  have hold := removed_chunks hm pre post
  have hnew : (chunks (pre ++ trimmed m c as bs n :: post)).Perm
      ({ c with reqSize := n } :: chunks (pre ++ cut m c as bs :: post)) := by
    have hcut :=
      removed_chunks (m := trimmed m c as bs n) (c := { c with reqSize := n }) rfl pre post
    rw [chunks_split, chunks_split] at hcut ⊢
    exact hcut
  have hsound : Sound (pre ++ trimmed m c as bs n :: post) :=
    hs.replace (trimmed_sound (hs.block m (by simp)) hm hle) rfl rfl
  have hle' := UInt32.le_iff_toNat_le.mp hle
  have htake : (slice s.mem (ptr c).toNat c.reqSize.toNat).take n.toNat =
      slice s'.mem (ptr c).toNat n.toNat := by
    have hc : c ∈ chunks (pre ++ m :: post) := hold.symm.subset List.mem_cons_self
    rw [← payload_slice hs hc hu]
    have htaken := slice_drop_take s'.mem (ptr c).toNat (i := 0)
      (by omega : 0 + n.toNat ≤ c.reqSize.toNat)
    rwa [List.drop_zero, Nat.add_zero] at htaken
  rw [htake, ← objects_untouched hs hu, objects_perm (ptrs_nodup hs) hold,
    objects_perm (ptrs_nodup hsound) hnew, objects_cons, objects_cons, Function.update_idem]
  rfl

/-- A pointer nobody has. -/
structure Fresh (o : Owned) (p : UInt32) : Prop where
  nonnull : p ≠ 0
  aligned : p.toNat % 16 = 0
  unused : o p = none

/-- What the calls may do to the objects, and what they may answer, if requests of these
sizes find no memory. A `realloc` that finds none for the larger object loses the old one. -/
inductive Serves (full : UInt32 → Prop) (o : Owned) : HeapCall → UInt32 → Owned → Prop
  | malloc {n p : UInt32} {bs : List UInt8} (hn : ¬ full n) (hp : Fresh o p)
      (hlen : bs.length = n.toNat) : Serves full o (.malloc n) p (Function.update o p (some bs))
  | mallocFull {n : UInt32} (hn : full n) : Serves full o (.malloc n) 0 o
  | calloc {k n p : UInt32} (hn : ¬ full (k * n)) (hp : Fresh o p) :
      Serves full o (.calloc k n) p
        (Function.update o p (some (List.replicate (k * n).toNat 0)))
  | callocFull {k n : UInt32} (hn : full (k * n)) : Serves full o (.calloc k n) 0 o
  | free {p : UInt32} {bs : List UInt8} (hp : o p = some bs) :
      Serves full o (.free p) 0 (Function.update o p none)
  | freeNull : Serves full o (.free 0) 0 o
  | reallocZero {p : UInt32} {o' : Owned} (hp : Serves full o (.free p) 0 o') :
      Serves full o (.realloc p 0) 0 o'
  | reallocNull {n q : UInt32} {o' : Owned} (hn : n ≠ 0) (hq : Serves full o (.malloc n) q o') :
      Serves full o (.realloc 0 n) q o'
  | reallocShrink {n p : UInt32} {bs : List UInt8} (hn : n ≠ 0) (hp : o p = some bs)
      (hle : n.toNat ≤ bs.length) :
      Serves full o (.realloc p n) p (Function.update o p (some (bs.take n.toNat)))
  | reallocGrow {n p q : UInt32} {bs more : List UInt8} (hn : ¬ full n) (hp : o p = some bs)
      (hlt : bs.length < n.toNat) (hq : Fresh o q) (hlen : (bs ++ more).length = n.toNat) :
      Serves full o (.realloc p n) q
        (Function.update (Function.update o q (some (bs ++ more))) p none)
  | reallocFull {n p : UInt32} {bs : List UInt8} (hn : full n) (hp : o p = some bs)
      (hlt : bs.length < n.toNat) : Serves full o (.realloc p n) 0 (Function.update o p none)

/-- The page `malloc` asks for: for its first block, or for one more. -/
def pageAsked (majors : List Major) : Nat := if majors = [] then 0 else 1

/-- There is neither a page nor a gap for the request, its alignment and its header. -/
def Exhausted (majors : List Major) (page : Nat → UInt32) (n : UInt32) : Prop :=
  page (pageAsked majors) = 0 ∧ ∀ m ∈ majors, ∀ a, ¬ Gap m (n.toNat + 56) a

/-- A block that serves a request has a gap for it. -/
theorem gap_of_visit (hh : Intact s h) (hm : m ∈ h.majors) {size reqSize : UInt32}
    (hsize : size.toNat + 24 < 2 ^ 32) (hv : Liballoc.visit size reqSize m ≠ none) :
    ∃ a, Gap m (size.toNat + 24) a := by
  obtain ⟨ch, hch⟩ := Option.ne_none_iff_exists'.mp hv
  obtain ⟨as, bs, hins, -⟩ := Placing.place_some (hh.sound.block m hm) (hh.shown.block m hm)
    (Searching.chunks_nonnull hh.sound hm) hsize (Nat.lt_succ_self _) hch
  exact ⟨_, hins.gap (hh.sound.block m hm)⟩

/-- The search overlooks no gap. -/
theorem null_iff_exhausted {r : Pool.Result} (hh : Intact s h) (hs : Sound majors')
    (hroom : Room h n page) (hanswer : Answer h.majors majors' n page r) :
    r.p = 0 ↔ Exhausted h.majors page n := by
  have hsmall := hroom.small
  have hsize : (n + 32).toNat = n.toNat + 32 := by
    rw [UInt32.toNat_add]
    exact Nat.mod_eq_of_lt (by change n.toNat + 32 < 2 ^ 32; omega)
  have hgap : n.toNat + 56 = (n + 32).toNat + 24 := by omega
  cases hanswer with
  | null hp hposted hsame hfull hpage =>
    refine iff_of_true hp ⟨hpage, ?_⟩
    intro m hm a
    rw [hgap]
    exact (hh.sound.block m hm).no_gap (by omega) (Malloc.visit_none.mp (hfull m hm)) a
  | chunk x hp hreq hperm hclear hsupply =>
    have hx := fitted hs (hperm.symm.subset List.mem_cons_self)
    refine iff_of_false (hp ▸ hx.ptr_ne_zero) ?_
    rintro ⟨hpage, hnone⟩
    cases hsupply with
    | gap pre m post as bs x m' hold hnew hv hins =>
      have hm : m ∈ h.majors := by simp [hold]
      obtain ⟨a, ha⟩ := gap_of_visit hh hm (by omega) hv
      exact hnone m hm a (hgap ▸ ha)
    | pages k m' hk hfull hpage' => exact hpage' (hk ▸ hpage)

/-- The objects of a heap. -/
def seen (s : Pool) (h : Liballoc) : Owned := objects s.mem (chunks h.majors)

/-- Every block has a chunk: empty ones have been given back. -/
def NoEmpty (majors : List Major) : Prop := ∀ m ∈ majors, m.minors ≠ []

/-- The two levels answer a call alike, and as the objects allow. -/
structure Agrees (s : Pool) (h : Liballoc) (page : Nat → UInt32) (call : HeapCall)
    (r : Pool.Result) (r' : Liballoc.Reply) : Prop where
  p : r.p = r'.p.getD 0
  posted : r.posted = r'.posted
  holds : Intact r.heap r'.heap
  full : NoEmpty r'.heap.majors
  serves : Serves (Exhausted h.majors page) (seen s h) call r.p (seen r.heap r'.heap)

theorem supply_no_empty {size reqSize : UInt32} (hne : NoEmpty majors)
    (hsupply : Supply majors majors' size reqSize page) : NoEmpty majors' := by
  intro n hn
  cases hsupply with
  | gap pre m post as bs x m' hold hnew hv hins =>
    rw [hnew] at hn
    rcases List.mem_append.mp hn with hn | hn
    · exact hne n (by simp [hold, hn])
    · rcases List.mem_cons.mp hn with rfl | hn
      · rw [hins.new]
        simp
      · exact hne n (by simp [hold, hn])
  | pages k m' hk hfull hpage hnew haddr hsize hm' =>
    rw [hnew] at hn
    rcases List.mem_append.mp hn with hn | hn
    · exact hne n hn
    · rw [List.mem_singleton.mp hn]
      exact hm'

theorem answer_no_empty {r : Pool.Result} (hne : NoEmpty majors)
    (hanswer : Answer majors majors' n page r) : NoEmpty majors' := by
  cases hanswer with
  | null hp hposted hsame => rwa [hsame]
  | chunk x hp hreq hperm hclear hsupply => exact supply_no_empty hne hsupply

theorem release_no_empty {pre post : List Major} {as bs : List Minor} {bet : Option UInt32}
    (hs : Sound (pre ++ m :: post)) (hm : m.minors = as ++ c :: bs)
    (hne : NoEmpty (pre ++ m :: post)) :
    NoEmpty (Liballoc.release ⟨pre ++ m :: post, bet⟩ m c).majors := by
  have hrest : ∀ n ∈ pre ++ post, n.minors ≠ [] := fun n hn => hne n (Headers.mem_of_rest hn)
  rw [release_eq hs hm]
  split
  case isTrue => exact hrest
  case isFalse hcut =>
    intro n hn
    rcases Headers.mem_split hn with rfl | hn
    · exact hcut
    · exact hrest n hn

/-- The new chunk is fresh for those who have the others. -/
theorem fresh_chunk (hs : Sound majors') (hperm : (chunks majors').Perm (x :: chunks majors))
    (hnone : objects mem (chunks majors) (ptr x) = none) :
    Fresh (objects mem (chunks majors)) (ptr x) := by
  have hf := fitted hs (hperm.symm.subset List.mem_cons_self)
  exact ⟨hf.ptr_ne_zero, hf.ptr_aligned, hnone⟩

/-- The new chunk is filled; the others do not see it. -/
theorem fill_chunk (hh : Intact s' h') (hperm : (chunks h'.majors).Perm (x :: chunks majors))
    (hu : Untouched s s' majors) (hmem : ∀ a, ¬ Payload x a → mem a = s'.mem a) :
    Intact { s' with mem := mem } h' ∧ Untouched s { s' with mem := mem } majors := by
  have hx : x ∈ chunks h'.majors := hperm.symm.subset List.mem_cons_self
  have hnew : x ∉ chunks majors :=
    (List.nodup_cons.mp (hperm.nodup_iff.mp (chunks_nodup hh.sound))).1
  refine ⟨holds_store hh mem (fun a ha => hmem a (ha x hx)), ?_⟩
  intro c hc a ha
  have hc' : c ∈ chunks h'.majors := hperm.symm.subset (List.mem_cons_of_mem _ hc)
  change mem a = s.mem a
  rw [hmem a, hu c hc a ha]
  intro hp
  have hcx := body_unique hh.sound hc' hx ha (payload_body (fitted hh.sound hx) hp)
  exact hnew (hcx ▸ hc)

/-- Without memory a call fills or copies to address 0, which is below all blocks. -/
theorem null_seen (hh : Intact s h) (hholds : Intact s' h') (hsame : h'.majors = h.majors)
    (hu : Untouched s s' h.majors) (hclear : Clear h.majors n)
    (hmem : ∀ a, n.toNat ≤ a → mem a = s'.mem a) :
    Intact { s' with mem := mem } h' ∧ seen { s' with mem := mem } h' = seen s h := by
  obtain ⟨hholds', hu'⟩ := holds_below hholds (hsame ▸ hclear) mem hmem
  rw [hsame] at hu'
  refine ⟨hholds', ?_⟩
  rw [seen, hsame]
  exact (objects_untouched hh.sound hu').trans (objects_untouched hh.sound hu)

/-- A new chunk that is filled is a fresh object of what it is filled with. -/
theorem chunk_seen (hh : Intact s h) (hholds : Intact s' h')
    (hperm : (chunks h'.majors).Perm (x :: chunks h.majors)) (hu : Untouched s s' h.majors)
    (hmem : ∀ a, ¬ Payload x a → mem a = s'.mem a) :
    Intact { s' with mem := mem } h' ∧ Fresh (seen s h) (ptr x) ∧
      seen { s' with mem := mem } h' = Function.update (seen s h) (ptr x)
        (some (slice mem (ptr x).toNat x.reqSize.toNat)) := by
  obtain ⟨hholds', hu'⟩ := fill_chunk hholds hperm hu hmem
  obtain ⟨hnone, hnew⟩ := objects_new hh.sound hholds.sound hu' hperm
  exact ⟨hholds', fresh_chunk hholds.sound hperm hnone, hnew⟩

/-- The bytes of a chunk are copied into a larger one. -/
theorem copied_chunk {d : Minor} (hs : Sound majors) (hc : c ∈ chunks majors)
    (hd : d ∈ chunks majors) (hcd : c ≠ d) (hle : c.reqSize.toNat ≤ d.reqSize.toNat)
    (mem : Nat → UInt8) :
    (∀ a, ¬ Payload d a →
      liballocMemcpy mem (ptr d).toNat (ptr c).toNat c.reqSize.toNat a = mem a) ∧
      ∃ rest : List UInt8, rest.length = d.reqSize.toNat - c.reqSize.toNat ∧
        slice (liballocMemcpy mem (ptr d).toNat (ptr c).toNat c.reqSize.toNat) (ptr d).toNat
          d.reqSize.toNat = slice mem (ptr c).toNat c.reqSize.toNat ++ rest := by
  have hap := payloads_apart hs hc hd hcd
  have hmoved := liballoc_memcpy_moved mem
    (by omega : (ptr d).toNat ≤ (ptr c).toNat ∨ (ptr c).toNat + c.reqSize.toNat ≤ (ptr d).toNat)
  have hsplit := slice_append
    (liballocMemcpy mem (ptr d).toNat (ptr c).toNat c.reqSize.toNat) (ptr d).toNat
    c.reqSize.toNat (d.reqSize.toNat - c.reqSize.toNat)
  rw [Nat.add_sub_cancel' hle, slice_ext hmoved.copied] at hsplit
  refine ⟨?_, _, ?_, hsplit⟩
  · intro a ha
    refine hmoved.frame a (fun i hi => ?_)
    rintro rfl
    simp only [Payload] at ha
    omega
  · exact slice_length _ _ _

section Calls

variable (hh : Intact s h) (hne : NoEmpty h.majors)
include hh hne

theorem malloc_agrees (hfuel : 2 ^ 30 ≤ fuel) (hroom : Room h n page) (current : Option Nat) :
    ∃ r r', s.malloc fuel current page n = some r ∧ h.take current (answers page) n = some r' ∧
      Agrees s h page (.malloc n) r r' := by
  obtain ⟨r, r', hr, hr', hp, hposted, hholds, hu, hanswer⟩ := take_refines hh hfuel hroom current
  have hnull := null_iff_exhausted hh hholds.sound hroom hanswer
  refine ⟨r, r', hr, hr', hp, hposted, hholds, answer_no_empty hne hanswer, ?_⟩
  cases hanswer with
  | null hz hposted hsame hfull hpage =>
    have hsame' : seen r.heap r'.heap = seen s h := by
      rw [seen, hsame]
      exact objects_untouched hh.sound hu
    rw [hz, hsame']
    exact .mallocFull (hnull.mp hz)
  | chunk x hx hreq hperm hclear hsupply =>
    obtain ⟨-, hfresh, hnew⟩ := chunk_seen hh hholds hperm hu (fun _ _ => rfl)
    have hn := hnull.not.mp (hx ▸ hfresh.nonnull)
    rw [hx, hnew, hreq]
    exact .malloc hn hfresh (slice_length _ _ _)

theorem calloc_agrees {k : UInt32} (hfuel : 2 ^ 30 ≤ fuel) (hroom : Room h (k * n) page)
    (hclear : Clear h.majors (k * n)) (current : Option Nat) :
    ∃ r r', s.calloc fuel current page k n = some r ∧
      h.take current (answers page) (k * n) = some r' ∧ Agrees s h page (.calloc k n) r r' := by
  obtain ⟨r, r', hr, hr', hp, hposted, hholds, hu, hanswer⟩ := take_refines hh hfuel hroom current
  have hnull := null_iff_exhausted hh hholds.sound hroom hanswer
  have hcalloc : s.calloc fuel current page k n = some { r with heap := { r.heap with
      mem := blit r.heap.mem r.p.toNat (List.replicate (k * n).toNat 0) } } := by
    rw [Pool.calloc, hr]
    rfl
  have hlen : (List.replicate (k * n).toNat (0 : UInt8)).length = (k * n).toNat :=
    List.length_replicate
  refine ⟨_, r', hcalloc, hr', ?_⟩
  have hfull := answer_no_empty hne hanswer
  cases hanswer with
  | null hz hnone hsame hvisit hpage =>
    have hblit : ∀ a, (k * n).toNat ≤ a →
        blit r.heap.mem r.p.toNat (List.replicate (k * n).toNat 0) a = r.heap.mem a := by
      intro a ha
      refine blit_outside _ (.inr ?_)
      rw [hz, hlen]
      exact (Nat.zero_add _).symm ▸ ha
    obtain ⟨hholds', hkeep⟩ := null_seen hh hholds hsame hu hclear hblit
    refine ⟨hp, hposted, hholds', hfull, ?_⟩
    rw [hkeep]
    change Serves _ _ _ r.p _
    rw [hz]
    exact .callocFull (hnull.mp hz)
  | chunk x hx hreq hperm hzero hsupply =>
    have hblit : ∀ a, ¬ Payload x a →
        blit r.heap.mem r.p.toNat (List.replicate (k * n).toNat 0) a = r.heap.mem a := by
      intro a ha
      refine blit_outside _ ?_
      rw [hx, hlen, ← hreq]
      simp only [Payload] at ha
      omega
    obtain ⟨hholds', hfresh, hnew⟩ := chunk_seen hh hholds hperm hu hblit
    refine ⟨hp, hposted, hholds', hfull, ?_⟩
    have hbytes : slice (blit r.heap.mem r.p.toNat (List.replicate (k * n).toNat 0))
        (ptr x).toNat x.reqSize.toNat = List.replicate (k * n).toNat 0 := by
      have hslice := slice_blit r.heap.mem r.p.toNat (List.replicate (k * n).toNat 0)
      rw [hlen] at hslice
      rw [← hx, hreq]
      exact hslice
    have hn := hnull.not.mp (hx ▸ hfresh.nonnull)
    rw [hnew, hbytes]
    change Serves _ _ _ r.p _
    rw [hx]
    exact .calloc hn hfresh

theorem give_owned (ho : h.owner p = some (m, c)) :
    ∃ h', h.give p = some h' ∧ Intact (s.free p) h' ∧ NoEmpty h'.majors ∧
      seen (s.free p) h' = Function.update (seen s h) p none := by
  obtain ⟨h', hgive, hholds, hf, hcase⟩ := give_refines hh (.inr (by rw [ho]; rfl))
  have hu := untouched_of_framed hf hh.sound (fun _ hc => hc)
  rcases hcase with ⟨rfl, -⟩ | ⟨m', c', ho', rfl, hperm⟩
  · obtain ⟨hm, hc, hz⟩ := owner_mem ho
    exact absurd hz (fitted hh.sound (mem_chunks hm hc)).ptr_ne_zero
  · have hgone := objects_gone hh.sound hu hperm
    obtain ⟨pre, post, bet, as, bs, rfl, hminors, rfl⟩ := owner_split ho'
    exact ⟨_, hgive, hholds, release_no_empty hh.sound hminors hne, hgone⟩

theorem give_agrees (hp : p = 0 ∨ (h.owner p).isSome) :
    ∃ h', h.give p = some h' ∧ Agrees s h page (.free p) ⟨s.free p, 0, []⟩ ⟨h', none, []⟩ := by
  by_cases hz : p = 0
  · subst hz
    obtain ⟨h', hgive, hholds, hf, -⟩ := give_refines hh (.inl rfl)
    cases hgive
    have hsame : seen (s.free 0) h = seen s h :=
      objects_untouched hh.sound (untouched_of_framed hf hh.sound (fun _ hc => hc))
    refine ⟨h, rfl, rfl, rfl, hholds, hne, ?_⟩
    change Serves _ _ _ 0 (seen (s.free 0) h)
    rw [hsame]
    exact .freeNull
  · obtain ⟨⟨m, c⟩, ho⟩ := Option.isSome_iff_exists.mp (hp.resolve_left hz)
    obtain ⟨h', hgive, hholds, hfull, hseen⟩ := give_owned hh hne ho
    refine ⟨h', hgive, rfl, rfl, hholds, hfull, ?_⟩
    change Serves _ _ _ 0 (seen (s.free p) h')
    rw [hseen]
    exact .free (objects_owner s.mem hh.sound ho)

omit hne in
/-- `realloc` reads the header `free` would. -/
theorem realloc_owned (ho : h.owner p = some (m, c)) (hn : n ≠ 0) (fuel : Nat)
    (page : Nat → UInt32) (current : Option Nat) :
    s.realloc fuel current page p n =
      if c.reqSize ≥ n then some ⟨s.put c.addr reqSizeAt n, p, []⟩
      else (s.malloc fuel current page n).map fun r =>
        { r with heap := { r.heap with
            mem := liballocMemcpy r.heap.mem r.p.toNat p.toNat c.reqSize.toNat }.free p } := by
  obtain ⟨hm, hc, rfl⟩ := owner_mem ho
  have hin := mem_chunks hm hc
  have hf := fitted hh.sound hin
  obtain ⟨-, hmagic, -, hreq⟩ := (hh.shown.block m hm).chunk c hc
  rw [Pool.realloc, if_neg hn, if_neg hf.ptr_ne_zero]
  simp only [minor_of_ptr hf (hh.noted c hin), hmagic, hreq, ne_eq, not_true_eq_false, if_false]

theorem shrink_agrees (ho : h.owner p = some (m, c)) (hn : n ≠ 0) (hle : n ≤ c.reqSize) :
    Agrees s h page (.realloc p n) ⟨s.put c.addr reqSizeAt n, p, []⟩
      ⟨h.shrink m c n, some p, []⟩ := by
  have hbytes := objects_owner s.mem hh.sound ho
  obtain ⟨pre, post, bet, as, bs, rfl, hminors, rfl⟩ := owner_split ho
  obtain ⟨hholds, hu⟩ := shrink_holds hh hminors hle
  refine ⟨rfl, rfl, hholds, ?_, ?_⟩
  · rw [shrink_eq hh.sound hminors]
    intro o ho
    rcases Headers.mem_split ho with rfl | ho
    · simp [trimmed]
    · exact hne o (Headers.mem_of_rest ho)
  · change Serves _ _ _ (ptr c)
      (objects (s.put c.addr reqSizeAt n).mem (chunks (shrink _ m c n).majors))
    rw [shrink_eq hh.sound hminors]
    change Serves _ _ _ _ (objects _ (chunks (pre ++ trimmed m c as bs n :: post)))
    rw [objects_trimmed hh.sound hminors hle hu]
    refine .reallocShrink hn hbytes ?_
    rw [slice_length]
    exact UInt32.le_iff_toNat_le.mp hle

theorem grow_agrees (ho : h.owner p = some (m, c)) (hlt : c.reqSize < n) (hfuel : 2 ^ 30 ≤ fuel)
    (hroom : Room h n page) (hclear : Clear h.majors n) (current : Option Nat) :
    ∃ r r' h', s.malloc fuel current page n = some r ∧ h.take current (answers page) n = some r' ∧
      r'.heap.give p = some h' ∧ Agrees s h page (.realloc p n)
        { r with heap := { r.heap with
          mem := liballocMemcpy r.heap.mem r.p.toNat p.toNat c.reqSize.toNat }.free p }
        { r' with heap := h' } := by
  obtain ⟨r, r', hr, hr', hp, hposted, hholds, hu, hanswer⟩ := take_refines hh hfuel hroom current
  have hnull := null_iff_exhausted hh hholds.sound hroom hanswer
  have hfull := answer_no_empty hne hanswer
  have hbytes := objects_owner s.mem hh.sound ho
  have hlt' := UInt32.lt_iff_toNat_lt.mp hlt
  cases hanswer with
  | null hz hnone hsame hvisit hpage =>
    have hmoved := liballoc_memcpy_moved r.heap.mem
      (.inl (Nat.zero_le p.toNat) : 0 ≤ p.toNat ∨ p.toNat + c.reqSize.toNat ≤ 0)
    have hbelow : ∀ a, n.toNat ≤ a →
        liballocMemcpy r.heap.mem r.p.toNat p.toNat c.reqSize.toNat a = r.heap.mem a := by
      intro a ha
      rw [hz]
      exact hmoved.frame a (fun i hi => by omega)
    obtain ⟨hholds₂, hkeep⟩ := null_seen hh hholds hsame hu hclear hbelow
    have ho₂ : r'.heap.owner p = some (m, c) := by
      rw [owner, hsame]
      exact ho
    obtain ⟨h', hgive, hholds', hfull', hseen⟩ := give_owned hholds₂ hfull ho₂
    refine ⟨r, r', h', hr, hr', hgive, hp, hposted, hholds', hfull', ?_⟩
    change Serves _ _ _ r.p (seen (Pool.free _ p) h')
    rw [hseen, hkeep, hz]
    refine .reallocFull (hnull.mp hz) hbytes ?_
    rw [slice_length]
    exact hlt'
  | chunk x hx hreq hperm hzero hsupply =>
    obtain ⟨hm, hcm, rfl⟩ := owner_mem ho
    have hc := mem_chunks hm hcm
    have hc' : c ∈ chunks r'.heap.majors := hperm.symm.subset (List.mem_cons_of_mem _ hc)
    have hx' : x ∈ chunks r'.heap.majors := hperm.symm.subset List.mem_cons_self
    have hcx : c ≠ x := by
      rintro rfl
      exact (List.nodup_cons.mp (hperm.nodup_iff.mp (chunks_nodup hholds.sound))).1 hc
    rw [← hreq] at hlt'
    obtain ⟨hfill, rest, hrest, hcopied⟩ :=
      copied_chunk hholds.sound hc' hx' hcx (Nat.le_of_lt hlt') r.heap.mem
    rw [payload_slice hh.sound hc hu, ← hx] at hcopied
    rw [← hx] at hfill
    obtain ⟨hholds₂, hfresh, hnew⟩ := chunk_seen hh hholds hperm hu hfill
    rw [← hx] at hfresh hnew
    obtain ⟨m₂, ho₂⟩ := owner_of_chunk hholds.sound hc'
    obtain ⟨h', hgive, hholds', hfull', hseen⟩ := give_owned hholds₂ hfull ho₂
    refine ⟨r, r', h', hr, hr', hgive, hp, hposted, hholds', hfull', ?_⟩
    change Serves _ _ _ r.p (seen (Pool.free _ (ptr c)) h')
    rw [hseen, hnew, hcopied]
    refine .reallocGrow (hnull.not.mp hfresh.nonnull) hbytes ?_ hfresh ?_
    · rw [slice_length, ← hreq]
      exact hlt'
    · rw [List.length_append, slice_length, hrest, ← hreq]
      omega

end Calls

/-- The chunk of a pointer, if there is one, does not have the size. -/
def Grows (h : Liballoc) (p n : UInt32) : Prop :=
  n ≠ 0 ∧ ∀ m c, h.owner p = some (m, c) → c.reqSize < n

/-- What the users and the page allocator keep to: only null pointers and pointers to chunks
are given back, and a request has room. -/
def Allowed (h : Liballoc) (page : Nat → UInt32) : HeapCall → Prop
  | .malloc n => Room h n page
  | .calloc k n => Room h (k * n) page ∧ Clear h.majors (k * n)
  | .realloc p n => (p = 0 ∨ (h.owner p).isSome) ∧
      (Grows h p n → Room h n page ∧ Clear h.majors n)
  | .free p => p = 0 ∨ (h.owner p).isSome

theorem owner_null (hs : Sound h.majors) : h.owner 0 = none := by
  cases ho : h.owner 0 with
  | none => rfl
  | some x =>
    obtain ⟨hm, hc, hz⟩ := owner_mem ho
    exact absurd hz (fitted hs (mem_chunks hm hc)).ptr_ne_zero

theorem realloc_agrees (hh : Intact s h) (hne : NoEmpty h.majors) (hfuel : 2 ^ 30 ≤ fuel)
    (hp : p = 0 ∨ (h.owner p).isSome) (hgrow : Grows h p n → Room h n page ∧ Clear h.majors n)
    (current : Option Nat) :
    ∃ r r', s.realloc fuel current page p n = some r ∧
      h.resize current (answers page) p n = some r' ∧ Agrees s h page (.realloc p n) r r' := by
  by_cases hn : n = 0
  · subst hn
    obtain ⟨h', hgive, ha⟩ := give_agrees hh hne hp
    refine ⟨⟨s.free p, 0, []⟩, ⟨h', none, []⟩, if_pos rfl, ?_, ha.p, ha.posted, ha.holds, ha.full,
      .reallocZero ha.serves⟩
    rw [Liballoc.resize, if_pos rfl, hgive]
    rfl
  · by_cases hz : p = 0
    · subst hz
      have hroom := (hgrow ⟨hn, by rw [owner_null hh.sound]; exact nofun⟩).1
      obtain ⟨r, r', hr, hr', ha⟩ := malloc_agrees hh hne hfuel hroom current
      refine ⟨r, r', ?_, ?_, ha.p, ha.posted, ha.holds, ha.full, .reallocNull hn ha.serves⟩
      · rw [Pool.realloc, if_neg hn, if_pos rfl]
        exact hr
      · rw [Liballoc.resize, if_neg hn, if_pos rfl]
        exact hr'
    · obtain ⟨⟨m, c⟩, ho⟩ := Option.isSome_iff_exists.mp (hp.resolve_left hz)
      rw [realloc_owned hh ho hn, Liballoc.resize, if_neg hn, if_neg hz, ho]
      by_cases hle : n ≤ c.reqSize
      · simp only [ge_iff_le, if_pos hle]
        exact ⟨_, _, rfl, rfl, shrink_agrees hh hne ho hn hle⟩
      · have hlt : c.reqSize < n := UInt32.not_le.mp hle
        have hgrows : Grows h p n := ⟨hn, fun m' c' ho' => by
          rw [ho] at ho'
          cases ho'
          exact hlt⟩
        obtain ⟨hroom, hclear⟩ := hgrow hgrows
        obtain ⟨r, r', h', hr, hr', hgive, ha⟩ :=
          grow_agrees hh hne ho hlt hfuel hroom hclear current
        simp only [ge_iff_le, if_neg hle, hr, hr', hgive, Option.map_some]
        exact ⟨_, _, rfl, rfl, ha⟩

/-- Every call that is allowed is answered alike on both levels. -/
theorem call_agrees (hh : Intact s h) (hne : NoEmpty h.majors) (hfuel : 2 ^ 30 ≤ fuel)
    {call : HeapCall} (hcall : Allowed h page call) (current : Option Nat) :
    ∃ r r', s.call fuel current page call = some r ∧
      h.call current (answers page) call = some r' ∧ Agrees s h page call r r' := by
  cases call with
  | malloc n => exact malloc_agrees hh hne hfuel hcall current
  | calloc k n => exact calloc_agrees hh hne hfuel hcall.1 hcall.2 current
  | realloc p n => exact realloc_agrees hh hne hfuel hcall.1 hcall.2 current
  | free p =>
    obtain ⟨h', hgive, ha⟩ := give_agrees hh hne hcall
    refine ⟨_, _, rfl, ?_, ha⟩
    rw [Liballoc.call, hgive]
    rfl

end Levos.Proofs.Objects
