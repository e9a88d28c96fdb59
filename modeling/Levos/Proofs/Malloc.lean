import Levos.Malloc

namespace Levos.Proofs.Malloc
open Liballoc

variable {h : Liballoc} {maj : Major} {min : Minor} {minors : List Minor} {size reqSize : UInt32}

/-- The gap in front of the first chunk. -/
def frontGap (maj : Major) (min : Minor) : UInt32 := min.addr - maj.addr - headerSize

/-- The gaps between neighbouring chunks. -/
def innerGaps : List Minor → List UInt32
  | min :: next :: rest =>
    (next.addr - min.addr - headerSize - min.size) :: innerGaps (next :: rest)
  | _ => []

/-- The room behind the last chunk. -/
def endGap (maj : Major) (min : Minor) : UInt32 :=
  maj.addr + maj.size - min.addr - headerSize - min.size

/-- None of the gaps in front of or between the chunks is large enough. -/
structure Packed (maj : Major) (size : UInt32) : Prop where
  front : ∀ min, maj.minors.head? = some min → frontGap maj min < need size
  inner : ∀ gap ∈ innerGaps maj.minors, gap < need size

/-- The block has no room: too little is free, or it is packed and there is no room
behind its last chunk either. -/
def Full (maj : Major) (size : UInt32) : Prop :=
  free maj < need size ∨ Packed maj size ∧
    ∃ min, maj.minors.getLast? = some min ∧ endGap maj min < need size

/-- The only room of the block is behind its last chunk. -/
structure OnlyBehind (maj : Major) (size : UInt32) : Prop where
  enough : need size ≤ free maj
  packed : Packed maj size
  room : ∃ min, maj.minors.getLast? = some min ∧ need size ≤ endGap maj min

/-- Among the blocks in the order of the search, the first one that has room has it
only behind its last chunk. -/
def EndServed (h : Liballoc) (size : UInt32) : Prop :=
  ∃ before x after, h.searched size = some (before ++ x :: after) ∧
    (∀ y ∈ before, Full y.1 size) ∧ OnlyBehind x.1 size

/-- The first bytes of the chunk are zero and it has been recorded, whatever the
memory held. -/
def Initialised (h : Liballoc) (current : Option Nat) (page : Nat → Option UInt32)
    (reqSize : UInt32) : Prop :=
  ∀ mem r p, malloc h current page mem reqSize = some r → r.p = some p →
    (∀ i < reqSize, r.mem (p + i) = 0) ∧ (current, p) ∈ r.posted

/-- The loop over the chunks ends in the first gap that is large enough, and behind
the last chunk if there is none. -/
theorem scan_minors_exit (size reqSize : UInt32) (maj : Major) (minors : List Minor) :
    (scanMinors size reqSize maj minors).map Prod.fst =
      if ∀ gap ∈ innerGaps minors, gap < need size then
        minors.getLast?.bind (fun last =>
          if need size ≤ endGap maj last then some .behind else none)
      else some .between := by
  induction minors with
  | nil => simp [scanMinors, innerGaps]
  | cons min rest ih =>
    cases rest with
    | nil =>
      by_cases hroom : need size ≤ maj.addr + maj.size - min.addr - headerSize - min.size <;>
        simp [scanMinors, innerGaps, endGap, hroom]
    | cons next rest =>
      by_cases hgap : need size ≤ next.addr - min.addr - headerSize - min.size
      · have hroom := UInt32.not_lt.mpr hgap
        simp [scanMinors, innerGaps, hgap, hroom]
      · have htight := UInt32.not_le.mp hgap
        simp only [innerGaps, List.forall_mem_cons, htight, true_and,
          List.getLast?_cons_cons] at ih ⊢
        rw [← ih]
        simp [scanMinors, hgap, Function.comp_def]

theorem scan_minors_none (hl : minors.getLast? = some min) :
    scanMinors size reqSize maj minors = none ↔
      (∀ gap ∈ innerGaps minors, gap < need size) ∧ endGap maj min < need size := by
  have hexit := scan_minors_exit size reqSize maj minors
  rw [hl, Option.bind_some] at hexit
  rw [← Option.map_eq_none_iff (f := Prod.fst), hexit]
  by_cases hin : ∀ gap ∈ innerGaps minors, gap < need size
  · rw [if_pos hin, and_iff_right hin, ite_eq_right_iff, ← UInt32.not_le]
    simp
  · simp [hin]

theorem scan_minors_behind (reqSize : UInt32) (hl : minors.getLast? = some min) :
    (∃ x, scanMinors size reqSize maj minors = some (.behind, x)) ↔
      (∀ gap ∈ innerGaps minors, gap < need size) ∧ need size ≤ endGap maj min := by
  have hexit := scan_minors_exit size reqSize maj minors
  have hfst : (∃ x, scanMinors size reqSize maj minors = some (.behind, x)) ↔
      (scanMinors size reqSize maj minors).map Prod.fst = some .behind := by
    simp [Option.map_eq_some_iff]
  rw [hl, Option.bind_some] at hexit
  rw [hfst, hexit]
  by_cases hin : ∀ gap ∈ innerGaps minors, gap < need size
  · rw [if_pos hin, and_iff_right hin]
    simp
  · simp [hin]

theorem packed_iff (hm : maj.minors = min :: minors) :
    Packed maj size ↔
      frontGap maj min < need size ∧ ∀ gap ∈ innerGaps (min :: minors), gap < need size := by
  constructor
  · intro h
    exact ⟨h.front min (by rw [hm]; rfl), by rw [← hm]; exact h.inner⟩
  · rintro ⟨hf, hi⟩
    refine ⟨?_, by rw [hm]; exact hi⟩
    intro m hmin
    rw [hm] at hmin
    cases hmin
    exact hf

/-- A block is passed over if and only if it is full. -/
theorem visit_none : visit size reqSize maj = none ↔ Full maj size := by
  unfold visit Full
  split
  case isTrue hlow => simp [hlow]
  case isFalse henough =>
    cases hm : maj.minors with
    | nil => simp [henough]
    | cons min minors =>
      obtain ⟨last, hlast⟩ : ∃ last, (min :: minors).getLast? = some last := ⟨_, List.getLast?_cons⟩
      rw [packed_iff hm]
      by_cases hfront : min.addr - maj.addr - headerSize ≥ need size
      · have hroom : ¬ frontGap maj min < need size := UInt32.not_lt.mpr hfront
        simp [hfront, henough, hroom]
      · have htight : frontGap maj min < need size := UInt32.not_le.mp hfront
        simp [hfront, henough, htight, scan_minors_none hlast, hlast]

/-- A block serves by case 4.1 if and only if its only room is behind its last chunk. -/
theorem visit_behind (reqSize : UInt32) :
    (∃ c, visit size reqSize maj = some c ∧ c.exit = .behind) ↔ OnlyBehind maj size := by
  have honly : OnlyBehind maj size ↔ need size ≤ free maj ∧ Packed maj size ∧
      ∃ min, maj.minors.getLast? = some min ∧ need size ≤ endGap maj min :=
    ⟨fun h => ⟨h.enough, h.packed, h.room⟩, fun h => ⟨h.1, h.2.1, h.2.2⟩⟩
  rw [honly]
  unfold visit
  split
  case isTrue hlow => simp [UInt32.not_le.mpr hlow]
  case isFalse henough =>
    have henough := UInt32.not_lt.mp henough
    cases hm : maj.minors with
    | nil => simp [first]
    | cons min minors =>
      obtain ⟨last, hlast⟩ : ∃ last, (min :: minors).getLast? = some last := ⟨_, List.getLast?_cons⟩
      rw [packed_iff hm]
      by_cases hfront : min.addr - maj.addr - headerSize ≥ need size
      · have hroom : ¬ frontGap maj min < need size := UInt32.not_lt.mpr hfront
        simp [hfront, hroom, first]
      · have htight : frontGap maj min < need size := UInt32.not_le.mp hfront
        simp only [henough, htight, true_and, hlast, Option.some.injEq, exists_eq_left',
          ← scan_minors_behind reqSize hlast, hfront, if_false]
        constructor
        · rintro ⟨c, hc, hexit⟩
          obtain ⟨⟨exit, x⟩, hx, rfl⟩ := Option.map_eq_some_iff.mp hc
          cases hexit
          exact ⟨x, hx⟩
        · rintro ⟨x, hx⟩
          exact ⟨_, by rw [hx]; rfl, rfl⟩

/-- The loop over the blocks finds the first one that serves. -/
theorem search_loop_found (order : List (Major × Nat)) (bestBet : Option UInt32)
    (bestSize : UInt32) :
    (searchLoop size reqSize order bestBet bestSize).found =
      order.findSome? (fun x => (visit size reqSize x.1).map (fun c => (x.2, c))) := by
  induction order generalizing bestBet bestSize with
  | nil => rfl
  | cons x rest ih =>
    obtain ⟨maj, i⟩ := x
    rw [List.findSome?_cons]
    cases hv : visit size reqSize maj with
    | none =>
      simp only [searchLoop, hv, Option.map_none]
      split <;> exact ih _ _
    | some c =>
      simp only [searchLoop, hv, Option.map_some]
      split <;> rfl

theorem search_loop_behind (order : List (Major × Nat)) (bestBet : Option UInt32)
    (bestSize : UInt32) :
    (∃ i c, (searchLoop size reqSize order bestBet bestSize).found = some (i, c) ∧
      c.exit = .behind) ↔
    ∃ before x after, order = before ++ x :: after ∧ (∀ y ∈ before, Full y.1 size) ∧
      OnlyBehind x.1 size := by
  simp only [search_loop_found, List.findSome?_eq_some_iff, Option.map_eq_some_iff,
    Option.map_eq_none_iff, visit_none, ← visit_behind reqSize]
  constructor
  · rintro ⟨i, c, ⟨before, x, after, rfl, ⟨c', hc, he⟩, hfull⟩, hexit⟩
    cases he
    exact ⟨before, x, after, rfl, hfull, c, hc, hexit⟩
  · rintro ⟨before, x, after, rfl, hfull, c, hc, hexit⟩
    exact ⟨x.2, c, ⟨before, x, after, rfl, ⟨c, hc, rfl⟩, hfull⟩, hexit⟩

/-- A new block has no chunks, and serves by case 2. -/
theorem visit_new (hp : allocateNewPage size page = some maj)
    (hv : visit size reqSize maj = some c) : c.exit = .fresh := by
  obtain ⟨addr, -, rfl⟩ := Option.map_eq_some_iff.mp hp
  unfold visit at hv
  split at hv
  · cases hv
  · cases hv
    rfl

theorem extend_fresh (he : (extend h size reqSize case1 s page).2 = some c) : c.exit = .fresh := by
  unfold extend at he
  split at he
  · cases he
  · rename_i maj hmaj
    split at he
    · cases he
      rfl
    · split at he
      · rename_i i c' bestBet bestSize hs
        cases he
        have hfound := congrArg Search.found hs
        rw [search_loop_found] at hfound
        cases hv : visit size reqSize maj with
        | none => simp [hv] at hfound
        | some d =>
          simp only [List.findSome?_cons, hv, Option.map_some, Option.some.injEq,
            Prod.mk.injEq] at hfound
          exact visit_new hmaj (hfound.2 ▸ hv)
      · split at he
        · cases he
        · cases he
          rfl

theorem search_exit (hs : search h size reqSize page = some (h', some c)) :
    c.exit = .behind ↔ EndServed h size := by
  unfold search at hs
  split at hs
  · cases hs
  · rename_i order horder
    have hend : EndServed h size ↔ ∃ i c, (searchLoop size reqSize order h.bestBet
        h.initialBestSize).found = some (i, c) ∧ c.exit = .behind := by
      rw [search_loop_behind]
      simp [EndServed, horder]
    rw [hend]
    split at hs
    · rename_i i c' bestBet bestSize hfound
      cases hs
      simp [hfound]
    · rename_i hnone
      have hfresh := extend_fresh (congrArg Prod.snd (Option.some.inj hs))
      rw [hfresh]
      refine iff_of_false (by decide) ?_
      rintro ⟨i, d, hfound, -⟩
      cases hl : searchLoop size reqSize order h.bestBet h.initialBestSize with
      | mk found bestBet bestSize =>
        rw [hl] at hfound
        cases hfound
        exact hnone i d bestBet bestSize hl

theorem searched_subset (hs : h.searched size = some order) (hx : x ∈ order) : x.1 ∈ h.majors := by
  have hidx : ∀ y ∈ h.majors.zipIdx, y.1 ∈ h.majors := fun y hy => List.fst_mem_of_mem_zipIdx hy
  unfold searched at hs
  split at hs
  · cases hs
    exact hidx x hx
  · split at hs
    · cases hs
    · split at hs
      · cases hs
        rcases List.mem_append.mp hx with hx | hx
        · exact hidx x (List.mem_of_mem_drop hx)
        · exact hidx x hx
      · cases hs
        exact hidx x hx

/-- The first block, which has no chunks, does not serve at its end. -/
theorem root_end_served (hr : h.root size page = some h') :
    EndServed h' size ↔ EndServed h size := by
  unfold root at hr
  split at hr
  case isFalse => rw [Option.some.inj hr]
  case isTrue hnil =>
    obtain ⟨maj, hmaj, rfl⟩ := Option.map_eq_some_iff.mp hr
    obtain ⟨addr, -, rfl⟩ := Option.map_eq_some_iff.mp hmaj
    refine iff_of_false ?_ ?_
    · rintro ⟨before, x, after, hs, -, honly⟩
      have hx := searched_subset hs (List.mem_append_right _ List.mem_cons_self)
      obtain ⟨min, hlast, -⟩ := honly.room
      rw [List.mem_singleton.mp hx] at hlast
      cases hlast
    · rintro ⟨before, x, after, hs, -, -⟩
      have hx := searched_subset hs (List.mem_append_right _ List.mem_cons_self)
      rw [hnil] at hx
      cases hx

/-- A call that returns a pointer has found a chunk, which does not depend on what the
memory held. -/
theorem sized_found (hm : mallocSized h current page mem reqSize = some r) (hp : r.p = some p) :
    ∃ h' c, (c.exit = .behind ↔ EndServed h (reqSize + 32)) ∧
      ∀ mem, mallocSized h current page mem reqSize = finish h' current mem reqSize c := by
  unfold mallocSized at hm ⊢
  cases hroot : h.root (reqSize + 32) (page 0) with
  | none =>
    rw [hroot] at hm
    cases hm
    cases hp
  | some h' =>
    rw [hroot] at hm
    rw [← root_end_served hroot]
    rcases hs : h'.search (reqSize + 32) reqSize page with _ | ⟨h'', _ | c⟩
    · simp [hs] at hm
    · simp only [hs, Option.some.injEq] at hm
      rw [← hm] at hp
      cases hp
    · exact ⟨h'', c, search_exit hs, fun _ => by simp [hs]⟩

/-- Case 4.1 leaves the chunk as it is; the other exits record it and clear it. -/
theorem finish_cases (hf : finish h current mem reqSize c = some r) (hp : r.p = some p) :
    (c.exit = .behind ∧ r.posted = [] ∧ r.mem = mem) ∨
    (c.exit ≠ .behind ∧ r.posted = [(current, p)] ∧ r.mem = clear mem p reqSize) := by
  unfold finish at hf
  split at hf
  case isTrue hexit =>
    cases hf
    exact .inl ⟨hexit, rfl, rfl⟩
  case isFalse hexit =>
    split at hf
    · cases hf
    · cases hf
      cases hp
      exact .inr ⟨hexit, rfl, rfl⟩

theorem finish_any_memory (hf : finish h current mem reqSize c = some r)
    (mem' : UInt32 → UInt8) : ∃ r', finish h current mem' reqSize c = some r' ∧ r'.p = r.p := by
  unfold finish at hf ⊢
  split at hf
  case isTrue hexit =>
    cases hf
    exact ⟨_, if_pos hexit, rfl⟩
  case isFalse hexit =>
    split at hf
    case isTrue => cases hf
    case isFalse hfits =>
      cases hf
      exact ⟨_, (if_neg hexit).trans (if_neg hfits), rfl⟩

/-- What `malloc` has done when it returns a pointer. -/
theorem sized_cases (hm : mallocSized h current page mem reqSize = some r) (hp : r.p = some p) :
    (EndServed h (reqSize + 32) ∧ r.posted = [] ∧ r.mem = mem) ∨
    (¬ EndServed h (reqSize + 32) ∧ r.posted = [(current, p)] ∧ r.mem = clear mem p reqSize) := by
  obtain ⟨h', c, hexit, hfinish⟩ := sized_found hm hp
  rw [← hexit]
  rw [hfinish] at hm
  exact finish_cases hm hp

/-- Where the chunk lies does not depend on what the memory held. -/
theorem sized_any_memory (hm : mallocSized h current page mem reqSize = some r)
    (hp : r.p = some p) (mem' : UInt32 → UInt8) :
    ∃ r', mallocSized h current page mem' reqSize = some r' ∧ r'.p = some p := by
  obtain ⟨h', c, -, hfinish⟩ := sized_found hm hp
  rw [hfinish] at hm ⊢
  rw [← hp]
  exact finish_any_memory hm mem'

theorem clear_at (mem : UInt32 → UInt8) (p len i : UInt32) :
    clear mem p len (p + i) = if i < len then 0 else mem (p + i) := by
  rw [clear, UInt32.add_comm p i, UInt32.add_sub_cancel]

/-- A request that wraps to zero becomes one for a single byte: the second byte of the
chunk is left as it was. -/
theorem wrapped_not_initialised (hwrap : reqSize + 32 = 0)
    (hm : malloc h current page mem reqSize = some r) (hp : r.p = some p) :
    ¬ Initialised h current page reqSize := by
  intro hinit
  have hmalloc : ∀ mem, malloc h current page mem reqSize = mallocSized h current page mem 1 := by
    intro mem
    rw [malloc, if_pos hwrap]
  rw [hmalloc] at hm
  obtain ⟨r', hm', hp'⟩ := sized_any_memory hm hp (fun _ => 1)
  have hone : (1 : UInt32) < reqSize := by
    have hreq : reqSize = 0 - 32 := by rw [← hwrap, UInt32.add_sub_cancel]
    rw [hreq]
    decide
  have hzero := (hinit _ r' p (by rw [hmalloc, hm']) hp').1 1 hone
  rcases sized_cases hm' hp' with ⟨-, -, hmem⟩ | ⟨-, -, hmem⟩
  · rw [hmem] at hzero
    cases hzero
  · rw [hmem, clear_at, if_neg (by decide)] at hzero
    cases hzero

/-- A call of `malloc` that returns a pointer gives a cleared chunk and records it if
and only if the size does not wrap and the search does not end behind the last chunk
of a block. -/
theorem malloc_initialised_iff (h : Liballoc) (current : Option Nat) (page : Nat → Option UInt32)
    (mem : UInt32 → UInt8) (reqSize p : UInt32) (r : Result)
    (hm : malloc h current page mem reqSize = some r) (hp : r.p = some p) :
    Initialised h current page reqSize ↔
      reqSize + 32 ≠ 0 ∧ ¬ EndServed h (reqSize + 32) := by
  by_cases hwrap : reqSize + 32 = 0
  · simp [hwrap, wrapped_not_initialised hwrap hm hp]
  have hmalloc : ∀ mem, malloc h current page mem reqSize =
      mallocSized h current page mem reqSize := by
    intro mem
    rw [malloc, if_neg hwrap]
  constructor
  · intro hinit
    refine ⟨hwrap, ?_⟩
    have hposted := (hinit mem r p hm hp).2
    rw [hmalloc] at hm
    rcases sized_cases hm hp with ⟨-, hnone, -⟩ | ⟨hend, -, -⟩
    · rw [hnone] at hposted
      cases hposted
    · exact hend
  · rintro ⟨-, hend⟩ mem' r' p' hm' hp'
    rw [hmalloc] at hm'
    rcases sized_cases hm' hp' with ⟨hserved, -, -⟩ | ⟨-, hposted, hmem⟩
    · exact absurd hserved hend
    · refine ⟨fun i hi => ?_, ?_⟩
      · rw [hmem, clear_at, if_pos hi]
      · rw [hposted]
        exact List.mem_singleton_self _

/-- The first call of all, with the first page at `0xC0401000`. -/
theorem malloc_initialised_first :
    Initialised ⟨[], none⟩ (some 0) (fun _ => some 0xC0401000) 100 := by
  refine (malloc_initialised_iff ⟨[], none⟩ (some 0) (fun _ => some 0xC0401000) (fun _ => 7) 100
    0xC0401040 _ rfl (by decide)).mpr ⟨by decide, ?_⟩
  rintro ⟨before, x, after, hs, -, -⟩
  simp [searched] at hs

/-- The second call of all finds room behind the chunk of the first: it is not
recorded. -/
theorem second_call_not_recorded :
    ∃ r, malloc ⟨[], none⟩ (some 0) (fun _ => some 0xC0401000) (fun _ => 7) 100 = some r ∧
      ¬ Initialised r.heap (some 0) (fun _ => some 0xC0401000) 100 := by
  refine ⟨_, rfl, fun hinit => ?_⟩
  obtain ⟨-, hposted⟩ := hinit (fun _ => 7) _ _ rfl rfl
  revert hposted
  decide

/-- The process model's view of a call: the chunk counts as recorded unless it was
placed at the end of a block. -/
theorem placed_recorded_iff (hwrap : reqSize + 32 ≠ 0)
    (hm : malloc h current page mem reqSize = some r) (hd : r.placed = some d) :
    d.recorded = true ↔ ¬ EndServed h (reqSize + 32) := by
  rw [malloc, if_neg hwrap] at hm
  obtain ⟨p, hp, rfl⟩ := Option.map_eq_some_iff.mp hd
  rcases sized_cases hm hp with ⟨hend, hposted, -⟩ | ⟨hend, hposted, -⟩ <;> simp [hposted, hend]

end Levos.Proofs.Malloc
