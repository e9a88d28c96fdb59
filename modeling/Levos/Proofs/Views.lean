import Levos.Pool
import Levos.Library.Linked
import Levos.Proofs.Blocks

namespace Levos.Proofs.Views
open Library Pool Levos.Proofs.Blocks
open Liballoc (headerSize need pagesWanted lPageSize)

variable {s : Pool} {p q v : UInt32} {j k : Fin 6}

theorem field_set_self (mem : Nat → UInt8) (p v : UInt32) (k : Fin 6) :
    field (setField mem p k v) p k = v := by
  have hlt := v.toNat_lt
  rw [field, setField, load_store, Nat.mod_eq_of_lt (by omega), UInt32.ofNat_toNat]

theorem field_set_ne (mem : Nat → UInt8) (p v : UInt32) (h : j ≠ k) :
    field (setField mem p j v) p k = field mem p k := by
  have hne : j.val ≠ k.val := fun he => h (Fin.ext he)
  rw [field, setField, load_store_apart _ _ (by omega), field]

theorem field_set_far (mem : Nat → UInt8) (v : UInt32) (h : Far p q) :
    field (setField mem p j v) q k = field mem q k := by
  have hj := j.isLt
  have hk := k.isLt
  rw [field, setField, load_store_apart _ _ (by rcases h with h | h <;> omega), field]

@[simp] theorem get_put_self (s : Pool) (p v : UInt32) (k : Fin 6) : (s.put p k v).get p k = v :=
  field_set_self s.mem p v k

theorem get_put_ne (s : Pool) (p v : UInt32) (h : j ≠ k) : (s.put p j v).get p k = s.get p k :=
  field_set_ne s.mem p v h

theorem get_put_far (s : Pool) (v : UInt32) (h : Far p q) : (s.put p j v).get q k = s.get q k :=
  field_set_far s.mem v h

/-- A word of a header is what was last stored there. -/
theorem get_put (s : Pool) (v : UInt32) (h : p = q ∨ Far p q) :
    (s.put p j v).get q k = if p = q ∧ j = k then v else s.get q k := by
  rcases h with rfl | h
  · by_cases hjk : j = k
    · subst hjk
      simp
    · simp [hjk, get_put_ne]
  · simp [h.ne, get_put_far s v h]

@[simp] theorem put_inuse (s : Pool) (p v : UInt32) (k : Fin 6) :
    (s.put p k v).inuse = s.inuse := rfl

/-- Stores into headers, the first one first. -/
def puts (s : Pool) (l : List (UInt32 × Fin 6 × UInt32)) : Pool :=
  l.foldl (fun s x => s.put x.1 x.2.1 x.2.2) s

@[simp] theorem get_inuse (s : Pool) (n : UInt64) (p : UInt32) (k : Fin 6) :
    Pool.get { s with inuse := n } p k = s.get p k := rfl

/-- An address outside of a header. -/
def Off (p : UInt32) (a : Nat) : Prop := a < p.toNat ∨ p.toNat + 24 ≤ a

theorem put_off {a : Nat} (s : Pool) (v : UInt32) (h : Off p a) :
    (s.put p k v).mem a = s.mem a := by
  have hk := k.isLt
  refine blit_outside _ ?_
  rw [toBytes_length]
  rcases h with h | h
  · exact .inl (by omega)
  · exact .inr (by omega)

theorem puts_off {a : Nat} (l : List (UInt32 × Fin 6 × UInt32)) (h : ∀ x ∈ l, Off x.1 a)
    (s : Pool) : (puts s l).mem a = s.mem a := by
  induction l generalizing s with
  | nil => rfl
  | cons x l ih =>
    have hrest := ih (fun y hy => h y (List.mem_cons_of_mem _ hy)) (s.put x.1 x.2.1 x.2.2)
    exact hrest.trans (put_off s _ (h x List.mem_cons_self))

theorem puts_rest (l : List (UInt32 × Fin 6 × UInt32)) (s : Pool) :
    puts s l = { s with mem := (puts s l).mem } := by
  induction l generalizing s with
  | nil => rfl
  | cons x l ih => exact ih (s.put x.1 x.2.1 x.2.2)

/-- Headers of which no two overlap. -/
structure Spread (hs : List UInt32) : Prop where
  nonnull : 0 ∉ hs
  far : hs.Pairwise Far

theorem Spread.same_or_far (h : Spread hs) (hp : p ∈ hs) (hq : q ∈ hs) : p = q ∨ Far p q := by
  by_cases hpq : p = q
  · exact .inl hpq
  · exact .inr (h.far.forall hp hq hpq)

theorem Spread.of_ne (h : Spread hs) (hp : p ∈ hs) (hq : q ∈ hs) (hpq : p ≠ q) : Far p q :=
  h.far.forall hp hq hpq

theorem Spread.ne_zero (h : Spread hs) (hp : p ∈ hs) : p ≠ 0 := by
  rintro rfl
  exact h.nonnull hp

/-- A heap that differs from another one in the words of some headers, with what these
are. -/
structure Shows (s : Pool) (hs : List UInt32) (view : UInt32 → Fin 6 → UInt32) (s' : Pool) :
    Prop where
  view : ∀ b ∈ hs, ∀ k, s'.get b k = view b k
  off : ∀ a, (∀ b ∈ hs, Off b a) → s'.mem a = s.mem a
  rest : s' = { s with mem := s'.mem }

theorem shows_self (s : Pool) (hs : List UInt32) : Shows s hs s.get s :=
  ⟨fun _ _ _ => rfl, fun _ _ => rfl, rfl⟩

section Shows

variable {s' : Pool} {hs : List UInt32} {view view' : UInt32 → Fin 6 → UInt32}

/-- The words are stated in another way. -/
theorem Shows.of_view (h : Shows s hs view s') (hv : ∀ b ∈ hs, ∀ k, view b k = view' b k) :
    Shows s hs view' s' :=
  ⟨fun b hb k => (h.view b hb k).trans (hv b hb k), h.off, h.rest⟩

theorem Shows.inuse (h : Shows s hs view s') (n : UInt64) :
    Shows { s with inuse := n } hs view { s' with inuse := n } :=
  ⟨h.view, h.off, by rw [h.rest]⟩

theorem Shows.allocated (h : Shows s hs view s') (n : UInt64) :
    Shows { s with allocated := n } hs view { s' with allocated := n } :=
  ⟨h.view, h.off, by rw [h.rest]⟩

/-- One word is stored. -/
def stored (view : UInt32 → Fin 6 → UInt32) (p : UInt32) (j : Fin 6) (v : UInt32) (b : UInt32)
    (k : Fin 6) : UInt32 :=
  if p = b ∧ j = k then v else view b k

theorem Shows.put (h : Shows s hs view s') (hspread : Spread hs) (hp : p ∈ hs) (j : Fin 6)
    (v : UInt32) : Shows s hs (stored view p j v) (s'.put p j v) := by
  refine ⟨?_, ?_, ?_⟩
  · intro b hb k
    rw [get_put s' v (hspread.same_or_far hp hb), h.view b hb k, stored]
  · intro a ha
    exact (put_off s' v (ha p hp)).trans (h.off a ha)
  · rw [Pool.put, h.rest]

/-- The stores of a list are into the headers, and give the words. -/
theorem shows_puts (s : Pool) (l : List (UInt32 × Fin 6 × UInt32)) (hl : ∀ x ∈ l, x.1 ∈ hs)
    (hv : ∀ b ∈ hs, ∀ k, (puts s l).get b k = view b k) : Shows s hs view (puts s l) := by
  refine ⟨hv, ?_, puts_rest l s⟩
  intro a ha
  exact puts_off l (fun x hx => ha x.1 (hl x hx)) s

/-- A null pointer is not followed, and is no header. -/
theorem stored_null (hspread : Spread hs) (j : Fin 6) (v : UInt32) :
    ∀ b ∈ hs, ∀ k, view b k = stored view 0 j v b k := by
  intro b hb k
  rw [stored, if_neg (fun he => hspread.ne_zero hb he.1.symm)]

theorem Shows.linkNext (h : Shows s hs view s') (hspread : Spread hs) (hx : x ∈ hs)
    (hnext : view x nextAt ≠ 0 → view x nextAt ∈ hs) :
    Shows s hs (stored view (view x nextAt) prevAt (view x prevAt)) (s'.linkNext x) := by
  rw [Pool.linkNext, h.view x hx, h.view x hx]
  split
  case isTrue hz => exact h.put hspread (hnext hz) _ _
  case isFalse hz =>
    rw [not_not.mp hz]
    exact h.of_view (stored_null hspread _ _)

theorem Shows.linkPrev (h : Shows s hs view s') (hspread : Spread hs) (hx : x ∈ hs)
    (hprev : view x prevAt ≠ 0 → view x prevAt ∈ hs) :
    Shows s hs (stored view (view x prevAt) nextAt (view x nextAt)) (s'.linkPrev x) := by
  rw [Pool.linkPrev, h.view x hx, h.view x hx]
  split
  case isTrue hz => exact h.put hspread (hprev hz) _ _
  case isFalse hz =>
    rw [not_not.mp hz]
    exact h.of_view (stored_null hspread _ _)

end Shows

/-- The words of a chunk's header. -/
def minorWords (prev next maj size reqSize : UInt32) (k : Fin 6) : UInt32 :=
  if k = prevAt then prev
  else if k = nextAt then next
  else if k = blockAt then maj
  else if k = magicAt then liballocMagic
  else if k = minSizeAt then size
  else reqSize

/-- The headers after a chunk has been put in between two others, or at an end where the
other is null. -/
def inserted (view : UInt32 → Fin 6 → UInt32) (maj new prev next size reqSize : UInt32)
    (b : UInt32) (k : Fin 6) : UInt32 :=
  if b = new then minorWords prev next maj size reqSize k
  else if b = maj ∧ k = usageAt then view maj usageAt + need size
  else if b = maj ∧ k = firstAt ∧ prev = 0 then new
  else if b = prev ∧ k = nextAt then new
  else if b = next ∧ k = prevAt then new
  else view b k

section Cases

variable {maj min new next b : UInt32} {hs : List UInt32} (s : Pool) (size reqSize : UInt32)

/-- Case 2 without the pointers it loads again. -/
theorem case2_eq (hn : new = maj + headerSize) (hfar : Far maj new) :
    s.case2 size reqSize maj = { puts s [(maj, firstAt, new), (new, magicAt, liballocMagic),
      (new, prevAt, 0), (new, nextAt, 0), (new, blockAt, maj), (new, minSizeAt, size),
      (new, reqSizeAt, reqSize), (maj, usageAt, s.get maj usageAt + need size)] with
      inuse := s.inuse + size.toUInt64 } := by
  have hload : firstAt ≠ usageAt := by decide
  simp only [case2, charge, ← hn, get_put_self, get_put_far _ _ hfar.symm, get_put_ne _ _ _ hload,
    puts, List.foldl_cons, List.foldl_nil, put_inuse]

theorem case2_shows (hspread : Spread hs) (hmaj : maj ∈ hs) (hnew : new ∈ hs) (hmn : maj ≠ new)
    (hn : new = maj + headerSize) :
    Shows { s with inuse := s.inuse + size.toUInt64 } hs (inserted s.get maj new 0 0 size reqSize)
      (s.case2 size reqSize maj) := by
  have hfar := hspread.of_ne hmaj hnew hmn
  rw [case2_eq s size reqSize hn hfar]
  refine (shows_puts s _ (by simp [hmaj, hnew]) ?_).inuse _
  intro b hb k
  have hz := hspread.ne_zero hb
  replace hmaj := hspread.same_or_far hmaj hb
  replace hnew := hspread.same_or_far hnew hb
  simp only [puts, List.foldl_cons, List.foldl_nil]
  simp only [get_put _ _ hmaj, get_put _ _ hnew, inserted, minorWords]
  clear hn
  rcases hmaj with rfl | hmaj
  · fin_cases k <;> simp [hfar.ne, hfar.ne.symm, hz, prevAt, nextAt, usageAt, firstAt, magicAt,
      blockAt, minSizeAt, reqSizeAt]
  · rcases hnew with rfl | hnew
    · fin_cases k <;> simp [hmaj.ne, prevAt, nextAt, usageAt, magicAt, blockAt, minSizeAt,
        reqSizeAt]
    · simp [hmaj.ne, hmaj.ne.symm, hnew.ne, hnew.ne.symm, hz]

/-- Case 3 without the pointers it loads again. -/
theorem case3_eq (hn : new = maj + headerSize) (hfirst : s.get maj firstAt = next)
    (hmn : Far maj new) (hmx : Far maj next) (hnx : Far new next) :
    s.case3 size reqSize maj = { puts s [(next, prevAt, new), (new, nextAt, next),
      (maj, firstAt, new), (new, magicAt, liballocMagic), (new, prevAt, 0), (new, blockAt, maj),
      (new, minSizeAt, size), (new, reqSizeAt, reqSize),
      (maj, usageAt, s.get maj usageAt + need size)] with
      inuse := s.inuse + size.toUInt64 } := by
  have hload : firstAt ≠ usageAt := by decide
  simp only [case3, charge, ← hn, hfirst, get_put_self, get_put_far _ _ hmn.symm,
    get_put_far _ _ hmx.symm, get_put_far _ _ hnx, get_put_ne _ _ _ hload, puts, List.foldl_cons,
    List.foldl_nil, put_inuse]

theorem case3_shows (hspread : Spread hs) (hmaj : maj ∈ hs) (hnew : new ∈ hs) (hnext : next ∈ hs)
    (hmn : maj ≠ new) (hmx : maj ≠ next) (hnx : new ≠ next) (hn : new = maj + headerSize)
    (hfirst : s.get maj firstAt = next) :
    Shows { s with inuse := s.inuse + size.toUInt64 } hs
      (inserted s.get maj new 0 next size reqSize) (s.case3 size reqSize maj) := by
  replace hmn := hspread.of_ne hmaj hnew hmn
  replace hmx := hspread.of_ne hmaj hnext hmx
  replace hnx := hspread.of_ne hnew hnext hnx
  rw [case3_eq s size reqSize hn hfirst hmn hmx hnx]
  refine (shows_puts s _ (by simp [hmaj, hnew, hnext]) ?_).inuse _
  intro b hb k
  have hz := hspread.ne_zero hb
  replace hmaj := hspread.same_or_far hmaj hb
  replace hnew := hspread.same_or_far hnew hb
  replace hnext := hspread.same_or_far hnext hb
  simp only [puts, List.foldl_cons, List.foldl_nil]
  simp only [get_put _ _ hmaj, get_put _ _ hnew, get_put _ _ hnext, inserted, minorWords]
  clear hn
  rcases hmaj with rfl | hmaj
  · fin_cases k <;> simp [hmn.ne, hmn.ne.symm, hmx.ne, hmx.ne.symm, hz, prevAt, nextAt, usageAt,
      firstAt, magicAt, blockAt, minSizeAt, reqSizeAt]
  · rcases hnew with rfl | hnew
    · fin_cases k <;> simp [hmaj.ne, prevAt, nextAt, usageAt, firstAt, magicAt, blockAt, minSizeAt,
        reqSizeAt]
    · rcases hnext with rfl | hnext
      · fin_cases k <;> simp [hmaj.ne, hmaj.ne.symm, hnew.ne, hnew.ne.symm, hz, prevAt, nextAt]
      · simp [hmaj.ne, hmaj.ne.symm, hnew.ne, hnew.ne.symm, hnext.ne, hnext.ne.symm, hz]

/-- Case 4.1 without the pointers it loads again. -/
theorem case41_eq (hn : new = min + headerSize + s.get min minSizeAt)
    (hmn : Far maj new) (hmi : Far maj min) (hni : Far new min) :
    s.case41 size reqSize maj min = { puts s [(min, nextAt, new), (new, prevAt, min),
      (new, nextAt, 0), (new, magicAt, liballocMagic), (new, blockAt, maj), (new, minSizeAt, size),
      (new, reqSizeAt, reqSize), (maj, usageAt, s.get maj usageAt + need size)] with
      inuse := s.inuse + size.toUInt64 } := by
  simp only [case41, charge, ← hn, get_put_self, get_put_far _ _ hmn.symm,
    get_put_far _ _ hmi.symm, get_put_far _ _ hni, puts, List.foldl_cons, List.foldl_nil, put_inuse]

theorem case41_shows (hspread : Spread hs) (hmaj : maj ∈ hs) (hnew : new ∈ hs) (hmin : min ∈ hs)
    (hmn : maj ≠ new) (hmi : maj ≠ min) (hni : new ≠ min)
    (hn : new = min + headerSize + s.get min minSizeAt) :
    Shows { s with inuse := s.inuse + size.toUInt64 } hs
      (inserted s.get maj new min 0 size reqSize) (s.case41 size reqSize maj min) := by
  replace hmn := hspread.of_ne hmaj hnew hmn
  replace hmi := hspread.of_ne hmaj hmin hmi
  replace hni := hspread.of_ne hnew hmin hni
  rw [case41_eq s size reqSize hn hmn hmi hni]
  refine (shows_puts s _ (by simp [hmaj, hnew, hmin]) ?_).inuse _
  intro b hb k
  have hz := hspread.ne_zero hb
  have hzm := hspread.ne_zero hmin
  replace hmaj := hspread.same_or_far hmaj hb
  replace hnew := hspread.same_or_far hnew hb
  replace hmin := hspread.same_or_far hmin hb
  simp only [puts, List.foldl_cons, List.foldl_nil]
  simp only [get_put _ _ hmaj, get_put _ _ hnew, get_put _ _ hmin, inserted, minorWords]
  clear hn
  rcases hmaj with rfl | hmaj
  · fin_cases k <;> simp [hmn.ne, hmn.ne.symm, hmi.ne, hmi.ne.symm, hz, hzm, prevAt, nextAt,
      usageAt, firstAt, magicAt, blockAt, minSizeAt, reqSizeAt]
  · rcases hnew with rfl | hnew
    · fin_cases k <;> simp [hmaj.ne, prevAt, nextAt, usageAt, magicAt, blockAt, minSizeAt,
        reqSizeAt]
    · rcases hmin with rfl | hmin
      · fin_cases k <;> simp [hmaj.ne, hmaj.ne.symm, hnew.ne, hnew.ne.symm, hz, prevAt, nextAt]
      · simp [hmaj.ne, hmaj.ne.symm, hnew.ne, hnew.ne.symm, hmin.ne, hmin.ne.symm, hz]

/-- Case 4.2 without the pointers it loads again. -/
theorem case42_eq (hn : new = min + headerSize + s.get min minSizeAt)
    (hnext : s.get min nextAt = next) (hmn : Far maj new) (hmi : Far maj min) (hmx : Far maj next)
    (hni : Far new min) :
    s.case42 size reqSize maj min = { puts s [(new, magicAt, liballocMagic), (new, nextAt, next),
      (new, prevAt, min), (new, minSizeAt, size), (new, reqSizeAt, reqSize), (new, blockAt, maj),
      (next, prevAt, new), (min, nextAt, new),
      (maj, usageAt, s.get maj usageAt + need size)] with
      inuse := s.inuse + size.toUInt64 } := by
  simp only [case42, charge, ← hn, hnext, get_put_far _ _ hmn.symm, get_put_far _ _ hmi.symm,
    get_put_far _ _ hmx.symm, get_put_far _ _ hni, puts, List.foldl_cons, List.foldl_nil,
    put_inuse]

theorem case42_shows (hspread : Spread hs) (hmaj : maj ∈ hs) (hnew : new ∈ hs) (hmin : min ∈ hs)
    (hnext : next ∈ hs) (hmn : maj ≠ new) (hmi : maj ≠ min) (hmx : maj ≠ next) (hni : new ≠ min)
    (hix : min ≠ next) (hnx : new ≠ next) (hn : new = min + headerSize + s.get min minSizeAt)
    (hload : s.get min nextAt = next) :
    Shows { s with inuse := s.inuse + size.toUInt64 } hs
      (inserted s.get maj new min next size reqSize) (s.case42 size reqSize maj min) := by
  replace hmn := hspread.of_ne hmaj hnew hmn
  replace hmi := hspread.of_ne hmaj hmin hmi
  replace hmx := hspread.of_ne hmaj hnext hmx
  replace hni := hspread.of_ne hnew hmin hni
  rw [case42_eq s size reqSize hn hload hmn hmi hmx hni]
  refine (shows_puts s _ (by simp [hmaj, hnew, hmin, hnext]) ?_).inuse _
  intro b hb k
  have hzm := hspread.ne_zero hmin
  replace hmaj := hspread.same_or_far hmaj hb
  replace hnew := hspread.same_or_far hnew hb
  replace hmin := hspread.same_or_far hmin hb
  replace hnext := hspread.same_or_far hnext hb
  simp only [puts, List.foldl_cons, List.foldl_nil]
  simp only [get_put _ _ hmaj, get_put _ _ hnew, get_put _ _ hmin, get_put _ _ hnext, inserted,
    minorWords]
  clear hn hload
  rcases hmaj with rfl | hmaj
  · fin_cases k <;> simp [hmn.ne, hmn.ne.symm, hmi.ne, hmi.ne.symm, hmx.ne, hmx.ne.symm, hzm,
      prevAt, nextAt, usageAt, firstAt, magicAt, blockAt, minSizeAt, reqSizeAt]
  · rcases hnew with rfl | hnew
    · fin_cases k <;> simp [hmaj.ne, hni.ne.symm, hnx.symm, prevAt, nextAt, usageAt,
        magicAt, blockAt, minSizeAt, reqSizeAt]
    · rcases hmin with rfl | hmin
      · fin_cases k <;> simp [hmaj.ne, hmaj.ne.symm, hnew.ne, hnew.ne.symm, hix, hix.symm,
          prevAt, nextAt]
      · rcases hnext with rfl | hnext
        · fin_cases k <;> simp [hmaj.ne, hmaj.ne.symm, hnew.ne, hnew.ne.symm, hmin.ne,
            hmin.ne.symm, prevAt, nextAt]
        · simp [hmaj.ne, hmaj.ne.symm, hnew.ne, hnew.ne.symm, hmin.ne, hmin.ne.symm, hnext.ne,
            hnext.ne.symm]

end Cases

/-- The words of the header of a block without chunks. -/
def majorWords (prev pages size : UInt32) (k : Fin 6) : UInt32 :=
  if k = prevAt then prev
  else if k = nextAt then 0
  else if k = pagesAt then pages
  else if k = majSizeAt then size
  else if k = usageAt then headerSize
  else 0

/-- The headers after a block has been put behind another one, or is the only one when
that is null. -/
def appended (view : UInt32 → Fin 6 → UInt32) (last new pages size : UInt32) (b : UInt32)
    (k : Fin 6) : UInt32 :=
  if b = new then majorWords last pages size k
  else if b = last ∧ k = nextAt then new
  else view b k

section Pages

variable {page : UInt32} {hs : List UInt32} (s : Pool) (size : UInt32)

theorem allocate_new_page_eq (hz : page ≠ 0) :
    s.allocateNewPage size page = ({ puts s [(page, prevAt, 0), (page, nextAt, 0),
      (page, pagesAt, pagesWanted size), (page, majSizeAt, pagesWanted size * lPageSize),
      (page, usageAt, headerSize), (page, firstAt, 0)] with
      allocated := s.allocated + (pagesWanted size * lPageSize).toUInt64 }, page) := by
  have hu : usageAt ≠ majSizeAt := by decide
  have hf : firstAt ≠ majSizeAt := by decide
  rw [allocateNewPage, if_neg hz]
  simp only [get_put_ne _ _ _ hu, get_put_ne _ _ _ hf, get_put_self, puts, List.foldl_cons,
    List.foldl_nil]
  rfl

theorem allocate_new_page_shows (hspread : Spread hs) (hpage : page ∈ hs) :
    Shows { s with allocated := s.allocated + (pagesWanted size * lPageSize).toUInt64 } hs
      (appended s.get 0 page (pagesWanted size) (pagesWanted size * lPageSize))
      (s.allocateNewPage size page).1 := by
  rw [allocate_new_page_eq s size (hspread.ne_zero hpage)]
  refine (shows_puts s _ (by simp [hpage]) ?_).allocated _
  intro b hb k
  have hz := hspread.ne_zero hb
  replace hpage := hspread.same_or_far hpage hb
  simp only [puts, List.foldl_cons, List.foldl_nil]
  simp only [get_put _ _ hpage, appended, majorWords]
  rcases hpage with rfl | hpage
  · fin_cases k <;> simp [prevAt, nextAt, pagesAt, majSizeAt, usageAt, firstAt]
  · simp [hpage.ne, hpage.ne.symm, hz]

/-- A new block behind another one. -/
theorem new_block_shows (v : Locals) {pages : Nat → UInt32} (hspread : Spread hs)
    (hmaj : v.maj ∈ hs) (hpage : pages v.asked ∈ hs) (hne : v.maj ≠ pages v.asked) :
    ∃ s', v.newBlock size pages = (s', some { v with heap := s', asked := v.asked + 1 }) ∧
      Shows { v.heap with
          allocated := v.heap.allocated + (pagesWanted size * lPageSize).toUInt64 } hs
        (appended v.heap.get v.maj (pages v.asked) (pagesWanted size)
          (pagesWanted size * lPageSize)) s' := by
  have hz := hspread.ne_zero hpage
  have hzm := hspread.ne_zero hmaj
  have hnew := allocate_new_page_shows v.heap size hspread hpage
  have hsnd : (v.heap.allocateNewPage size (pages v.asked)).2 = pages v.asked := by
    rw [allocate_new_page_eq v.heap size hz]
  have hlinked := (hnew.put hspread hmaj nextAt (pages v.asked)).put hspread hpage prevAt v.maj
  refine ⟨_, ?_, hlinked.of_view ?_⟩
  · rw [Locals.newBlock]
    simp only [hsnd, get_put_self, hz, if_false]
  · intro b hb k
    rw [stored, stored, appended, appended, majorWords, majorWords]
    by_cases hb' : b = pages v.asked
    · subst hb'
      fin_cases k <;> simp [prevAt, nextAt, pagesAt, majSizeAt, usageAt, hne]
    · simp [hb', Ne.symm hb', hspread.ne_zero hb, eq_comm]

/-- No new block: the link that is stored is null again. -/
theorem new_block_none_shows (v : Locals) {pages : Nat → UInt32} (hspread : Spread hs)
    (hmaj : v.maj ∈ hs) (hpage : pages v.asked = 0) (hlast : v.heap.get v.maj nextAt = 0) :
    ∃ s', v.newBlock size pages = (s', none) ∧
      Shows { v.heap with warningCount := v.heap.warningCount + 1 } hs v.heap.get s' := by
  have hstored := (shows_self { v.heap with warningCount := v.heap.warningCount + 1 } hs).put
    hspread hmaj nextAt 0
  refine ⟨_, ?_, hstored.of_view ?_⟩
  · rw [Locals.newBlock, allocateNewPage, if_pos hpage]
    simp only [get_put_self, if_true]
  · intro b hb k
    rw [stored]
    split
    case isTrue he =>
      rw [← he.1, ← he.2]
      exact hlast.symm
    case isFalse => rfl

end Pages

/-- The headers after a chunk has been taken out from between two others. -/
def removed (view : UInt32 → Fin 6 → UInt32) (maj min prev next : UInt32) (b : UInt32) (k : Fin 6) :
    UInt32 :=
  if b = min ∧ k = magicAt then liballocDead
  else if b = maj ∧ k = usageAt then view maj usageAt - need (view min minSizeAt)
  else if b = maj ∧ k = firstAt ∧ prev = 0 then next
  else if b = prev ∧ k = nextAt then next
  else if b = next ∧ k = prevAt then prev
  else view b k

/-- The headers after a node has been taken out from between two others. -/
def bridged (view : UInt32 → Fin 6 → UInt32) (prev next : UInt32) (b : UInt32) (k : Fin 6) :
    UInt32 :=
  if b = prev ∧ k = nextAt then next
  else if b = next ∧ k = prevAt then prev
  else view b k

section Removal

variable {maj min prev next x : UInt32} {hs : List UInt32}

theorem discharge_shows (s : Pool) (hspread : Spread hs) (hmaj : maj ∈ hs) (hmin : min ∈ hs) :
    Shows { s with inuse := s.inuse - (s.get min minSizeAt).toUInt64 } hs
      (stored (stored s.get maj usageAt (s.get maj usageAt - need (s.get min minSizeAt)))
        min magicAt liballocDead) (s.discharge maj min) :=
  ((shows_self { s with inuse := _ } hs).put hspread hmaj usageAt _).put hspread hmin magicAt _

/-- What `free` leaves in the headers. -/
theorem unlink_shows (s : Pool) (hspread : Spread hs) (hmaj : maj ∈ hs) (hmin : min ∈ hs)
    (hnext : s.get min nextAt = next) (hprev : s.get min prevAt = prev)
    (hn : next ≠ 0 → next ∈ hs) (hp : prev ≠ 0 → prev ∈ hs) (hnm : next ≠ min) (hpm : prev ≠ min) :
    Shows { s with inuse := s.inuse - (s.get min minSizeAt).toUInt64 } hs
      (removed s.get maj min prev next) (s.unlink maj min) := by
  have h1 := discharge_shows s hspread hmaj hmin
  generalize hv1 : stored (stored s.get maj usageAt _) min magicAt liballocDead = v1 at h1
  have hnext1 : v1 min nextAt = next := by
    rw [← hv1, ← hnext]
    simp [stored, usageAt, magicAt, nextAt]
  have hprev1 : v1 min prevAt = prev := by
    rw [← hv1, ← hprev]
    simp [stored, usageAt, magicAt, prevAt]
  have h2 := h1.linkNext hspread hmin (by rwa [hnext1])
  rw [hnext1, hprev1] at h2
  generalize hv2 : stored v1 next prevAt prev = v2 at h2
  have hnext2 : v2 min nextAt = next := by
    rw [← hv2, ← hnext1]
    simp [stored, prevAt, nextAt]
  have hprev2 : v2 min prevAt = prev := by
    rw [← hv2, ← hprev1]
    simp [stored, hnm]
  have h3 := h2.linkPrev hspread hmin (by rwa [hprev2])
  rw [hnext2, hprev2] at h3
  have hnext3 : stored v2 prev nextAt next min nextAt = next := by simp [stored, hpm, hnext2]
  have hprev3 : stored v2 prev nextAt next min prevAt = prev := by simp [stored, hpm, hprev2]
  rw [Pool.unlink]
  simp only [h3.view min hmin, hnext3, hprev3]
  -- the first chunk of the block only changes when there is none before the one taken out
  split
  case isTrue hz =>
    refine (h3.put hspread hmaj firstAt next).of_view ?_
    intro b hb k
    have hb0 := hspread.ne_zero hb
    rw [← hv2, ← hv1]
    fin_cases k <;>
      simp [stored, removed, prevAt, nextAt, usageAt, firstAt, magicAt, hz, hb0, eq_comm]
  case isFalse hz =>
    refine h3.of_view ?_
    intro b hb k
    rw [← hv2, ← hv1]
    fin_cases k <;> simp [stored, removed, prevAt, nextAt, usageAt, firstAt, magicAt, hz, eq_comm]

/-- What is left in the headers of the other blocks when one is given back. -/
theorem drop_block_shows (s : Pool) (hspread : Spread hs) (hmaj : maj ∈ hs)
    (hnext : s.get maj nextAt = next) (hprev : s.get maj prevAt = prev)
    (hn : next ≠ 0 → next ∈ hs) (hp : prev ≠ 0 → prev ∈ hs) (hpm : prev ≠ maj) :
    Shows { s.forget maj with allocated := s.allocated - (s.get maj majSizeAt).toUInt64 } hs
      (bridged s.get prev next) (s.dropBlock maj) := by
  have h1 := (shows_self (s.forget maj) hs).linkPrev hspread hmaj
    (by rw [← hprev] at hp; exact hp)
  change Shows _ hs (stored s.get (s.get maj prevAt) nextAt (s.get maj nextAt)) _ at h1
  rw [hnext, hprev] at h1
  generalize hv1 : stored s.get prev nextAt next = v1 at h1
  have hnext1 : v1 maj nextAt = next := by simp [← hv1, stored, hpm, hnext]
  have hprev1 : v1 maj prevAt = prev := by simp [← hv1, stored, hpm, hprev]
  have h2 := h1.linkNext hspread hmaj (by rwa [hnext1])
  rw [hnext1, hprev1] at h2
  have hsize : stored v1 next prevAt prev maj majSizeAt = s.get maj majSizeAt := by
    rw [← hv1]
    simp [stored, prevAt, nextAt, majSizeAt]
  have hv : ∀ b ∈ hs, ∀ k, stored v1 next prevAt prev b k = bridged s.get prev next b k := by
    intro b hb k
    rw [← hv1]
    fin_cases k <;> simp [stored, bridged, prevAt, nextAt, eq_comm]
  have hcount : (((s.forget maj).linkPrev maj).linkNext maj).allocated = s.allocated := by
    rw [h2.rest]
    rfl
  have h3 := (h2.of_view hv).allocated (s.allocated - (s.get maj majSizeAt).toUInt64)
  rw [Pool.dropBlock, h2.view maj hmaj, hsize, hcount]
  exact h3

end Removal

end Levos.Proofs.Views
