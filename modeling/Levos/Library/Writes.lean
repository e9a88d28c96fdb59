import Mathlib

namespace Levos.Library

variable {α : Type u} {β : Type v} [DecidableEq α]

/-- A memory after stores, the first one first. -/
def writes (mem : α → β) (ps : List (α × β)) : α → β :=
  ps.foldl (fun m x => Function.update m x.1 x.2) mem

theorem writes_cons (mem : α → β) (x : α × β) (ps : List (α × β)) :
    writes mem (x :: ps) = writes (Function.update mem x.1 x.2) ps := rfl

/-- Where nothing is stored the memory stays as it was. -/
theorem writes_of_ne {mem : α → β} {ps : List (α × β)} (h : ∀ x ∈ ps, x.1 ≠ a) :
    writes mem ps a = mem a := by
  induction ps generalizing mem with
  | nil => rfl
  | cons x ps ih =>
    rw [writes_cons, ih (fun y hy => h y (List.mem_cons_of_mem x hy))]
    exact Function.update_of_ne (h x List.mem_cons_self).symm x.2 mem

/-- Where all stores agree, and there is one, their value stands. -/
theorem writes_eq {mem : α → β} {ps : List (α × β)} (hm : (a, b) ∈ ps)
    (h : ∀ x ∈ ps, x.1 = a → x.2 = b) : writes mem ps a = b := by
  induction ps generalizing mem with
  | nil => cases hm
  | cons x ps ih =>
    rw [writes_cons]
    by_cases hlater : ∃ y ∈ ps, y.1 = a
    · obtain ⟨y, hy, rfl⟩ := hlater
      have hyb := h y (List.mem_cons_of_mem x hy) rfl
      refine ih ?_ (fun z hz => h z (List.mem_cons_of_mem x hz))
      rw [← hyb]
      exact hy
    · have hnone : ∀ y ∈ ps, y.1 ≠ a := fun y hy hya => hlater ⟨y, hy, hya⟩
      rw [writes_of_ne hnone]
      rcases List.mem_cons.mp hm with rfl | hps
      · exact Function.update_self _ _ _
      · exact absurd rfl (hnone _ hps)

/-- Stores of what stands everywhere change nothing. -/
theorem writes_same {mem : α → β} {ps : List (α × β)} (hm : mem a = b) (h : ∀ x ∈ ps, x.2 = b) :
    writes mem ps a = b := by
  by_cases hit : ∃ x ∈ ps, x.1 = a
  · obtain ⟨x, hx, rfl⟩ := hit
    exact writes_eq (h x hx ▸ hx) (fun y hy _ => h y hy)
  · rw [writes_of_ne (fun x hx hxa => hit ⟨x, hx, hxa⟩)]
    exact hm

variable {as : List α} {bs : List β} {i : Nat}

/-- Stores that agree wherever they meet put each byte at its place. -/
theorem writes_zip_agree {mem : α → β}
    (hc : ∀ (i j : Nat) (a : α), as[i]? = some a → as[j]? = some a → bs[i]? = bs[j]?)
    (ha : as[i]? = some a) (hb : bs[i]? = some b) : writes mem (as.zip bs) a = b := by
  have hmem : (a, b) ∈ as.zip bs := by
    refine List.mem_iff_getElem?.mpr ⟨i, ?_⟩
    rw [List.getElem?_zip_eq_some]
    exact ⟨ha, hb⟩
  refine writes_eq hmem ?_
  rintro ⟨c, d⟩ hx rfl
  obtain ⟨j, hj⟩ := List.mem_iff_getElem?.mp hx
  rw [List.getElem?_zip_eq_some] at hj
  have hsame := hc i j c ha hj.1
  rw [hb, hj.2] at hsame
  exact (Option.some.inj hsame).symm

/-- Stores of bytes at places that are all different put each byte at its place. -/
theorem writes_zip_nodup {mem : α → β} (hn : as.Nodup) (ha : as[i]? = some a)
    (hb : bs[i]? = some b) : writes mem (as.zip bs) a = b := by
  refine writes_zip_agree ?_ ha hb
  intro i j a hi hj
  obtain ⟨hi', hgi⟩ := List.getElem?_eq_some_iff.mp hi
  obtain ⟨hj', hgj⟩ := List.getElem?_eq_some_iff.mp hj
  rw [(hn.getElem_inj_iff).mp (hgi.trans hgj.symm)]

/-- Stores of one byte everywhere put it everywhere. -/
theorem writes_zip_replicate {mem : α → β} (ha : a ∈ as) (b : β) :
    writes mem (as.zip (List.replicate as.length b)) a = b := by
  have hall : ∀ x ∈ as.zip (List.replicate as.length b), x.2 = b := by
    intro x hx
    exact (List.mem_replicate.mp (List.of_mem_zip hx).2).2
  refine writes_eq ?_ (fun x hx _ => hall x hx)
  obtain ⟨i, hi, rfl⟩ := List.mem_iff_getElem.mp ha
  refine List.mem_iff_getElem?.mpr ⟨i, ?_⟩
  rw [List.getElem?_zip_eq_some]
  exact ⟨List.getElem?_eq_getElem hi, by simp [hi]⟩

theorem writes_zip_of_not_mem {mem : α → β} (ha : a ∉ as) : writes mem (as.zip bs) a = mem a := by
  refine writes_of_ne ?_
  rintro x hx rfl
  exact ha (List.of_mem_zip hx).1

/-- Cells copied one after the other, the `i`-th one from `s i` to `d i`. -/
def copyEach (mem : α → β) (d s : Nat → α) : Nat → α → β
  | 0 => mem
  | n + 1 => Function.update (copyEach mem d s n) (d n) (copyEach mem d s n (s n))

section Each

variable {mem : α → β} {d s : Nat → α} {n : Nat}

theorem copyEach_outside (h : ∀ i < n, a ≠ d i) : copyEach mem d s n a = mem a := by
  induction n with
  | zero => rfl
  | succ n ih =>
    rw [copyEach, Function.update_of_ne (h n (Nat.lt_succ_self n))]
    exact ih (fun i hi => h i (Nat.lt_succ_of_lt hi))

/-- If no cell is read after it has been stored to, each one gets what was there before. -/
theorem copyEach_inside (hd : ∀ i < n, ∀ j < i, d i ≠ d j) (hs : ∀ i < n, ∀ j < i, s i ≠ d j)
    (hi : i < n) : copyEach mem d s n (d i) = mem (s i) := by
  induction n with
  | zero => exact absurd hi (Nat.not_lt_zero i)
  | succ n ih =>
    rw [copyEach]
    rcases Nat.lt_succ_iff_lt_or_eq.mp hi with hlt | rfl
    · rw [Function.update_of_ne (hd n (Nat.lt_succ_self n) i hlt).symm]
      exact ih (fun k hk => hd k (Nat.lt_succ_of_lt hk)) (fun k hk => hs k (Nat.lt_succ_of_lt hk))
        hlt
    · rw [Function.update_self]
      exact copyEach_outside (hs i hi)

end Each

section Numbered

variable {mem : Nat → β} {bs : List β} {a i n : Nat} {x : β}

/-- The `n` cells from `a` on. -/
def slice (mem : Nat → β) (a n : Nat) : List β := (List.range' a n).map mem

/-- A memory after the cells from `a` on have been replaced. -/
def blit (mem : Nat → β) (a : Nat) (bs : List β) : Nat → β :=
  writes mem ((List.range' a bs.length).zip bs)

@[simp] theorem slice_length (mem : Nat → β) (a n : Nat) : (slice mem a n).length = n := by
  simp [slice]

theorem slice_get (mem : Nat → β) (a : Nat) (h : i < n) :
    (slice mem a n)[i]? = some (mem (a + i)) := by
  simp [slice, h]

theorem slice_append (mem : Nat → β) (a n k : Nat) :
    slice mem a (n + k) = slice mem a n ++ slice mem (a + n) k := by
  simp only [slice, ← List.map_append, List.range'_append_1]

/-- Slices of memories, maybe at different places, that agree cell by cell. -/
theorem slice_ext {mem' : Nat → β} (h : ∀ i < n, mem (a + i) = mem' (b + i)) :
    slice mem a n = slice mem' b n := by
  refine List.ext_getElem? ?_
  intro i
  by_cases hi : i < n
  · rw [slice_get mem a hi, slice_get mem' b hi, h i hi]
  · simp [hi]

/-- Memories that agree on some cells have the same slice there. -/
theorem slice_congr {mem' : Nat → β} (h : ∀ i < n, mem (a + i) = mem' (a + i)) :
    slice mem a n = slice mem' a n := slice_ext h

theorem slice_succ (mem : Nat → β) (a n : Nat) :
    slice mem a (n + 1) = mem a :: slice mem (a + 1) n := rfl

theorem slice_update (mem : Nat → β) (a n i : Nat) (x : β) :
    slice (Function.update mem (a + i) x) a n = (slice mem a n).set i x := by
  refine List.ext_getElem? ?_
  intro j
  by_cases hj : j < n
  · rw [slice_get _ _ hj, List.getElem?_set]
    by_cases hij : i = j
    · subst hij
      simp [hj]
    · rw [if_neg hij, slice_get _ _ hj, Function.update_of_ne (by omega)]
  · rw [List.getElem?_eq_none (by rw [slice_length]; omega),
      List.getElem?_eq_none (by rw [List.length_set, slice_length]; omega)]

theorem blit_inside (mem : Nat → β) (a : Nat) (h : bs[i]? = some x) :
    blit mem a bs (a + i) = x := by
  have hi := (List.getElem?_eq_some_iff.mp h).1
  have hplace : (List.range' a bs.length)[i]? = some (a + i) := by simp [hi]
  exact writes_zip_nodup List.nodup_range' hplace h

theorem blit_outside (mem : Nat → β) (h : i < a ∨ a + bs.length ≤ i) : blit mem a bs i = mem i := by
  refine writes_zip_of_not_mem ?_
  intro hm
  obtain ⟨hle, hlt⟩ := List.mem_range'_1.mp hm
  omega

theorem slice_blit (mem : Nat → β) (a : Nat) (bs : List β) :
    slice (blit mem a bs) a bs.length = bs := by
  refine List.ext_getElem? ?_
  intro i
  by_cases hi : i < bs.length
  · obtain ⟨x, hx⟩ : ∃ x, bs[i]? = some x := ⟨_, List.getElem?_eq_getElem hi⟩
    rw [slice_get _ _ hi, blit_inside mem a hx, hx]
  · simp [hi]

theorem slice_blit_apart (mem : Nat → β) (h : a + n ≤ k ∨ k + bs.length ≤ a) :
    slice (blit mem k bs) a n = slice mem a n :=
  slice_congr (fun i hi => blit_outside mem (by omega))

theorem slice_drop (mem : Nat → β) (a n i : Nat) :
    (slice mem a n).drop i = slice mem (a + i) (n - i) := by
  refine List.ext_getElem? ?_
  intro j
  rw [List.getElem?_drop]
  by_cases hj : i + j < n
  · rw [slice_get mem a hj, slice_get mem (a + i) (by omega), Nat.add_assoc]
  · rw [List.getElem?_eq_none (by rw [slice_length]; omega),
      List.getElem?_eq_none (by rw [slice_length]; omega)]

theorem slice_drop_take (mem : Nat → β) (a : Nat) (h : i + k ≤ n) :
    ((slice mem a n).drop i).take k = slice mem (a + i) k := by
  have hsplit := slice_append mem a i (n - i)
  have hrest := slice_append mem (a + i) k (n - i - k)
  rw [show i + (n - i) = n by omega] at hsplit
  rw [show k + (n - i - k) = n - i by omega] at hrest
  rw [hsplit, List.drop_left' (slice_length mem a i), hrest, List.take_left' (slice_length mem _ k)]

theorem blit_cons (mem : Nat → β) (a : Nat) (x : β) (bs : List β) :
    blit mem a (x :: bs) = blit (Function.update mem a x) (a + 1) bs := rfl

/-- One cell more is one store more, behind the others. -/
theorem blit_concat (mem : Nat → β) (a : Nat) (bs : List β) (x : β) :
    blit mem a (bs ++ [x]) = Function.update (blit mem a bs) (a + bs.length) x := by
  have hcells : List.range' a (bs ++ [x]).length = List.range' a bs.length ++ [a + bs.length] := by
    rw [List.length_append, List.length_singleton, ← List.range'_append_1, List.range'_one]
  rw [blit, hcells, List.zip_append List.length_range', writes, List.foldl_append]
  rfl

/-- Blocks of one size that are stored one behind the other: each stands in its
place. -/
theorem slice_tiled (mem : Nat → β) (a : Nat) (block : Nat → List β) {size : Nat}
    (hsize : ∀ k, (block k).length = size) (hk : k < n) :
    slice ((List.range n).foldl (fun m k => blit m (a + k * size) (block k)) mem) (a + k * size)
      size = block k := by
  induction n with
  | zero => omega
  | succ n ih =>
    rw [List.range_succ, List.foldl_append, List.foldl_cons, List.foldl_nil]
    rcases Nat.lt_or_eq_of_le (Nat.le_of_lt_succ hk) with hlt | rfl
    · have happart : k * size + size ≤ n * size := by
        rw [← Nat.succ_mul]
        exact Nat.mul_le_mul_right size hlt
      rw [slice_blit_apart _ (.inl (by omega))]
      exact ih hlt
    · have hlast := slice_blit ((List.range k).foldl (fun m k => blit m (a + k * size) (block k))
        mem) (a + k * size) (block k)
      rwa [hsize] at hlast

theorem tiled_outside (mem : Nat → β) (block : Nat → List β) {size : Nat}
    (hsize : ∀ k, (block k).length = size) (hi : i < a ∨ a + n * size ≤ i) :
    (List.range n).foldl (fun m k => blit m (a + k * size) (block k)) mem i = mem i := by
  induction n with
  | zero => rfl
  | succ n ih =>
    rw [Nat.succ_mul] at hi
    rw [List.range_succ, List.foldl_append, List.foldl_cons, List.foldl_nil,
      blit_outside _ (by rw [hsize]; omega)]
    exact ih (by omega)

/-- Cells copied one after the other, upwards. -/
def copyUp (mem : Nat → β) (dst src : Nat) : Nat → Nat → β
  | 0 => mem
  | n + 1 => Function.update (copyUp mem dst src n) (dst + n) (copyUp mem dst src n (src + n))

/-- Where no cell is read after it has been stored to, the copy is that of the
cells before it. -/
theorem copyUp_eq_blit (mem : Nat → β) {dst src : Nat} (h : dst ≤ src ∨ src + n ≤ dst) :
    copyUp mem dst src n = blit mem dst (slice mem src n) := by
  induction n with
  | zero => rfl
  | succ n ih =>
    have hcopied := ih (by omega)
    have hunread : blit mem dst (slice mem src n) (src + n) = mem (src + n) :=
      blit_outside mem (by rw [slice_length]; omega)
    have hlast : slice mem src (n + 1) = slice mem src n ++ [mem (src + n)] :=
      slice_append mem src n 1
    rw [copyUp, hcopied, hunread, hlast, blit_concat, slice_length]

/-- A list with some of its items replaced. -/
def splice (bs : List β) (pos : Nat) (xs : List β) : List β :=
  bs.take pos ++ xs ++ bs.drop (pos + xs.length)

theorem splice_length {xs : List β} (h : pos + xs.length ≤ bs.length) :
    (splice bs pos xs).length = bs.length := by
  simp only [splice, List.length_append, List.length_take, List.length_drop]
  omega

theorem splice_get_inside {xs : List β} (h : pos ≤ bs.length) (hi : i < xs.length) :
    (splice bs pos xs)[pos + i]? = xs[i]? := by
  have htake : (bs.take pos).length = pos := List.length_take_of_le h
  rw [splice, List.append_assoc, List.getElem?_append_right (by omega), htake,
    Nat.add_sub_cancel_left, List.getElem?_append_left hi]

theorem splice_get_outside {xs : List β} (h : pos ≤ bs.length)
    (hi : i < pos ∨ pos + xs.length ≤ i) : (splice bs pos xs)[i]? = bs[i]? := by
  have htake : (bs.take pos).length = pos := List.length_take_of_le h
  rcases hi with hi | hi
  · rw [splice, List.append_assoc, List.getElem?_append_left (by omega),
      List.getElem?_take_of_lt hi]
  · rw [splice, List.getElem?_append_right (by rw [List.length_append]; omega), List.length_append,
      htake, List.getElem?_drop, Nat.add_sub_cancel' hi]

/-- What stands behind the replaced items is not looked at. -/
theorem splice_append {xs : List β} (cs : List β) (h : pos + xs.length ≤ bs.length) :
    splice (bs ++ cs) pos xs = splice bs pos xs ++ cs := by
  rw [splice, splice, List.take_append_of_le_length (by omega), List.drop_append_of_le_length h]
  simp

/-- Cells that are read, changed in part and stored again change in that part only. -/
theorem blit_splice (mem : Nat → β) (a : Nat) {xs : List β} (h : pos + xs.length ≤ n) :
    blit mem a (splice (slice mem a n) pos xs) = blit mem (a + pos) xs := by
  have hpos : pos ≤ (slice mem a n).length := by rw [slice_length]; omega
  have hlen : (splice (slice mem a n) pos xs).length = n := by
    rw [splice_length (by rwa [slice_length]), slice_length]
  funext k
  by_cases hin : a ≤ k ∧ k < a + n
  · obtain ⟨i, rfl⟩ := Nat.exists_eq_add_of_le hin.1
    by_cases hpatch : pos ≤ i ∧ i < pos + xs.length
    · obtain ⟨j, rfl⟩ := Nat.exists_eq_add_of_le hpatch.1
      have hj : j < xs.length := by omega
      obtain ⟨x, hx⟩ : ∃ x, xs[j]? = some x := ⟨_, List.getElem?_eq_getElem hj⟩
      rw [blit_inside mem a ((splice_get_inside hpos hj).trans hx), ← Nat.add_assoc,
        blit_inside mem (a + pos) hx]
    · have hold : (splice (slice mem a n) pos xs)[i]? = some (mem (a + i)) :=
        (splice_get_outside hpos (by omega)).trans (slice_get mem a (by omega))
      rw [blit_inside mem a hold, blit_outside mem (by omega)]
  · rw [blit_outside mem (by rw [hlen]; omega), blit_outside mem (by omega)]

end Numbered

section Moved

variable {γ : Type u} {β : Type v} [Add γ] [LT γ]

/-- The cells from `dest` on hold what those from `src` on held, and no other is changed. -/
structure Moved (mem : γ → β) (dest src count : γ) (mem' : γ → β) : Prop where
  copied : ∀ i < count, mem' (dest + i) = mem (src + i)
  frame : ∀ a, (∀ i < count, a ≠ dest + i) → mem' a = mem a

/-- Ranges that share no cell. -/
def Apart (dest src count : γ) : Prop := ∀ i < count, ∀ j < count, dest + i ≠ src + j

end Moved

section Moves

variable {mem mem' mem'' : Nat → β} {dest src n k : Nat}

theorem moved_blit (mem : Nat → β) (dest src n : Nat) :
    Moved mem dest src n (blit mem dest (slice mem src n)) where
  copied _ hi := blit_inside mem dest (slice_get mem src hi)
  frame a ha := by
    refine blit_outside mem ?_
    rw [slice_length]
    by_contra hin
    exact ha (a - dest) (by omega) (by omega)

theorem Moved.none (mem : Nat → β) (dest src : Nat) : Moved mem dest src 0 mem where
  copied i hi := absurd hi (Nat.not_lt_zero i)
  frame _ _ := rfl

/-- A move in two parts: downwards, or between places that do not overlap. -/
theorem Moved.join (hap : dest ≤ src ∨ src + (n + k) ≤ dest) (h : Moved mem dest src n mem')
    (h' : Moved mem' (dest + n) (src + n) k mem'') : Moved mem dest src (n + k) mem'' where
  copied i hi := by
    by_cases hfirst : i < n
    · rw [h'.frame (dest + i) (fun j _ => by omega)]
      exact h.copied i hfirst
    · obtain ⟨j, rfl⟩ := Nat.exists_eq_add_of_le (Nat.le_of_not_lt hfirst)
      rw [← Nat.add_assoc, ← Nat.add_assoc, h'.copied j (by omega)]
      exact h.frame _ (fun l hl => by omega)
  frame a ha := by
    rw [h'.frame a (fun j hj => by rw [Nat.add_assoc]; exact ha (n + j) (by omega))]
    exact h.frame a (fun j hj => ha j (by omega))

/-- A move downwards in two parts. -/
theorem Moved.extend (hle : dest ≤ src) (h : Moved mem dest src n mem')
    (h' : Moved mem' (dest + n) (src + n) k mem'') : Moved mem dest src (n + k) mem'' :=
  h.join (.inl hle) h'

theorem below_or_behind (h : dest ≤ src ∨ Apart dest src n) : dest ≤ src ∨ src + n ≤ dest := by
  rcases h with hle | hapart
  · exact .inl hle
  · by_contra hnot
    exact hapart 0 (by omega) (dest - src) (by omega) (by omega)

end Moves

end Levos.Library
