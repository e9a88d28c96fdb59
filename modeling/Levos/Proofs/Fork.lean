import Levos.Fork
import Levos.Proofs.Kernel
import Levos.Proofs.Segments

namespace Levos.Proofs.Fork
open Levos Levos.Library Levos.Elf Levos.Fork Levos.Proofs.Memory Levos.Proofs.Loading
open Levos.Proofs.Segments Levos.Proofs.Paging

variable {w w' : World} {rest : PageDirectory} {bytes : Bytes}

/-- The byte at an offset of the window under a directory, in a memory. -/
def imageByte (pd : PageDirectory) (mem : Memory) (i : Nat) : Option UInt8 :=
  (translate pd ((0x400000 + i) % 2 ^ 32)).map mem

/-- The call has built a child with the bytes the parent had, and the parent
still has them. -/
def Copied (w : World) (mem : Memory) (rest : PageDirectory) : Prop :=
  ∃ c w', sysFork { w with mem := mem } rest = some (c, w') ∧ w'.directory = w.directory ∧
    ∀ i < w.caller.pallocLen,
      imageByte c.paged w'.mem i = imageByte w.directory mem i ∧
      imageByte w.directory w'.mem i = imageByte w.directory mem i

/-- The frames at `palloc` can be cleared and filled for the child of a parent
with an image of `n` bytes: all stores and reads are outside the kernel, clearing
spares the image of the parent, and no place is both filled and otherwise in
use. -/
structure Separate (pd rest : PageDirectory) (palloc n : Nat) : Prop where
  clear : Lands pd palloc n (fun a => kernelOwned a = false)
  source : Lands pd 0x400000 n (fun a => kernelOwned a = false ∧ ¬ Clears pd palloc n a)
  target : Lands (createNewPageDirectory rest 0x400000 palloc) 0x400000 n
    (fun a => kernelOwned a = false)
  once : ∀ i < n, ∀ j < n, ∀ a,
    translate (createNewPageDirectory rest 0x400000 palloc) ((0x400000 + i) % 2 ^ 32) = some a →
    translate (createNewPageDirectory rest 0x400000 palloc) ((0x400000 + j) % 2 ^ 32) = some a ∨
      translate pd ((0x400000 + j) % 2 ^ 32) = some a →
    translate pd ((0x400000 + i) % 2 ^ 32) = translate pd ((0x400000 + j) % 2 ^ 32)

theorem slice_whole (bytes : Bytes) : Elf.slice bytes 0 bytes.length = some bytes := by
  unfold Elf.slice
  split
  · rename_i h
    rw [List.length_eq_zero_iff.mp h]
  · rw [Nat.zero_add, if_pos le_rfl, List.drop_zero, List.take_length]

/-- Everything `sys_fork` does to memory, for a parent whose two lengths agree. -/
structure Shape (w : World) (rest : PageDirectory) (c : Child) (w' : World) (palloc : Nat)
    (cleared : Memory) (srcs dsts : List Nat) : Prop where
  found : ∃ m, Levos.phymemAlloc w.phymem w.caller.pallocLen = some (palloc, m)
  clear : Lands w.directory palloc w.caller.pallocLen (fun a => kernelOwned a = false)
  zero : ∀ a, Clears w.directory palloc w.caller.pallocLen a → cleared a = 0
  keep : ∀ a, ¬ Clears w.directory palloc w.caller.pallocLen a → cleared a = w.mem a
  sources : addresses w.directory 0x400000 w.caller.pallocLen = some srcs
  targets : addresses (createNewPageDirectory rest 0x400000 palloc) 0x400000
    w.caller.pallocLen = some dsts
  readable : ∀ a ∈ srcs, kernelOwned a = false
  writable : ∀ a ∈ dsts, kernelOwned a = false
  made : c = child rest palloc w.caller.pallocLen
  filled : w'.mem = writes cleared (dsts.zip (srcs.map cleared))
  back : w'.directory = w.directory

theorem sys_fork_shape (hlen : w.caller.execLen = w.caller.pallocLen)
    (h : sysFork w rest = some (c, w')) :
    ∃ palloc cleared srcs dsts, Shape w rest c w' palloc cleared srcs dsts := by
  unfold sysFork at h
  rw [hlen] at h
  split at h
  · cases h
  · rename_i palloc w₁ halloc
    split at h
    · cases h
    · rename_i buf hbuf
      obtain ⟨m, hm, hclear⟩ := phymem_alloc_some halloc
      obtain ⟨-, -, hdir⟩ := store_keeps hclear
      obtain ⟨srcs, hsrcs, hread, rfl⟩ := fetch_some hbuf
      have hn := addresses_length hsrcs
      obtain ⟨w₂, hfill, heq⟩ := Option.map_eq_some_iff.mp h
      cases heq
      unfold fill at hfill
      have hslice : Elf.slice (srcs.map w₁.mem) 0 w.caller.pallocLen = some (srcs.map w₁.mem) := by
        have := slice_whole (srcs.map w₁.mem)
        rwa [List.length_map, hn] at this
      simp only [child, hslice] at hfill
      obtain ⟨w₃, hstore, rfl⟩ := Option.map_eq_some_iff.mp hfill
      obtain ⟨dsts, hdsts, hwrite, rfl⟩ := store_some hstore
      rw [List.length_map, hn] at hdsts
      obtain ⟨hzero, hkeep⟩ := phymem_alloc_memory halloc
      exact ⟨palloc, w₁.mem, srcs, dsts, ⟨m, hm⟩, phymem_alloc_lands halloc, hzero, hkeep,
        hdir ▸ hsrcs, hdsts, hread, hwrite, rfl, rfl, hdir⟩

theorem sys_fork_exists (hlen : w.caller.execLen = w.caller.pallocLen)
    (hm : Levos.phymemAlloc w.phymem w.caller.pallocLen = some (palloc, m))
    (hs : Separate w.directory rest palloc w.caller.pallocLen) :
    ∃ c w', sysFork w rest = some (c, w') := by
  obtain ⟨w₁, halloc, hclear⟩ := phymem_alloc_exists hm hs.clear
  obtain ⟨-, -, hdir⟩ := store_keeps hclear
  have hsource := hs.source.mono (fun _ ha => ha.1)
  obtain ⟨srcs, hsrcs, hfetch⟩ := fetch_exists (w := w₁) (hdir.symm ▸ hsource)
  have hn := addresses_length hsrcs
  have hlength : (srcs.map w₁.mem).length = w.caller.pallocLen := by rw [List.length_map, hn]
  have hslice : Elf.slice (srcs.map w₁.mem) 0 w.caller.pallocLen = some (srcs.map w₁.mem) :=
    hlength ▸ slice_whole (srcs.map w₁.mem)
  have htarget := hs.target
  rw [← hlength] at htarget
  obtain ⟨dsts, -, hstore⟩ := store_exists
    (w := { w₁ with directory := createNewPageDirectory rest 0x400000 palloc }) htarget
  have hfill : ∃ w₂, fill w₁ (child rest palloc w.caller.pallocLen) (srcs.map w₁.mem) =
      some w₂ := by
    simp only [fill, child, hslice, hstore, Option.map_some, Option.some.injEq, exists_eq']
  obtain ⟨w₂, hfill⟩ := hfill
  refine ⟨child rest palloc w.caller.pallocLen, w₂, ?_⟩
  simp only [sysFork, hlen, halloc, hfetch, hfill, Option.map_some]

section Shape
variable {c : Child} {palloc : Nat} {cleared : Memory} {srcs dsts : List Nat}

theorem Shape.source (h : Shape w rest c w' palloc cleared srcs dsts)
    (hi : i < w.caller.pallocLen) :
    ∃ a, translate w.directory ((0x400000 + i) % 2 ^ 32) = some a ∧ srcs[i]? = some a := by
  have hget := addresses_get h.sources hi
  have hlt : i < srcs.length := (addresses_length h.sources).symm ▸ hi
  rw [List.getElem?_eq_getElem hlt] at hget
  exact ⟨_, hget.symm, List.getElem?_eq_getElem hlt⟩

theorem Shape.target (h : Shape w rest c w' palloc cleared srcs dsts)
    (hi : i < w.caller.pallocLen) :
    ∃ a, translate c.paged ((0x400000 + i) % 2 ^ 32) = some a ∧ dsts[i]? = some a := by
  have hget := addresses_get h.targets hi
  have hlt : i < dsts.length := (addresses_length h.targets).symm ▸ hi
  rw [List.getElem?_eq_getElem hlt] at hget
  rw [h.made]
  exact ⟨_, hget.symm, List.getElem?_eq_getElem hlt⟩

/-- If the frames are separate from the parent, the buffer holds its bytes. -/
theorem Shape.spared (h : Shape w rest c w' palloc cleared srcs dsts)
    (hs : Separate w.directory rest palloc w.caller.pallocLen) (hi : i < w.caller.pallocLen)
    (ha : translate w.directory ((0x400000 + i) % 2 ^ 32) = some a) : cleared a = w.mem a := by
  obtain ⟨b, hb, -, hspared⟩ := hs.source i hi
  cases ha.symm.trans hb
  exact h.keep a hspared

theorem Shape.child_byte (h : Shape w rest c w' palloc cleared srcs dsts)
    (hs : Separate w.directory rest palloc w.caller.pallocLen) (hi : i < w.caller.pallocLen)
    (ha : translate w.directory ((0x400000 + i) % 2 ^ 32) = some a)
    (hd : translate c.paged ((0x400000 + i) % 2 ^ 32) = some d) : w'.mem d = w.mem a := by
  have hsrc := addresses_get h.sources hi
  have hdst := addresses_get h.targets hi
  rw [h.made] at hd
  rw [h.filled, ← h.spared hs hi ha]
  refine writes_zip_agree ?_ (hdst.trans hd) (i := i) ?_
  · intro i j e hie hje
    have hi' : i < w.caller.pallocLen :=
      addresses_length h.targets ▸ (List.getElem?_eq_some_iff.mp hie).1
    have hj' : j < w.caller.pallocLen :=
      addresses_length h.targets ▸ (List.getElem?_eq_some_iff.mp hje).1
    rw [addresses_get h.targets hi'] at hie
    rw [addresses_get h.targets hj'] at hje
    have hsame := hs.once i hi' j hj' e hie (.inl hje)
    rw [List.getElem?_map, List.getElem?_map, addresses_get h.sources hi',
      addresses_get h.sources hj', hsame]
  · rw [List.getElem?_map, hsrc, ha, Option.map_some]

theorem Shape.parent_byte (h : Shape w rest c w' palloc cleared srcs dsts)
    (hs : Separate w.directory rest palloc w.caller.pallocLen) (hi : i < w.caller.pallocLen)
    (ha : translate w.directory ((0x400000 + i) % 2 ^ 32) = some a) : w'.mem a = w.mem a := by
  by_cases hmem : a ∈ dsts
  · -- a place of the parent that is filled gets its own byte
    obtain ⟨j, hj, hja⟩ := (mem_addresses h.targets).mp hmem
    have hsame := hs.once j hj i hi a hja (.inr ha)
    exact h.child_byte hs hj (hsame.trans ha) (h.made ▸ hja)
  · rw [h.filled, writes_zip_of_not_mem hmem]
    exact h.spared hs hi ha

/-- Where the buffer holds zeros only, nothing but a zero can be stored. -/
theorem Shape.wiped (h : Shape w rest c w' palloc cleared srcs dsts) (ha : cleared a = 0)
    (hs : ∀ s ∈ srcs, cleared s = 0) : w'.mem a = 0 := by
  rw [h.filled]
  refine writes_same ha ?_
  intro x hx
  obtain ⟨s, hmem, hval⟩ := List.mem_map.mp (List.of_mem_zip hx).2
  rw [← hval]
  exact hs s hmem

end Shape

theorem separate_copied (hlen : w.caller.execLen = w.caller.pallocLen)
    (hm : Levos.phymemAlloc w.phymem w.caller.pallocLen = some (palloc, m))
    (hs : Separate w.directory rest palloc w.caller.pallocLen) (mem : Memory) :
    Copied w mem rest := by
  obtain ⟨c, w', hfork⟩ := sys_fork_exists (w := { w with mem := mem }) hlen hm hs
  obtain ⟨palloc', cleared, srcs, dsts, hshape⟩ :=
    sys_fork_shape (w := { w with mem := mem }) hlen hfork
  obtain ⟨m', hm'⟩ := hshape.found
  cases hm.symm.trans hm'
  refine ⟨c, w', hfork, hshape.back, ?_⟩
  intro i hi
  obtain ⟨a, ha, -⟩ := hshape.source hi
  obtain ⟨d, hd, -⟩ := hshape.target hi
  have hsource : imageByte w.directory mem i = some (mem a) := by
    rw [imageByte, show translate w.directory _ = _ from ha, Option.map_some]
  refine ⟨?_, ?_⟩
  · rw [hsource, imageByte, hd, Option.map_some, hshape.child_byte hs hi ha hd]
  · rw [hsource, imageByte, show translate w.directory _ = _ from ha, Option.map_some,
      hshape.parent_byte hs hi ha]

/-- What a call that has copied says about each place of the two images. -/
theorem copied_bytes (hlen : w.caller.execLen = w.caller.pallocLen)
    (hm : Levos.phymemAlloc w.phymem w.caller.pallocLen = some (palloc, m))
    (h : Copied w mem rest) :
    ∃ c w' cleared srcs dsts, Shape { w with mem := mem } rest c w' palloc cleared srcs dsts ∧
      ∀ i < w.caller.pallocLen, ∀ a, translate w.directory ((0x400000 + i) % 2 ^ 32) = some a →
        w'.mem a = mem a ∧ ∀ d,
          translate (createNewPageDirectory rest 0x400000 palloc) ((0x400000 + i) % 2 ^ 32) =
            some d → w'.mem d = mem a := by
  obtain ⟨c, w', hfork, -, hbytes⟩ := h
  obtain ⟨palloc', cleared, srcs, dsts, hshape⟩ :=
    sys_fork_shape (w := { w with mem := mem }) hlen hfork
  obtain ⟨m', hm'⟩ := hshape.found
  cases hm.symm.trans hm'
  refine ⟨c, w', cleared, srcs, dsts, hshape, ?_⟩
  intro i hi a ha
  obtain ⟨hchild, hparent⟩ := hbytes i hi
  simp only [imageByte, ha, Option.map_some] at hchild hparent
  refine ⟨Option.some.inj hparent, ?_⟩
  intro d hd
  rw [hshape.made, show translate (child rest palloc w.caller.pallocLen).paged _ = _ from hd,
    Option.map_some] at hchild
  exact Option.some.inj hchild

/-- One byte is set; it tells the place apart from all others. -/
def probe (s : Nat) : Memory := Function.update (fun _ => 0) s 1

theorem probe_self (s : Nat) : probe s s = 1 := Function.update_self _ _ _

theorem probe_of_ne (h : x ≠ s) : probe s x = 0 := Function.update_of_ne h _ _

theorem probe_one (h : probe s x = 1) : x = s := by
  by_contra hne
  rw [probe_of_ne hne] at h
  exact absurd h (by decide)

theorem copied_spares (hlen : w.caller.execLen = w.caller.pallocLen)
    (hm : Levos.phymemAlloc w.phymem w.caller.pallocLen = some (palloc, m))
    (h : ∀ mem, Copied w mem rest) (hi : i < w.caller.pallocLen)
    (ha : translate w.directory ((0x400000 + i) % 2 ^ 32) = some a) :
    ¬ Clears w.directory palloc w.caller.pallocLen a := by
  intro hclears
  obtain ⟨c, w', cleared, srcs, dsts, hshape, hbytes⟩ := copied_bytes hlen hm (h (probe a))
  have hzero : ∀ x, cleared x = 0 := by
    intro x
    by_cases hx : Clears w.directory palloc w.caller.pallocLen x
    · exact hshape.zero x hx
    · have hne : x ≠ a := by
        rintro rfl
        exact hx hclears
      rw [hshape.keep x hx]
      exact probe_of_ne hne
  have hone := (hbytes i hi a ha).1
  rw [hshape.wiped (hzero a) (fun s _ => hzero s), probe_self] at hone
  exact absurd hone (by decide)

/-- The child of every fork, whatever memory holds, gets the bytes of its parent
and the parent keeps them exactly if the frames found for it are separate. -/
theorem fork_copies_iff (w : World) (rest : PageDirectory)
    (hlen : w.caller.execLen = w.caller.pallocLen) :
    (∀ mem, Copied w mem rest) ↔
      ∃ palloc m, Levos.phymemAlloc w.phymem w.caller.pallocLen = some (palloc, m) ∧
        Separate w.directory rest palloc w.caller.pallocLen := by
  constructor
  · intro h
    obtain ⟨c, w', hfork, -, -⟩ := h w.mem
    obtain ⟨palloc, cleared, srcs, dsts, hshape⟩ := sys_fork_shape hlen hfork
    obtain ⟨m, hm⟩ := hshape.found
    have hread := (lands_iff hshape.sources (fun a => kernelOwned a = false)).mpr hshape.readable
    have hwrite := (lands_iff hshape.targets (fun a => kernelOwned a = false)).mpr hshape.writable
    refine ⟨palloc, m, hm, hshape.clear, ?_, hwrite, ?_⟩
    · intro i hi
      obtain ⟨a, ha, hown⟩ := hread i hi
      exact ⟨a, ha, hown, copied_spares hlen hm h hi ha⟩
    · intro i hi j hj d hd hcase
      obtain ⟨a, ha, -⟩ := hread i hi
      obtain ⟨b, hb, -⟩ := hread j hj
      obtain ⟨c, w', cleared, srcs, dsts, -, hbytes⟩ := copied_bytes hlen hm (h (probe a))
      have hone : w'.mem d = 1 := ((hbytes i hi a ha).2 d hd).trans (probe_self a)
      have hsame : probe a b = 1 := by
        rcases hcase with hjd | hjd
        · exact ((hbytes j hj b hb).2 d hjd).symm.trans hone
        · have hbd : b = d := Option.some.inj (hb.symm.trans hjd)
          rw [← hbd] at hone
          exact ((hbytes j hj b hb).1).symm.trans hone
      rw [ha, hb, probe_one hsame]
  · rintro ⟨palloc, m, hm, hs⟩ mem
    exact separate_copied hlen hm hs mem

/-- Frames below the window that do not meet those of the parent are separate. -/
theorem separate_of_low (hpd : pd 0 = some firstPt) (hmaps : Maps pd parent)
    (ha : parent % 0x1000 = 0) (hb : palloc % 0x1000 = 0)
    (hp : physStart ≤ parent ∧ parent + n ≤ 0x400000)
    (hc : physStart ≤ palloc ∧ palloc + n ≤ 0x400000)
    (hap : parent + n ≤ palloc ∨ palloc + n ≤ parent) (hn : n < 0x400000) :
    Separate pd rest palloc n := by
  have hsrc : ∀ i < n, translate pd ((0x400000 + i) % 2 ^ 32) = some (parent + i) := by
    intro i hi
    have hwin : InWindow (0x400000 + i) := ⟨by omega, by omega⟩
    rw [Nat.mod_eq_of_lt (by omega), hmaps _ hwin, frame_low ha hwin (by omega),
      Nat.add_sub_cancel_left]
  have hdst : ∀ i < n, translate (createNewPageDirectory rest 0x400000 palloc)
      ((0x400000 + i) % 2 ^ 32) = some (palloc + i) := by
    intro i hi
    have hwin : InWindow (0x400000 + i) := ⟨by omega, by omega⟩
    rw [Nat.mod_eq_of_lt (by omega), maps_window rest palloc _ hwin, frame_low hb hwin (by omega),
      Nat.add_sub_cancel_left]
  have hlow : ∀ j < n, translate pd ((palloc + j) % 2 ^ 32) = some (palloc + j) := by
    intro j hj
    rw [Nat.mod_eq_of_lt (by omega)]
    exact low_translate hpd (by omega)
  refine ⟨?_, ?_, ?_, ?_⟩
  · intro j hj
    exact ⟨_, hlow j hj, kernel_owned_low (by omega) (by omega)⟩
  · intro i hi
    refine ⟨_, hsrc i hi, kernel_owned_low (by omega) (by omega), ?_⟩
    rintro ⟨j, hj, hjc⟩
    have := Option.some.inj ((hlow j hj).symm.trans hjc)
    omega
  · intro i hi
    exact ⟨_, hdst i hi, kernel_owned_low (by omega) (by omega)⟩
  · intro i hi j hj d hd hcase
    rw [hdst i hi] at hd
    rw [hdst j hj, hsrc j hj] at hcase
    rw [hsrc i hi, hsrc j hj]
    rcases hcase with h | h
    · have := Option.some.inj (hd.trans h.symm)
      exact congrArg some (by omega)
    · have := Option.some.inj (hd.trans h.symm)
      omega

/-- A parent that was given the first frames of the machine, for `n` bytes. -/
def parentWorld (n : Nat) (bitmap : Bitmap) : World where
  phymem := ⟨physStart, 0x1F000, 0x323000, .initTwo, bitmap⟩
  mem := fun _ => 7
  caller := ⟨0x500000, 0x304000, n, n⟩
  directory := createNewPageDirectory (fun _ => none) 0x400000 0x304000
  written := []

theorem fork_copies_two_pages :
    (parentWorld 4096 [3, 0, 0, 0, 0]).caller.execLen =
      (parentWorld 4096 [3, 0, 0, 0, 0]).caller.pallocLen ∧
    ∀ mem, Copied (parentWorld 4096 [3, 0, 0, 0, 0]) mem (fun _ => none) := by
  refine ⟨rfl, (fork_copies_iff (parentWorld 4096 [3, 0, 0, 0, 0]) (fun _ => none) rfl).mpr ?_⟩
  refine ⟨0x30C000, _, rfl, ?_⟩
  exact separate_of_low rfl (maps_window _ 0x304000) (by decide) (by decide)
    ⟨by decide, by decide⟩ ⟨by decide, by decide⟩ (.inl (by decide)) (by decide)

/-- A parent whose whole image is cleared is not copied. -/
theorem wiped_not_copied (hlen : w.caller.execLen = w.caller.pallocLen)
    (hm : Levos.phymemAlloc w.phymem w.caller.pallocLen = some (palloc, m))
    (hall : Lands w.directory 0x400000 w.caller.pallocLen
      (Clears w.directory palloc w.caller.pallocLen))
    (hi : i < w.caller.pallocLen)
    (ha : translate w.directory ((0x400000 + i) % 2 ^ 32) = some a) (hne : mem a ≠ 0) :
    ¬ Copied w mem rest := by
  intro h
  obtain ⟨c, w', cleared, srcs, dsts, hshape, hbytes⟩ := copied_bytes hlen hm h
  have hsrcs : ∀ s ∈ srcs, cleared s = 0 :=
    fun s hs => hshape.zero s ((lands_iff hshape.sources _).mp hall s hs)
  have hmem : a ∈ srcs := (mem_addresses hshape.sources).mpr ⟨i, hi, ha⟩
  have hbyte := (hbytes i hi a ha).1
  rw [hshape.wiped (hsrcs a hmem) hsrcs] at hbyte
  exact hne hbyte.symm

/-- The state after the machine came up and gave its first frame to the parent. -/
def onePageWorld : World := parentWorld 84 [1, 0, 0, 0, 0]

/-- The first frame is handed out again while the parent has it, and clearing it
wipes the parent before it is copied. -/
theorem fork_wipes_parent :
    ∃ m₀, phymemInitLevelTwo (phymemInitLevelOne .boot physStart) 0x323000 = some m₀ ∧
      Levos.phymemAlloc m₀ 84 = some (0x304000, onePageWorld.phymem) ∧
      ¬ Copied onePageWorld onePageWorld.mem (fun _ => none) := by
  have hsrc : ∀ i < 84, translate onePageWorld.directory ((0x400000 + i) % 2 ^ 32) =
      some (0x304000 + i) := by
    intro i hi
    have hwin : InWindow (0x400000 + i) := ⟨by omega, by omega⟩
    rw [Nat.mod_eq_of_lt (by omega)]
    refine (maps_window _ 0x304000 _ hwin).trans ?_
    rw [frame_low (by decide) hwin (by decide), Nat.add_sub_cancel_left]
  have hm : Levos.phymemAlloc onePageWorld.phymem onePageWorld.caller.pallocLen =
      some (0x304000, onePageWorld.phymem) := rfl
  refine ⟨_, rfl, rfl, ?_⟩
  refine wiped_not_copied (i := 0) (a := 0x304000) rfl hm ?_ (by decide)
    (hsrc 0 (by decide)) (by decide)
  intro i hi
  have hlt : i < 84 := hi
  refine ⟨_, hsrc i hlt, i, hi, ?_⟩
  rw [Nat.mod_eq_of_lt (by omega)]
  exact low_translate rfl (by omega)

end Levos.Proofs.Fork
