import Levos.Proofs.Loading

namespace Levos.Proofs.Segments
open Levos Levos.Library Levos.Elf Levos.Proofs.Elf Levos.Proofs.Entries Levos.Proofs.Paging
open Levos.Proofs.Loading Levos.Proofs.Memory

/-- The fields of one `elf_program_header_t`. -/
structure ProgramHeader where
  pType : Nat
  pOffset : Nat
  pVaddr : Nat
  pFilesz : Nat
  pMemsz : Nat
deriving DecidableEq

def headerAt (b : Bytes) (ph : Nat) : Option ProgramHeader :=
  match pType b ph, pOffset b ph, pVaddr b ph, pFilesz b ph, pMemsz b ph with
  | some t, some offset, some vaddr, some filesz, some memsz =>
    some ⟨t, offset, vaddr, filesz, memsz⟩
  | _, _, _, _, _ => none

/-- The program header table of a buffer. -/
def headers (b : Bytes) : Nat → Nat → Option (List ProgramHeader)
  | 0, _ => some []
  | n + 1, ph => match headerAt b ph, headers b n (ph + phSize) with
    | some h, some hs => some (h :: hs)
    | _, _ => none

def loads (phs : List ProgramHeader) : List ProgramHeader := phs.filter (fun h => h.pType == 1)

/-- The two segments share no address. -/
def Apart (g h : ProgramHeader) : Prop :=
  g.pVaddr + g.pMemsz ≤ h.pVaddr ∨ h.pVaddr + h.pMemsz ≤ g.pVaddr

/-- A LOAD segment whose file bytes lie in the file and whose memory lies in the
window. -/
structure Placed (buf : Bytes) (h : ProgramHeader) : Prop where
  source : InBuffer buf h.pOffset h.pFilesz
  sizes : h.pFilesz ≤ h.pMemsz
  low : 0x400000 ≤ h.pVaddr
  high : h.pVaddr + h.pMemsz ≤ 0x800000

/-- A well-formed executable with the program headers `phs`: disjoint LOAD
segments in the window, and no header that ends the loop early. -/
structure Executable (buf : Bytes) (phs : List ProgramHeader) : Prop where
  probe : elfProbe buf = true
  type : eType buf = some 2
  table : ∃ phoff phnum, ePhoff buf = some phoff ∧ ePhnum buf = some phnum ∧
    headers buf phnum phoff = some phs
  types : ∀ h ∈ phs, h.pType = 0 ∨ h.pType = 1
  placed : ∀ h ∈ loads phs, Placed buf h
  apart : (loads phs).Pairwise Apart

/-- Every segment stands in memory as the file has it, followed by zeros. -/
def Loaded (w : World) (buf : Bytes) (phs : List ProgramHeader) : Prop :=
  ∀ h ∈ loads phs,
    (∀ k < h.pFilesz, w.byteAt (h.pVaddr + k) = buf[h.pOffset + k]?) ∧
    (∀ k, h.pFilesz ≤ k → k < h.pMemsz → w.byteAt (h.pVaddr + k) = some 0)

/-- The frames at `palloc` can be cleared and filled without touching the kernel,
and every byte behind the file part of a segment is among those cleared. -/
structure Ready (w : World) (buf : Bytes) (phs : List ProgramHeader) (palloc : Nat) : Prop where
  clear : Lands w.directory palloc buf.length (fun a => kernelOwned a = false)
  copy : ∀ h ∈ loads phs, ∀ k < h.pFilesz, kernelOwned (frame palloc (h.pVaddr + k)) = false
  bss : ∀ h ∈ loads phs, ∀ k, h.pFilesz ≤ k → k < h.pMemsz →
    Clears w.directory palloc buf.length (frame palloc (h.pVaddr + k))

/-- The segment loop on a table without other types: its LOAD segments in turn. -/
def loadAll (b : Bytes) : List ProgramHeader → World → Option World
  | [], w => some w
  | h :: hs, w => match Elf.slice b h.pOffset h.pFilesz with
    | none => none
    | some bytes => match w.store h.pVaddr bytes with
      | none => none
      | some w' => loadAll b hs w'

variable {b buf : Bytes} {w w' : World} {phs hs : List ProgramHeader}

theorem header_at_some (h : headerAt b ph = some p) (after : Bytes) :
    pType (b ++ after) ph = some p.pType ∧ pOffset (b ++ after) ph = some p.pOffset ∧
      pVaddr (b ++ after) ph = some p.pVaddr ∧ pFilesz (b ++ after) ph = some p.pFilesz := by
  unfold headerAt at h
  split at h
  · rename_i ht ho hv hf hm
    cases h
    exact ⟨le_append after ht, le_append after ho, le_append after hv, le_append after hf⟩
  · cases h

theorem segment_loop_headers (after : Bytes) (hh : headers b n ph = some phs)
    (ht : ∀ h ∈ phs, h.pType = 0 ∨ h.pType = 1) (w : World) :
    segmentLoop (b ++ after) n ph w =
      (loadAll (b ++ after) (loads phs) w).map (fun w' => (.finished, w')) := by
  induction n generalizing ph phs w with
  | zero =>
    cases hh
    rfl
  | succ n ih =>
    unfold headers at hh
    split at hh
    · rename_i h hs hhead htail
      cases hh
      obtain ⟨htype, hoff, hvaddr, hfile⟩ := header_at_some hhead after
      have hrest := ih htail (fun g hg => ht g (List.mem_cons_of_mem h hg))
      rcases ht h List.mem_cons_self with h0 | h1
      · rw [h0] at htype
        have hskip : loads (h :: hs) = loads hs := by simp [loads, h0]
        simp only [segmentLoop, htype, hskip, hrest]
      · rw [h1] at htype
        have htake : loads (h :: hs) = h :: loads hs := by simp [loads, h1]
        simp only [segmentLoop, htype, htake, loadSegment, hoff, hvaddr, hfile, loadAll]
        cases Elf.slice (b ++ after) h.pOffset h.pFilesz with
        | none => rfl
        | some bytes =>
          simp only
          cases w.store h.pVaddr bytes with
          | none => rfl
          | some w' => exact hrest w'
    · cases hh

/-- The directory maps the window onto the frames at `palloc`. -/
def Maps (pd : PageDirectory) (palloc : Nat) : Prop :=
  ∀ v, InWindow v → translate pd v = some (frame palloc v)

theorem Placed.window (hp : Placed buf h) (hk : k < h.pMemsz) : InWindow (h.pVaddr + k) := by
  have hlow := hp.low
  have hhigh := hp.high
  exact ⟨by omega, by omega⟩

theorem Placed.lookup (hp : Placed buf h) (hm : Maps pd palloc) (hk : k < h.pMemsz) :
    translate pd ((h.pVaddr + k) % 2 ^ 32) = some (frame palloc (h.pVaddr + k)) := by
  have hwin := hp.window hk
  have hhigh := hwin.2
  rw [Nat.mod_eq_of_lt (by omega)]
  exact hm _ hwin

theorem Placed.lands_iff (hp : Placed buf h) (hm : Maps pd palloc) (P : Nat → Prop) :
    Lands pd h.pVaddr h.pFilesz P ↔ ∀ k < h.pFilesz, P (frame palloc (h.pVaddr + k)) := by
  have hsizes := hp.sizes
  constructor
  · intro hl k hk
    obtain ⟨a, ha, hP⟩ := hl k hk
    cases ha.symm.trans (hp.lookup hm (by omega))
    exact hP
  · intro hall k hk
    exact ⟨_, hp.lookup hm (by omega), hall k hk⟩

theorem Apart.frames_ne (hg : Placed buf g) (hh : Placed buf h) (hap : Apart g h)
    (hj : j < g.pMemsz) (hk : k < h.pMemsz) :
    frame palloc (g.pVaddr + j) ≠ frame palloc (h.pVaddr + k) := by
  intro heq
  have := frame_injective (hg.window hj) (hh.window hk) heq
  rcases hap with hap | hap <;> omega

theorem slice_get (hin : InBuffer b offset n) (hs : Elf.slice (b ++ after) offset n = some bytes)
    (hk : k < n) : bytes[k]? = b[offset + k]? := by
  have hle : offset + n ≤ b.length := hin.resolve_left (by omega)
  have hlong : offset + n ≤ (b ++ after).length := by
    rw [List.length_append]
    omega
  rw [Elf.slice, if_neg (by omega), if_pos hlong] at hs
  cases hs
  rw [List.getElem?_take_of_lt hk, List.getElem?_drop, List.getElem?_append_left (by omega)]

/-- One copy puts the file bytes of its segment in place and keeps every other
byte. -/
theorem store_segment (hp : Placed buf h) (hm : Maps w.directory palloc)
    (hs : Elf.slice (buf ++ after) h.pOffset h.pFilesz = some bytes)
    (hw : w.store h.pVaddr bytes = some w') :
    (∀ k < h.pFilesz, some (w'.mem (frame palloc (h.pVaddr + k))) = buf[h.pOffset + k]?) ∧
    (∀ a, (∀ k < h.pFilesz, a ≠ frame palloc (h.pVaddr + k)) → w'.mem a = w.mem a) := by
  have hsizes := hp.sizes
  have hlen := (slice_some hs).2
  obtain ⟨as, has, -, rfl⟩ := store_some hw
  rw [hlen] at has
  have hget : ∀ k < h.pFilesz, as[k]? = some (frame palloc (h.pVaddr + k)) := by
    intro k hk
    rw [addresses_get has hk]
    exact hp.lookup hm (by omega)
  have hnodup : as.Nodup := by
    rw [List.nodup_iff_getElem?_ne_getElem?]
    intro i j hij hj heq
    rw [addresses_length has] at hj
    rw [hget i (by omega), hget j hj] at heq
    have := frame_injective (hp.window (by omega)) (hp.window (by omega)) (Option.some.inj heq)
    omega
  refine ⟨?_, ?_⟩
  · intro k hk
    have hbyte := slice_get hp.source hs hk
    have hlt : k < bytes.length := hlen.symm ▸ hk
    rw [List.getElem?_eq_getElem hlt] at hbyte
    rw [← hbyte]
    exact congrArg some (writes_zip_nodup hnodup (hget k hk) (List.getElem?_eq_getElem hlt))
  · intro a ha
    refine writes_zip_of_not_mem ?_
    intro hmem
    obtain ⟨k, hk, hak⟩ := (mem_addresses has).mp hmem
    refine ha k hk ?_
    exact Option.some.inj (hak.symm.trans (hp.lookup hm (by omega)))

/-- The copies of disjoint segments together put every file byte in place and
keep every other byte. -/
theorem load_all_memory (hp : ∀ h ∈ hs, Placed buf h) (hap : hs.Pairwise Apart)
    (hm : Maps w.directory palloc) (hl : loadAll (buf ++ after) hs w = some w') :
    w'.directory = w.directory ∧
    (∀ h ∈ hs, ∀ k < h.pFilesz,
      some (w'.mem (frame palloc (h.pVaddr + k))) = buf[h.pOffset + k]?) ∧
    (∀ a, (∀ h ∈ hs, ∀ k < h.pFilesz, a ≠ frame palloc (h.pVaddr + k)) →
      w'.mem a = w.mem a) := by
  induction hs generalizing w with
  | nil =>
    cases hl
    exact ⟨rfl, by simp, fun _ _ => rfl⟩
  | cons h hs ih =>
    unfold loadAll at hl
    split at hl
    · cases hl
    · rename_i bytes hslice
      split at hl
      · cases hl
      · rename_i w₁ hstore
        have hhead := hp h List.mem_cons_self
        obtain ⟨hfirst, hrest⟩ := List.pairwise_cons.mp hap
        obtain ⟨-, -, hdir⟩ := store_keeps hstore
        obtain ⟨hput, hkeep⟩ := store_segment hhead hm hslice hstore
        obtain ⟨hdir', hputs, hkeeps⟩ :=
          ih (fun g hg => hp g (List.mem_cons_of_mem h hg)) hrest (hdir.symm ▸ hm) hl
        refine ⟨hdir'.trans hdir, ?_, ?_⟩
        · intro g hg k hk
          rcases List.mem_cons.mp hg with rfl | hg
          · rw [hkeeps]
            · exact hput k hk
            · intro f hf j hj
              have hf' := hp f (List.mem_cons_of_mem g hf)
              have h1 := hhead.sizes
              have h2 := hf'.sizes
              exact (hfirst f hf).frames_ne hhead hf' (by omega) (by omega)
          · exact hputs g hg k hk
        · intro a ha
          rw [hkeeps a (fun g hg => ha g (List.mem_cons_of_mem h hg))]
          exact hkeep a (ha h List.mem_cons_self)

theorem load_all_exists (hp : ∀ h ∈ hs, Placed buf h) (hm : Maps w.directory palloc)
    (hc : ∀ h ∈ hs, ∀ k < h.pFilesz, kernelOwned (frame palloc (h.pVaddr + k)) = false)
    (after : Bytes) : ∃ w', loadAll (buf ++ after) hs w = some w' := by
  induction hs generalizing w with
  | nil => exact ⟨w, rfl⟩
  | cons h hs ih =>
    have hhead := hp h List.mem_cons_self
    obtain ⟨bytes, hslice, hlen⟩ := slice_exists (hhead.source.append after)
    have hlands := (hhead.lands_iff hm (fun a => kernelOwned a = false)).mpr
      (hc h List.mem_cons_self)
    rw [← hlen] at hlands
    obtain ⟨as, -, hstore⟩ := store_exists hlands
    simp only [loadAll, hslice, hstore]
    exact ih (fun g hg => hp g (List.mem_cons_of_mem h hg)) hm
      (fun g hg => hc g (List.mem_cons_of_mem h hg))

/-- Copies that go through have stored outside the kernel. -/
theorem load_all_copies (hp : ∀ h ∈ hs, Placed buf h) (hm : Maps w.directory palloc)
    (hl : loadAll (buf ++ after) hs w = some w') :
    ∀ h ∈ hs, ∀ k < h.pFilesz, kernelOwned (frame palloc (h.pVaddr + k)) = false := by
  induction hs generalizing w with
  | nil => simp
  | cons h hs ih =>
    unfold loadAll at hl
    split at hl
    · cases hl
    · rename_i bytes hslice
      split at hl
      · cases hl
      · rename_i w₁ hstore
        obtain ⟨-, -, hdir⟩ := store_keeps hstore
        have hlands := store_lands hstore
        rw [(slice_some hslice).2] at hlands
        have hfirst := ((hp h List.mem_cons_self).lands_iff hm _).mp
          (hlands.mono (fun _ ha => ha.1))
        have hrest := ih (fun g hg => hp g (List.mem_cons_of_mem h hg)) (hdir.symm ▸ hm) hl
        intro g hg
        rcases List.mem_cons.mp hg with rfl | hg
        · exact hfirst
        · exact hrest g hg

theorem maps_window (rest : PageDirectory) (palloc : Nat) :
    Maps (createNewPageDirectory rest 0x400000 palloc) palloc :=
  fun v hv => translate_window rest palloc v hv

/-- On an executable `elf_start` clears the frames it is given and copies the
segments in turn. -/
theorem elf_load_executable (hx : Executable buf phs) (after : Bytes) :
    elfLoad w buf after paged rest = (w.phymemAlloc buf.length).bind (fun (palloc, w₁) =>
      (loadAll (buf ++ after) (loads phs) (enterImage w₁ palloc buf.length paged rest)).map
        (fun w' => (.finished, w'))) := by
  obtain ⟨phoff, phnum, hoff, hnum, htable⟩ := hx.table
  simp only [elfLoad, show eType (buf ++ after) = _ from le_append after hx.type]
  cases w.phymemAlloc buf.length with
  | none => rfl
  | some r =>
    simp only [show ePhoff (buf ++ after) = _ from le_append after hoff,
      show ePhnum (buf ++ after) = _ from le_append after hnum,
      segment_loop_headers after htable hx.types, Option.bind_some]

theorem elf_load_finished (hx : Executable buf phs)
    (h : elfLoad w buf after paged rest = some (.finished, w')) :
    ∃ palloc w₁, w.phymemAlloc buf.length = some (palloc, w₁) ∧
      loadAll (buf ++ after) (loads phs) (enterImage w₁ palloc buf.length paged rest) =
        some w' := by
  rw [elf_load_executable hx] at h
  obtain ⟨⟨palloc, w₁⟩, halloc, hmap⟩ := Option.bind_eq_some_iff.mp h
  obtain ⟨w'', hload, heq⟩ := Option.map_eq_some_iff.mp hmap
  cases heq
  exact ⟨palloc, w₁, halloc, hload⟩

/-- A byte of a segment behind its file part is not stored to by any copy. -/
theorem Executable.bss_untouched (hx : Executable buf phs) (hh : h ∈ loads phs)
    (hk : h.pFilesz ≤ k) (hk' : k < h.pMemsz) :
    ∀ g ∈ loads phs, ∀ j < g.pFilesz,
      frame palloc (h.pVaddr + k) ≠ frame palloc (g.pVaddr + j) := by
  intro g hg j hj
  have hph := hx.placed h hh
  have hpg := hx.placed g hg
  have hsizes := hpg.sizes
  have hsymm : Std.Symm Apart := ⟨fun _ _ hap => hap.symm⟩
  by_cases heq : h = g
  · subst heq
    intro hf
    have := frame_injective (hph.window hk') (hpg.window (by omega)) hf
    omega
  · exact (hx.apart.forall hh hg heq).frames_ne hph hpg hk' (by omega)

/-- When the loop is finished the file parts stand in memory, and each byte
behind them is what clearing the frames has left there. -/
theorem elf_load_memory (hx : Executable buf phs)
    (hload : loadAll (buf ++ after) (loads phs) (enterImage w₁ palloc buf.length paged rest) =
      some w') (hh : h ∈ loads phs) :
    (∀ k < h.pFilesz, w'.byteAt (h.pVaddr + k) = buf[h.pOffset + k]?) ∧
    (∀ k, h.pFilesz ≤ k → k < h.pMemsz →
      w'.byteAt (h.pVaddr + k) = some (w₁.mem (frame palloc (h.pVaddr + k)))) := by
  have hsizes := (hx.placed h hh).sizes
  have hmaps : Maps (enterImage w₁ palloc buf.length paged rest).directory palloc :=
    maps_window rest palloc
  obtain ⟨hdir, hput, hkeep⟩ := load_all_memory hx.placed hx.apart hmaps hload
  have hbyte : ∀ k < h.pMemsz,
      w'.byteAt (h.pVaddr + k) = some (w'.mem (frame palloc (h.pVaddr + k))) := by
    intro k hk
    rw [World.byteAt, hdir, hmaps _ ((hx.placed h hh).window hk), Option.map_some]
  refine ⟨?_, ?_⟩
  · intro k hk
    rw [hbyte k (by omega)]
    exact hput h hh k hk
  · intro k hk hk'
    rw [hbyte k hk', hkeep _ (hx.bss_untouched hh hk hk')]
    rfl

/-- A byte behind a file part that clearing the frames has missed is as before. -/
theorem bss_stale (hx : Executable buf phs)
    (hload : elfLoad w buf after paged rest = some (.finished, w'))
    (hm : Levos.phymemAlloc w.phymem buf.length = some (palloc, m)) (hh : h ∈ loads phs)
    (hk : h.pFilesz ≤ k) (hk' : k < h.pMemsz)
    (hn : ¬ Clears w.directory palloc buf.length (frame palloc (h.pVaddr + k))) :
    w'.byteAt (h.pVaddr + k) = some (w.mem (frame palloc (h.pVaddr + k))) := by
  obtain ⟨palloc', w₁, halloc, hall⟩ := elf_load_finished hx hload
  obtain ⟨m', hm', -⟩ := phymem_alloc_some halloc
  cases hm.symm.trans hm'
  rw [(elf_load_memory hx hall hh).2 k hk hk', (phymem_alloc_memory halloc).2 _ hn]

/-- An executable stands in memory as its headers say, whatever the frames held
before, exactly if its frames can be cleared and filled and every byte behind a
file part is among those cleared. -/
theorem segments_loaded_iff (w : World) (buf : Bytes) (paged : Nat) (rest : PageDirectory)
    (phs : List ProgramHeader) (hx : Executable buf phs) :
    (∀ (mem : Memory) (after : Bytes), ∃ w',
      elfLoad { w with mem := mem } buf after paged rest = some (.finished, w') ∧
        Loaded w' buf phs) ↔
      ∃ palloc m, Levos.phymemAlloc w.phymem buf.length = some (palloc, m) ∧
        Ready w buf phs palloc := by
  constructor
  · intro h
    -- frames full of ones show which bytes were cleared
    obtain ⟨w', hload, hloaded⟩ := h (fun _ => 1) []
    obtain ⟨palloc, w₁, halloc, hall⟩ := elf_load_finished hx hload
    obtain ⟨m, hm, -⟩ := phymem_alloc_some halloc
    have hclear := phymem_alloc_lands halloc
    refine ⟨palloc, m, hm, hclear, ?_, ?_⟩
    · exact load_all_copies hx.placed (maps_window rest palloc) hall
    · intro g hg k hk hk'
      by_contra hnot
      have hstale := bss_stale hx hload hm hg hk hk' hnot
      have hzero := (hloaded g hg).2 k hk hk'
      exact absurd (hstale.symm.trans hzero) (by simp)
  · rintro ⟨palloc, m, hm, hready⟩ mem after
    obtain ⟨w₁, halloc, -⟩ := phymem_alloc_exists (w := { w with mem := mem }) hm hready.clear
    obtain ⟨w', hall⟩ := load_all_exists (w := enterImage w₁ palloc buf.length paged rest)
      hx.placed (maps_window rest palloc) hready.copy after
    refine ⟨w', ?_, ?_⟩
    · simp only [elf_load_executable hx, halloc, Option.bind_some, hall, Option.map_some]
    · intro g hg
      obtain ⟨hfile, hbss⟩ := elf_load_memory hx hall hg
      refine ⟨hfile, ?_⟩
      intro k hk hk'
      rw [hbss k hk hk', (phymem_alloc_memory halloc).1 _ (hready.bss g hg k hk hk')]

theorem low_translate (hpd : pd 0 = some firstPt) (hv : v < 0x400000) :
    translate pd v = some v := by
  have hdir : v >>> 22 = 0 := by
    rw [Nat.shiftRight_eq_div_pow]
    omega
  rw [← hdir] at hpd
  rw [translate_table firstPt 0 hpd rfl (by decide), Option.some.injEq]
  omega

theorem frame_low (ha : palloc % 0x1000 = 0) (hv : InWindow v) (hp : palloc < 0x400000) :
    frame palloc v = palloc + (v - 0x400000) := by
  obtain ⟨h1, h2⟩ := hv
  unfold frame
  omega

theorem kernel_owned_low (h1 : physStart ≤ a) (h2 : a < 0x400000) : kernelOwned a = false := by
  have hlow : decide (a < physStart) = false := decide_eq_false (by omega)
  have hheap : decide (0x400000 ≤ a) = false := decide_eq_false (by omega)
  rw [kernelOwned, hlow, hheap]
  rfl

/-- Frames below the window are cleared in place, so that it is enough if no
segment ends behind the size of the file. -/
theorem ready_of_low (hpd : w.directory 0 = some firstPt) (ha : palloc % 0x1000 = 0)
    (hstart : physStart ≤ palloc) (hend : palloc + buf.length ≤ 0x400000)
    (hp : ∀ h ∈ loads phs, Placed buf h)
    (hin : ∀ h ∈ loads phs, h.pVaddr + h.pMemsz ≤ 0x400000 + buf.length) :
    Ready w buf phs palloc := by
  have hown : ∀ j < buf.length, kernelOwned (palloc + j) = false := by
    intro j hj
    exact kernel_owned_low (by omega) (by omega)
  have hplace : ∀ h ∈ loads phs, ∀ k < h.pMemsz, ∃ j < buf.length,
      frame palloc (h.pVaddr + k) = palloc + j := by
    intro h hh k hk
    have hlow := (hp h hh).low
    have hlast := hin h hh
    exact ⟨h.pVaddr + k - 0x400000, by omega,
      frame_low ha ((hp h hh).window hk) (by omega)⟩
  have hclear : ∀ j < buf.length,
      translate w.directory ((palloc + j) % 2 ^ 32) = some (palloc + j) := by
    intro j hj
    rw [Nat.mod_eq_of_lt (by omega)]
    exact low_translate hpd (by omega)
  refine ⟨fun j hj => ⟨_, hclear j hj, hown j hj⟩, ?_, ?_⟩
  · intro h hh k hk
    have hsizes := (hp h hh).sizes
    obtain ⟨j, hj, heq⟩ := hplace h hh k (by omega)
    rw [heq]
    exact hown j hj
  · intro h hh k _ hk'
    obtain ⟨j, hj, heq⟩ := hplace h hh k hk'
    exact ⟨j, hj, heq ▸ hclear j hj⟩

/-- A file of 84 bytes whose one segment takes the first ten of them. -/
def smallImage (memsz : Nat) : Bytes := elfHeader 2 1 ++ programHeader 1 0 0x400000 10 memsz

def smallHeaders (memsz : Nat) : List ProgramHeader := [⟨1, 0, 0x400000, 10, memsz⟩]

theorem small_executable (hm : memsz = 84 ∨ memsz = 100) :
    Executable (smallImage memsz) (smallHeaders memsz) := by
  have hplaced : ∀ h ∈ loads (smallHeaders memsz), Placed (smallImage memsz) h := by
    intro h hh
    rw [show h = ⟨1, 0, 0x400000, 10, memsz⟩ from List.mem_singleton.mp hh]
    rcases hm with rfl | rfl
    · exact ⟨.inr (by decide), by decide, by decide, by decide⟩
    · exact ⟨.inr (by decide), by decide, by decide, by decide⟩
  rcases hm with rfl | rfl
  · exact ⟨rfl, rfl, ⟨52, 1, rfl, rfl, rfl⟩, by simp [smallHeaders], hplaced,
      List.pairwise_singleton _ _⟩
  · exact ⟨rfl, rfl, ⟨52, 1, rfl, rfl, rfl⟩, by simp [smallHeaders], hplaced,
      List.pairwise_singleton _ _⟩

theorem segments_loaded_small :
    Executable (smallImage 84) (smallHeaders 84) ∧
      ∀ (mem : Memory) (after : Bytes), ∃ w',
        elfLoad { coldWorld with mem := mem } (smallImage 84) after 0x500000 (fun _ => none) =
          some (.finished, w') ∧ Loaded w' (smallImage 84) (smallHeaders 84) := by
  have hx := small_executable (.inl rfl)
  refine ⟨hx, (segments_loaded_iff coldWorld _ 0x500000 (fun _ => none) _ hx).mpr ?_⟩
  refine ⟨0x304000, _, rfl, ready_of_low rfl (by decide) (by decide) (by decide) hx.placed ?_⟩
  intro h hh
  rw [show h = ⟨1, 0, 0x400000, 10, 84⟩ from List.mem_singleton.mp hh]
  decide

/-- The frames hold what a process before has left there. -/
def dirtyWorld : World := { coldWorld with mem := fun _ => 1 }

/-- The frames of the larger image are cleared up to the size of the file only. -/
theorem dirty_missed : ¬ Clears dirtyWorld.directory 0x304000 (smallImage 100).length
    (frame 0x304000 (0x400000 + 90)) := by
  rintro ⟨j, hj, hj'⟩
  have hlt : j < 84 := hj
  have hframe : frame 0x304000 (0x400000 + 90) = 0x30405A := rfl
  rw [Nat.mod_eq_of_lt (by omega), low_translate rfl (by omega), hframe] at hj'
  have := Option.some.inj hj'
  omega

theorem dirty_finished : ∃ w', elfLoad dirtyWorld (smallImage 100) [] 0x500000 (fun _ => none) =
    some (.finished, w') := ⟨_, rfl⟩

/-- Sixteen bytes behind the size of the file keep what the frames held. -/
theorem segments_loaded_dirty :
    Executable (smallImage 100) (smallHeaders 100) ∧ ∃ w',
      elfLoad dirtyWorld (smallImage 100) [] 0x500000 (fun _ => none) = some (.finished, w') ∧
        w'.byteAt (0x400000 + 90) = some 1 ∧
        ¬ Loaded w' (smallImage 100) (smallHeaders 100) := by
  have hx : Executable (smallImage 100) (smallHeaders 100) := small_executable (.inr rfl)
  have hmem : (⟨1, 0, 0x400000, 10, 100⟩ : ProgramHeader) ∈ loads (smallHeaders 100) :=
    List.mem_singleton.mpr rfl
  have hm : Levos.phymemAlloc dirtyWorld.phymem (smallImage 100).length =
      some (0x304000, { dirtyWorld.phymem with phyBitmap := [1, 0, 0, 0] }) := rfl
  obtain ⟨w', hload⟩ := dirty_finished
  have hstale := bss_stale (k := 90) hx hload hm hmem (by decide) (by decide) dirty_missed
  have hbyte : w'.byteAt (0x400000 + 90) = some 1 := hstale
  refine ⟨hx, w', hload, hbyte, ?_⟩
  intro hl
  have hzero := (hl _ hmem).2 90 (by decide) (by decide)
  exact absurd (hbyte.symm.trans hzero) (by decide)

end Levos.Proofs.Segments
