import Levos.Proofs.Elf

namespace Levos.Proofs.Loading
open Levos Levos.Library Levos.Elf Levos.Proofs.Elf Levos.Proofs.Entries Levos.Proofs.Memory
open Levos.Proofs.Paging

variable {b : Bytes} {w w' : World} {P Q : Nat → Prop}

/-- The bytes of a range lie in the buffer. -/
def InBuffer (b : Bytes) (offset n : Nat) : Prop := n = 0 ∨ offset + n ≤ b.length

/-- The bytes of a range lie in the window, as far as frames were allocated
for it. -/
def InUserWindow (esize v n : Nat) : Prop :=
  n = 0 ∨ (0x400000 ≤ v ∧ v + n ≤ 0x400000 + min (pagesFor esize) 1024 * 0x1000)

/-- A buffer that can be loaded without harm: it passes `elf_probe`, holds its
own table, and every LOAD segment copies from the buffer into the window. -/
structure Acceptable (buf : Bytes) : Prop where
  probe : elfProbe buf = true
  table : ∃ phoff phnum, ePhoff buf = some phoff ∧ ePhnum buf = some phnum ∧
    phoff + phSize * phnum ≤ buf.length ∧
    ∀ i < phnum, pType buf (phoff + phSize * i) = some 1 →
      ∃ offset vaddr filesz, pOffset buf (phoff + phSize * i) = some offset ∧
        pVaddr buf (phoff + phSize * i) = some vaddr ∧
        pFilesz buf (phoff + phSize * i) = some filesz ∧
        InBuffer buf offset filesz ∧ InUserWindow buf.length vaddr filesz

/-- The address lies in the frames allocated for an image, outside the kernel. -/
def Own (palloc esize a : Nat) : Prop :=
  kernelOwned a = false ∧ palloc ≤ a ∧ a < palloc + pagesFor esize * 0x1000

/-- Control is transferred only to acceptable images, and on any other buffer
the call returns with no byte written outside the frames of the process. -/
def StartsSafely (w : World) (buf after : Bytes) (paged : Nat) (rest : PageDirectory) : Prop :=
  (∀ entry w', elfStart w buf after paged rest = some (.started entry, w') → Acceptable buf) ∧
  (¬ Acceptable buf → ∃ w', elfStart w buf after paged rest = some (.returned, w') ∧
    ∀ a ∈ w'.written, Own w'.caller.palloc buf.length a)

/-- A LOAD header in the buffer whose copy stays in the buffer and in `P`. -/
def Copies (b : Bytes) (pd : PageDirectory) (P : Nat → Prop) (ph : Nat) : Prop :=
  ∃ offset vaddr filesz, pOffset b ph = some offset ∧ pVaddr b ph = some vaddr ∧
    pFilesz b ph = some filesz ∧ InBuffer b offset filesz ∧ Lands pd vaddr filesz P

/-- The loop is left at a header of another type, and until then it has met NULL
headers and copies that stay in `P` only. -/
inductive Rejected (b : Bytes) (pd : PageDirectory) (P : Nat → Prop) : Nat → Nat → Prop
  | unsupported (ht : pType b ph = some t) (h0 : t ≠ 0) (h1 : t ≠ 1) : Rejected b pd P (n + 1) ph
  | null (ht : pType b ph = some 0) (hr : Rejected b pd P n (ph + phSize)) :
    Rejected b pd P (n + 1) ph
  | load (ht : pType b ph = some 1) (hc : Copies b pd P ph)
    (hr : Rejected b pd P n (ph + phSize)) : Rejected b pd P (n + 1) ph

/-- The image is rejected in its loop, with the table and every segment before
in the buffer, and the frames it is given are cleared and filled in place. -/
def RejectedInPlace (w : World) (buf : Bytes) (rest : PageDirectory) : Prop :=
  eType buf = some 2 ∧ ∃ palloc m phoff phnum,
    Levos.phymemAlloc w.phymem buf.length = some (palloc, m) ∧
    ePhoff buf = some phoff ∧ ePhnum buf = some phnum ∧
    Lands w.directory palloc buf.length (Own palloc buf.length) ∧
    Rejected buf (createNewPageDirectory rest 0x400000 palloc) (Own palloc buf.length) phnum phoff

theorem slice_exists (h : InBuffer b offset n) :
    ∃ bytes, Elf.slice b offset n = some bytes ∧ bytes.length = n := by
  unfold Elf.slice
  by_cases hn : n = 0
  · exact ⟨[], if_pos hn, hn.symm⟩
  · have hle := h.resolve_left hn
    exact ⟨_, by rw [if_neg hn, if_pos hle], by simp; omega⟩

theorem slice_some (h : Elf.slice b offset n = some bytes) :
    InBuffer b offset n ∧ bytes.length = n := by
  unfold Elf.slice at h
  split at h
  · rename_i hn
    cases h
    exact ⟨.inl hn, hn.symm⟩
  · split at h
    · rename_i hle
      cases h
      exact ⟨.inr hle, by simp; omega⟩
    · cases h

theorem InBuffer.append (after : Bytes) (h : InBuffer b offset n) :
    InBuffer (b ++ after) offset n := by
  refine h.imp_right ?_
  intro hle
  rw [List.length_append]
  omega

theorem segment_loop_written (h : segmentLoop b n ph w = some (l, w')) :
    ∀ a ∈ w.written, a ∈ w'.written := by
  induction n generalizing ph w with
  | zero =>
    cases h
    exact fun a ha => ha
  | succ n ih =>
    obtain ⟨-, hloop⟩ | ⟨-, w₁, hload, hloop⟩ | ⟨t, -, -, -, -, rfl⟩ := segment_loop_cases h
    · exact ih hloop
    · intro a ha
      obtain ⟨offset, vaddr, filesz, bytes, -, -, -, -, hstore⟩ := load_segment_some hload
      obtain ⟨as, -, -, rfl⟩ := store_some hstore
      exact ih hloop a (List.mem_append_right as ha)
    · exact fun a ha => ha

/-- A loop that rejects with its stores in `P` went through such a table. -/
theorem rejected_of_loop (h : segmentLoop b n ph w = some (.rejected, w'))
    (hw : ∀ a ∈ w'.written, P a) : Rejected b w.directory P n ph := by
  induction n generalizing ph w with
  | zero => cases h
  | succ n ih =>
    obtain ⟨ht, hloop⟩ | ⟨ht, w₁, hload, hloop⟩ | ⟨t, ht, h0, h1, -, rfl⟩ := segment_loop_cases h
    · exact .null ht (ih hloop)
    · obtain ⟨offset, vaddr, filesz, bytes, ho, hv, hf, hs, hstore⟩ := load_segment_some hload
      obtain ⟨hin, hlen⟩ := slice_some hs
      obtain ⟨-, -, hdir⟩ := store_keeps hstore
      have hfirst : ∀ a ∈ w₁.written, P a := fun a ha => hw a (segment_loop_written hloop a ha)
      have hlands := ((store_written hstore P).mp hfirst).1
      rw [hlen] at hlands
      exact .load ht ⟨offset, vaddr, filesz, ho, hv, hf, hin, hlands⟩ (hdir ▸ ih hloop)
    · exact .unsupported ht h0 h1

/-- Such a table is rejected whatever lies behind the buffer. -/
theorem Rejected.loop (h : Rejected b pd P n ph) (hP : ∀ a, P a → kernelOwned a = false)
    (after : Bytes) (hd : w.directory = pd) (hw : ∀ a ∈ w.written, P a) :
    ∃ w', segmentLoop (b ++ after) n ph w = some (.rejected, w') ∧ ∀ a ∈ w'.written, P a := by
  induction h generalizing w with
  | unsupported ht h0 h1 =>
    refine ⟨w, ?_, hw⟩
    simp only [segmentLoop, show pType (b ++ after) _ = _ from le_append after ht]
  | null ht _ ih =>
    simp only [segmentLoop, show pType (b ++ after) _ = _ from le_append after ht]
    exact ih hd hw
  | load ht hc _ ih =>
    obtain ⟨offset, vaddr, filesz, ho, hv, hf, hin, hlands⟩ := hc
    obtain ⟨bytes, hs, hlen⟩ := slice_exists (hin.append after)
    rw [← hd, ← hlen] at hlands
    obtain ⟨as, has, hstore⟩ := store_exists (hlands.mono hP)
    have hmem := (store_written hstore P).mpr ⟨hlands, hw⟩
    simp only [segmentLoop, loadSegment, show pType (b ++ after) _ = _ from le_append after ht,
      show pOffset (b ++ after) _ = _ from le_append after ho,
      show pVaddr (b ++ after) _ = _ from le_append after hv,
      show pFilesz (b ++ after) _ = _ from le_append after hf, hs, hstore]
    exact ih hd hmem

theorem elf_start_rejected (h : elfLoad w buf after paged rest = some (.rejected, w')) :
    elfStart w buf after paged rest = some (.returned, w') := by
  simp only [elfStart, h]

/-- A wrong file type in the buffer is answered at once. -/
theorem wrong_type_returns (ht : eType buf = some t) (hne : t ≠ 2) (after : Bytes) :
    elfStart w buf after paged rest = some (.returned, w) := by
  refine elf_start_rejected ?_
  simp only [elfLoad, show eType (buf ++ after) = _ from le_append after ht]

/-- An image that is rejected in place returns, with stores in its frames only. -/
theorem RejectedInPlace.returns (h : RejectedInPlace w buf rest) (hw : w.written = [])
    (after : Bytes) :
    ∃ w', elfStart w buf after paged rest = some (.returned, w') ∧
      ∀ a ∈ w'.written, Own w'.caller.palloc buf.length a := by
  obtain ⟨ht, palloc, m, phoff, phnum, halloc, hoff, hnum, hzero, hrej⟩ := h
  obtain ⟨w₁, hphy, hstore⟩ := phymem_alloc_exists halloc (hzero.mono (fun a ha => ha.1))
  have hclear : ∀ a ∈ w₁.written, Own palloc buf.length a := by
    rw [store_written hstore, List.length_replicate]
    exact ⟨hzero, by simp [hw]⟩
  obtain ⟨w', hloop, hwritten⟩ := hrej.loop (fun a ha => ha.1) after
    (w := enterImage w₁ palloc buf.length paged rest) rfl hclear
  have hcaller : w'.caller.palloc = palloc := by
    rw [(segment_loop_keeps hloop).2.1]
    rfl
  refine ⟨w', elf_start_rejected ?_, hcaller ▸ hwritten⟩
  simp only [elfLoad, show eType (buf ++ after) = _ from le_append after ht, hphy,
    show ePhoff (buf ++ after) = _ from le_append after hoff,
    show ePhnum (buf ++ after) = _ from le_append after hnum, hloop]

/-- With nothing known behind the buffer, a call that returns with its stores in
its frames was answered at once or rejected in place. -/
theorem returned_cases
    (h : elfStart w buf [] paged rest = some (.returned, w'))
    (hown : ∀ a ∈ w'.written, Own w'.caller.palloc buf.length a) :
    (∃ t, eType buf = some t ∧ t ≠ 2) ∨ RejectedInPlace w buf rest := by
  obtain ⟨t, ht, hne, -, -⟩ | ⟨ht, palloc, w₁, phoff, phnum, halloc, hoff, hnum, hloop⟩ :=
    elf_load_cases (elf_start_returned h)
  · rw [List.append_nil] at ht
    exact .inl ⟨t, ht, hne⟩
  · rw [List.append_nil] at ht hoff hnum hloop
    obtain ⟨m, hm, hstore⟩ := phymem_alloc_some halloc
    have hcaller : w'.caller.palloc = palloc := by
      rw [(segment_loop_keeps hloop).2.1]
      rfl
    rw [hcaller] at hown
    have hfirst : ∀ a ∈ w₁.written, Own palloc buf.length a :=
      fun a ha => hown a (segment_loop_written hloop a ha)
    have hzero := ((store_written hstore _).mp hfirst).1
    rw [List.length_replicate] at hzero
    exact .inr ⟨ht, palloc, m, phoff, phnum, hm, hoff, hnum, hzero, rejected_of_loop hloop hown⟩

/-- `elf_start` is safe on a buffer, whatever lies behind it, exactly if the
buffer is acceptable, has another file type, or is rejected in place. -/
theorem starts_safely_iff (w : World) (buf : Bytes) (paged : Nat) (rest : PageDirectory) :
    (∀ after, StartsSafely { w with written := [] } buf after paged rest) ↔
      Acceptable buf ∨ (∃ t, eType buf = some t ∧ t ≠ 2) ∨ RejectedInPlace w buf rest := by
  constructor
  · intro h
    by_cases hacc : Acceptable buf
    · exact .inl hacc
    · obtain ⟨w', hret, hown⟩ := (h []).2 hacc
      have hcases := returned_cases hret hown
      exact .inr hcases
  · rintro hcond after
    by_cases hacc : Acceptable buf
    · exact ⟨fun _ _ _ => hacc, fun hn => absurd hacc hn⟩
    · have hret : ∃ w', elfStart { w with written := [] } buf after paged rest =
          some (.returned, w') ∧ ∀ a ∈ w'.written, Own w'.caller.palloc buf.length a := by
        obtain ⟨t, ht, hne⟩ | hrej := hcond.resolve_left hacc
        · exact ⟨_, wrong_type_returns ht hne after, fun a ha => by cases ha⟩
        · have hsame : RejectedInPlace { w with written := [] } buf rest := hrej
          exact hsame.returns rfl after
      obtain ⟨w', hret, hown⟩ := hret
      refine ⟨?_, fun _ => ⟨w', hret, hown⟩⟩
      intro entry w'' hstart
      cases hret.symm.trans hstart

/-- One LOAD segment for an address below the window. -/
def strayImage : Bytes := elfHeader 2 1 ++ programHeader 1 0 0x310000 1 1

theorem stray_image_unacceptable : ¬ Acceptable strayImage := by
  rintro ⟨-, phoff, phnum, hoff, hnum, -, hall⟩
  have hoff' : ePhoff strayImage = some 52 := rfl
  have hnum' : ePhnum strayImage = some 1 := rfl
  cases hoff'.symm.trans hoff
  cases hnum'.symm.trans hnum
  obtain ⟨offset, vaddr, filesz, -, hv, hf, -, hwin⟩ := hall 0 (by decide) rfl
  have hv' : pVaddr strayImage 52 = some 0x310000 := rfl
  have hf' : pFilesz strayImage 52 = some 1 := rfl
  cases hv'.symm.trans hv
  cases hf'.symm.trans hf
  rcases hwin with h | ⟨h, -⟩ <;> omega

/-- A segment is copied over memory that is not the process's, and the image is
started. -/
theorem stray_image_started :
    ¬ Acceptable strayImage ∧ ∃ w', elfStart coldWorld strayImage [] 0x500000 (fun _ => none) =
      some (.started 0x400000, w') ∧ 0x310000 ∈ w'.written ∧
        ¬ Own w'.caller.palloc strayImage.length 0x310000 := by
  refine ⟨stray_image_unacceptable, _, rfl, List.mem_cons_self, ?_⟩
  rintro ⟨-, -, h⟩
  exact absurd h (by decide)

end Levos.Proofs.Loading
