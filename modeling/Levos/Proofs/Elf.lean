import Levos.Elf
import Levos.Proofs.Entries
import Levos.Proofs.Memory

namespace Levos.Proofs.Elf
open Levos Levos.Library Levos.Elf Levos.Proofs.Memory

variable {b : Bytes} {w w' : World}

theorem load_segment_some (h : loadSegment b ph w = some w') :
    ∃ offset vaddr filesz bytes, pOffset b ph = some offset ∧ pVaddr b ph = some vaddr ∧
      pFilesz b ph = some filesz ∧ Elf.slice b offset filesz = some bytes ∧
      w.store vaddr bytes = some w' := by
  unfold loadSegment at h
  split at h
  · rename_i offset vaddr filesz ho hv hf
    split at h
    · cases h
    · rename_i bytes hb
      exact ⟨offset, vaddr, filesz, bytes, ho, hv, hf, hb, h⟩
  · cases h

/-- What one round of the segment loop can do. -/
theorem segment_loop_cases (h : segmentLoop b (n + 1) ph w = some (l, w')) :
    (pType b ph = some 0 ∧ segmentLoop b n (ph + phSize) w = some (l, w')) ∨
    (pType b ph = some 1 ∧ ∃ w₁, loadSegment b ph w = some w₁ ∧
      segmentLoop b n (ph + phSize) w₁ = some (l, w')) ∨
    (∃ t, pType b ph = some t ∧ t ≠ 0 ∧ t ≠ 1 ∧ l = .rejected ∧ w' = w) := by
  unfold segmentLoop at h
  split at h
  · cases h
  · rename_i ht
    exact .inl ⟨ht, h⟩
  · rename_i ht
    split at h
    · cases h
    · rename_i w₁ hw
      exact .inr (.inl ⟨ht, w₁, hw, h⟩)
  · rename_i t h0 h1 ht
    cases h
    exact .inr (.inr ⟨t, ht, h0, h1, rfl, rfl⟩)

/-- Copies of segments change memory and nothing else. -/
theorem segment_loop_keeps (h : segmentLoop b n ph w = some (l, w')) :
    w'.phymem = w.phymem ∧ w'.caller = w.caller ∧ w'.directory = w.directory := by
  induction n generalizing ph w with
  | zero =>
    cases h
    exact ⟨rfl, rfl, rfl⟩
  | succ n ih =>
    obtain ⟨-, hloop⟩ | ⟨-, w₁, hload, hloop⟩ | ⟨t, -, -, -, -, rfl⟩ := segment_loop_cases h
    · exact ih hloop
    · obtain ⟨offset, vaddr, filesz, bytes, -, -, -, -, hstore⟩ := load_segment_some hload
      obtain ⟨hm, hc, hd⟩ := store_keeps hstore
      obtain ⟨hm', hc', hd'⟩ := ih hloop
      exact ⟨hm'.trans hm, hc'.trans hc, hd'.trans hd⟩
    · exact ⟨rfl, rfl, rfl⟩

/-- `elf_start` returns at once, or has given the process new frames and a new
directory before the loop. -/
theorem elf_load_cases (h : elfLoad w buf after paged rest = some (l, w')) :
    (∃ t, eType (buf ++ after) = some t ∧ t ≠ 2 ∧ l = .rejected ∧ w' = w) ∨
    (eType (buf ++ after) = some 2 ∧ ∃ palloc w₁ phoff phnum,
      w.phymemAlloc buf.length = some (palloc, w₁) ∧ ePhoff (buf ++ after) = some phoff ∧
      ePhnum (buf ++ after) = some phnum ∧
      segmentLoop (buf ++ after) phnum phoff (enterImage w₁ palloc buf.length paged rest) =
        some (l, w')) := by
  unfold elfLoad at h
  split at h
  · cases h
  · rename_i ht
    split at h
    · cases h
    · rename_i palloc w₁ halloc
      split at h
      · rename_i phoff phnum hoff hnum
        exact .inr ⟨ht, palloc, w₁, phoff, phnum, halloc, hoff, hnum, h⟩
      · cases h
  · rename_i t h2 ht
    cases h
    exact .inl ⟨t, ht, h2, rfl, rfl⟩

theorem elf_start_returned (h : elfStart w buf after paged rest = some (.returned, w')) :
    elfLoad w buf after paged rest = some (.rejected, w') := by
  unfold elfStart at h
  split at h
  · cases h
  · rename_i w₁ hload
    cases h
    exact hload
  · split at h
    · cases h
    · split at h
      · cases h
      · obtain ⟨m, -, hm⟩ := Option.map_eq_some_iff.mp h
        cases hm

/-- A call that `elf_start` rejects leaves the process and the frames as they
were exactly if it is the file type that is wrong. -/
theorem rejected_unchanged_iff (w w' : World) (buf after : Bytes) (paged : Nat)
    (rest : PageDirectory) (hnew : paged ≠ w.caller.paged)
    (h : elfStart w buf after paged rest = some (.returned, w')) :
    (w'.caller = w.caller ∧ w'.phymem.phyBitmap = w.phymem.phyBitmap) ↔
      eType (buf ++ after) ≠ some 2 := by
  obtain ⟨t, ht, hne, -, rfl⟩ | ⟨ht, palloc, w₁, phoff, phnum, halloc, -, -, hloop⟩ :=
    elf_load_cases (elf_start_returned h)
  · refine iff_of_true ⟨rfl, rfl⟩ ?_
    rw [ht]
    exact fun h => hne (Option.some.inj h)
  · refine iff_of_false ?_ (fun h => h ht)
    rintro ⟨hcaller, -⟩
    obtain ⟨-, hc, -⟩ := segment_loop_keeps hloop
    rw [hc] at hcaller
    exact hnew (congrArg Caller.paged hcaller)

/-- The bytes of a field of four. -/
def word32 (n : Nat) : Bytes :=
  [UInt8.ofNat n, UInt8.ofNat (n / 2 ^ 8), UInt8.ofNat (n / 2 ^ 16), UInt8.ofNat (n / 2 ^ 24)]

/-- A header with its program headers right behind it. -/
def elfHeader (type phnum : UInt8) : Bytes :=
  [0x7f, 0x45, 0x4c, 0x46] ++ List.replicate 12 0 ++ [type, 0] ++ List.replicate 6 0 ++
    word32 0x400000 ++ word32 52 ++ List.replicate 12 0 ++ [phnum, 0] ++ List.replicate 6 0

def programHeader (type offset vaddr filesz memsz : Nat) : Bytes :=
  word32 type ++ word32 offset ++ word32 vaddr ++ word32 0 ++ word32 filesz ++ word32 memsz ++
    word32 0 ++ word32 0

/-- A process without an image, on a machine with 32 frames. -/
def coldWorld : World where
  phymem := ⟨physStart, 0x1F000, 0x323000, .initTwo, [0, 0, 0, 0]⟩
  mem := fun _ => 0
  caller := ⟨0x301000, 0, 0, 0⟩
  directory := bootDirectory
  written := []

theorem rejected_unchanged_library :
    ∃ w', elfStart coldWorld (elfHeader 3 0) [] 0x500000 (fun _ => none) =
      some (.returned, w') ∧
      w'.caller = coldWorld.caller ∧ w'.phymem.phyBitmap = coldWorld.phymem.phyBitmap :=
  ⟨_, rfl, (rejected_unchanged_iff coldWorld _ (elfHeader 3 0) [] 0x500000 (fun _ => none)
    (by decide) rfl).mpr (by decide)⟩

/-- A header of type 7 is met when the process has already lost its old image. -/
theorem rejected_image_replaced :
    ∃ w', elfStart coldWorld (elfHeader 2 1 ++ programHeader 7 0 0 0 0) [] 0x500000
        (fun _ => none) = some (.returned, w') ∧
      w'.caller = ⟨0x500000, 0x304000, 84, 84⟩ ∧ w'.caller ≠ coldWorld.caller ∧
      w'.phymem.phyBitmap = [1, 0, 0, 0] ∧ w'.phymem.phyBitmap ≠ coldWorld.phymem.phyBitmap :=
  ⟨_, rfl, rfl, by decide, rfl, by decide⟩

end Levos.Proofs.Elf
