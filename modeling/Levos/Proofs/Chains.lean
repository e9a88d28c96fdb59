import Levos.Proofs.Lookup
import Levos.Vfs

namespace Levos.Proofs.Chains
open Entries Lookup

variable {mem block name : Bytes} {e : DirEntry} {es : List DirEntry}

theorem chain_entry_cons (h : chainEntry mem = some e) (hes : Chain (mem.drop e.size) es) :
    Chain mem (e :: es) := by
  unfold chainEntry at h
  split at h
  · rename_i size hz hsize
    split at h
    case isTrue hroom =>
      cases h
      exact .unused hz hsize rfl hroom.1 hroom.2 hes
    case isFalse => cases h
  · rename_i n size hne hn hsize
    split at h
    · cases h
    · rename_i d hd
      split at h
      case isTrue hroom =>
        cases h
        refine .used hd ?_ hroom.1 hroom.2.1 hroom.2.2 hes
        intro hz
        have hin := (entry_at_iff.mp hd).1
        rw [hn, hz] at hin
        exact hne (Option.some.inj hin)
      case isFalse => cases h
  · cases h

theorem chain_loop_entries (h : chainLoop fuel mem = some es) : Chain mem es := by
  induction fuel generalizing mem es with
  | zero =>
    cases mem with
    | nil =>
      cases h
      exact .nil
    | cons x mem => cases h
  | succ fuel ih =>
    cases mem with
    | nil =>
      cases h
      exact .nil
    | cons x mem =>
      simp only [chainLoop] at h
      split at h
      · cases h
      · rename_i e he
        obtain ⟨es, hes, rfl⟩ := Option.map_eq_some_iff.mp h
        exact chain_entry_cons he (ih hes)

theorem chain_entries (h : chain block = some es) : Chain block es := chain_loop_entries h

/-- The first entry with the name is in front of every unused one. -/
theorem lookup_shown (h : shown es name = some n) : lookupChain es name = n := by
  induction es with
  | nil => cases h
  | cons e es ih =>
    by_cases hz : e.inode = 0
    · rw [shown_cons_unused hz] at h
      cases h
    · by_cases hname : e.name = name
      · rw [shown_cons_named hz hname] at h
        cases h
        simp [lookupChain, hz, hname]
      · rw [shown_cons_other hz hname] at h
        have hrest := ih h
        simpa [lookupChain, hz, hname] using hrest

/-- The inode numbers of entries in use are not zero. -/
theorem lookup_zero_iff : lookupChain es name = 0 ↔ ∀ e ∈ es, e.inode ≠ 0 → e.name ≠ name := by
  unfold lookupChain
  constructor
  · intro h e he hz hname
    have hmem : e ∈ es.filter (fun e => decide (e.inode ≠ 0)) := by simp [he, hz]
    obtain ⟨d, hd⟩ := Option.isSome_iff_exists.mp
      (List.find?_isSome.mpr ⟨e, hmem, by simpa using hname⟩ :
        ((es.filter (·.inode ≠ 0)).find? (·.name = name)).isSome)
    have hused := List.of_mem_filter (List.mem_of_find?_eq_some hd)
    rw [hd] at h
    simp only [decide_eq_true_eq] at hused
    exact hused h
  · intro h
    have hnone : (es.filter (·.inode ≠ 0)).find? (·.name = name) = none := by
      rw [List.find?_eq_none]
      intro e he
      obtain ⟨he, hz⟩ := List.mem_filter.mp he
      simpa using h e he (by simpa using hz)
    rw [hnone]
    rfl

/-- An entry in use with the name stands in front of the first unused one, or none
has the name and there is an unused one to stop at. -/
def Reached (es : List DirEntry) (name : Bytes) : Prop :=
  (shown es name).isSome ∨
    (∀ e ∈ es, e.inode ≠ 0 → e.name ≠ name) ∧ ∃ e ∈ es, e.inode = 0

instance (es : List DirEntry) (name : Bytes) : Decidable (Reached es name) :=
  inferInstanceAs (Decidable (_ ∨ (_ ∧ _)))

theorem found_iff_reached (h : Chain block es) :
    (∀ after, ext2ReadDirectory name (block ++ after) = some (lookupChain es name)) ↔
      Reached es name := by
  cases hs : shown es name with
  | some n =>
    simp only [Reached, hs, Option.isSome_some, true_or, iff_true, lookup_shown hs]
    intro after
    exact read_directory_append after (read_directory_iff.mpr (h.scan_shown hs))
  | none =>
    by_cases hunused : ∃ e ∈ es, e.inode = 0
    · have hzero : ∀ after, ext2ReadDirectory name (block ++ after) = some 0 := fun after =>
        read_directory_append after (read_directory_iff.mpr (h.scan_unused hs hunused))
      simp only [Reached, hs, hzero, Option.isSome_none, Bool.false_eq_true, false_or, hunused,
        and_true, ← lookup_zero_iff, Option.some.injEq, forall_const, eq_comm]
    · -- nothing stops the walk in the block: behind it there may be no memory
      simp only [Reached, hs, Option.isSome_none, Bool.false_eq_true, false_or, hunused, and_false,
        iff_false]
      intro hall
      have hbare := hall []
      rw [List.append_nil] at hbare
      exact h.scan_overruns hs hunused (read_directory_iff.mp hbare)

theorem read_directory_chain_iff (block : Bytes) (es : List DirEntry) (name : CString)
    (h : chain block = some es) :
    (∀ after, ext2ReadDirectory name.bytes (block ++ after) = some (lookupChain es name.bytes)) ↔
      Reached es name.bytes :=
  found_iff_reached (chain_entries h)

/-- The name `b`. -/
def nameB : CString := ⟨[98], by decide⟩

def endedBlock : Bytes := entryBytes 11 12 [97] ++ entryBytes 12 12 [98] ++ entryBytes 0 1000 []

theorem read_directory_chain_ended :
    chain endedBlock = some [⟨11, 12, [97]⟩, ⟨12, 12, [98]⟩, ⟨0, 1000, []⟩] ∧
    ∀ after, ext2ReadDirectory nameB.bytes (endedBlock ++ after) =
      some (lookupChain [⟨11, 12, [97]⟩, ⟨12, 12, [98]⟩, ⟨0, 1000, []⟩] nameB.bytes) := by
  have h : chain endedBlock = some [⟨11, 12, [97]⟩, ⟨12, 12, [98]⟩, ⟨0, 1000, []⟩] := by
    decide +kernel
  exact ⟨h, (read_directory_chain_iff _ _ nameB h).mpr (by decide)⟩

/-- A block one entry fills, as the last entry of a directory does, and memory
behind it that looks like an entry. -/
def fullBlock : Bytes := entryBytes 11 1024 [97]

theorem read_directory_overruns :
    ∃ es after, chain fullBlock = some es ∧
      ext2ReadDirectory nameB.bytes (fullBlock ++ after) ≠ some (lookupChain es nameB.bytes) := by
  refine ⟨[⟨11, 1024, [97]⟩], entryBytes 12 12 [98], by decide +kernel, ?_⟩
  decide +kernel

end Levos.Proofs.Chains
