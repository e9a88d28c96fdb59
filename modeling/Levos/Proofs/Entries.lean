import Levos.Directory

namespace Levos.Proofs.Entries

theorem byte_append (after : Bytes) {mem : Bytes} {i : Nat} (h : mem[i]? = some x) :
    (mem ++ after)[i]? = some x := by
  obtain ⟨hi, _⟩ := List.getElem?_eq_some_iff.mp h
  rw [List.getElem?_append_left hi]
  exact h

theorem le_append (after : Bytes) (h : le mem i w = some n) : le (mem ++ after) i w = some n := by
  induction w generalizing i n with
  | zero => exact h
  | succ w ih =>
    simp only [le] at h ⊢
    split at h
    · rename_i x m hx hm
      rw [byte_append after hx, ih hm]
      exact h
    · cases h

theorem le_some (mem : Bytes) (i w : Nat) (h : i + w ≤ mem.length) : ∃ n, le mem i w = some n := by
  induction w generalizing i with
  | zero => exact ⟨0, rfl⟩
  | succ w ih =>
    obtain ⟨n, hn⟩ := ih (i + 1) (by omega)
    exact ⟨_, by rw [le, List.getElem?_eq_getElem (by omega), hn]⟩

theorem entry_at_iff : entryAt mem = some e ↔
    le mem 0 4 = some e.inode ∧ le mem 4 2 = some e.size ∧ ∃ x, mem[6]? = some x ∧
      8 + x.toNat ≤ mem.length ∧ (mem.drop 8).take x.toNat = e.name := by
  unfold entryAt
  constructor
  · intro h
    split at h
    · rename_i n s x hn hs hx
      split at h
      · cases h
      · rename_i hlen
        cases h
        exact ⟨hn, hs, x, hx, Nat.le_of_not_lt hlen, rfl⟩
    · cases h
  · rintro ⟨hn, hs, x, hx, hlen, hname⟩
    simp only [hn, hs, hx, Nat.not_lt.mpr hlen, hname, ↓reduceIte]

theorem entry_at_append (after : Bytes) (h : entryAt mem = some e) :
    entryAt (mem ++ after) = some e := by
  obtain ⟨hn, hs, x, hx, hlen, hname⟩ := entry_at_iff.mp h
  refine entry_at_iff.mpr ⟨le_append after hn, le_append after hs, x, byte_append after hx, ?_, ?_⟩
  · rw [List.length_append]
    omega
  · rw [List.drop_append_of_le_length (by omega),
      List.take_append_of_le_length (by rw [List.length_drop]; omega)]
    exact hname

theorem cstr_append (name rest : Bytes) (h : 0 ∉ name) :
    cstr (name ++ rest) = name ++ cstr rest := by
  refine List.takeWhile_append_of_pos ?_
  intro x hx
  simp only [ne_eq, decide_not, Bool.not_eq_true', decide_eq_false_iff_not]
  rintro rfl
  exact h hx

theorem cstr_name (h : 0 ∉ name) : cstr name = name := by
  have happend := cstr_append name [] h
  rwa [cstr, cstr, List.takeWhile_nil, List.append_nil] at happend

/-- What a reader finds who follows the entries of some memory up to an unused
one: zero, or the inode of the first entry with the name. -/
inductive Scan (name : Bytes) : Bytes → Nat → Prop
  | unused : le mem 0 4 = some 0 → Scan name mem 0
  | named : entryAt mem = some e → e.inode ≠ 0 → cstr e.name = name → Scan name mem e.inode
  | next : entryAt mem = some e → e.inode ≠ 0 → cstr e.name ≠ name →
    Scan name (mem.drop e.size) n → Scan name mem n

theorem Scan.not_nil : ¬ Scan name [] n := by
  intro h
  cases h with
  | unused h => cases h
  | named h => cases h
  | next h => cases h

theorem Scan.append (after : Bytes) (h : Scan name mem n) : Scan name (mem ++ after) n := by
  induction h with
  | unused h => exact .unused (le_append after h)
  | named h hused hname => exact .named (entry_at_append after h) hused hname
  | @next mem e n h hused hname hscan ih =>
    refine .next (entry_at_append after h) hused hname ?_
    have hin : e.size ≤ mem.length := by
      by_contra hout
      rw [List.drop_eq_nil_of_le (by omega)] at hscan
      exact hscan.not_nil
    rw [List.drop_append_of_le_length hin]
    exact ih

/-- One round of the loop, with the entry read at once. -/
theorem read_directory_loop_succ (name : Bytes) (fuel : Nat) (mem : Bytes) :
    readDirectoryLoop name (fuel + 1) mem =
      if le mem 0 4 = some 0 then some 0
      else match entryAt mem with
        | none => none
        | some e => if cstr e.name = name then some e.inode
          else readDirectoryLoop name fuel (mem.drop e.size) := by
  rw [readDirectoryLoop, entryAt]
  cases hn : le mem 0 4 with
  | none => rfl
  | some n =>
    cases n with
    | zero => rfl
    | succ n =>
      cases hs : le mem 4 2 with
      | none => rfl
      | some s =>
        cases hx : mem[6]? with
        | none => rfl
        | some x =>
          by_cases hlen : mem.length < 8 + x.toNat
          · simp [hlen]
          · simp [hlen]

theorem Scan.reads (h : Scan name mem n) (hfuel : mem.length < fuel) :
    readDirectoryLoop name fuel mem = some n := by
  induction h generalizing fuel with
  | unused h =>
    obtain ⟨fuel, rfl⟩ := Nat.exists_eq_add_of_lt hfuel
    rw [read_directory_loop_succ, if_pos h]
  | named h hused hname =>
    obtain ⟨fuel, rfl⟩ := Nat.exists_eq_add_of_lt hfuel
    have hn := (entry_at_iff.mp h).1
    rw [read_directory_loop_succ, if_neg (by rw [hn]; simpa using hused), h]
    exact if_pos hname
  | @next mem e n h hused hname hscan ih =>
    by_cases hsize : e.size = 0
    · rw [hsize, List.drop_zero] at ih
      exact ih hfuel
    · obtain ⟨fuel, rfl⟩ := Nat.exists_eq_add_of_lt hfuel
      have hn := (entry_at_iff.mp h).1
      have hlen : 8 ≤ mem.length := by
        obtain ⟨_, _, x, _, hlen, _⟩ := entry_at_iff.mp h
        omega
      rw [read_directory_loop_succ, if_neg (by rw [hn]; simpa using hused), h]
      simp only [hname, ↓reduceIte]
      exact ih (by rw [List.length_drop]; omega)

theorem reads_scan (h : readDirectoryLoop name fuel mem = some n) : Scan name mem n := by
  induction fuel generalizing mem with
  | zero => cases h
  | succ fuel ih =>
    rw [read_directory_loop_succ] at h
    split at h
    · rename_i hz
      cases h
      exact .unused hz
    · rename_i hz
      split at h
      · cases h
      · rename_i e he
        have hused : e.inode ≠ 0 := by
          intro h0
          exact hz (by rw [(entry_at_iff.mp he).1, h0])
        split at h
        · rename_i hname
          cases h
          exact .named he hused hname
        · rename_i hname
          exact .next he hused hname (ih h)

theorem read_directory_iff : ext2ReadDirectory name mem = some n ↔ Scan name mem n :=
  ⟨reads_scan, fun h => h.reads (Nat.lt_succ_self _)⟩

theorem read_directory_append (after : Bytes) (h : ext2ReadDirectory name mem = some n) :
    ext2ReadDirectory name (mem ++ after) = some n :=
  read_directory_iff.mpr ((read_directory_iff.mp h).append after)

/-- The inode a name is found with before the first unused entry. -/
def shown (es : List DirEntry) (name : Bytes) : Option Nat :=
  ((es.takeWhile (·.inode ≠ 0)).find? (·.name = name)).map DirEntry.inode

theorem shown_cons_unused (h : e.inode = 0) : shown (e :: es) name = none := by
  simp [shown, h]

theorem shown_cons_named (h : e.inode ≠ 0) (hn : e.name = name) :
    shown (e :: es) name = some e.inode := by
  simp [shown, h, hn]

theorem shown_cons_other (h : e.inode ≠ 0) (hn : e.name ≠ name) :
    shown (e :: es) name = shown es name := by
  simp [shown, h, hn]

/-- Record lengths lead through the memory to its end. An entry in use is there as
a whole; of an unused one only the record length is. -/
inductive Chain : Bytes → List DirEntry → Prop
  | nil : Chain [] []
  | unused : le mem 0 4 = some 0 → le mem 4 2 = some e.size → e.inode = 0 → 8 ≤ e.size →
    e.size ≤ mem.length → Chain (mem.drop e.size) es → Chain mem (e :: es)
  | used : entryAt mem = some e → e.inode ≠ 0 → 8 + e.name.length ≤ e.size →
    e.size ≤ mem.length → 0 ∉ e.name → Chain (mem.drop e.size) es → Chain mem (e :: es)

theorem Chain.scan_shown (h : Chain mem es) (hs : shown es name = some n) : Scan name mem n := by
  induction h with
  | nil => cases hs
  | unused hz hsize hin h8 hle hes ih =>
    rw [shown_cons_unused hin] at hs
    cases hs
  | @used mem e es he hused h8 hle hterm hes ih =>
    by_cases hname : e.name = name
    · rw [shown_cons_named hused hname] at hs
      cases hs
      exact .named he hused (by rw [cstr_name hterm, hname])
    · rw [shown_cons_other hused hname] at hs
      exact .next he hused (by rw [cstr_name hterm]; exact hname) (ih hs)

theorem Chain.scan_unused (h : Chain mem es) (hs : shown es name = none)
    (hunused : ∃ e ∈ es, e.inode = 0) : Scan name mem 0 := by
  induction h with
  | nil =>
    obtain ⟨e, he, _⟩ := hunused
    cases he
  | unused hz => exact .unused hz
  | @used mem e es he hused h8 hle hterm hes ih =>
    by_cases hname : e.name = name
    · rw [shown_cons_named hused hname] at hs
      cases hs
    · rw [shown_cons_other hused hname] at hs
      refine .next he hused (by rw [cstr_name hterm]; exact hname) (ih hs ?_)
      obtain ⟨d, hd, hz⟩ := hunused
      rcases List.mem_cons.mp hd with rfl | hd
      · exact absurd hz hused
      · exact ⟨d, hd, hz⟩

theorem Chain.scan_overruns (h : Chain mem es) (hs : shown es name = none)
    (hused : ¬ ∃ e ∈ es, e.inode = 0) : ¬ Scan name mem n := by
  induction h with
  | nil => exact Scan.not_nil
  | unused hz hsize hin => exact absurd ⟨_, List.mem_cons_self, hin⟩ hused
  | @used mem e es he hu h8 hle hterm hes ih =>
    have hname : e.name ≠ name := by
      intro hname
      rw [shown_cons_named hu hname] at hs
      cases hs
    rw [shown_cons_other hu hname] at hs
    intro hscan
    cases hscan with
    | unused hz =>
      rw [(entry_at_iff.mp he).1] at hz
      exact hu (Option.some.inj hz)
    | named he' hu' hn =>
      rw [he] at he'
      cases he'
      rw [cstr_name hterm] at hn
      exact hname hn
    | next he' hu' hn hscan =>
      rw [he] at he'
      cases he'
      refine ih hs ?_ hscan
      rintro ⟨d, hd, hz⟩
      exact hused ⟨d, List.mem_cons_of_mem _ hd, hz⟩

/-- Legal entries fill the memory without a gap. -/
inductive Filled : Bytes → List DirEntry → Prop
  | nil : Filled [] []
  | cons : entryAt mem = some e → e.Legal mem.length → Filled (mem.drop e.size) es →
    Filled mem (e :: es)

theorem parse_loop_entries (h : parseLoop fuel mem = some es) : Filled mem es := by
  induction fuel generalizing mem es with
  | zero =>
    cases mem with
    | nil =>
      cases h
      exact .nil
    | cons x mem => cases h
  | succ fuel ih =>
    cases mem with
    | nil =>
      cases h
      exact .nil
    | cons x mem =>
      simp only [parseLoop] at h
      split at h
      · cases h
      · rename_i e he
        split at h
        · rename_i hlegal
          obtain ⟨es, hes, rfl⟩ := Option.map_eq_some_iff.mp h
          exact .cons he hlegal (ih hes)
        · cases h

theorem parse_entries (h : parse mem = some es) : Filled mem es := parse_loop_entries h

theorem Filled.cons_inv (h : Filled mem (e :: es)) :
    entryAt mem = some e ∧ e.Legal mem.length ∧ Filled (mem.drop e.size) es := by
  cases h with
  | cons he hl hes => exact ⟨he, hl, hes⟩

theorem Filled.nil_inv (h : Filled mem []) : mem = [] := by
  cases h
  rfl

theorem Filled.length_le (h : Filled mem es) : 8 * es.length ≤ mem.length := by
  induction h with
  | nil => exact Nat.le_refl 0
  | @cons mem e es he hl hes ih =>
    have := hl.holds
    have := hl.within
    rw [List.length_drop] at ih
    rw [List.length_cons]
    omega

theorem Filled.named (h : Filled mem es) : ∀ e ∈ es, e.inode ≠ 0 → e.name ≠ [] := by
  induction h with
  | nil => exact List.forall_mem_nil _
  | cons he hl hes ih => exact List.forall_mem_cons.mpr ⟨hl.named, ih⟩

theorem Filled.terminator (h : Filled mem es) : ∀ e ∈ es, 0 ∉ e.name := by
  induction h with
  | nil => exact List.forall_mem_nil _
  | cons he hl hes ih => exact List.forall_mem_cons.mpr ⟨hl.terminator, ih⟩

/-- Legal entries are a chain. -/
theorem Filled.chain (h : Filled mem es) : Chain mem es := by
  induction h with
  | nil => exact .nil
  | @cons mem e es he hl hes ih =>
    by_cases hz : e.inode = 0
    · obtain ⟨hin, hsize, -⟩ := entry_at_iff.mp he
      have h8 : 8 ≤ e.size := (Nat.le_add_right 8 _).trans hl.holds
      exact .unused (hz ▸ hin) hsize hz h8 hl.within ih
    · exact .used he hz hl.holds hl.within hl.terminator ih

end Levos.Proofs.Entries
