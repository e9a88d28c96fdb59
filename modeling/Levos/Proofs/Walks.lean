import Levos.Proofs.Disk
import Levos.Proofs.Entries
import Levos.Walks

namespace Levos.Proofs.Walks
open Library Reads Entries Proofs.Disk

variable {mem : Nat → UInt8} {n : Nat} {filename : Option Bytes}

/-- A walk returns, and loads only from the block. -/
def Contained (n : Nat) (mem : Nat → UInt8) (walk : Nat → Reads Nat UInt8 α) : Prop :=
  (∃ fuel, ((walk fuel).eval mem).isSome) ∧ ∀ fuel, (walk fuel).All (· < n) mem

@[simp] theorem eval_read_byte (mem : Nat → UInt8) (off : Nat) :
    (readByte off).eval mem = some (mem off) := rfl

@[simp] theorem all_read_byte : (readByte off).All (· < n) mem ↔ off < n :=
  ⟨And.left, fun h => ⟨h, trivial⟩⟩

@[simp] theorem eval_read_bytes (mem : Nat → UInt8) (count off : Nat) :
    (readBytes count off).eval mem = some (slice mem off count) := by
  induction count generalizing off with
  | zero => rfl
  | succ count ih => simp [readBytes, ih, slice_succ]

@[simp] theorem all_read_bytes :
    (readBytes count off).All (· < n) mem ↔ count = 0 ∨ off + count ≤ n := by
  induction count generalizing off with
  | zero => simp [readBytes]
  | succ count ih =>
    simp only [readBytes, all_bind, all_read_byte, ih, all_pure, implies_true, and_true,
      eval_read_byte, Option.some.injEq, forall_eq']
    omega

@[simp] theorem eval_read_word (mem : Nat → UInt8) (width off : Nat) :
    (readWord width off).eval mem = some (numberAt mem off width) := by
  simp [readWord, numberAt]

@[simp] theorem all_read_word :
    (readWord width off).All (· < n) mem ↔ width = 0 ∨ off + width ≤ n := by
  simp [readWord]

def inodeAt (mem : Nat → UInt8) (off : Nat) : Nat := numberAt mem off 4

def sizeAt (mem : Nat → UInt8) (off : Nat) : Nat := numberAt mem (off + 4) 2

def lengthAt (mem : Nat → UInt8) (off : Nat) : Nat := (mem (off + 6)).toNat

def nameAt (mem : Nat → UInt8) (off : Nat) : Bytes := slice mem (off + 8) (lengthAt mem off)

/-- The header of the entry, up to its name length, and the name lie in the block. -/
def Inside (n : Nat) (mem : Nat → UInt8) (off : Nat) : Prop :=
  off + 7 ≤ n ∧ (lengthAt mem off = 0 ∨ off + 8 + lengthAt mem off ≤ n)

/-- The record lengths lead through entries in use that lie in the block to an
unused entry, or to one with the name, that does too. -/
inductive Ends (n : Nat) (mem : Nat → UInt8) (filename : Option Bytes) : Nat → Prop
  | unused : off + 4 ≤ n → inodeAt mem off = 0 → Ends n mem filename off
  | named : inodeAt mem off ≠ 0 → Inside n mem off → filename = some (cstr (nameAt mem off)) →
    Ends n mem filename off
  | next : inodeAt mem off ≠ 0 → Inside n mem off → filename ≠ some (cstr (nameAt mem off)) →
    Ends n mem filename (off + sizeAt mem off) → Ends n mem filename off

/-- Each of the next `left` record lengths lies in the block and leads to an entry
whose name length does, up to one without a name; the entry reached at the end
lies in the block. -/
def Skips (n : Nat) (mem : Nat → UInt8) : Nat → Nat → Prop
  | 0, off => Inside n mem off
  | left + 1, off => off + 6 ≤ n ∧ off + sizeAt mem off + 7 ≤ n ∧
    (lengthAt mem (off + sizeAt mem off) = 0 ∨ Skips n mem left (off + sizeAt mem off))

section Loads

variable (n mem filename)

/-- What one round of the walk returns. -/
theorem directory_walk_eval (fuel off : Nat) :
    (directoryWalk filename (fuel + 1) off).eval mem =
      if inodeAt mem off = 0 then some 0
      else if filename = some (cstr (nameAt mem off)) then some (inodeAt mem off)
      else (directoryWalk filename fuel (off + sizeAt mem off)).eval mem := by
  simp only [directoryWalk, eval_bind, eval_read_word, Option.bind_some, eval_ite,
    eval_pure, eval_read_byte, eval_read_bytes]
  rfl

/-- What one round of the walk loads. The size is only loaded, from inside the
header, when the name is another one. -/
theorem directory_walk_all (fuel off : Nat) :
    (directoryWalk filename (fuel + 1) off).All (· < n) mem ↔
      off + 4 ≤ n ∧ (inodeAt mem off ≠ 0 → Inside n mem off ∧
        (filename ≠ some (cstr (nameAt mem off)) →
          (directoryWalk filename fuel (off + sizeAt mem off)).All (· < n) mem)) := by
  have hheader : off + 7 ≤ n → off + 4 + 2 ≤ n := by omega
  simp only [directoryWalk, all_bind, all_ite, all_pure, all_read_word, all_read_byte,
    all_read_bytes, eval_read_word, eval_read_byte, eval_read_bytes, Option.some.injEq, forall_eq',
    OfNat.ofNat_ne_zero, false_or, implies_true, true_and]
  refine and_congr_right (fun _ => imp_congr_right (fun _ => ?_))
  constructor
  · rintro ⟨hlen, hname, hrest⟩
    exact ⟨⟨hlen, hname⟩, fun hother => (hrest hother).2⟩
  · rintro ⟨⟨hlen, hname⟩, hrest⟩
    exact ⟨hlen, hname, fun hother => ⟨hheader hlen, hrest hother⟩⟩

/-- One round of `ext2_list_directory`: the length it tests is that of the next entry. -/
theorem list_walk_eval (left off : Nat) :
    (listWalk n (left + 1) off).eval mem =
      if off < n then
        if mem (off + sizeAt mem off + 6) = 0 then some .last
        else (listWalk n left (off + sizeAt mem off)).eval mem
      else some (.nextBlock (left + 1)) := by
  simp only [listWalk, eval_ite, eval_bind, eval_read_word, eval_read_byte, Option.bind_some,
    eval_pure]
  rfl

theorem list_walk_all (left off : Nat) :
    (listWalk n (left + 1) off).All (· < n) mem ↔
      (off < n → off + 6 ≤ n ∧ off + sizeAt mem off + 7 ≤ n ∧
        (lengthAt mem (off + sizeAt mem off) ≠ 0 →
          (listWalk n left (off + sizeAt mem off)).All (· < n) mem)) := by
  simp only [listWalk, all_bind, all_ite, all_pure, all_read_word, all_read_byte, eval_read_word,
    eval_read_byte, Option.some.injEq, forall_eq', OfNat.ofNat_ne_zero, false_or, implies_true,
    true_and, and_true]
  refine imp_congr_right (fun _ => and_congr_right (fun _ => and_congr_right (fun _ => ?_)))
  rw [lengthAt, Ne, show ∀ x : UInt8, x.toNat = 0 ↔ x = 0 from fun x => UInt8.toNat_inj (b := 0)]
  rfl

end Loads

/-- A walk that returns and has loaded only from the block has come to its end there. -/
theorem walk_ends {fuel : Nat} (hsome : ((directoryWalk filename fuel off).eval mem).isSome)
    (hin : (directoryWalk filename fuel off).All (· < n) mem) : Ends n mem filename off := by
  induction fuel generalizing off with
  | zero => cases hsome
  | succ fuel ih =>
    rw [directory_walk_eval] at hsome
    obtain ⟨hfour, hrest⟩ := (directory_walk_all _ _ _ fuel off).mp hin
    by_cases hz : inodeAt mem off = 0
    · exact .unused hfour hz
    · obtain ⟨hinside, hnext⟩ := hrest hz
      by_cases hname : filename = some (cstr (nameAt mem off))
      · exact .named hz hinside hname
      · rw [if_neg hz, if_neg hname] at hsome
        exact .next hz hinside hname (ih hsome (hnext hname))

theorem Ends.returns (h : Ends n mem filename off) :
    ∃ fuel, ((directoryWalk filename fuel off).eval mem).isSome := by
  induction h with
  | unused _ hz => exact ⟨1, by rw [directory_walk_eval, if_pos hz]; rfl⟩
  | named hz _ hname => exact ⟨1, by rw [directory_walk_eval, if_neg hz, if_pos hname]; rfl⟩
  | next hz _ hname _ ih =>
    obtain ⟨fuel, hsome⟩ := ih
    exact ⟨fuel + 1, by rw [directory_walk_eval, if_neg hz, if_neg hname]; exact hsome⟩

theorem Ends.inside (h : Ends n mem filename off) (fuel : Nat) :
    (directoryWalk filename fuel off).All (· < n) mem := by
  induction fuel generalizing off with
  | zero => trivial
  | succ fuel ih =>
    rw [directory_walk_all]
    cases h with
    | unused hfour hz => exact ⟨hfour, fun hne => absurd hz hne⟩
    | named _ hinside hname =>
      have hseven := hinside.1
      exact ⟨by omega, fun _ => ⟨hinside, fun hother => absurd hname hother⟩⟩
    | next _ hinside _ hrest =>
      have hseven := hinside.1
      exact ⟨by omega, fun _ => ⟨hinside, fun _ => ih hrest⟩⟩

/-- The walk of `ext2_read_directory` is contained if and only if it comes to its
end in the block. -/
theorem directory_walk_iff (off : Nat) :
    Contained n mem (fun fuel => directoryWalk filename fuel off) ↔ Ends n mem filename off := by
  constructor
  · rintro ⟨⟨fuel, hsome⟩, hall⟩
    exact walk_ends hsome (hall fuel)
  · intro h
    exact ⟨h.returns, h.inside⟩

/-- The walk of `ext2_list_directory` always ends. -/
theorem list_walk_returns (left off : Nat) : ((listWalk n left off).eval mem).isSome := by
  induction left generalizing off with
  | zero => simp [listWalk]
  | succ left ih =>
    rw [list_walk_eval]
    split
    · split
      · rfl
      · exact ih _
    · rfl

theorem list_walk_skips (left : Nat) (hoff : off < n) :
    (listWalk n left off).All (· < n) mem ↔ Skips n mem left off := by
  induction left generalizing off with
  | zero => simp [listWalk, Skips, Inside, lengthAt, Nat.succ_le_iff]
  | succ left ih =>
    simp only [list_walk_all, Skips, hoff, forall_const]
    refine and_congr_right (fun _ => and_congr_right (fun hnext => ?_))
    rw [ih (by omega), ne_eq, ← or_iff_not_imp_left]

theorem list_walk_iff (left : Nat) (hn : 0 < n) :
    Contained n mem (fun _ => listWalk n left 0) ↔ Skips n mem left 0 := by
  rw [← list_walk_skips left hn]
  exact ⟨fun h => h.2 0, fun h => ⟨⟨0, list_walk_returns left 0⟩, fun _ => h⟩⟩

/-- A block of an ext2 volume in memory, with whatever is behind it: both walks. -/
theorem entry_walks_iff (mem : Nat → UInt8) (hint left : Nat) (filename : Option Bytes) :
    Contained (1024 <<< hint) mem (fun fuel => directoryWalk filename fuel 0) ∧
        Contained (1024 <<< hint) mem (fun _ => listWalk (1024 <<< hint) left 0) ↔
      Ends (1024 <<< hint) mem filename 0 ∧ Skips (1024 <<< hint) mem left 0 := by
  have hn : 0 < 1024 <<< hint := by
    rw [Nat.shiftLeft_eq]
    positivity
  rw [directory_walk_iff, list_walk_iff left hn]

section Blocks

/-- A number in the bytes of the block is the one the walks load. -/
theorem le_slice_some (h : le (slice mem off k) i w = some v) (hw : 0 < w) :
    i + w ≤ k ∧ v = numberAt mem (off + i) w := by
  by_cases hin : i + w ≤ k
  · have hread := le_slice mem off [] hin
    rw [List.append_nil, h] at hread
    exact ⟨hin, Option.some.inj hread⟩
  · rw [le_none _ (by rw [slice_length]; omega) hw] at h
    cases h

theorem entry_slice (h : entryAt (slice mem off k) = some e) :
    e = ⟨inodeAt mem off, sizeAt mem off, nameAt mem off⟩ ∧ 8 + lengthAt mem off ≤ k := by
  obtain ⟨hinode, hsize, x, hx, hlen, hname⟩ := entry_at_iff.mp h
  have hin := (le_slice_some hinode (by decide)).2
  obtain ⟨hsix, hsz⟩ := le_slice_some hsize (by decide)
  rw [slice_length] at hlen
  rw [slice_get mem off (by omega), Option.some.injEq] at hx
  rw [slice_drop_take mem off hlen, ← hx] at hname
  refine ⟨?_, by rw [lengthAt, hx]; exact hlen⟩
  cases e
  simp_all [inodeAt, sizeAt, nameAt, lengthAt]

/-- What follows the entries of the bare block is what the walk does. -/
theorem scan_walks (h : Scan name bytes r) (hb : bytes = slice mem off (n - off)) :
    Ends n mem (some name) off ∧
      ∃ fuel, (directoryWalk (some name) fuel off).eval mem = some r := by
  induction h generalizing off with
  | unused hz =>
    rw [hb] at hz
    obtain ⟨hfour, hinode⟩ := le_slice_some hz (by decide)
    have hzero : inodeAt mem off = 0 := hinode.symm
    refine ⟨.unused (by omega) hzero, 1, ?_⟩
    rw [directory_walk_eval, if_pos hzero]
  | @named mem' e he hused hname =>
    rw [hb] at he
    obtain ⟨rfl, hlen⟩ := entry_slice he
    have hsome : some name = some (cstr (nameAt mem off)) := congrArg some hname.symm
    refine ⟨.named hused ⟨by omega, .inr (by omega)⟩ hsome, 1, ?_⟩
    rw [directory_walk_eval, if_neg hused, if_pos hsome]
  | @next mem' e r he hused hname hrest ih =>
    rw [hb] at he
    obtain ⟨rfl, hlen⟩ := entry_slice he
    have hother : some name ≠ some (cstr (nameAt mem off)) :=
      fun heq => hname (Option.some.inj heq).symm
    obtain ⟨hends, fuel, heval⟩ := ih (by rw [hb, slice_drop, Nat.sub_sub])
    refine ⟨.next hused ⟨by omega, .inr (by omega)⟩ hother hends, fuel + 1, ?_⟩
    rw [directory_walk_eval, if_neg hused, if_neg hother]
    exact heval

/-- An answer `ext2_read_directory` gives on the bytes of the block alone is that of
the walk, which then stays in the block. -/
theorem read_directory_walks (h : ext2ReadDirectory name (slice mem 0 n) = some r) :
    Contained n mem (fun fuel => directoryWalk (some name) fuel 0) ∧
      ∃ fuel, (directoryWalk (some name) fuel 0).eval mem = some r := by
  rw [directory_walk_iff]
  exact scan_walks (read_directory_iff.mp h) rfl

/-- The same for `ext2_list_directory`: where the loop on the bare block ends, and
the entry it stops at is there, the walk ends alike. -/
theorem list_loop_walks
    (h : listLoop n dpos fuel j off (slice mem off (n - off)) = some res) (hj : j + left = dpos) :
    (res = none → (listWalk n left off).eval mem = some .last) ∧
    ∀ j' dirp e, res = some (j', dirp) → j' = dpos → entryAt dirp = some e →
      (listWalk n left off).eval mem = some (.entry e.name) := by
  induction fuel generalizing j left off with
  | zero => cases h
  | succ fuel ih =>
    unfold listLoop at h
    cases left with
    | zero =>
      rw [if_neg (by omega)] at h
      cases h
      refine ⟨fun hnone => (by cases hnone), ?_⟩
      rintro j' dirp e heq - he
      cases heq
      obtain ⟨rfl, -⟩ := entry_slice he
      simp [listWalk, nameAt, lengthAt]
    | succ left =>
      by_cases hoff : off < n
      · rw [if_pos ⟨by omega, hoff⟩] at h
        split at h
        · cases h
        · rename_i size hsize
          have hsz : size = sizeAt mem off := (le_slice_some hsize (by decide)).2
          rw [slice_drop, Nat.sub_sub, hsz] at h
          split at h
          · cases h
          · rename_i namelength hlen
            have hroom := (List.getElem?_eq_some_iff.mp hlen).1
            rw [slice_length] at hroom
            rw [slice_get mem _ hroom, Option.some.injEq] at hlen
            rw [list_walk_eval, if_pos hoff, hlen]
            split at h
            · rename_i hzero
              cases h
              refine ⟨fun _ => if_pos hzero, ?_⟩
              rintro j' dirp e heq
              cases heq
            · rename_i hne
              rw [if_neg hne]
              exact ih h (by omega)
      · rw [if_neg (by omega)] at h
        cases h
        refine ⟨fun hnone => (by cases hnone), ?_⟩
        rintro j' dirp e heq rfl
        cases heq
        omega

end Blocks

/-- A block whose first entry, of inode 1, has a record length of zero. -/
def stuckBlock : Nat → UInt8 := fun i => if i = 0 then 1 else 0

theorem stuck_block_not_ended (h : Ends n stuckBlock (some [97]) off) : off ≠ 0 := by
  induction h with
  | unused _ hz =>
    rintro rfl
    exact absurd hz (by decide)
  | named _ _ hname =>
    rintro rfl
    exact absurd hname (by decide)
  | @next off _ _ _ _ ih =>
    rintro rfl
    exact ih rfl

theorem walk_never_ends :
    ∃ mem hint left filename,
      ¬ (Contained (1024 <<< hint) mem (fun fuel => directoryWalk filename fuel 0) ∧
        Contained (1024 <<< hint) mem (fun _ => listWalk (1024 <<< hint) left 0)) := by
  refine ⟨stuckBlock, 0, 0, some [97], ?_⟩
  rintro ⟨h, -⟩
  exact stuck_block_not_ended ((directory_walk_iff 0).mp h) rfl

end Levos.Proofs.Walks
