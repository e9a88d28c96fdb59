import Levos.Initrd
import Levos.Proofs.Driver
import Levos.Proofs.Inodes
import Levos.Proofs.Lookup

namespace Levos.Proofs.Initrd

open Levos Library Reads Disk Driver Lookup

section Blocks

variable (In : Nat → Prop) (priv : Ext2Priv) (dev : Levos.Disk) (heap : Behind)

/-- The two blocks the record of an inode is found with. -/
def InodeIn (n : Nat) : Prop :=
  priv.sb.inodesInBlockgroup.toNat ≠ 0 →
    In priv.firstBgd ∧ ∀ place, inodePlace priv dev (heap.inode n) n = some place → In place.1

/-- The inode a call reads under a number. -/
def inodeOn (n : Nat) : Option Inode := inodeAt priv dev (heap.inode n) n

/-- The number of the inode a directory block has under a name. -/
def entryOf (behind filename : Bytes) (b : Nat) : Option Nat :=
  ext2ReadDirectory filename (ext2ReadBlock priv dev b ++ behind)

/-- The directories on the way: of each one its first block, and the inode its
entry for the next name has. -/
def WalkIn : List Bytes → Nat → Inode → Prop
  | [], _, _ => True
  | filename :: rest, retnode, inode =>
    (inode.firstBlock = 0 → InodeIn In priv dev heap retnode ∧
      ∀ next, inodeOn priv dev heap retnode = some next → WalkIn rest retnode next) ∧
    (inode.firstBlock ≠ 0 → In inode.firstBlock ∧
      ∀ rc ≠ 0, entryOf priv dev heap.directory filename inode.firstBlock = some rc →
        InodeIn In priv dev heap rc ∧
          ∀ next, inodeOn priv dev heap rc = some next → WalkIn rest rc next)

/-- The blocks of the root directory up to the one with the name. -/
def RootIn (filename : Bytes) : List Nat → Prop
  | [] => True
  | b :: bs => b ≠ 0 → In b ∧
      (∀ rc ≠ 0, entryOf priv dev heap.root filename b = some rc → InodeIn In priv dev heap rc) ∧
      (entryOf priv dev heap.root filename b = some 0 → RootIn filename bs)

/-- The blocks a lookup is led to. A path without a slash is looked up in the
root directory, and then the inode with the number of the answer is read. -/
def LookupIn (path : Bytes) : Prop :=
  if (strsplit path slash).length > 1 then
    InodeIn In priv dev heap 2 ∧ ∀ root, inodeOn priv dev heap 2 = some root →
      WalkIn In priv dev heap (visited (strsplit path slash)) 0 root
  else InodeIn In priv dev heap 2 ∧
    (∀ root, inodeOn priv dev heap 2 = some root → root.type &&& 0xF000 = inodeTypeDirectory →
      RootIn In priv dev heap (heap.name path) root.dbp.toList) ∧
    ∀ rc, (Levos.Driver.readRootDirectory priv heap (heap.name path)).eval
      (ext2ReadBlock priv dev) = some rc → InodeIn In priv dev heap rc

/-- A number in a block of block numbers. -/
def pointer (b k : Nat) : Nat := numberAt dev (place priv b + 4 * k) 4

/-- The pointers of a block up to the first that is zero. -/
def PointersIn (Held : Nat → Prop) (b : Nat) : Prop :=
  In b ∧ ∀ k < priv.blocksize / 4, (∀ j ≤ k, pointer priv dev b j ≠ 0) →
    Held (pointer priv dev b k)

def SinglyIn (b : Nat) : Prop := PointersIn In priv dev In b

def DoublyIn (b : Nat) : Prop := PointersIn In priv dev (SinglyIn In priv dev) b

/-- The blocks of a file up to the first direct one that is missing or out of
range; after the twelve direct ones those of the indirect blocks. -/
def FileIn (inode : Inode) : List Nat → Prop
  | [] => (inode.singlyBlock ≠ 0 → SinglyIn In priv dev inode.singlyBlock) ∧
      (inode.doublyBlock ≠ 0 → DoublyIn In priv dev inode.doublyBlock)
  | b :: bs => b ≠ 0 → b ≤ priv.sb.blocks.toNat → In b ∧ FileIn inode bs

/-- The blocks of a directory up to the one with the entry. -/
def ListIn (dpos : Nat) : List Nat → Nat → Prop
  | [], _ => True
  | b :: bs, j => b ≠ 0 → In b ∧ ∀ j' dirp,
      listLoop priv.blocksize dpos (dpos - j + 1) j 0 (ext2ReadBlock priv dev b ++ heap.listing) =
        some (some (j', dirp)) → j' ≠ dpos → ListIn dpos bs j'

/-- What a lookup finds. -/
def foundBy (path : Bytes) : Option (Nat × Inode) :=
  (Levos.Driver.findFileInode priv heap path).eval (ext2ReadBlock priv dev)

/-- The blocks a call is led to by what the image holds. -/
def CallIn : DriverCall → Prop
  | .lookup path => LookupIn In priv dev heap path
  | .readdir _ f => LookupIn In priv dev heap f.respath ∧
      ∀ x, foundBy priv dev heap f.respath = some x → f.dpos < 12 * (priv.blocksize / 8) →
        ListIn In priv dev heap f.dpos x.2.dbp.toList 0
  | .readfull path => LookupIn In priv dev heap path ∧
      ∀ x, foundBy priv dev heap path = some x → x.1 ≠ 0 → InodeIn In priv dev heap x.1 ∧
        ∀ inode, inodeOn priv dev heap x.1 = some inode →
          FileIn In priv dev inode inode.dbp.toList

end Blocks

section Programs

variable {In : Nat → Prop} {priv : Ext2Priv} {dev : Levos.Disk} {heap : Behind}

theorem eval_inode_on (n : Nat) :
    (Levos.Driver.readInode priv heap n).eval (ext2ReadBlock priv dev) = inodeOn priv dev heap n :=
  Driver.eval_read_inode n

theorem all_read_inode (n : Nat) :
    (Levos.Driver.readInode priv heap n).All In (ext2ReadBlock priv dev) ↔
      InodeIn In priv dev heap n := by
  rw [Levos.Driver.readInode, InodeIn, inodePlace]
  by_cases hz : priv.sb.inodesInBlockgroup.toNat = 0
  · simp [hz]
  · simp only [hz, if_false, all_bind, all_read_block, eval_read_block, Option.some.injEq,
      forall_eq', ne_eq, not_false_eq_true, forall_const]
    refine and_congr_right (fun _ => ?_)
    cases hp : placeIn priv (ext2ReadBlock priv dev priv.firstBgd ++ heap.inode n) n with
    | none => simp
    | some place => simp

theorem all_read_directory (behind filename : Bytes) (b : Nat) :
    (Levos.Driver.readDirectory priv heap behind filename (ext2ReadBlock priv dev b)).All In
        (ext2ReadBlock priv dev) ↔
      ∀ rc ≠ 0, entryOf priv dev behind filename b = some rc → InodeIn In priv dev heap rc := by
  rw [Levos.Driver.readDirectory, entryOf]
  cases ext2ReadDirectory filename (ext2ReadBlock priv dev b ++ behind) with
  | none => simp
  | some rc =>
    cases rc with
    | zero => exact ⟨fun _ rc hne h => absurd (Option.some.inj h).symm hne, fun _ => trivial⟩
    | succ n =>
      simp only [all_bind, all_read_inode, all_pure, implies_true, and_true]
      constructor
      · intro h rc _ hrc
        cases hrc
        exact h
      · intro h
        exact h (n + 1) (Nat.succ_ne_zero n) rfl

theorem eval_directory_iff (behind filename : Bytes) (b rc : Nat) :
    (Levos.Driver.readDirectory priv heap behind filename (ext2ReadBlock priv dev b)).eval
        (ext2ReadBlock priv dev) = some rc ↔
      entryOf priv dev behind filename b = some rc ∧
        (rc ≠ 0 → ∃ inode, inodeOn priv dev heap rc = some inode) := by
  rw [Levos.Driver.readDirectory, entryOf]
  cases ext2ReadDirectory filename (ext2ReadBlock priv dev b ++ behind) with
  | none => simp
  | some n =>
    cases n with
    | zero => simp +contextual [eq_comm]
    | succ n =>
      simp only [eval_bind, eval_inode_on, Option.bind_eq_some_iff, eval_pure,
        Option.some.injEq]
      constructor
      · rintro ⟨inode, hi, rfl⟩
        exact ⟨rfl, fun _ => ⟨inode, hi⟩⟩
      · rintro ⟨rfl, hi⟩
        obtain ⟨inode, hi⟩ := hi (Nat.succ_ne_zero n)
        exact ⟨inode, hi, rfl⟩

theorem all_search_blocks (filename : Bytes) (inode : Inode) :
    (Levos.Driver.searchBlocks priv heap filename inode.dbp.toList).All In
        (ext2ReadBlock priv dev) ↔
      (inode.firstBlock ≠ 0 → In inode.firstBlock ∧
        ∀ rc ≠ 0, entryOf priv dev heap.directory filename inode.firstBlock = some rc →
          InodeIn In priv dev heap rc) := by
  obtain ⟨bs, hbs⟩ := dbp_cons inode
  rw [hbs, Levos.Driver.searchBlocks]
  by_cases hz : inode.firstBlock = 0
  · simp [hz]
  · simp [hz, all_read_directory]

theorem eval_search_skipped (filename : Bytes) {inode : Inode} (hz : inode.firstBlock = 0) :
    (Levos.Driver.searchBlocks priv heap filename inode.dbp.toList).eval
      (ext2ReadBlock priv dev) = some .skipped := by
  obtain ⟨bs, hbs⟩ := dbp_cons inode
  rw [hbs, Levos.Driver.searchBlocks, if_pos hz, eval_pure]

theorem eval_search_iff (filename : Bytes) {inode : Inode} (hz : inode.firstBlock ≠ 0)
    (result : DirSearch) :
    (Levos.Driver.searchBlocks priv heap filename inode.dbp.toList).eval
        (ext2ReadBlock priv dev) = some result ↔
      ∃ rc, (entryOf priv dev heap.directory filename inode.firstBlock = some rc ∧
        (rc ≠ 0 → ∃ inode, inodeOn priv dev heap rc = some inode)) ∧
        (if rc = 0 then .missing else .found rc) = result := by
  obtain ⟨bs, hbs⟩ := dbp_cons inode
  rw [hbs, Levos.Driver.searchBlocks, if_neg hz]
  simp only [eval_bind, eval_read_block, Option.bind_some, eval_pure, Option.bind_eq_some_iff,
    eval_directory_iff, Option.some.injEq]

theorem all_find_loop (ff : Bytes) (names : List Bytes) (retnode : Nat) (inode : Inode) :
    (Levos.Driver.findLoop priv heap ff names retnode inode).All In (ext2ReadBlock priv dev) ↔
      WalkIn In priv dev heap names retnode inode := by
  induction names generalizing retnode inode with
  | nil => exact iff_of_true trivial trivial
  | cons filename rest ih =>
    rw [Levos.Driver.findLoop, WalkIn, all_bind, all_search_blocks]
    by_cases hz : inode.firstBlock = 0
    · simp only [eval_search_skipped filename hz, Option.some.injEq, forall_eq', all_bind,
        all_read_inode, eval_inode_on, ih, hz, ne_eq, not_true_eq_false, false_implies, true_and,
        and_true, forall_const]
    · constructor
      · rintro ⟨hfirst, hnext⟩
        refine ⟨fun h => absurd h hz, fun _ => ⟨(hfirst hz).1, ?_⟩⟩
        intro rc hrc hentry
        refine ⟨(hfirst hz).2 rc hrc hentry, ?_⟩
        intro next hn
        have hwalk := hnext (.found rc) ((eval_search_iff filename hz _).mpr
          ⟨rc, ⟨hentry, fun _ => ⟨next, hn⟩⟩, if_neg hrc⟩)
        simp only [all_bind, eval_inode_on] at hwalk
        exact (ih rc next).mp (hwalk.2 next hn)
      · rintro ⟨-, hwalk⟩
        refine ⟨fun _ => ⟨(hwalk hz).1, fun rc hrc he => ((hwalk hz).2 rc hrc he).1⟩, ?_⟩
        intro result hresult
        obtain ⟨rc, ⟨hentry, -⟩, rfl⟩ := (eval_search_iff filename hz result).mp hresult
        by_cases hrc : rc = 0
        · rw [if_pos hrc]
          by_cases hf : filename = [] <;> simp [hf]
        · obtain ⟨hin, hrest⟩ := (hwalk hz).2 rc hrc hentry
          rw [if_neg hrc]
          simp only [all_bind, all_read_inode, eval_inode_on, ih]
          exact ⟨hin, hrest⟩

theorem all_search_root (filename : Bytes) (bs : List Nat) :
    (Levos.Driver.searchRoot priv heap filename bs).All In (ext2ReadBlock priv dev) ↔
      RootIn In priv dev heap filename bs := by
  induction bs with
  | nil => exact iff_of_true trivial trivial
  | cons b bs ih =>
    rw [Levos.Driver.searchRoot, RootIn]
    by_cases hz : b = 0
    · simp [hz]
    · simp only [hz, if_false, all_bind, all_read_block, eval_read_block, Option.some.injEq,
        forall_eq', all_read_directory, eval_directory_iff, ne_eq, not_false_eq_true, forall_const]
      refine and_congr_right (fun _ => and_congr_right (fun _ => ?_))
      constructor
      · intro h hentry
        have hrest := h 0 ⟨hentry, fun hne => absurd rfl hne⟩
        exact ih.mp (by simpa using hrest)
      · rintro h rc ⟨hentry, -⟩
        by_cases hrc : rc = 0
        · subst hrc
          exact ih.mpr (h hentry)
        · simp [hrc]

theorem all_find_file_inode (path : Bytes) :
    (Levos.Driver.findFileInode priv heap path).All In (ext2ReadBlock priv dev) ↔
      LookupIn In priv dev heap path := by
  unfold Levos.Driver.findFileInode LookupIn
  simp only
  split
  · simp only [all_bind, all_read_inode, eval_inode_on, all_find_loop]
  · simp only [all_bind, all_read_inode, all_pure, implies_true, and_true]
    rw [Levos.Driver.readRootDirectory, all_bind, all_read_inode]
    simp only [eval_inode_on, and_assoc]
    refine and_congr_right (fun _ => and_congr_left (fun _ => ?_))
    refine forall_congr' (fun root => imp_congr_right (fun _ => ?_))
    by_cases hd : root.type &&& 0xF000 = inodeTypeDirectory
    · simp [hd, all_search_root]
    · simp [hd]

theorem pointer_read (b : Nat) (h : i < priv.blocksize / 4) :
    le (ext2ReadBlock priv dev b) (4 * i) 4 = some (pointer priv dev b i) := by
  have hread := le_slice dev (place priv b) [] (show 4 * i + 4 ≤ priv.blocksize by omega)
  rwa [← read_block_eq, List.append_nil] at hread

/-- The pointers from the `i`th on, up to the first that is zero. -/
theorem pointers_step {Held : Nat → Prop} {p : Nat → Nat} (hp : p i ≠ 0) :
    (∀ k, i ≤ k → k < i + (left + 1) → (∀ j, i ≤ j → j ≤ k → p j ≠ 0) → Held (p k)) ↔
      Held (p i) ∧ ∀ k, i + 1 ≤ k → k < i + 1 + left → (∀ j, i + 1 ≤ j → j ≤ k → p j ≠ 0) →
        Held (p k) := by
  constructor
  · intro h
    refine ⟨h i (Nat.le_refl i) (by omega) ?_, ?_⟩
    · intro j hle hge
      obtain rfl : j = i := by omega
      exact hp
    · intro k hle hlt hall
      refine h k (by omega) (by omega) ?_
      intro j hj hjk
      rcases Nat.eq_or_lt_of_le hj with rfl | hlt'
      · exact hp
      · exact hall j hlt' hjk
  · rintro ⟨hfirst, hrest⟩ k hle hlt hall
    rcases Nat.eq_or_lt_of_le hle with rfl | hlt'
    · exact hfirst
    · exact hrest k hlt' (by omega) (fun j hj hjk => hall j (by omega) hjk)

theorem pointers_none {Held : Nat → Prop} {p : Nat → Nat} (hp : p i = 0) :
    ∀ k, i ≤ k → k < i + left → (∀ j, i ≤ j → j ≤ k → p j ≠ 0) → Held (p k) := by
  intro k hle _ hall
  exact absurd hp (hall i (Nat.le_refl i) hle)

theorem singly_loop_returns (b buf : Nat) (h : i + left ≤ priv.blocksize / 4) :
    ∃ copies, (Levos.Driver.readSinglyLoop priv (ext2ReadBlock priv dev b) buf left i).eval
      (ext2ReadBlock priv dev) = some copies := by
  induction left generalizing i with
  | zero => exact ⟨[], rfl⟩
  | succ left ih =>
    obtain ⟨copies, hc⟩ := ih (show i + 1 + left ≤ _ by omega)
    rw [Levos.Driver.readSinglyLoop, pointer_read b (by omega)]
    cases pointer priv dev b i with
    | zero => exact ⟨[], rfl⟩
    | succ n =>
      refine ⟨(buf + i * priv.blocksize, ext2ReadBlock priv dev (n + 1)) :: copies, ?_⟩
      simp [hc]

theorem all_singly_loop (b buf : Nat) (h : i + left ≤ priv.blocksize / 4) :
    (Levos.Driver.readSinglyLoop priv (ext2ReadBlock priv dev b) buf left i).All In
        (ext2ReadBlock priv dev) ↔
      ∀ k, i ≤ k → k < i + left → (∀ j, i ≤ j → j ≤ k → pointer priv dev b j ≠ 0) →
        In (pointer priv dev b k) := by
  induction left generalizing i with
  | zero => exact iff_of_true trivial (fun k hle hlt => absurd hlt (by omega))
  | succ left ih =>
    rw [Levos.Driver.readSinglyLoop, pointer_read b (by omega)]
    by_cases hz : pointer priv dev b i = 0
    · rw [hz]
      exact iff_of_true trivial (pointers_none hz)
    · rw [pointers_step hz, ← ih (by omega)]
      cases hp : pointer priv dev b i with
      | zero => exact absurd hp hz
      | succ n => simp

theorem all_singly (b buf : Nat) :
    (Levos.Driver.readSinglyLinked priv b buf).All In (ext2ReadBlock priv dev) ↔
      SinglyIn In priv dev b := by
  rw [Levos.Driver.readSinglyLinked, all_bind, all_read_block, SinglyIn, PointersIn]
  refine and_congr_right (fun _ => ?_)
  simp only [eval_read_block, Option.some.injEq, forall_eq']
  rw [all_singly_loop b buf (by omega)]
  simp

theorem singly_returns (priv : Ext2Priv) (dev : Levos.Disk) (b buf : Nat) :
    ∃ copies, (Levos.Driver.readSinglyLinked priv b buf).eval (ext2ReadBlock priv dev) =
      some copies := by
  have hall : 0 + priv.blocksize / 4 ≤ priv.blocksize / 4 := by omega
  obtain ⟨copies, hc⟩ := singly_loop_returns b buf hall
  refine ⟨copies, ?_⟩
  rw [Levos.Driver.readSinglyLinked, eval_bind, eval_read_block, Option.bind_some, hc]

theorem all_doubly_loop (b buf : Nat) (h : i + left ≤ priv.blocksize / 4) :
    (Levos.Driver.readDoublyLoop priv (ext2ReadBlock priv dev b) buf left i).All In
        (ext2ReadBlock priv dev) ↔
      ∀ k, i ≤ k → k < i + left → (∀ j, i ≤ j → j ≤ k → pointer priv dev b j ≠ 0) →
        SinglyIn In priv dev (pointer priv dev b k) := by
  induction left generalizing i with
  | zero => exact iff_of_true trivial (fun k hle hlt => absurd hlt (by omega))
  | succ left ih =>
    rw [Levos.Driver.readDoublyLoop, pointer_read b (by omega)]
    by_cases hz : pointer priv dev b i = 0
    · rw [hz]
      exact iff_of_true trivial (pointers_none hz)
    · rw [pointers_step hz, ← ih (by omega)]
      cases hp : pointer priv dev b i with
      | zero => exact absurd hp hz
      | succ n =>
        obtain ⟨copies, hc⟩ := singly_returns priv dev (n + 1)
          (buf + i * (priv.blocksize * priv.blocksize / 4))
        simp [all_singly, hc]

theorem all_doubly (b buf : Nat) :
    (Levos.Driver.readDoublyLinked priv b buf).All In (ext2ReadBlock priv dev) ↔
      DoublyIn In priv dev b := by
  rw [Levos.Driver.readDoublyLinked, all_bind, all_read_block, DoublyIn, PointersIn]
  refine and_congr_right (fun _ => ?_)
  simp only [eval_read_block, Option.some.injEq, forall_eq']
  rw [all_doubly_loop b buf (by omega)]
  simp

theorem all_full_loop (inode : Inode) (bs : List Nat) (i : Nat) :
    (Levos.Driver.readFullLoop priv inode bs i).All In (ext2ReadBlock priv dev) ↔
      FileIn In priv dev inode bs := by
  induction bs generalizing i with
  | nil =>
    have hsingly : (Levos.Driver.readSinglyPart priv inode).All In (ext2ReadBlock priv dev) ↔
        (inode.singlyBlock ≠ 0 → SinglyIn In priv dev inode.singlyBlock) := by
      rw [Levos.Driver.readSinglyPart]
      by_cases hz : inode.singlyBlock = 0
      · simp [hz]
      · simp [hz, all_singly]
    have hdoubly : (Levos.Driver.readDoublyPart priv inode).All In (ext2ReadBlock priv dev) ↔
        (inode.doublyBlock ≠ 0 → DoublyIn In priv dev inode.doublyBlock) := by
      rw [Levos.Driver.readDoublyPart]
      by_cases hz : inode.doublyBlock = 0
      · simp [hz]
      · simp [hz, all_doubly]
    have hreturns : ∃ copies, (Levos.Driver.readSinglyPart priv inode).eval
        (ext2ReadBlock priv dev) = some copies := by
      rw [Levos.Driver.readSinglyPart]
      split
      · exact ⟨[], rfl⟩
      · exact singly_returns priv dev _ _
    obtain ⟨copies, hc⟩ := hreturns
    rw [Levos.Driver.readFullLoop, Levos.Driver.readIndirect, FileIn]
    simp [hsingly, hdoubly, hc]
  | cons b bs ih =>
    rw [Levos.Driver.readFullLoop, FileIn]
    by_cases hz : b = 0
    · simp [hz]
    · by_cases hlarge : b > priv.sb.blocks.toNat
      · simp [hz, hlarge]
      · simp [hz, hlarge, ih, Nat.le_of_not_lt hlarge]

theorem all_list_blocks (dpos : Nat) (bs : List Nat) (j : Nat) :
    (Levos.Driver.listBlocks priv heap dpos bs j).All In (ext2ReadBlock priv dev) ↔
      ListIn In priv dev heap dpos bs j := by
  induction bs generalizing j with
  | nil => exact iff_of_true trivial trivial
  | cons b bs ih =>
    rw [Levos.Driver.listBlocks, ListIn]
    by_cases hz : b = 0
    · simp [hz]
    · simp only [hz, if_false, all_bind, all_read_block, eval_read_block, Option.some.injEq,
        forall_eq', ne_eq, not_false_eq_true, forall_const]
      refine and_congr_right (fun _ => ?_)
      cases listLoop priv.blocksize dpos (dpos - j + 1) j 0
        (ext2ReadBlock priv dev b ++ heap.listing) with
      | none => simp
      | some result =>
        cases result with
        | none => simp
        | some cursor =>
          obtain ⟨j', dirp⟩ := cursor
          by_cases hj : j' = dpos
          · simp [hj]
          · simp [hj, ih]

/-- What a call asks for is what the image leads it to. -/
theorem asks_iff (c : DriverCall) :
    c.Asks In (ext2ReadBlock priv dev) priv heap ↔ CallIn In priv dev heap c := by
  cases c with
  | lookup path => exact all_find_file_inode path
  | readdir fresh f =>
    rw [DriverCall.Asks, Levos.Driver.listDirectory, all_bind, all_find_file_inode, CallIn]
    refine and_congr_right (fun _ => forall_congr' (fun x => imp_congr_right (fun _ => ?_)))
    by_cases hpos : f.dpos < 12 * (priv.blocksize / 8)
    · simp only [hpos, if_true, all_bind, all_list_blocks, forall_const]
      refine and_iff_left ?_
      intro dirp _
      cases dirp with
      | none => trivial
      | some dirp =>
        simp only
        cases dirp[6]? with
        | none => trivial
        | some namelength =>
          simp only
          split <;> trivial
    · simp [hpos]
  | readfull path =>
    rw [DriverCall.Asks, Levos.Driver.readFileFull, all_bind, all_find_file_inode, CallIn]
    refine and_congr_right (fun _ => forall_congr' (fun x => imp_congr_right (fun _ => ?_)))
    by_cases hz : x.1 = 0
    · simp [hz]
    · simp [hz, all_read_inode, eval_inode_on, all_full_loop]

end Programs

/-- The bytes a block is copied from lie in the image. -/
def Contained (m : Levos.Initrd) (priv : Ext2Priv) (b : Nat) : Prop :=
  ∀ a ∈ m.copied (b * priv.sectors % 2 ^ 32) priv.sectors, m.start ≤ a ∧ a < m.finish

/-- A block that ends before the image does, its place counted in 32 bits. -/
def BlockIn (m : Levos.Initrd) (priv : Ext2Priv) (b : Nat) : Prop :=
  b * priv.blocksize % 2 ^ 32 + priv.blocksize ≤ m.finish - m.start

theorem contained_iff (m : Levos.Initrd) (priv : Ext2Priv) (b : Nat)
    (h : m.refuses priv.sectors = false) : Contained m priv b ↔ BlockIn m priv b := by
  have hsize := blocksize_le priv
  have hstart := m.start_le
  have hfinish := m.finish_lt
  have hoffset : ∀ i, (m.start + b * priv.sectors % 2 ^ 32 * 512 + i) % 2 ^ 32 =
      (m.start + b * priv.blocksize % 2 ^ 32 + i) % 2 ^ 32 := by
    intro i
    have hwrap : b * priv.sectors % 2 ^ 32 * 512 % 2 ^ 32 = b * priv.blocksize % 2 ^ 32 := by
      rw [Nat.mod_mul_mod, Nat.mul_assoc, sectors_mul]
    omega
  have hoff : b * priv.blocksize % 2 ^ 32 < 2 ^ 32 := Nat.mod_lt _ (by decide)
  rw [Contained, BlockIn, Levos.Initrd.copied, h, sectors_mul]
  simp only [Bool.false_eq_true, if_false, List.mem_map, List.mem_range, hoffset]
  generalize b * priv.blocksize % 2 ^ 32 = off at hoff ⊢
  constructor
  · intro hall
    have hfirst := hall _ ⟨0, by omega, rfl⟩
    have hlast := hall _ ⟨priv.blocksize - 1, by omega, rfl⟩
    by_contra hout
    by_cases htop : m.start + off + (priv.blocksize - 1) < 2 ^ 32
    · omega
    · have hedge := hall _ ⟨2 ^ 32 - 1 - (m.start + off), by omega, rfl⟩
      omega
  · rintro hin a ⟨i, hi, rfl⟩
    omega

theorem block_eq (m : Levos.Initrd) (priv : Ext2Priv) (stale : Bytes)
    (h : m.refuses priv.sectors = false) : m.block priv stale = ext2ReadBlock priv m.disk := by
  funext b
  rw [Levos.Initrd.block, Levos.Initrd.initrdRead, h, Levos.Initrd.copied, h, ext2ReadBlock,
    Levos.Disk.read, slice]
  simp [List.range'_eq_map_range, Levos.Initrd.disk, Nat.add_assoc]

theorem copied_accesses_iff (m : Levos.Initrd) (priv : Ext2Priv) (heap : Behind) (stale : Bytes)
    (c : DriverCall) (h : m.refuses priv.sectors = false) :
    c.Asks (Contained m priv) (m.block priv stale) priv heap ↔
      CallIn (BlockIn m priv) priv m.disk heap c := by
  have hsame : c.Asks (Contained m priv) (ext2ReadBlock priv m.disk) priv heap ↔
      c.Asks (BlockIn m priv) (ext2ReadBlock priv m.disk) priv heap := by
    cases c <;> exact all_congr (fun b => contained_iff m priv b h) _
  rw [block_eq m priv stale h, hsame, asks_iff]

/-- Every access of a call stays in the image exactly when the image is refused
because it is shorter than a block, or when every block the image leads the
call to lies in it. -/
theorem accesses_contained_iff (m : Levos.Initrd) (priv : Ext2Priv) (heap : Behind) (stale : Bytes)
    (c : DriverCall) : c.Asks (Contained m priv) (m.block priv stale) priv heap ↔
      m.refuses priv.sectors = true ∨ CallIn (BlockIn m priv) priv m.disk heap c := by
  cases h : m.refuses priv.sectors with
  | true =>
    have hnone : ∀ b, Contained m priv b := by
      intro b a ha
      rw [Levos.Initrd.copied, h] at ha
      cases ha
    refine iff_of_true ?_ (.inl rfl)
    cases c <;> exact all_of_forall hnone _
  | false =>
    rw [copied_accesses_iff m priv heap stale c h]
    simp

section Plain

/-- A block of block numbers, all of them with the property where they are not zero. -/
def TableIn (In : Nat → Prop) (priv : Ext2Priv) (dev : Levos.Disk) (Held : Nat → Prop) (b : Nat) :
    Prop :=
  In b ∧ ∀ k < priv.blocksize / 4, pointer priv dev b k ≠ 0 → Held (pointer priv dev b k)

/-- The block numbers an inode stores, and those its indirect blocks store. -/
structure StoredIn (In : Nat → Prop) (priv : Ext2Priv) (dev : Levos.Disk) (inode : Inode) :
    Prop where
  direct : ∀ b ∈ inode.dbp.toList, b ≠ 0 → In b
  singly : inode.singlyBlock ≠ 0 → TableIn In priv dev In inode.singlyBlock
  doubly : inode.doublyBlock ≠ 0 → TableIn In priv dev (TableIn In priv dev In) inode.doublyBlock

/-- The block numbers the image stores: that of the descriptors, those of the inode tables
and those in the inodes up to `last`. The directories have no inode behind that. -/
structure ImageIn (In : Nat → Prop) (priv : Ext2Priv) (dev : Levos.Disk) (heap : Behind)
    (last : Nat) : Prop where
  table : In priv.firstBgd
  root : 2 ≤ last
  record : ∀ n ≤ last, ∀ place, inodePlace priv dev (heap.inode n) n = some place → In place.1
  stored : ∀ n ≤ last, ∀ inode, inodeOn priv dev heap n = some inode → StoredIn In priv dev inode
  entries : ∀ n ≤ last, ∀ inode, inodeOn priv dev heap n = some inode →
    ∀ b ∈ inode.dbp.toList, ∀ behind ∈ [heap.directory, heap.root], ∀ filename rc,
      entryOf priv dev behind filename b = some rc → rc ≤ last

variable {In : Nat → Prop} {priv : Ext2Priv} {dev : Levos.Disk} {heap : Behind} {last : Nat}

/-- One of the inodes of the image. -/
def OfImage (priv : Ext2Priv) (dev : Levos.Disk) (heap : Behind) (last : Nat) (inode : Inode) :
    Prop :=
  ∃ n ≤ last, inodeOn priv dev heap n = some inode

theorem first_block_mem (inode : Inode) : inode.firstBlock ∈ inode.dbp.toList := by
  obtain ⟨bs, hbs⟩ := dbp_cons inode
  rw [hbs]
  exact List.mem_cons_self

theorem TableIn.pointers {P Q : Nat → Prop} (h : TableIn In priv dev P b) (hpq : ∀ b, P b → Q b) :
    PointersIn In priv dev Q b :=
  ⟨h.1, fun k hk hall => hpq _ (h.2 k hk (hall k (Nat.le_refl k)))⟩

theorem StoredIn.file (h : StoredIn In priv dev inode) (hbs : ∀ b ∈ bs, b ∈ inode.dbp.toList) :
    FileIn In priv dev inode bs := by
  induction bs with
  | nil =>
    refine ⟨fun hz => (h.singly hz).pointers (fun _ hb => hb), ?_⟩
    exact fun hz => (h.doubly hz).pointers (fun _ hb => hb.pointers (fun _ hc => hc))
  | cons b bs ih =>
    intro hz _
    exact ⟨h.direct b (hbs b List.mem_cons_self) hz,
      ih (fun c hc => hbs c (List.mem_cons_of_mem _ hc))⟩

theorem StoredIn.list (h : StoredIn In priv dev inode) (hbs : ∀ b ∈ bs, b ∈ inode.dbp.toList)
    (dpos j : Nat) : ListIn In priv dev heap dpos bs j := by
  induction bs generalizing j with
  | nil => trivial
  | cons b bs ih =>
    intro hz
    exact ⟨h.direct b (hbs b List.mem_cons_self) hz,
      fun j' _ _ _ => ih (fun c hc => hbs c (List.mem_cons_of_mem _ hc)) j'⟩

variable (h : ImageIn In priv dev heap last)
include h

theorem ImageIn.inode_in (hn : n ≤ last) : InodeIn In priv dev heap n :=
  fun _ => ⟨h.table, h.record n hn⟩

theorem ImageIn.entry (hi : OfImage priv dev heap last inode)
    (he : entryOf priv dev heap.directory filename inode.firstBlock = some rc) : rc ≤ last := by
  obtain ⟨n, hn, hinode⟩ := hi
  exact h.entries n hn inode hinode _ (first_block_mem inode) _ (by simp) filename rc he

theorem ImageIn.walk (names : List Bytes) (hret : retnode ≤ last)
    (hi : OfImage priv dev heap last inode) : WalkIn In priv dev heap names retnode inode := by
  induction names generalizing retnode inode with
  | nil => trivial
  | cons filename rest ih =>
    refine ⟨fun _ => ⟨h.inode_in hret, fun next hnext => ih hret ⟨retnode, hret, hnext⟩⟩, ?_⟩
    intro hz
    obtain ⟨n, hn, hinode⟩ := hi
    refine ⟨(h.stored n hn inode hinode).direct _ (first_block_mem inode) hz, ?_⟩
    intro rc _ he
    have hrc := h.entry ⟨n, hn, hinode⟩ he
    exact ⟨h.inode_in hrc, fun next hnext => ih hrc ⟨rc, hrc, hnext⟩⟩

theorem ImageIn.root_in (filename : Bytes) (hi : inodeOn priv dev heap 2 = some inode)
    (hbs : ∀ b ∈ bs, b ∈ inode.dbp.toList) : RootIn In priv dev heap filename bs := by
  induction bs with
  | nil => trivial
  | cons b bs ih =>
    intro hz
    have hb := hbs b List.mem_cons_self
    refine ⟨(h.stored 2 h.root inode hi).direct b hb hz, ?_, ?_⟩
    · intro rc _ he
      exact h.inode_in (h.entries 2 h.root inode hi b hb _ (by simp) filename rc he)
    · exact fun _ => ih (fun c hc => hbs c (List.mem_cons_of_mem _ hc))

omit h in
/-- `ext2_read_root_directory` returns whether it has found the name. -/
theorem search_root_le (filename : Bytes) (bs : List Nat) {rc : Nat}
    (hrc : (Levos.Driver.searchRoot priv heap filename bs).eval (ext2ReadBlock priv dev) =
      some rc) :
    rc ≤ 1 := by
  induction bs with
  | nil =>
    cases hrc
    exact Nat.zero_le 1
  | cons b bs ih =>
    rw [Levos.Driver.searchRoot] at hrc
    split at hrc
    · cases hrc
      exact Nat.zero_le 1
    · simp only [eval_bind, eval_read_block, Option.bind_some, Option.bind_eq_some_iff] at hrc
      obtain ⟨n, -, hn⟩ := hrc
      split at hn
      · exact ih hn
      · cases hn
        exact Nat.le_refl 1

omit h in
theorem root_directory_le {filename : Bytes} {rc : Nat}
    (hrc : (Levos.Driver.readRootDirectory priv heap filename).eval (ext2ReadBlock priv dev) =
      some rc) : rc ≤ 1 := by
  rw [Levos.Driver.readRootDirectory, eval_bind, Option.bind_eq_some_iff] at hrc
  obtain ⟨inode, -, hrc⟩ := hrc
  split at hrc
  · cases hrc
    exact Nat.zero_le 1
  · exact search_root_le filename _ hrc

theorem ImageIn.lookup (path : Bytes) : LookupIn In priv dev heap path := by
  have hroot := h.root
  unfold LookupIn
  split
  · exact ⟨h.inode_in hroot, fun root hr => h.walk _ (Nat.zero_le last) ⟨2, hroot, hr⟩⟩
  · refine ⟨h.inode_in hroot, fun root hr _ => h.root_in _ hr (fun _ hb => hb), ?_⟩
    intro rc hrc
    have hle := root_directory_le hrc
    exact h.inode_in (by omega)

theorem ImageIn.loop_found (ff : Bytes) (names : List Bytes) (hret : retnode ≤ last)
    (hi : OfImage priv dev heap last inode)
    (hx : (Levos.Driver.findLoop priv heap ff names retnode inode).eval (ext2ReadBlock priv dev) =
      some x) : x.1 ≤ last ∧ OfImage priv dev heap last x.2 := by
  induction names generalizing retnode inode with
  | nil =>
    cases hx
    exact ⟨hret, hi⟩
  | cons filename rest ih =>
    rw [Levos.Driver.findLoop, eval_bind, Option.bind_eq_some_iff] at hx
    obtain ⟨result, hresult, hx⟩ := hx
    by_cases hz : inode.firstBlock = 0
    · rw [eval_search_skipped filename hz] at hresult
      cases hresult
      simp only [eval_bind, eval_inode_on, Option.bind_eq_some_iff] at hx
      obtain ⟨next, hnext, hx⟩ := hx
      exact ih hret ⟨retnode, hret, hnext⟩ hx
    · obtain ⟨rc, ⟨hentry, -⟩, rfl⟩ := (eval_search_iff filename hz result).mp hresult
      have hrc := h.entry hi hentry
      by_cases hzero : rc = 0
      · rw [if_pos hzero] at hx
        have hroot := h.root
        dsimp only at hx
        split at hx
        · cases hx
          refine ⟨?_, hi⟩
          dsimp only
          split
          · exact hroot
          · exact hret
        · cases hx
          exact ⟨Nat.zero_le last, hi⟩
      · rw [if_neg hzero] at hx
        simp only [eval_bind, eval_inode_on, Option.bind_eq_some_iff] at hx
        obtain ⟨next, hnext, hx⟩ := hx
        exact ih hrc ⟨rc, hrc, hnext⟩ hx

theorem ImageIn.found (hx : foundBy priv dev heap path = some x) :
    x.1 ≤ last ∧ OfImage priv dev heap last x.2 := by
  have hroot := h.root
  unfold foundBy Levos.Driver.findFileInode at hx
  dsimp only at hx
  split at hx
  · simp only [eval_bind, eval_inode_on, Option.bind_eq_some_iff] at hx
    obtain ⟨root, hr, hx⟩ := hx
    exact h.loop_found path _ (Nat.zero_le last) ⟨2, hroot, hr⟩ hx
  · simp only [eval_bind, eval_inode_on, Option.bind_eq_some_iff, eval_pure] at hx
    obtain ⟨rc, hrc, inode, hinode, hx⟩ := hx
    cases hx
    have hle := root_directory_le hrc
    have hlast : rc ≤ last := by omega
    exact ⟨hlast, rc, hlast, hinode⟩

/-- If every block number the image stores is in range, every call stays in range. -/
theorem ImageIn.call (c : DriverCall) : CallIn In priv dev heap c := by
  cases c with
  | lookup path => exact h.lookup path
  | readdir fresh f =>
    refine ⟨h.lookup _, fun x hx _ => ?_⟩
    obtain ⟨n, hn, hinode⟩ := (h.found hx).2
    exact (h.stored n hn x.2 hinode).list (fun _ hb => hb) _ _
  | readfull path =>
    refine ⟨h.lookup _, fun x hx _ => ?_⟩
    have hle := (h.found hx).1
    exact ⟨h.inode_in hle, fun inode hinode => (h.stored _ hle inode hinode).file (fun _ hb => hb)⟩

end Plain

/-- If every block number the image stores lies in it, so do all accesses of every call. -/
theorem image_accesses_contained (m : Levos.Initrd) (priv : Ext2Priv) (heap : Behind)
    (stale : Bytes) (last : Nat) (h : ImageIn (BlockIn m priv) priv m.disk heap last)
    (c : DriverCall) :
    c.Asks (Contained m priv) (m.block priv stale) priv heap :=
  (accesses_contained_iff m priv heap stale c).mpr (.inr (h.call c))

/-- The small volume as an image of 17 blocks whose root directory has block
1000 for its first block. -/
def wildImage : Levos.Initrd where
  memory a := (([(5288, 232), (5289, 3)] ++ Inodes.smallBytes).lookup (a - 0x100000)).getD 0
  start := 0x100000
  finish := 0x104400
  start_le := by decide
  finish_lt := by decide

/-- Looking up a name in that directory copies from behind the image. -/
theorem lookup_leaves_image :
    ¬ ∀ (m : Levos.Initrd) (priv : Ext2Priv) (heap : Behind) (stale : Bytes) (c : DriverCall),
      m.refuses 2 = false → (ext2Probe m.disk).map Ext2Priv.sb = some priv.sb →
      c.Asks (Contained m priv) (m.block priv stale) priv heap := by
  intro h
  have hasks := h wildImage Inodes.smallPriv (same [] []) [] (.lookup [slash, 120]) (by decide)
    (by decide)
  rw [copied_accesses_iff _ _ _ _ _ (by decide)] at hasks
  have hpieces : strsplit [slash, 120] slash = [[], [120]] := by decide
  have hroot : (inodeOn Inodes.smallPriv wildImage.disk (same [] []) 2).map Inode.firstBlock =
      some 1000 := by
    decide +kernel
  obtain ⟨root, hr, hfirst⟩ := Option.map_eq_some_iff.mp hroot
  rw [CallIn, LookupIn, hpieces] at hasks
  have hwalk := hasks.2 root hr
  rw [show visited [[], [120]] = [[120]] from rfl, WalkIn, hfirst] at hwalk
  have hin := (hwalk.2 (by decide)).1
  revert hin
  rw [BlockIn]
  decide

end Levos.Proofs.Initrd
