import Levos.Library.Lists
import Levos.Proofs.Entries

namespace Levos.Proofs.Lookup
open Levos.Library Levos.Proofs.Entries

/-- The path goes on behind an inode that is no directory, and what its first
block happens to hold, read as entries, ends the walk without a result. -/
def DeadEnd (v : Volume) : Nat → List Bytes → Prop
  | _, [] => False
  | n, name :: rest => (v.inode n).firstBlock ≠ 0 ∧
    ((name ≠ [] ∧ Scan name (v.block (v.inode n).firstBlock) 0) ∨
      ∃ m, m ≠ 0 ∧ Scan name (v.block (v.inode n).firstBlock) m ∧ DeadEnd v m rest)

/-- Every component that is there is shown by the first block of its directory
before any unused entry. One that is not shown is looked up in a first block
with an unused entry, and the path leads nowhere; it may be empty only at the
end of the path or right after the leading slash. -/
def Walkable (v : Volume) : Bool → Nat → List Bytes → Prop
  | _, _, [] => True
  | start, d, name :: rest =>
    if (v.inode d).isDirectory then
      match shown (entriesOf v (v.inode d).firstBlock) name with
      | some n => Walkable v false n rest
      | none => (∃ e ∈ entriesOf v (v.inode d).firstBlock, e.inode = 0) ∧
        if name = [] then rest = [] ∨ start else resolve v d (name :: rest) = 0
    else DeadEnd v d (name :: rest)

theorem dbp_cons (i : Inode) : ∃ bs, i.dbp.toList = i.firstBlock :: bs := by
  have hlen : i.dbp.toList.length = 12 := i.dbp.length_toList
  cases hl : i.dbp.toList with
  | nil => simp [hl] at hlen
  | cons b bs =>
    have hb : i.dbp.toList[0]? = some b := by rw [hl]; rfl
    simp only [Vector.getElem?_toList, Vector.getElem?_eq_getElem (show 0 < 12 by decide),
      Option.some.injEq] at hb
    exact ⟨bs, by rw [← hb]; rfl⟩

theorem search_first (after name : Bytes) {i : Inode} (h : i.firstBlock ≠ 0) :
    searchBlocks v after name i.dbp.toList =
      (ext2ReadDirectory name (v.block i.firstBlock ++ after)).map
        (fun n => if n = 0 then .missing else .found n) := by
  obtain ⟨bs, hbs⟩ := dbp_cons i
  rw [hbs]
  simp only [searchBlocks, h, ↓reduceIte]
  cases ext2ReadDirectory name (v.block i.firstBlock ++ after) with
  | none => rfl
  | some n => cases n <;> rfl

theorem search_empty (after name : Bytes) {i : Inode} (h : i.firstBlock = 0) :
    searchBlocks v after name i.dbp.toList = some .skipped := by
  obtain ⟨bs, hbs⟩ := dbp_cons i
  rw [hbs]
  simp only [searchBlocks, h, ↓reduceIte]

theorem search_append (more : Bytes) {i : Inode}
    (h : searchBlocks v after name i.dbp.toList = some r) :
    searchBlocks v (after ++ more) name i.dbp.toList = some r := by
  by_cases hb : i.firstBlock = 0
  · rw [search_empty after name hb] at h
    rw [search_empty _ name hb]
    exact h
  · rw [search_first after name hb] at h
    obtain ⟨n, hn, hr⟩ := Option.map_eq_some_iff.mp h
    rw [search_first _ name hb, ← List.append_assoc, read_directory_append more hn]
    exact congrArg some hr

/-- A lookup that stays within what is known does not depend on what is behind it. -/
theorem find_loop_append (more : Bytes) {i : Inode}
    (h : findLoop v after ff names r i = some x) :
    findLoop v (after ++ more) ff names r i = some x := by
  induction names generalizing r i with
  | nil => exact h
  | cons name rest ih =>
    simp only [findLoop] at h ⊢
    cases hs : searchBlocks v after name i.dbp.toList with
    | none =>
      rw [hs] at h
      cases h
    | some s =>
      rw [hs] at h
      rw [search_append more hs]
      cases s with
      | missing => exact h
      | skipped => exact ih h
      | found n => exact ih h

theorem search_root_append (more : Bytes) (h : searchRoot v after name bs = some n) :
    searchRoot v (after ++ more) name bs = some n := by
  induction bs with
  | nil => exact h
  | cons b bs ih =>
    simp only [searchRoot] at h ⊢
    by_cases hb : b = 0
    · rw [if_pos hb] at h ⊢
      exact h
    · rw [if_neg hb] at h
      rw [if_neg hb, ← List.append_assoc]
      cases hr : ext2ReadDirectory name (v.block b ++ after) with
      | none =>
        rw [hr] at h
        cases h
      | some m =>
        rw [hr] at h
        rw [read_directory_append more hr]
        cases m with
        | zero => exact ih h
        | succ m => exact h

theorem find_file_inode_append (more : Bytes) (h : ext2FindFileInode v after ff = some x) :
    ext2FindFileInode v (after ++ more) ff = some x := by
  unfold ext2FindFileInode at h ⊢
  by_cases hn : (strsplit ff slash).length > 1
  · rw [if_pos hn] at h ⊢
    exact find_loop_append more h
  · rw [if_neg hn] at h ⊢
    cases ff with
    | nil => cases h
    | cons c name =>
      obtain ⟨n, hn, hx⟩ := Option.map_eq_some_iff.mp h
      refine Option.map_eq_some_iff.mpr ⟨n, ?_, hx⟩
      unfold ext2ReadRootDirectory at hn ⊢
      split at hn
      · rename_i ht
        rw [if_pos ht]
        exact hn
      · rename_i ht
        rw [if_neg ht]
        exact search_root_append more hn

/-- The record the loop leaves is the one of the inode it returns. Only the path
"/" is answered with a number the loop has not looked up. -/
theorem find_loop_record {i : Inode} (h : findLoop v after ff names r i = some (n, j))
    (hr : r ≠ 0 → i = v.inode r) (hroot : ff = [slash] → names ≠ [] → i = v.inode 2)
    (hlast : ff = [slash] → names.tail = []) (hn : n ≠ 0) : j = v.inode n := by
  induction names generalizing r i with
  | nil =>
    cases h
    exact hr hn
  | cons name rest ih =>
    have hrest : ff = [slash] → rest ≠ [] → ∀ i' : Inode, i' = v.inode 2 :=
      fun hff hne => absurd (hlast hff) hne
    have htail : ff = [slash] → rest.tail = [] := by
      intro hff
      have he : rest = [] := hlast hff
      rw [he]
      rfl
    simp only [findLoop] at h
    split at h
    · cases h
    · split at h
      · cases h
        by_cases hff : ff = [slash]
        · rw [if_pos hff]
          exact hroot hff (List.cons_ne_nil _ _)
        · rw [if_neg hff] at hn ⊢
          exact hr hn
      · cases h
        exact absurd rfl hn
    · exact ih h (fun _ => rfl) (fun hff hne => hrest hff hne _) htail
    · exact ih h (fun _ => rfl) (fun hff hne => hrest hff hne _) htail

theorem strsplit_slash (path : Bytes) :
    strsplit (slash :: path) slash = [] :: strsplit path slash := by
  simp [strsplit, List.splitOn, List.splitOnP_cons_eq_if_modifyHead]

theorem strsplit_other (path : Bytes) (h : x ≠ slash) :
    strsplit (x :: path) slash = (strsplit path slash).modifyHead (x :: ·) := by
  simp [strsplit, List.splitOn, List.splitOnP_cons_eq_if_modifyHead, h]

theorem strsplit_ne_nil (path : Bytes) : strsplit path slash ≠ [] :=
  List.splitOn_ne_nil slash path

theorem strsplit_empty (path : Bytes) : strsplit path slash = [[]] ↔ path = [] := by
  constructor
  · intro h
    cases path with
    | nil => rfl
    | cons x path =>
      by_cases hx : x = slash
      · subst hx
        rw [strsplit_slash] at h
        exact absurd (List.cons.inj h).2 (strsplit_ne_nil path)
      · rw [strsplit_other path hx] at h
        obtain ⟨name, rest, hs⟩ := List.exists_cons_of_ne_nil (strsplit_ne_nil path)
        rw [hs] at h
        cases h
  · rintro rfl
    rfl

/-- An absolute path is looked up component by component from inode 2 on. -/
theorem find_absolute (v : Volume) (after path : Bytes) :
    ext2FindFileInode v after (slash :: path) =
      findLoop v after (slash :: path) (strsplit path slash) 0 (v.inode 2) := by
  have hlen : (strsplit path slash).length > 0 := List.length_pos_of_ne_nil (strsplit_ne_nil path)
  unfold ext2FindFileInode
  rw [strsplit_slash, if_pos (by rw [List.length_cons]; omega)]
  rfl

theorem find_record (h : ext2FindFileInode v after ff = some (n, j)) (hn : n ≠ 0) :
    j = v.inode n := by
  by_cases hff : ff = [slash]
  · subst hff
    rw [find_absolute] at h
    exact find_loop_record h (fun hr => absurd rfl hr) (fun _ _ => rfl) (fun _ => rfl) hn
  · unfold ext2FindFileInode at h
    by_cases hlen : (strsplit ff slash).length > 1
    · rw [if_pos hlen] at h
      exact find_loop_record h (fun hr => absurd rfl hr) (fun he => absurd he hff)
        (fun he => absurd he hff) hn
    · rw [if_neg hlen] at h
      cases ff with
      | nil => cases h
      | cons c name =>
        obtain ⟨m, _, hm⟩ := Option.map_eq_some_iff.mp h
        cases hm
        rfl

/-- What a file that was opened refers to. -/
theorem open_found (h : vfsOpen v after path = some (some f)) :
    f = ⟨path, f.inode, 0, 0⟩ ∧ f.inode ≠ 0 ∧
      ext2FindFileInode v after path = some (f.inode, v.inode f.inode) := by
  obtain ⟨⟨n, i⟩, hfind, hf⟩ := Option.map_eq_some_iff.mp h
  simp only at hf
  split at hf
  · cases hf
  · rename_i hn
    cases hf
    exact ⟨rfl, hn, by rw [hfind, find_record hfind hn]⟩

theorem open_finds (hopen : ∀ after, vfsOpen v after path = some (some f)) (after : Bytes) :
    ext2FindFileInode v after f.respath = some (f.inode, v.inode f.inode) := by
  obtain ⟨hf, _, hfound⟩ := open_found (hopen after)
  rw [hf]
  exact hfound

/-- A path opened within its blocks is opened in any memory. -/
theorem open_within (h : vfsOpen v [] path = some (some f)) (after : Bytes) :
    vfsOpen v after path = some (some f) := by
  obtain ⟨x, hfind, hf⟩ := Option.map_eq_some_iff.mp h
  exact Option.map_eq_some_iff.mpr ⟨x, find_file_inode_append after hfind, hf⟩

theorem find_dead_end (ff : Bytes) (hn : n ≠ 0) :
    (∃ i, findLoop v [] ff names n (v.inode n) = some (0, i)) ↔ DeadEnd v n names := by
  induction names generalizing n with
  | nil =>
    constructor
    · rintro ⟨i, h⟩
      cases h
      exact hn rfl
    · exact False.elim
  | cons name rest ih =>
    simp only [findLoop, DeadEnd]
    by_cases hb : (v.inode n).firstBlock = 0
    · rw [search_empty [] name hb]
      refine (ih hn).trans ⟨fun h => ?_, fun h => absurd hb h.1⟩
      cases rest with
      | nil => exact h.elim
      | cons name' rest => exact absurd hb h.1
    · rw [search_first [] name hb, List.append_nil]
      simp only [← read_directory_iff, ne_eq, hb, not_false_eq_true, true_and]
      cases hr : ext2ReadDirectory name (v.block (v.inode n).firstBlock) with
      | none => simp
      | some m =>
        by_cases hm : m = 0
        · subst hm
          by_cases hname : name = []
          · simp only [Option.map_some, ↓reduceIte, hname]
            by_cases hff : ff = [slash]
            · simp [hff]
            · simp [hff, hn]
          · simp [hname]
        · simp only [Option.map_some, hm, ↓reduceIte, Option.some.injEq, and_false, false_or]
          refine (ih hm).trans ⟨fun h => ⟨m, hm, rfl, h⟩, ?_⟩
          rintro ⟨k, _, rfl, h⟩
          exact h

theorem first_filled (hv : WellFormed v) (hd : (v.inode d).isDirectory) :
    Filled (v.block (v.inode d).firstBlock) (entriesOf v (v.inode d).firstBlock) := by
  obtain ⟨bs, hbs⟩ := dbp_cons (v.inode d)
  have hb := hv.first d hd
  have hmem : (v.inode d).firstBlock ∈ (v.inode d).directBlocks := by
    unfold Inode.directBlocks
    rw [hbs, List.takeWhile_cons, if_pos (by simpa using hb)]
    exact List.mem_cons_self
  obtain ⟨es, hes⟩ := Option.isSome_iff_exists.mp (hv.parsed d hd _ hmem)
  unfold entriesOf
  rw [hes]
  exact parse_entries hes

theorem shown_used (h : shown es name = some n) :
    ∃ e ∈ es, e.inode ≠ 0 ∧ e.name = name ∧ e.inode = n := by
  obtain ⟨e, he, rfl⟩ := Option.map_eq_some_iff.mp h
  have hmem := List.mem_of_find?_eq_some he
  have hused := List.mem_takeWhile_imp hmem
  have hname := List.find?_some he
  simp only [decide_eq_true_eq] at hused hname
  exact ⟨e, (List.takeWhile_prefix _).mem hmem, hused, hname, rfl⟩

section Step
variable {v : Volume} {d r : Nat} {name : Bytes} {rest : List Bytes}

theorem find_shown (hv : WellFormed v) (hd : (v.inode d).isDirectory) (ff : Bytes)
    (hs : shown (entriesOf v (v.inode d).firstBlock) name = some n) :
    findLoop v [] ff (name :: rest) r (v.inode d) = findLoop v [] ff rest n (v.inode n) := by
  have hn : n ≠ 0 := by
    obtain ⟨e, _, hused, _, rfl⟩ := shown_used hs
    exact hused
  rw [findLoop, search_first [] name (hv.first d hd), List.append_nil,
    read_directory_iff.mpr ((first_filled hv hd).chain.scan_shown hs)]
  simp only [Option.map_some, hn, ↓reduceIte]

theorem find_hidden (hv : WellFormed v) (hd : (v.inode d).isDirectory) (ff : Bytes)
    (hs : shown (entriesOf v (v.inode d).firstBlock) name = none)
    (hu : ∃ e ∈ entriesOf v (v.inode d).firstBlock, e.inode = 0) :
    findLoop v [] ff (name :: rest) r (v.inode d) =
      if name = [] then some (if ff = [slash] then 2 else r, v.inode d)
      else some (0, v.inode d) := by
  rw [findLoop, search_first [] name (hv.first d hd), List.append_nil,
    read_directory_iff.mpr ((first_filled hv hd).chain.scan_unused hs hu)]
  rfl

theorem find_overruns (hv : WellFormed v) (hd : (v.inode d).isDirectory) (ff : Bytes)
    (hs : shown (entriesOf v (v.inode d).firstBlock) name = none)
    (hu : ¬ ∃ e ∈ entriesOf v (v.inode d).firstBlock, e.inode = 0) :
    findLoop v [] ff (name :: rest) r (v.inode d) = none := by
  have hr : ext2ReadDirectory name (v.block (v.inode d).firstBlock) = none := by
    by_contra hr
    obtain ⟨n, hn⟩ := Option.ne_none_iff_exists'.mp hr
    exact (first_filled hv hd).chain.scan_overruns hs hu (read_directory_iff.mp hn)
  rw [findLoop, search_first [] name (hv.first d hd), List.append_nil, hr]
  rfl

theorem lookup_shown (hv : WellFormed v) (hd : (v.inode d).isDirectory)
    (hs : shown (entriesOf v (v.inode d).firstBlock) name = some n) : lookup v d name = some n := by
  obtain ⟨bs, hbs⟩ := dbp_cons (v.inode d)
  have hfirst : listing v (v.inode d) = entriesOf v (v.inode d).firstBlock ::
      (bs.takeWhile (· ≠ 0)).map (entriesOf v) := by
    unfold listing Inode.directBlocks
    rw [hbs, List.takeWhile_cons, if_pos (by simpa using hv.first d hd), List.map_cons]
  obtain ⟨e, he, rfl⟩ := Option.map_eq_some_iff.mp hs
  unfold lookup inUse
  rw [hfirst, List.flatten_cons, find_filter_append _ he]
  rfl

theorem lookup_nil (hv : WellFormed v) (hd : (v.inode d).isDirectory) : lookup v d [] = none := by
  refine Option.map_eq_none_iff.mpr (List.find?_eq_none.mpr ?_)
  intro e he
  obtain ⟨hmem, hused⟩ := List.mem_filter.mp he
  obtain ⟨es, hes, hin⟩ := List.mem_flatten.mp hmem
  obtain ⟨b, hb, rfl⟩ := List.mem_map.mp hes
  obtain ⟨es, hparse⟩ := Option.isSome_iff_exists.mp (hv.parsed d hd b hb)
  unfold entriesOf at hin
  rw [hparse] at hin
  simpa using (parse_entries hparse).named e hin (by simpa using hused)

theorem shown_ne_nil (hv : WellFormed v) (hd : (v.inode d).isDirectory)
    (hs : shown (entriesOf v (v.inode d).firstBlock) name = some n) : name ≠ [] := by
  obtain ⟨e, he, hused, rfl, _⟩ := shown_used hs
  exact (first_filled hv hd).named e he hused

theorem resolve_shown (hv : WellFormed v) (hd : (v.inode d).isDirectory)
    (hs : shown (entriesOf v (v.inode d).firstBlock) name = some n) :
    resolve v d (name :: rest) = resolve v n rest := by
  simp [resolve, hd, shown_ne_nil hv hd hs, lookup_shown hv hd hs]

theorem resolve_nil (hv : WellFormed v) (hd : (v.inode d).isDirectory) :
    resolve v d ([] :: rest) = if rest = [] then d else 0 := by
  simp [resolve, hd, lookup_nil hv hd]

end Step

/-- From a directory the loop has reached, or from an inode it took for one. -/
theorem find_walkable (hv : WellFormed v) (hff : ff ≠ [slash]) (hd : d ≠ 0) :
    (∃ i, findLoop v [] ff names d (v.inode d) = some (resolve v d names, i)) ↔
      Walkable v false d names := by
  induction names generalizing d with
  | nil => exact ⟨fun _ => trivial, fun _ => ⟨_, rfl⟩⟩
  | cons name rest ih =>
    by_cases hdir : (v.inode d).isDirectory
    · rw [Walkable, if_pos hdir]
      cases hs : shown (entriesOf v (v.inode d).firstBlock) name with
      | some n =>
        obtain ⟨e, _, hused, _, rfl⟩ := shown_used hs
        rw [find_shown hv hdir ff hs, resolve_shown hv hdir hs]
        exact ih hused
      | none =>
        by_cases hu : ∃ e ∈ entriesOf v (v.inode d).firstBlock, e.inode = 0
        · rw [find_hidden hv hdir ff hs hu]
          by_cases hname : name = []
          · subst hname
            by_cases hrest : rest = []
            · simp [resolve_nil hv hdir, hrest, hff, hu]
            · simp [resolve_nil hv hdir, hrest, hff, hd]
          · simp [hname, hu, eq_comm]
        · rw [find_overruns hv hdir ff hs hu]
          simp [hu]
    · have hz : resolve v d (name :: rest) = 0 := by simp [resolve, hdir]
      rw [Walkable, if_neg hdir, hz]
      exact find_dead_end ff hd

/-- From the root, where no number has been looked up yet. -/
theorem find_from_root (hv : WellFormed v) (path : Bytes) :
    (∃ i, findLoop v [] (slash :: path) (strsplit path slash) 0 (v.inode 2) =
      some (resolve v 2 (strsplit path slash), i)) ↔
        Walkable v true 2 (strsplit path slash) := by
  have hroot : slash :: path = [slash] ↔ strsplit path slash = [[]] := by
    rw [strsplit_empty]
    simp
  obtain ⟨name, rest, hsplit⟩ := List.exists_cons_of_ne_nil (strsplit_ne_nil path)
  rw [hsplit] at hroot ⊢
  rw [Walkable, if_pos hv.root]
  cases hs : shown (entriesOf v (v.inode 2).firstBlock) name with
  | some n =>
    obtain ⟨e, _, hused, _, rfl⟩ := shown_used hs
    rw [find_shown hv hv.root _ hs, resolve_shown hv hv.root hs]
    refine find_walkable hv ?_ hused
    intro hff
    exact shown_ne_nil hv hv.root hs (List.cons.inj (hroot.mp hff)).1
  | none =>
    by_cases hu : ∃ e ∈ entriesOf v (v.inode 2).firstBlock, e.inode = 0
    · rw [find_hidden hv hv.root _ hs hu]
      by_cases hname : name = []
      · subst hname
        by_cases hrest : rest = []
        · subst hrest
          simp [resolve_nil hv hv.root, hroot.mpr rfl, hu]
        · have hff : slash :: path ≠ [slash] := fun h => hrest (List.cons.inj (hroot.mp h)).2
          simp [resolve_nil hv hv.root, hff, hrest, hu]
      · simp [hname, hu, eq_comm]
    · rw [find_overruns hv hv.root _ hs hu]
      simp [hu]

/-- On every well-formed volume, a lookup gives the inode the path names, and
its record, in whatever memory it runs, if and only if the path is walkable. -/
theorem find_file_inode_iff (v : Volume) (path : Bytes) (hv : WellFormed v) :
    (∀ after, ∃ i,
      ext2FindFileInode v after (slash :: path) = some (resolve v 2 (strsplit path slash), i) ∧
        (resolve v 2 (strsplit path slash) ≠ 0 →
          i = v.inode (resolve v 2 (strsplit path slash)))) ↔
      Walkable v true 2 (strsplit path slash) := by
  rw [← find_from_root hv path]
  constructor
  · intro h
    obtain ⟨i, hi, _⟩ := h []
    rw [find_absolute] at hi
    exact ⟨i, hi⟩
  · rintro ⟨i, hi⟩ after
    rw [← find_absolute] at hi
    have hafter := find_file_inode_append after hi
    exact ⟨i, hafter, find_record hafter⟩

/-- The bytes of an entry with small numbers. -/
def entryBytes (inode size : Nat) (name : Bytes) : Bytes :=
  [inode.toUInt8, 0, 0, 0, size.toUInt8, (size / 256).toUInt8, name.length.toUInt8, 0] ++ name ++
    List.replicate (size - 8 - name.length) 0

def directs (bs : List Nat) : Vector Nat 12 :=
  ⟨⟨(bs ++ List.replicate 12 0).take 12⟩, by simp⟩

def noInode : Inode := ⟨0, 0, directs [], 0, 0⟩

/-- A volume with the given first blocks and inodes, and nothing else. -/
def volumeOf (known : List Bytes) (inodes : List (Nat × Inode)) : Volume where
  blocksizeHint := 0
  blocks := 64
  block b := (known.getD b [] ++ List.replicate 1024 0).take 1024
  inode n := ((inodes.find? (·.1 = n)).map Prod.snd).getD noInode
  block_length b := by
    rw [List.length_take, List.length_append, List.length_replicate]
    exact Nat.min_eq_left (Nat.le_add_left _ _)

theorem volume_of_well_formed (known : List Bytes) (inodes : List (Nat × Inode))
    (hroot : ((volumeOf known inodes).inode 2).isDirectory)
    (hdirs : ∀ p ∈ inodes, p.2.isDirectory → p.2.firstBlock ≠ 0 ∧
      ∀ b ∈ p.2.directBlocks, (parse ((volumeOf known inodes).block b)).isSome) :
    WellFormed (volumeOf known inodes) := by
  have hmem : ∀ n, ((volumeOf known inodes).inode n).isDirectory →
      ∃ p ∈ inodes, (volumeOf known inodes).inode n = p.2 := by
    intro n hd
    unfold volumeOf at hd ⊢
    simp only at hd ⊢
    cases hf : inodes.find? (·.1 = n) with
    | none =>
      rw [hf] at hd
      cases hd
    | some p => exact ⟨p, List.mem_of_find?_eq_some hf, rfl⟩
  refine ⟨hroot, ?_, ?_⟩
  · intro n hd
    obtain ⟨p, hp, he⟩ := hmem n hd
    rw [he] at hd ⊢
    exact (hdirs p hp hd).1
  · intro n hd
    obtain ⟨p, hp, he⟩ := hmem n hd
    rw [he] at hd ⊢
    exact (hdirs p hp hd).2

/-- The root directory has the file "a" and then an unused entry. -/
def shownVolume : Volume :=
  volumeOf [[], entryBytes 2 12 [46] ++ entryBytes 2 12 [46, 46] ++ entryBytes 11 12 [97] ++
      entryBytes 0 988 []]
    [(2, ⟨0x4000, 1024, directs [1], 0, 0⟩), (11, ⟨0x8000, 0, directs [], 0, 0⟩)]

theorem find_file_inode_shown :
    WellFormed shownVolume ∧ ∀ after, ∃ i,
      ext2FindFileInode shownVolume after [slash, 97] =
          some (resolve shownVolume 2 (strsplit [97] slash), i) ∧
        (resolve shownVolume 2 (strsplit [97] slash) ≠ 0 →
          i = shownVolume.inode (resolve shownVolume 2 (strsplit [97] slash))) := by
  have hv : WellFormed shownVolume := volume_of_well_formed _ _ rfl (by decide +kernel)
  refine ⟨hv, (find_file_inode_iff shownVolume [97] hv).mpr ?_⟩
  have hs : shown (entriesOf shownVolume (shownVolume.inode 2).firstBlock) [97] = some 11 := by
    decide +kernel
  change Walkable shownVolume true 2 [[97]]
  rw [Walkable, if_pos hv.root, hs]
  trivial

/-- The file "a" is in the second block of the root directory. -/
def hiddenVolume : Volume :=
  volumeOf [[], entryBytes 2 12 [46] ++ entryBytes 2 12 [46, 46] ++ entryBytes 0 1000 [],
      entryBytes 11 1024 [97]]
    [(2, ⟨0x4000, 2048, directs [1, 2], 0, 0⟩), (11, ⟨0x8000, 0, directs [], 0, 0⟩)]

theorem find_file_inode_hidden :
    ¬ ∀ v path, WellFormed v → ∀ after, ∃ i,
      ext2FindFileInode v after (slash :: path) = some (resolve v 2 (strsplit path slash), i) ∧
        (resolve v 2 (strsplit path slash) ≠ 0 →
          i = v.inode (resolve v 2 (strsplit path slash))) := by
  intro h
  have hv : WellFormed hiddenVolume := volume_of_well_formed _ _ rfl (by decide +kernel)
  obtain ⟨i, hi, _⟩ := h hiddenVolume [97] hv []
  have hres : resolve hiddenVolume 2 (strsplit [97] slash) = 11 := by decide +kernel
  have hfind : (ext2FindFileInode hiddenVolume [] [slash, 97]).map Prod.fst = some 0 := by
    decide +kernel
  rw [hi, hres] at hfind
  cases hfind

end Levos.Proofs.Lookup
