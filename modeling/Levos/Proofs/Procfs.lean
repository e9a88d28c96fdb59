import Levos.Procfs
import Levos.Proofs.Mounts

namespace Levos.Proofs.Procfs
open Library

variable {p q : Procfs} {f f' : File} {cs : List Creation}

/-- The names a listing of the root ought to give. -/
def shownNames (cs : List Creation) : List (Option Bytes) :=
  [some [46], some [46, 46]] ++ cs.map (fun c => some c.path.bytes) ++ [none]

def entryName (d : Dirent) : Bytes := cstr d.dName

/-- One call for every name and one for the end give just these. -/
def NamesListed (p : Procfs) (cs : List Creation) : Prop :=
  ∃ es q, readdirs (cs.length + 3) (created p cs) rootHandle = some (es, q) ∧
    es.map (Option.map entryName) = shownNames cs

/-- No access to `file_list` is past its entries, however long the listing. -/
def AccessesInside (p : Procfs) (cs : List Creation) : Prop :=
  ∀ n es q, readdirs n (created p cs) rootHandle = some (es, q) → ∀ a ∈ q.accessed, a.1 < a.2

theorem created_files (p : Procfs) (cs : List Creation) :
    (created p cs).files = p.files + cs.length := by
  induction cs generalizing p with
  | nil => rfl
  | cons c cs ih =>
    have hone := ih (procfsCreateFile p c)
    simp only [created, List.foldl_cons, List.length_cons, procfsCreateFile] at hone ⊢
    omega

/-- The last file created is stored past the end of the list. -/
theorem created_accessed (p : Procfs) (cs : List Creation) (c : Creation) :
    ((created p (cs ++ [c])).files, (created p (cs ++ [c])).files) ∈
      (created p (cs ++ [c])).accessed := by
  simp [created, procfsCreateFile]

theorem readdirs_succ (h : readdirs (n + 1) p f = some (es, q)) :
    ∃ d f' p' rest, procfsReaddir p f = some (d, f', p') ∧ readdirs n p' f' = some (rest, q) ∧
      es = d :: rest := by
  unfold readdirs at h
  split at h
  · cases h
  · rename_i d f' p' hcall
    obtain ⟨⟨rest, q'⟩, hrest, he⟩ := Option.map_eq_some_iff.mp h
    cases he
    exact ⟨d, f', p', rest, hcall, hrest, rfl⟩

/-- Without files a listing looks at no entry. -/
theorem readdir_empty (hp : p.files = 0) (h : procfsReaddir p f = some (d, f', q)) : q = p := by
  unfold procfsReaddir at h
  split at h
  · split at h
    · cases h
      rfl
    · cases h
      rfl
    · rw [if_pos (by omega)] at h
      cases h
      rfl
  · cases h
    rfl

theorem readdirs_empty (hp : p.files = 0) (h : readdirs n p f = some (es, q)) : q = p := by
  induction n generalizing f es with
  | zero =>
    cases h
    rfl
  | succ n ih =>
    obtain ⟨d, f', p', rest, hcall, hrest, rfl⟩ := readdirs_succ h
    cases readdir_empty hp hcall
    exact ih hrest

/-- With three files or more the call after `..` returns the first cell and leaves
the cursor where it is. -/
theorem readdir_stuck (hp : 2 < p.files) (hi : f.inode = 99) (hd : f.dpos = 2)
    (h : procfsReaddir p f = some (d, f', q)) : d ≠ none ∧ f' = f ∧ q.files = p.files := by
  have hdir : procfsIsdir f = true := by simp [procfsIsdir, hi]
  simp only [procfsReaddir, hdir, if_true, hd, ge_iff_le] at h
  rw [if_neg (by omega)] at h
  split at h
  · cases h
  · split at h
    · cases h
    · cases h
      exact ⟨Option.some_ne_none _, rfl, rfl⟩

theorem readdirs_stuck (hp : 2 < p.files) (hi : f.inode = 99) (hd : f.dpos = 2)
    (h : readdirs n p f = some (es, q)) : none ∉ es := by
  induction n generalizing p es with
  | zero =>
    cases h
    exact List.not_mem_nil
  | succ n ih =>
    obtain ⟨d, f', p', rest, hcall, hrest, rfl⟩ := readdirs_succ h
    obtain ⟨hsome, rfl, hfiles⟩ := readdir_stuck hp hi hd hcall
    rw [List.mem_cons, not_or]
    exact ⟨hsome.symm, ih (hfiles ▸ hp) hrest⟩

/-- The first two entries of a listing; the rest starts with the cursor behind them. -/
theorem readdirs_dots (h : readdirs (n + 2) p rootHandle = some (es, q)) :
    ∃ rest, readdirs n p { rootHandle with dpos := 2 } = some (rest, q) ∧
      es = some ⟨99, [46, 0]⟩ :: some ⟨99, [46, 46, 0]⟩ :: rest := by
  obtain ⟨d, f', p', dots, hdot, hdots, rfl⟩ := readdirs_succ h
  cases hdot
  obtain ⟨d, f', p', rest, hdotdot, hrest, rfl⟩ := readdirs_succ hdots
  cases hdotdot
  exact ⟨rest, hrest, rfl⟩

/-- Up to two files none is shown, and with more the listing never ends. -/
theorem names_listed_nil (hp : p.files = 0) (h : NamesListed p cs) : cs = [] := by
  obtain ⟨es, q, hr, hnames⟩ := h
  obtain ⟨rest, hrest, rfl⟩ := readdirs_dots (n := cs.length + 1) hr
  have hshown : rest.map (Option.map entryName) =
      cs.map (fun c => some c.path.bytes) ++ [none] := by
    simp only [shownNames, List.map_cons, List.cons_append, List.nil_append,
      List.cons.injEq] at hnames
    exact hnames.2.2
  have hfiles := created_files p cs
  rw [hp, Nat.zero_add] at hfiles
  by_cases hmany : 2 < (created p cs).files
  · -- the last of the names is the end, which no call returns
    have hend : none ∈ rest.map (Option.map entryName) := by
      rw [hshown]
      exact List.mem_append_right _ (List.mem_singleton.mpr rfl)
    obtain ⟨e, he, hnone⟩ := List.mem_map.mp hend
    rw [Option.map_eq_none_iff.mp hnone] at he
    exact absurd he (readdirs_stuck hmany rfl rfl hrest)
  · have hlast : procfsReaddir (created p cs) { rootHandle with dpos := 2 } =
        some (none, { rootHandle with dpos := 2 }, created p cs) := by
      simp only [procfsReaddir, rootHandle, procfsIsdir, beq_self_eq_true, if_true]
      rw [if_pos (by omega)]
    obtain ⟨d, f', p', more, hcall, -, rfl⟩ := readdirs_succ hrest
    cases hlast.symm.trans hcall
    cases cs with
    | nil => rfl
    | cons c cs => simp at hshown

section Start

variable (allocated : Nat) (cells : Nat → Option Procfile) (buffer : Nat → UInt8)

theorem accesses_inside_iff (cs : List Creation) :
    AccessesInside (.start allocated cells buffer) cs ↔ cs = [] := by
  constructor
  · intro h
    rcases List.eq_nil_or_concat' cs with rfl | ⟨rest, c, rfl⟩
    · rfl
    · have hlast := h 0 [] _ rfl _ (created_accessed _ rest c)
      exact absurd hlast (Nat.lt_irrefl _)
  · rintro rfl n es q hr a ha
    rw [readdirs_empty rfl hr] at ha
    cases ha

theorem names_listed_iff (cs : List Creation) :
    NamesListed (.start allocated cells buffer) cs ↔ cs = [] := by
  constructor
  · exact names_listed_nil rfl
  · rintro rfl
    exact ⟨[some ⟨99, [46, 0]⟩, some ⟨99, [46, 46, 0]⟩, none], _, rfl, by decide⟩

theorem root_listing_iff (cs : List Creation) :
    NamesListed (.start allocated cells buffer) cs ∧
        AccessesInside (.start allocated cells buffer) cs ↔ cs = [] := by
  rw [names_listed_iff, accesses_inside_iff, and_self]

end Start

/-- The kernel's own file, `/test`, as `procfs_mount` creates it. -/
def testPath : CString := ⟨[47, 116, 101, 115, 116], by decide⟩

def testFile : Creation := ⟨testPath, 0xC0401000, fun _ => none⟩

theorem test_file_not_listed :
    ¬ (NamesListed (.start 1 (fun _ => none) (fun _ => 0)) [testFile] ∧
      AccessesInside (.start 1 (fun _ => none) (fun _ => 0)) [testFile]) := by
  rintro ⟨hnames, -⟩
  cases names_listed_nil rfl hnames

/-- Reads and writes of an inode number go to these operations. -/
def Dispatches (p : Procfs) (inode fops : Nat) : Prop :=
  ∀ f : File, f.inode = inode →
    (∀ len, ∃ q, procfsRead p f len = some (.dispatched fops, q)) ∧
    ∀ buf fresh, ∃ q, procfsWritefile p f buf fresh = some (.dispatched fops, q)

/-- Reads and writes of an inode number return 0 and touch nothing. -/
def Refused (p : Procfs) (inode : Nat) : Prop :=
  ∀ f : File, f.inode = inode →
    (∀ len, procfsRead p f len = some (.done 0 [] f, p)) ∧
    ∀ buf fresh, procfsWritefile p f buf fresh = some (.done 0 [] f, p)

/-- `procfs_readdir` on the root shows a name under an inode number. -/
def ShownAs (p : Procfs) (name : CString) (inode : Nat) : Prop :=
  ∃ f d f' q, f.inode = 99 ∧ procfsReaddir p f = some (some d, f', q) ∧
    entryName d = name.bytes ∧ d.dIno = inode

/-- The four functions agree on the inode number of every file that was created,
and every other number is refused. -/
def Registered (p : Procfs) (cs : List Creation) : Prop :=
  ∃ ino : Nat → Nat,
    (∀ i c, cs[i]? = some c → procfsFindinode c.path = (0, ino i) ∧
      ShownAs (created p cs) c.path (ino i) ∧ Dispatches (created p cs) (ino i) c.fops) ∧
    ∀ inode < 2 ^ 32, (∀ i < cs.length, inode ≠ ino i) → Refused (created p cs) inode

/-- Only the two built-in names are found, and neither leads to a created file. -/
theorem findinode_below (h : procfsFindinode fn = (0, inode)) : inode = 100 ∨ inode = 99 := by
  unfold procfsFindinode at h
  split at h
  · exact .inl (Prod.mk.inj h).2.symm
  · split at h
    · exact .inr (Prod.mk.inj h).2.symm
    · simp [enoent] at h

theorem dispatches_above (h : Dispatches p inode fops) : 103 ≤ inode := by
  by_contra hlow
  obtain ⟨hread, -⟩ := h ⟨[], inode, p.dummyLen, 0⟩ rfl
  obtain ⟨q, hq⟩ := hread 0
  unfold procfsRead at hq
  split at hq
  · rw [if_pos (UInt32.le_refl _)] at hq
    cases hq
  · rw [dispatch, if_pos (Nat.lt_of_not_le hlow)] at hq
    cases hq

/-- Numbers from 103 on are looked up in `file_list` without a bound. -/
theorem refused_below (h : Refused p inode) : inode < 103 := by
  by_contra hhigh
  have hread := (h ⟨[], inode, 0, 0⟩ rfl).1 0
  simp only [procfsRead, dispatch] at hread
  rw [if_neg (by omega), if_neg (by omega)] at hread
  obtain ⟨pf, -, he⟩ := Option.map_eq_some_iff.mp hread
  cases he

theorem never_registered (p : Procfs) (cs : List Creation) : ¬ Registered p cs := by
  rintro ⟨ino, hfiles, hothers⟩
  cases cs with
  | nil =>
    have hbelow := refused_below
      (hothers 103 (by decide) (fun i hi => absurd hi (Nat.not_lt_zero i)))
    exact absurd hbelow (Nat.lt_irrefl _)
  | cons c cs =>
    obtain ⟨hfind, -, hdispatch⟩ := hfiles 0 c rfl
    have habove := dispatches_above hdispatch
    rcases findinode_below hfind with hino | hino <;> omega

theorem created_files_never_agree (allocated : Nat) (cells : Nat → Option Procfile)
    (buffer : Nat → UInt8) (cs : List Creation) :
    ¬ Registered (.start allocated cells buffer) cs :=
  never_registered _ cs

theorem test_file_not_registered :
    ¬ Registered (.start 1 (fun _ => none) (fun _ => 0)) [testFile] :=
  never_registered _ _

/-- The bytes some reads have returned. -/
def returnedBytes (rs : List (UInt32 × Bytes)) : Bytes :=
  (rs.map (fun r => r.2.take r.1.toNat)).flatten

/-- Reads from a new handle return the text, then 0, and move `lpos` by what each
of them returns. -/
def ReadsBack (p : Procfs) (text : Bytes) (lens : Nat → UInt32) : Prop :=
  (∃ k f rs stored f' q, readDevconf p lens k = some (f, rs) ∧ returnedBytes rs = text ∧
    procfsRead p f (lens k) = some (.done 0 stored f', q)) ∧
  ∀ k f rs count stored f' q, readDevconf p lens k = some (f, rs) →
    procfsRead p f (lens k) = some (.done count stored f', q) → f'.lpos = f.lpos + count

theorem write_devconf (p : Procfs) (text : Bytes) (fresh : Nat → UInt8) :
    ∃ r q, procfsWritefile p devconfHandle text fresh = some (r, q) ∧
      p.dummyLen ≤ q.dummyLen := by
  unfold procfsWritefile
  rw [if_pos (show devconfHandle.inode = 100 from rfl)]
  split
  case isTrue hlong => exact ⟨_, _, rfl, UInt32.le_of_lt hlong⟩
  case isFalse => exact ⟨_, _, rfl, UInt32.le_refl _⟩

/-- Writes always succeed, and `dummy_len` never shrinks. -/
theorem written_some (p : Procfs) (texts : List (Bytes × (Nat → UInt8))) :
    ∃ q, written p texts = some q ∧ p.dummyLen ≤ q.dummyLen := by
  induction texts generalizing p with
  | nil => exact ⟨p, rfl, UInt32.le_refl _⟩
  | cons t texts ih =>
    obtain ⟨r, q, hone, hle⟩ := write_devconf p t.1 t.2
    obtain ⟨q', hrest, hle'⟩ := ih q
    refine ⟨q', ?_, UInt32.le_trans hle hle'⟩
    rw [written, hone]
    exact hrest

/-- The first read moves `lpos` to the end, but does not return as much. -/
theorem first_read (hp : 0 < p.dummyLen) (len : UInt32) :
    ∃ count stored, count ≠ p.dummyLen ∧
      procfsRead p devconfHandle len =
        some (.done count stored { devconfHandle with lpos := p.dummyLen }, p) := by
  have hinode : devconfHandle.inode = 100 := rfl
  have hlpos : devconfHandle.lpos = 0 := rfl
  have hstart : ¬ (0 : UInt32) ≥ p.dummyLen := UInt32.not_le.mpr hp
  by_cases hlen : p.dummyLen > len
  · refine ⟨len, slice p.dummyBuffer 0 len.toNat, UInt32.ne_of_lt hlen, ?_⟩
    simp only [procfsRead, hinode, hlpos, hstart, hlen, UInt32.zero_add, if_true, if_false]
    rfl
  · refine ⟨0, slice p.dummyBuffer 0 p.dummyLen.toNat, UInt32.ne_of_lt hp, ?_⟩
    simp only [procfsRead, hinode, hlpos, hstart, hlen, UInt32.zero_add, if_true, if_false,
      UInt32.sub_self, UInt32.sub_zero]
    rfl

theorem never_reads_back (p : Procfs) (hp : 0 < p.dummyLen)
    (texts : List (Bytes × (Nat → UInt8))) (text : Bytes) (lens : Nat → UInt32) :
    ∃ q, written p texts = some q ∧ ¬ ReadsBack q text lens := by
  obtain ⟨q, hq, hle⟩ := written_some p texts
  refine ⟨q, hq, ?_⟩
  rintro ⟨-, hmoves⟩
  obtain ⟨count, stored, hcount, hread⟩ := first_read (UInt32.lt_of_lt_of_le hp hle) (lens 0)
  have hlpos := hmoves 0 devconfHandle [] count stored _ q rfl hread
  exact hcount ((UInt32.zero_add count).symm.trans hlpos.symm)

theorem devconf_never_reads_back (allocated : Nat) (cells : Nat → Option Procfile)
    (buffer : Nat → UInt8) (before : List (Bytes × (Nat → UInt8))) (text : Bytes)
    (fresh : Nat → UInt8) (lens : Nat → UInt32) :
    ∃ q, written (.start allocated cells buffer) (before ++ [(text, fresh)]) = some q ∧
      ¬ ReadsBack q text lens :=
  never_reads_back _ (show (0 : UInt32) < 1024 by decide) _ text lens

theorem hello_not_read_back :
    ∃ q, written (.start 1 (fun _ => none) (fun _ => 0)) [([104, 101, 108, 108, 111], fun _ => 0)] =
        some q ∧ ¬ ReadsBack q [104, 101, 108, 108, 111] (fun _ => 5) :=
  never_reads_back _ (by decide) _ _ _

/-- What a read or a write has returned and changed, the file's own number apart. -/
structure Effect where
  count : UInt32
  stored : Bytes
  lpos : UInt32
  dummyBuffer : Nat → UInt8
  dummyLen : UInt32

def effect : Option (Served × Procfs) → Option Effect
  | some (.done count stored f, q) => some ⟨count, stored, f.lpos, q.dummyBuffer, q.dummyLen⟩
  | _ => none

/-- A write of the `len` bytes from `buf` on does the same through the operations as in
the built-in branch. -/
def WritesAgree (fops : Nat) (p : Procfs) (f : File) (buf : Nat → UInt8) (len : UInt32)
    (fresh : Nat → UInt8) : Prop :=
  effect (writefileThrough fops p f (slice buf 0 len.toNat) fresh) =
    effect (procfsWritefile p { f with inode := 100 } (slice buf 0 len.toNat) fresh)

def ReadsAgree (fops : Nat) (p : Procfs) (f : File) (len : UInt32) : Prop :=
  effect (readThrough fops p f len) = effect (procfsRead p { f with inode := 100 } len)

/-- A count survives the `uint8_t` result exactly when it fits into one byte. -/
theorem byte_count (len : UInt32) : len.toUInt8.toUInt32 = len ↔ len < 256 := by
  rw [← UInt32.toNat_inj, UInt32.lt_iff_toNat_lt, UInt8.toNat_toUInt32, UInt32.toNat_toUInt8]
  have : (256 : UInt32).toNat = 256 := rfl
  omega

variable {name : CString} {fops : Nat}

theorem write_through (hf : 103 ≤ f.inode)
    (hcell : p.fileList (f.inode - 103) = some ⟨name, fops⟩) (buf : Bytes) (fresh : Nat → UInt8) :
    writefileThrough fops p f buf fresh =
      some (.done (devconfWrite (p.access (f.inode - 103)) f buf fresh).1.toUInt32 [] f,
        (devconfWrite (p.access (f.inode - 103)) f buf fresh).2) := by
  have hcall : procfsWritefile p f buf fresh =
      some (.dispatched fops, p.access (f.inode - 103)) := by
    rw [procfsWritefile, if_neg (by omega), dispatch, if_neg (by omega), hcell]
    rfl
  simp only [writefileThrough, hcall, if_true]

theorem read_through (hf : 103 ≤ f.inode)
    (hcell : p.fileList (f.inode - 103) = some ⟨name, fops⟩) (len : UInt32) :
    readThrough fops p f len =
      some (.done (devconfRead (p.access (f.inode - 103)) f len).1.toUInt32
        (devconfRead (p.access (f.inode - 103)) f len).2.1
        (devconfRead (p.access (f.inode - 103)) f len).2.2, p.access (f.inode - 103)) := by
  have hcall : procfsRead p f len = some (.dispatched fops, p.access (f.inode - 103)) := by
    rw [procfsRead, if_neg (by omega), dispatch, if_neg (by omega), hcell]
    rfl
  simp only [readThrough, hcall, if_true]

theorem devconf_writes_iff (hf : 103 ≤ f.inode)
    (hcell : p.fileList (f.inode - 103) = some ⟨name, fops⟩) (buf : Nat → UInt8) (len : UInt32)
    (fresh : Nat → UInt8) : WritesAgree fops p f buf len fresh ↔ len < 256 := by
  have hlen : UInt32.ofNat (slice buf 0 len.toNat).length = len := by
    rw [slice_length, UInt32.ofNat_toNat]
  rw [WritesAgree, write_through hf hcell, ← byte_count]
  simp only [devconfWrite, procfsWritefile, hlen, Procfs.access, if_true]
  split <;> simp [effect]

theorem devconf_reads_iff (hf : 103 ≤ f.inode)
    (hcell : p.fileList (f.inode - 103) = some ⟨name, fops⟩) (len : UInt32) :
    ReadsAgree fops p f len ↔ p.dummyLen ≤ f.lpos ∨ p.dummyLen ≤ f.lpos + len ∨ len < 256 := by
  rw [ReadsAgree, read_through hf hcell, ← byte_count]
  simp only [devconfRead, procfsRead, Procfs.access, if_true]
  by_cases hend : p.dummyLen ≤ f.lpos
  · simp [effect, hend]
  · by_cases hmore : p.dummyLen ≤ f.lpos + len
    · have hrest : ¬ f.lpos + len < p.dummyLen := UInt32.not_lt.mpr hmore
      simp [effect, hend, hmore, hrest]
    · have hrest : f.lpos + len < p.dummyLen := UInt32.not_le.mp hmore
      simp [effect, hend, hmore, hrest]

/-- The operations agree with the built-in branches up to the counts that do not fit into
their `uint8_t` results. -/
theorem devconf_agrees_iff (fops : Nat) (name : CString) (p : Procfs) (f : File)
    (hf : 103 ≤ f.inode) (hcell : p.fileList (f.inode - 103) = some ⟨name, fops⟩)
    (buf : Nat → UInt8) (len : UInt32) (fresh : Nat → UInt8) :
    (WritesAgree fops p f buf len fresh ↔ len < 256) ∧
      (ReadsAgree fops p f len ↔
        p.dummyLen ≤ f.lpos ∨ p.dummyLen ≤ f.lpos + len ∨ len < 256) :=
  ⟨devconf_writes_iff hf hcell buf len fresh, devconf_reads_iff hf hcell len⟩

/-- procfs with the file of `procfs_mount` in the first cell. -/
def mounted : Procfs := .start 1 (fun _ => some ⟨testPath, 0xC0401000⟩) (fun _ => 0)

theorem devconf_agrees_five :
    WritesAgree 0xC0401000 mounted ⟨[], 103, 0, 0⟩ (fun _ => 65) 5 (fun _ => 0) ∧
      ReadsAgree 0xC0401000 mounted ⟨[], 103, 0, 0⟩ 5 := by
  obtain ⟨hwrite, hread⟩ := devconf_agrees_iff 0xC0401000 testPath mounted ⟨[], 103, 0, 0⟩
    (by decide) rfl (fun _ => 65) 5 (fun _ => 0)
  exact ⟨hwrite.mpr (by decide), hread.mpr (.inr (.inr (by decide)))⟩

/-- A write of 256 bytes is answered with 0. -/
theorem long_write_disagrees :
    ¬ WritesAgree 0xC0401000 mounted ⟨[], 103, 0, 0⟩ (fun _ => 65) 256 (fun _ => 0) := by
  have hcell : mounted.fileList 0 = some ⟨testPath, 0xC0401000⟩ := rfl
  rw [devconf_writes_iff (by decide) hcell]
  decide

end Levos.Proofs.Procfs
