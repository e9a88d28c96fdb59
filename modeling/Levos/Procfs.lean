import Levos.Errno
import Levos.Library.Writes
import Levos.Memcpy
import Levos.Vfs

namespace Levos
open Library

/-- `struct procfile`; `fops` is the address of the operations. -/
structure Procfile where
  name : CString
  fops : Nat
deriving DecidableEq

/-- The globals of procfs. `fileList` are the cells from `file_list` on, `none` a
cell that holds no `struct procfile`; `allocated` is how many entries its block
has. `accessed` is history: the index of each access to `file_list`, with the
number of entries allocated at that time. -/
structure Procfs where
  files : Nat
  fileList : Nat → Option Procfile
  allocated : Nat
  accessed : List (Nat × Nat)
  dummyBuffer : Nat → UInt8
  dummyLen : UInt32

namespace Procfs

def access (p : Procfs) (i : Nat) : Procfs :=
  { p with accessed := p.accessed ++ [(i, p.allocated)] }

/-- The globals before any file is created, for whatever block `file_list` is. -/
def start (allocated : Nat) (cells : Nat → Option Procfile) (dummyBuffer : Nat → UInt8) : Procfs :=
  { files := 0, fileList := cells, allocated, accessed := [], dummyBuffer, dummyLen := 1024 }

end Procfs

/-- The arguments of one `procfs_create_file`, and the memory its `realloc` gets. -/
structure Creation where
  path : CString
  fops : Nat
  fresh : Nat → Option Procfile

def procfsCreateFile (p : Procfs) (c : Creation) : Procfs :=
  { p with
    files := p.files + 1
    fileList := Function.update (realloc p.fileList p.allocated c.fresh) (p.files + 1)
      (some ⟨c.path, c.fops⟩)
    allocated := p.files + 1
    accessed := p.accessed ++ [(p.files + 1, p.files + 1)] }

def created (p : Procfs) (cs : List Creation) : Procfs := cs.foldl procfsCreateFile p

def devconfPath : CString := ⟨[47, 100, 101, 118, 99, 111, 110, 102], by decide⟩

/-- `procfs_findinode`: its result and what it stores through `out`. -/
def procfsFindinode (fn : CString) : Int × Nat :=
  if strcmp fn devconfPath = 0 then (0, 100)
  else if strcmp fn rootPath = 0 then (0, 99)
  else (enoent, 0)

def procfsIsdir (f : File) : Bool := f.inode == 99

/-- `procfs_readdir`: the entry it returns, of whose `d_name` only what is stored
is given, and the file. `vfs_open` has set `isdir` from `procfs_isdir`. `none` is a
cell that holds no file, or a name that does not fit into `d_name`. -/
def procfsReaddir (p : Procfs) (f : File) : Option (Option Dirent × File × Procfs) :=
  if procfsIsdir f then match f.dpos with
    | 0 => some (some ⟨99, [46, 0]⟩, { f with dpos := 1 }, p)
    | 1 => some (some ⟨99, [46, 46, 0]⟩, { f with dpos := 2 }, p)
    | dpos + 2 =>
      if dpos + 2 ≥ p.files then some (none, f, p)
      else match p.fileList dpos with
        | none => none
        | some pf =>
          if dNameSize < pf.name.bytes.length + 1 then none
          else some (some ⟨(101 + (dpos + 2)) % 2 ^ 16, pf.name.bytes ++ [0]⟩, f, p.access dpos)
  else some (none, f, p)

/-- Successive `procfs_readdir` calls on one handle: what they return. -/
def readdirs : Nat → Procfs → File → Option (List (Option Dirent) × Procfs)
  | 0, p, _ => some ([], p)
  | n + 1, p, f => match procfsReaddir p f with
    | none => none
    | some (d, f', p') => (readdirs n p' f').map (fun r => (d :: r.1, r.2))

/-- How a read or a write of procfs ends: with a count, the bytes stored in the
caller's buffer and the file, or in the operations of a created file. -/
inductive Served
  | done (count : UInt32) (stored : Bytes) (f : File)
  | dispatched (fops : Nat)
deriving DecidableEq

/-- The entry of `file_list` an inode number is taken for. Operations read from a
cell that holds no file lead anywhere, which is `none`. -/
def dispatch (p : Procfs) (f : File) : Option (Served × Procfs) :=
  if f.inode < 103 then some (.done 0 [] f, p)
  else (p.fileList (f.inode - 103)).map fun pf =>
    (.dispatched pf.fops, p.access (f.inode - 103))

/-- `procfs_writefile`; `fresh` is the memory a `realloc` gets. -/
def procfsWritefile (p : Procfs) (fl : File) (buf : Bytes) (fresh : Nat → UInt8) :
    Option (Served × Procfs) :=
  if fl.inode = 100 then
    if UInt32.ofNat buf.length > p.dummyLen then some (.done (UInt32.ofNat buf.length) [] fl,
      { p with
        dummyBuffer := blit (realloc p.dummyBuffer p.dummyLen.toNat fresh) 0 buf
        dummyLen := UInt32.ofNat buf.length })
    else some (.done (UInt32.ofNat buf.length) [] fl,
      { p with dummyBuffer := blit p.dummyBuffer 0 buf })
  else dispatch p fl

/-- `procfs_read`. The last case returns the rest as it is after `lpos` has been
moved to the end. -/
def procfsRead (p : Procfs) (f : File) (len : UInt32) : Option (Served × Procfs) :=
  if f.inode = 100 then
    if f.lpos ≥ p.dummyLen then some (.done 0 [] f, p)
    else if p.dummyLen > f.lpos + len then some
      (.done len (slice p.dummyBuffer f.lpos.toNat len.toNat)
        { f with lpos := f.lpos + p.dummyLen }, p)
    else some
      (.done (p.dummyLen - p.dummyLen)
        (slice p.dummyBuffer f.lpos.toNat (p.dummyLen - f.lpos).toNat)
        { f with lpos := p.dummyLen }, p)
  else dispatch p f

/-- `devconf_write`, with its `uint8_t` result. -/
def devconfWrite (p : Procfs) (_f : File) (buf : Bytes) (fresh : Nat → UInt8) : UInt8 × Procfs :=
  if UInt32.ofNat buf.length > p.dummyLen then ((UInt32.ofNat buf.length).toUInt8,
    { p with
      dummyBuffer := blit (realloc p.dummyBuffer p.dummyLen.toNat fresh) 0 buf
      dummyLen := UInt32.ofNat buf.length })
  else ((UInt32.ofNat buf.length).toUInt8, { p with dummyBuffer := blit p.dummyBuffer 0 buf })

/-- `devconf_read`: its `uint8_t` result, the bytes stored in the caller's buffer
and the file. -/
def devconfRead (p : Procfs) (f : File) (len : UInt32) : UInt8 × Bytes × File :=
  if f.lpos ≥ p.dummyLen then (0, [], f)
  else if p.dummyLen > f.lpos + len then
    (len.toUInt8, slice p.dummyBuffer f.lpos.toNat len.toNat,
      { f with lpos := f.lpos + p.dummyLen })
  else ((p.dummyLen - p.dummyLen).toUInt8,
    slice p.dummyBuffer f.lpos.toNat (p.dummyLen - f.lpos).toNat, { f with lpos := p.dummyLen })

/-- `procfs_writefile` with its call of `pf->fops->write`; `fops` is the block that
`procfs_mount` fills with `devconf_write` and `devconf_read`. Other operations are `none`. -/
def writefileThrough (fops : Nat) (p : Procfs) (fl : File) (buf : Bytes) (fresh : Nat → UInt8) :
    Option (Served × Procfs) :=
  match procfsWritefile p fl buf fresh with
  | some (.dispatched ops, q) =>
    if ops = fops then
      let r := devconfWrite q fl buf fresh
      some (.done r.1.toUInt32 [] fl, r.2)
    else none
  | r => r

/-- `procfs_read` with its call of `pf->fops->read`. -/
def readThrough (fops : Nat) (p : Procfs) (f : File) (len : UInt32) : Option (Served × Procfs) :=
  match procfsRead p f len with
  | some (.dispatched ops, q) =>
    if ops = fops then
      let r := devconfRead q f len
      some (.done r.1.toUInt32 r.2.1 r.2.2, q)
    else none
  | r => r

/-- Handles that `vfs_open` has just made. -/
def rootHandle : File := ⟨rootPath.bytes, 99, 0, 0⟩
def devconfHandle : File := ⟨devconfPath.bytes, 100, 0, 0⟩

/-- procfs after some texts have been written to its devconf file. -/
def written (p : Procfs) : List (Bytes × (Nat → UInt8)) → Option Procfs
  | [] => some p
  | (text, fresh) :: rest => match procfsWritefile p devconfHandle text fresh with
    | some (_, q) => written q rest
    | none => none

/-- Successive reads of the devconf file: the handle after `k` of them, and the
count and the bytes each has put into the caller's buffer. -/
def readDevconf (p : Procfs) (lens : Nat → UInt32) : Nat → Option (File × List (UInt32 × Bytes))
  | 0 => some (devconfHandle, [])
  | k + 1 => match readDevconf p lens k with
    | none => none
    | some (f, rs) => match procfsRead p f (lens k) with
      | some (.done count stored f', _) => some (f', rs ++ [(count, stored)])
      | _ => none

end Levos
