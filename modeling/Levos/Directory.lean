import Levos.Ext2

namespace Levos

/-- A directory entry as the disk format has it. An entry whose inode number
is zero is unused. -/
structure DirEntry where
  inode : Nat
  size : Nat
  name : Bytes
deriving DecidableEq, Repr

/-- The entry at the start of some memory, whatever it holds. -/
def entryAt (mem : Bytes) : Option DirEntry :=
  match le mem 0 4, le mem 4 2, mem[6]? with
  | some inode, some size, some namelength =>
    if mem.length < 8 + namelength.toNat then none
    else some ⟨inode, size, (mem.drop 8).take namelength.toNat⟩
  | _, _, _ => none

/-- An entry holds its header and its name, stays within the block and has a
name a path component can be; only an unused entry may have none. -/
structure DirEntry.Legal (e : DirEntry) (room : Nat) : Prop where
  holds : 8 + e.name.length ≤ e.size
  within : e.size ≤ room
  terminator : 0 ∉ e.name
  separator : slash ∉ e.name
  named : e.inode ≠ 0 → e.name ≠ []

instance (e : DirEntry) (room : Nat) : Decidable (e.Legal room) :=
  decidable_of_iff (8 + e.name.length ≤ e.size ∧ e.size ≤ room ∧ 0 ∉ e.name ∧
      slash ∉ e.name ∧ (e.inode ≠ 0 → e.name ≠ []))
    ⟨fun ⟨a, b, c, d, e⟩ => ⟨a, b, c, d, e⟩, fun ⟨a, b, c, d, e⟩ => ⟨a, b, c, d, e⟩⟩

def parseLoop : Nat → Bytes → Option (List DirEntry)
  | _, [] => some []
  | 0, _ :: _ => none
  | fuel + 1, x :: mem => match entryAt (x :: mem) with
    | none => none
    | some e =>
      if e.Legal (x :: mem).length then
        (parseLoop fuel ((x :: mem).drop e.size)).map (e :: ·)
      else none

/-- The entries of a block they fill without a gap. -/
def parse (mem : Bytes) : Option (List DirEntry) := parseLoop mem.length mem

/-- The entry a chain goes on with: an entry in use holds its header and its name,
which is a C string; of an unused one only the record length counts. -/
def chainEntry (mem : Bytes) : Option DirEntry :=
  match le mem 0 4, le mem 4 2 with
  | some 0, some size =>
    if 8 ≤ size ∧ size ≤ mem.length then some ⟨0, size, []⟩ else none
  | some _, some _ => match entryAt mem with
    | none => none
    | some e =>
      if 8 + e.name.length ≤ e.size ∧ e.size ≤ mem.length ∧ 0 ∉ e.name then some e else none
  | _, _ => none

def chainLoop : Nat → Bytes → Option (List DirEntry)
  | _, [] => some []
  | 0, _ :: _ => none
  | fuel + 1, x :: mem => match chainEntry (x :: mem) with
    | none => none
    | some e => (chainLoop fuel ((x :: mem).drop e.size)).map (e :: ·)

/-- The entries of a block whose record lengths lead from its start to its end. -/
def chain (block : Bytes) : Option (List DirEntry) := chainLoop block.length block

/-- What a lookup in the block ought to find: the first entry in use with the name. -/
def lookupChain (es : List DirEntry) (name : Bytes) : Nat :=
  (((es.filter (·.inode ≠ 0)).find? (·.name = name)).map DirEntry.inode).getD 0

def Inode.isDirectory (i : Inode) : Bool := i.type &&& 0xF000 = inodeTypeDirectory

def Inode.firstBlock (i : Inode) : Nat := i.dbp.get 0

def Inode.secondBlock (i : Inode) : Nat := i.dbp.get 1

def Inode.directBlocks (i : Inode) : List Nat := i.dbp.toList.takeWhile (· ≠ 0)

def entriesOf (v : Volume) (b : Nat) : List DirEntry := (parse (v.block b)).getD []

/-- The entries of a directory, block by block. -/
def listing (v : Volume) (i : Inode) : List (List DirEntry) := i.directBlocks.map (entriesOf v)

/-- Inode 2 is a directory, and every directory has at least one block, all of
them filled with legal entries. -/
structure WellFormed (v : Volume) : Prop where
  root : (v.inode 2).isDirectory
  first : ∀ n, (v.inode n).isDirectory → (v.inode n).firstBlock ≠ 0
  parsed : ∀ n, (v.inode n).isDirectory →
    ∀ b ∈ (v.inode n).directBlocks, (parse (v.block b)).isSome

/-- The entries in use, in the order they have on the disk. -/
def inUse (v : Volume) (i : Inode) : List DirEntry :=
  (listing v i).flatten.filter (·.inode ≠ 0)

def lookup (v : Volume) (d : Nat) (name : Bytes) : Option Nat :=
  ((inUse v (v.inode d)).find? (·.name = name)).map DirEntry.inode

/-- The inode a path names, seen from the directory `d`; zero if there is none. -/
def resolve (v : Volume) : Nat → List Bytes → Nat
  | d, [] => d
  | d, name :: rest =>
    if (v.inode d).isDirectory then
      if name = [] ∧ rest = [] then d
      else match lookup v d name with
        | none => 0
        | some n => resolve v n rest
    else 0

end Levos
