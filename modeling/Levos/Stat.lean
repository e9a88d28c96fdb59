import Levos.Ext2

namespace Levos

structure Stat where
  stDev : UInt16
  stIno : UInt16
  stMode : UInt32
  stNlink : UInt16
  stUid : UInt16
  stGid : UInt16
  stRdev : UInt16
  stSize : UInt32
deriving DecidableEq, Repr

namespace Stat

def sIfdir : UInt32 := 0x4000
def sIfchr : UInt32 := 0x2000
def sIfblk : UInt32 := 0x6000
def sIfreg : UInt32 := 0x8000
def sIflnk : UInt32 := 0xA000
def sIfsock : UInt32 := 0xC000
def sIfifo : UInt32 := 0x1000

/-- The checks of the type in `ext2_stat`: a mask, and what is added to the mode when
the type has a bit of it. -/
def typeChecks : List (Nat × UInt32) :=
  [(0xC000, sIfsock), (0xA000, sIflnk), (0x8000, sIfreg), (0x6000, sIfblk), (0x4000, sIfdir),
    (0x2000, sIfchr), (0x1000, sIfifo)]

def checkTypes (type : Nat) (mode : UInt32) : UInt32 :=
  typeChecks.foldl (fun mode c => if type &&& c.1 ≠ 0 then mode ||| c.2 else mode) mode

/-- `ext2_stat` on the device with number `devId`: what it returns and what it leaves in
`*st`. -/
def ext2Stat (v : Volume) (devId : UInt32) (after file : Bytes) (st : Stat) :
    Option (UInt8 × Stat) :=
  (ext2FindFileInode v after file).map (fun (node, inode) =>
    if node = 0 then (0, st)
    else (0,
      { stDev := devId.toUInt16
        stIno := node.toUInt16
        stMode := checkTypes inode.type st.stMode
        stNlink := 1
        stUid := 1000
        stGid := 1000
        stRdev := 0
        stSize := inode.size }))


end Stat

end Levos
