import Levos.Disk

namespace Levos.Probe
open Library

inductive Fault
  | divisionByZero
  | unknownBytes
deriving DecidableEq, Repr

def divide (a b : Nat) : Except Fault Nat :=
  if b = 0 then .error .divisionByZero else .ok (a / b)

def modulo (a b : Nat) : Except Fault Nat :=
  if b = 0 then .error .divisionByZero else .ok (a % b)

/-- `struct ext2_priv_data`, with whatever `ext2_probe` stores in it. -/
structure PrivData where
  sb : Superblock
  firstBgd : Nat
  numberOfBgs : Nat
  blocksize : Nat
  sectorsPerBlock : Nat
  inodesPerBlock : Nat
deriving DecidableEq, Repr

/-- What `ext2_probe` computes from a superblock with the signature. -/
def geometry (sb : Superblock) : Except Fault PrivData := do
  let blocksize := sb.blocksize
  let numberOfBgs0 ← divide sb.blocks.toNat sb.blocksInBlockgroup.toNat
  let blocksOfSb ← divide 1024 blocksize
  return {
    sb := sb
    firstBgd := (sb.superblockId.toNat + blocksOfSb) % 2 ^ 32
    numberOfBgs := if numberOfBgs0 = 0 then 1 else numberOfBgs0
    blocksize := blocksize
    sectorsPerBlock := blocksize / 512
    inodesPerBlock := blocksize / 128 }

/-- `ext2_probe`; `none` inside is its error return. -/
def ext2Probe (read : Option Disk) : Except Fault (Option PrivData) :=
  match read with
  | none => .ok none
  | some dev =>
    if ofBytes (((dev.read 2 2).drop 56).take 2) ≠ ext2Signature then .ok none
    else (geometry (readSuperblock (dev.read 2 2))).map some

def ext2ReadBlock (priv : PrivData) (dev : Disk) (block : Nat) : Bytes :=
  let sectorsPerBlock := if priv.sectorsPerBlock = 0 then 1 else priv.sectorsPerBlock
  dev.read (block * sectorsPerBlock % 2 ^ 32) sectorsPerBlock

/-- `ext2_read_inode`; `after` is what the heap holds behind the block buffer. -/
def ext2ReadInode (priv : PrivData) (dev : Disk) (after : Bytes) (inode : Nat) :
    Except Fault Bytes := do
  let number := (inode + (2 ^ 32 - 1)) % 2 ^ 32
  let bg ← divide number priv.sb.inodesInBlockgroup.toNat
  let index ← modulo number priv.sb.inodesInBlockgroup.toNat
  let block ← divide (index * 128 % 2 ^ 32) priv.blocksize
  match le (ext2ReadBlock priv dev priv.firstBgd ++ after) (32 * bg + 8) 4 with
  | none => .error .unknownBytes
  | some table =>
    let index ← modulo index priv.inodesPerBlock
    return ((ext2ReadBlock priv dev ((table + block) % 2 ^ 32)).drop (128 * index)).take 128

end Levos.Probe
