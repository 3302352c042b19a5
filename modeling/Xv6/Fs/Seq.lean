import Xv6.Fs.Sysfile

/-!
# 一つずつ進む呼び出しの意味

ほかの呼び出しと交わらずに進むプログラムの意味を、`bread` で読めるブロックの中身とメモリの表の上の計算として与える。inode がブロックを指す欄と、ファイルのバイトも定める。
-/

namespace Xv6.Fs

open Xv6.Lib

structure Store where
  blk : Nat → Block
  k : Kernel
  umem : Bytes

/-- `ok a n` は番地 `a` からの `n` バイトを写せること、`moved a n` は、写せないときに途中まで写すバイト数である。 -/
structure User where
  ok : Nat → Nat → Bool
  moved : Nat → Nat → Nat

def Store.setBlk (s : Store) (b : Nat) (d : Block) : Store := { s with blk := update s.blk b d }

def Store.setK (s : Store) (k : Kernel) : Store := { s with k := k }

def sem (u : User) : (i : FsOp) → StateT Store (Except String) i.Resp
  | .bread b => do return (← get).blk b
  | .put b d => modify fun s => s.setBlk b d
  | .logWrite _ => pure ()
  | .brelse _ => pure ()
  | .copyin b o src n => fun s =>
    let m := if u.ok src n then n else min n (u.moved src n)
    .ok (u.ok src n, s.setBlk b (blit (s.blk b) o s.umem src m))
  | .copyout dst d o n => fun s =>
    let m := if u.ok dst n then n else min n (u.moved dst n)
    .ok (u.ok dst n, { s with umem := blit s.umem dst d o m })
  | .beginOp => pure ()
  | .endOp => pure ()
  | .get => do return (← get).k
  | .set k => modify fun s => s.setK k
  | .panic msg => throw msg

def exec (u : User) {α : Type} (x : FsM α) : StateT Store (Except String) α := x.run (sem u)

/-! ## inode の欄とファイルのバイト -/

def Store.ino (sb : Superblock) (s : Store) (inum : Nat) : Dinode :=
  if 0 < (s.k.itab inum).ref ∧ (s.k.itab inum).valid = true then (s.k.itab inum).d
  else getDinode (s.blk (sb.iblock inum)) (dinodeOff inum)

/-- ブロックを指す欄の数。直接の欄、間接ブロックの欄、その項目の順に番号を付ける。 -/
def nslots : Nat := ndirect + 1 + nindirect

def Dinode.slot (d : Dinode) (blk : Nat → Block) (k : Nat) : Nat :=
  if k ≤ ndirect then d.addrs k
  else if d.addrs ndirect = 0 then 0
  else indirect (blk (d.addrs ndirect)) (k - (ndirect + 1))

def slotOf (bn : Nat) : Nat := if bn < ndirect then bn else bn + 1

def Dinode.block (d : Dinode) (blk : Nat → Block) (bn : Nat) : Nat := d.slot blk (slotOf bn)

def Dinode.byte (d : Dinode) (blk : Nat → Block) (p : Nat) : UInt8 := blk (d.block blk (p / bsize)) (p % bsize)

def Superblock.datastart (sb : Superblock) : Nat := sb.bmapstart + sb.size / bpb + 1

def Superblock.used (sb : Superblock) (blk : Nat → Block) (b : Nat) : Bool := bit (blk (sb.bblock b)) (b % bpb)

/-- 空いたブロックがない。 -/
def Superblock.Packed (sb : Superblock) (blk : Nat → Block) : Prop := ∀ b, b < sb.size → sb.used blk b = true

/-- `mkfs` の置き方。inode、ビットマップ、データの順に並ぶ。 -/
structure Superblock.Ok (sb : Superblock) : Prop where
  inodes : sb.inodestart + sb.ninodes / ipb < sb.bmapstart
  size : sb.size ≤ 2 ^ 31

def Superblock.Live (sb : Superblock) (ino : Nat → Dinode) (i : Nat) : Prop := i < sb.ninodes ∧ (ino i).type ≠ 0

/-- どのデータのブロックも高々一つの欄が指し、指されたブロックと管理のブロックは使用中である。 -/
structure Owned (sb : Superblock) (blk : Nat → Block) (ino : Nat → Dinode) : Prop where
  region : ∀ i k, sb.Live ino i → k < nslots → (ino i).slot blk k ≠ 0 →
    sb.datastart ≤ (ino i).slot blk k ∧ (ino i).slot blk k < sb.size
  used : ∀ i k, sb.Live ino i → k < nslots → (ino i).slot blk k ≠ 0 → sb.used blk ((ino i).slot blk k) = true
  unique : ∀ i k j l, sb.Live ino i → sb.Live ino j → k < nslots → l < nslots → (ino i).slot blk k ≠ 0 →
    (ino i).slot blk k = (ino j).slot blk l → i = j ∧ k = l
  kept : ∀ b, b < sb.datastart → b < sb.size → sb.used blk b = true

/-- 大きさより前のブロックがすべて割り当てられている。 -/
def Dinode.Full (d : Dinode) (blk : Nat → Block) : Prop := ∀ bn, bn * bsize < d.size → bn < maxfile ∧ d.block blk bn ≠ 0

structure Store.Cached (sb : Superblock) (s : Store) (i : Nat) : Prop where
  lt : i < sb.ninodes
  ref : 0 < (s.k.itab i).ref
  valid : (s.k.itab i).valid = true
  type : (s.k.itab i).d.type ≠ 0

end Xv6.Fs
