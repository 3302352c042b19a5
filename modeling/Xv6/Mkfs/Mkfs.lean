import Xv6.Fs.Contents

/-!
# `mkfs`

`mkfs/mkfs.c` を、ディスクの像の上の計算として定める。`assert` が破れるか `die` が呼ばれれば `none` である。`given` は
検証のための記録で、`freeblock++` で渡したブロックを集める。
-/

namespace Xv6.Mkfs

open Xv6.Lib
open Xv6.Fs

def fssize : Nat := 2000

def ninodes : Nat := 200

def fsmagic : Nat := 0x10203040

def nbitmap : Nat := fssize / (bsize * 8) + 1

def ninodeblocks : Nat := ninodes / ipb + 1

def nlog : Nat := 30

def nmeta : Nat := 2 + nlog + ninodeblocks + nbitmap

def nblocks : Nat := fssize - nmeta

def sb : Superblock := ⟨fssize, ninodes, 2 + nlog, 2 + nlog + ninodeblocks⟩

def sbBlock : Block :=
  let b : Block := fun _ => 0
  let b := putLE b 0 4 fsmagic
  let b := putLE b 4 4 fssize
  let b := putLE b 8 4 nblocks
  let b := putLE b 12 4 ninodes
  let b := putLE b 16 4 nlog
  let b := putLE b 20 4 2
  let b := putLE b 24 4 (2 + nlog)
  putLE b 28 4 (2 + nlog + ninodeblocks)

def readsb (b : Block) : Superblock := ⟨getLE b 4 4, getLE b 12 4, getLE b 24 4, getLE b 28 4⟩

structure Img where
  blk : Nat → Block
  freeinode : Nat
  freeblock : Nat
  given : List Nat

def Img.wsect (img : Img) (sec : Nat) (buf : Block) : Img := { img with blk := update img.blk sec buf }

/-- `rsect`。像は `FSSIZE` 個のブロックの大きさなので、その先の `read` は `die` となる。 -/
def Img.rsect (img : Img) (sec : Nat) : Option Block := if sec < fssize then some (img.blk sec) else none

def Img.rinode (img : Img) (inum : Nat) : Option Dinode := do
  return getDinode (← img.rsect (sb.iblock inum)) (dinodeOff inum)

def Img.winode (img : Img) (inum : Nat) (d : Dinode) : Option Img := do
  return img.wsect (sb.iblock inum) (putDinode (← img.rsect (sb.iblock inum)) (dinodeOff inum) d)

def Img.take (img : Img) : Img := { img with freeblock := img.freeblock + 1, given := img.freeblock :: img.given }

def Img.ialloc (img : Img) (type : Nat) : Option (Nat × Img) := do
  return (img.freeinode,
    ← { img with freeinode := img.freeinode + 1 }.winode img.freeinode ⟨type, 0, 0, 1, 0, fun _ => 0⟩)

def Img.mapAddr (img : Img) (din : Dinode) (k : Nat) : Img × Dinode :=
  if din.addrs k = 0 then (img.take, { din with addrs := update din.addrs k img.freeblock }) else (img, din)

def Img.mapEntry (img : Img) (ind j : Nat) : Option (Img × Nat) := do
  let a ← img.rsect ind
  if indirect a j = 0 then
    let a := putLE a (4 * j) 4 img.freeblock
    return (img.take.wsect ind a, indirect a j)
  else return (img, indirect a j)

def Img.map (img : Img) (din : Dinode) (fbn : Nat) : Option (Img × Dinode × Nat) :=
  if fbn < ndirect then
    let (img, din) := img.mapAddr din fbn
    some (img, din, din.addrs fbn)
  else do
    let (img, din) := img.mapAddr din ndirect
    let (img, x) ← img.mapEntry (din.addrs ndirect) (fbn - ndirect)
    return (img, din, x)

/-- `iappend` のループ。`o` バイトを書き、`n` バイトが残る。一回りに一バイトは進むので、`n` 回で足りる。 -/
def iappendLoop (p : Bytes) (img : Img) (din : Dinode) (off o n : Nat) : Nat → Option (Img × Dinode × Nat)
  | 0 => some (img, din, off)
  | fuel + 1 =>
    if 0 < n then
      let fbn := off / bsize
      if fbn < maxfile then do
        let (img, din, x) ← img.map din fbn
        let n1 := min n ((fbn + 1) * bsize - off)
        let buf ← img.rsect x
        let img := img.wsect x (blit buf (off - fbn * bsize) p o n1)
        iappendLoop p img din (off + n1) (o + n1) (n - n1) fuel
      else none
    else some (img, din, off)

def Img.iappend (img : Img) (inum : Nat) (p : Bytes) (n : Nat) : Option Img := do
  let din ← img.rinode inum
  let (img, din, off) ← iappendLoop p img din din.size 0 n n
  img.winode inum { din with size := off }

/-! ## `main` -/

/-- 入力のファイル。`chunks` は、`read` が一度に返した中身の列である。 -/
structure Input where
  arg : List UInt8
  chunks : List (List UInt8)

def userDir : List UInt8 := [117, 115, 101, 114, 47]

def underscore : UInt8 := 95

def Input.base (f : Input) : List UInt8 := if userDir.isPrefixOf f.arg then f.arg.drop 5 else f.arg

def Input.shortname (f : Input) : List UInt8 := if f.base.head? = some underscore then f.base.tail else f.base

def Img.link (img : Img) (name : List UInt8) (inum : Nat) : Option Img :=
  img.iappend rootino (direntBytes name inum) direntSize

def bytesOf (l : List UInt8) : Bytes := fun i => l.getD i 0

def Img.copy (img : Img) (inum : Nat) : List (List UInt8) → Option Img
  | [] => some img
  | c :: cs => do (← img.iappend inum (bytesOf c) c.length).copy inum cs

def Img.add (img : Img) (f : Input) : Option Img :=
  if slash ∈ f.base then none
  else do
    let (inum, img) ← img.ialloc tFile
    let img ← img.link f.shortname inum
    img.copy inum f.chunks

def Img.addAll (img : Img) : List Input → Option Img
  | [] => some img
  | f :: fs => do (← img.add f).addAll fs

def blank : Img := ⟨update (fun _ _ => 0) 1 sbBlock, 1, nmeta, []⟩

/-- ルートの大きさを、次のブロックの終わりまで延ばす。 -/
def Img.fixRoot (img : Img) : Option Img := do
  let din ← img.rinode rootino
  img.winode rootino { din with size := (din.size / bsize + 1) * bsize }

def build (files : List Input) : Option Img := do
  let (root, img) ← blank.ialloc tDir
  if root = rootino then
    let img ← img.link dot root
    let img ← img.link dotdot root
    (← img.addAll files).fixRoot
  else none

def bitmap : Nat → Block
  | 0 => fun _ => 0
  | n + 1 => setBit (bitmap n) n

def Img.balloc (img : Img) (used : Nat) : Option Img :=
  if used < bsize * 8 then some (img.wsect sb.bmapstart (bitmap used)) else none

def mkfs (files : List Input) : Option Img := do
  let img ← build files
  img.balloc img.freeblock

end Xv6.Mkfs
