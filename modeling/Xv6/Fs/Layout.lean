import Xv6.Lib.Bytes
import Mathlib.Data.Nat.Bitwise

/-!
# ディスクの形

`kernel/fs.h` の定数と、inode、ビットマップ、ディレクトリの項目のブロックの中での置き方を定める。
-/

namespace Xv6.Fs

open Xv6.Lib

abbrev Block := Bytes

def bsize : Nat := 1024

def ndirect : Nat := 12

def nindirect : Nat := 256

def maxfile : Nat := ndirect + nindirect

def ipb : Nat := 16

def bpb : Nat := 8192

def dirsiz : Nat := 14

def direntSize : Nat := 16

def rootino : Nat := 1

def tDir : Nat := 1

def tFile : Nat := 2

def tDevice : Nat := 3

/-- `struct superblock` のうち、カーネルが使う欄。 -/
structure Superblock where
  size : Nat
  ninodes : Nat
  inodestart : Nat
  bmapstart : Nat

def Superblock.iblock (sb : Superblock) (inum : Nat) : Nat := inum / ipb + sb.inodestart

def Superblock.bblock (sb : Superblock) (b : Nat) : Nat := b / bpb + sb.bmapstart

/-! ## inode -/

/-- `struct dinode`。`short` と `uint` の欄は、そのバイトの並びが表す自然数で持つ。 -/
@[ext]
structure Dinode where
  type : Nat
  major : Nat
  minor : Nat
  nlink : Nat
  size : Nat
  addrs : Nat → Nat

def Dinode.empty (type : Nat) : Dinode := ⟨type, 0, 0, 0, 0, fun _ => 0⟩

def dinodeOff (inum : Nat) : Nat := inum % ipb * 64

def getDinode (b : Block) (o : Nat) : Dinode where
  type := getLE b o 2
  major := getLE b (o + 2) 2
  minor := getLE b (o + 4) 2
  nlink := getLE b (o + 6) 2
  size := getLE b (o + 8) 4
  addrs k := if k < ndirect + 1 then getLE b (o + 12 + 4 * k) 4 else 0

def putWords (b : Block) (o : Nat) (f : Nat → Nat) : Nat → Block
  | 0 => b
  | n + 1 => putLE (putWords b o f n) (o + 4 * n) 4 (f n)

def putDinode (b : Block) (o : Nat) (d : Dinode) : Block :=
  let b := putLE b o 2 d.type
  let b := putLE b (o + 2) 2 d.major
  let b := putLE b (o + 4) 2 d.minor
  let b := putLE b (o + 6) 2 d.nlink
  let b := putLE b (o + 8) 4 d.size
  putWords b (o + 12) d.addrs (ndirect + 1)

/-- `short` として零以下である。 -/
def shortLtOne (n : Nat) : Bool := n = 0 ∨ 2 ^ 15 ≤ n

def Dinode.linkUp (d : Dinode) : Dinode := { d with nlink := (d.nlink + 1) % 2 ^ 16 }

def Dinode.linkDown (d : Dinode) : Dinode := { d with nlink := (d.nlink + 2 ^ 16 - 1) % 2 ^ 16 }

def mask (bi : Nat) : UInt8 := 1 <<< UInt8.ofNat (bi % 8)

def bit (b : Block) (bi : Nat) : Bool := b (bi / 8) &&& mask bi != 0

def setBit (b : Block) (bi : Nat) : Block := update b (bi / 8) (b (bi / 8) ||| mask bi)

def clearBit (b : Block) (bi : Nat) : Block := update b (bi / 8) (b (bi / 8) &&& ~~~mask bi)

/-! ## ディレクトリの項目 -/

abbrev Name := List UInt8

def dot : Name := [46]

def dotdot : Name := [46, 46]

def direntInum (b : Bytes) (o : Nat) : Nat := getLE b o 2

/-- `de.name` を最初の零まで、長くても `DIRSIZ` だけ読む。`namecmp` は、こうして読んだ名前を比べる。 -/
def direntName (b : Bytes) (o : Nat) : Name := ((List.range dirsiz).map fun k => b (o + 2 + k)).takeWhile (· ≠ 0)

def direntBytes (name : Name) (inum : Nat) : Bytes := putLE (fun i => name.getD (i - 2) 0) 0 2 inum

def slash : UInt8 := 47

def skipelem (path : List UInt8) : Option (Name × List UInt8) :=
  let path := path.dropWhile (· = slash)
  if path = [] then none
  else some ((path.takeWhile (· ≠ slash)).take dirsiz, (path.dropWhile (· ≠ slash)).dropWhile (· = slash))

/-- `skipelem` を繰り返して得る要素。残りは短くなるので、長さだけ繰り返せばよい。 -/
def pathElems : Nat → List UInt8 → List Name
  | 0, _ => []
  | n + 1, path =>
    match skipelem path with
    | none => []
    | some (name, rest) => name :: pathElems n rest

end Xv6.Fs
