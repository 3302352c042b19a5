import Xv6.Fs.Inode

/-!
# ディレクトリとパス

`kernel/fs.c` のディレクトリの操作とパスの解決を定める。`namecmp` は、零までの名前の比較である。
-/

namespace Xv6.Fs

open Xv6.Lib

variable (sb : Superblock)

def readDirent (inum off : Nat) (msg : String) : FsM Bytes := do
  let (r, de) ← readi sb inum false 0 off direntSize
  if r = some direntSize then return de else fail msg

def dirlookupLoop (inum : Nat) (name : Name) (off : Nat) : Nat → FsM (Option (Nat × Nat))
  | 0 => return none
  | n + 1 => do
    if off < (← inode inum).size then
      let de ← readDirent sb inum off "dirlookup read"
      if direntInum de 0 ≠ 0 ∧ direntName de 0 = name then
        iget sb (direntInum de 0)
        return some (off, direntInum de 0)
      else dirlookupLoop inum name (off + direntSize) n
    else return none

/-- `dirlookup`。見つけた項目の位置と、参照を増やした inode の番号を返す。 -/
def dirlookup (inum : Nat) (name : Name) : FsM (Option (Nat × Nat)) := do
  let ip ← inode inum
  if ip.type ≠ tDir then fail "dirlookup not DIR"
  else dirlookupLoop sb inum name 0 (ip.size / direntSize + 1)

def dirFindFree (inum off : Nat) : Nat → FsM Nat
  | 0 => return off
  | n + 1 => do
    if off < (← inode inum).size then
      let de ← readDirent sb inum off "dirlink read"
      if direntInum de 0 = 0 then return off else dirFindFree inum (off + direntSize) n
    else return off

def dirlink (dp : Nat) (name : Name) (inum : Nat) : FsM Bool := do
  match ← dirlookup sb dp name with
  | some (_, i) =>
    iput sb i
    return false
  | none =>
    let off ← dirFindFree sb dp 0 ((← inode dp).size / direntSize + 1)
    let r ← writei sb dp (.kernel (direntBytes name inum)) off direntSize
    return r = some direntSize

def namexLoop (parent : Bool) (ip : Nat) : List Name → FsM (Option (Nat × Name))
  | [] => do
    if parent then
      iput sb ip
      return none
    else return some (ip, [])
  | name :: rest => do
    ilock sb ip
    if (← inode ip).type ≠ tDir then
      iunlockput sb ip
      return none
    else if parent ∧ rest = [] then
      iunlock ip
      return some (ip, name)
    else
      match ← dirlookup sb ip name with
      | none =>
        iunlockput sb ip
        return none
      | some (_, next) =>
        iunlockput sb ip
        namexLoop parent next rest

/-- `namex`。`cwd` は呼び出したプロセスの作業ディレクトリである。 -/
def namex (p : Nat) (path : List UInt8) (parent : Bool) : FsM (Option (Nat × Name)) := do
  let elems := pathElems path.length path
  if path.head? = some slash then
    iget sb rootino
    namexLoop sb parent rootino elems
  else
    match (← proc p).cwd with
    | some ip =>
      idup ip
      namexLoop sb parent ip elems
    | none => fail "idup"

def namei (p : Nat) (path : List UInt8) : FsM (Option Nat) := do
  return (← namex sb p path false).map Prod.fst

def nameiparent (p : Nat) (path : List UInt8) : FsM (Option (Nat × Name)) := namex sb p path true

end Xv6.Fs
