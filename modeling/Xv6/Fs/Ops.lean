import Xv6.Lib.Free
import Xv6.Fs.Layout

/-!
# ファイルシステムの命令

`kernel/fs.c`、`kernel/file.c`、`kernel/sysfile.c` が使う操作を命令とする。inode の表 `itable` は、番号からの写像で表す。
-/

namespace Xv6.Fs

open Xv6.Lib

def ninode : Nat := 50

def nfile : Nat := 100

def nofile : Nat := 16

def ndev : Nat := 10

structure MInode where
  ref : Nat
  valid : Bool
  d : Dinode

inductive FileType
  | none
  | inode
  | device
  deriving DecidableEq, Repr

/-- `struct file`。パイプは別の層で扱う。`ip` は inode の番号である。 -/
structure File where
  type : FileType
  ref : Nat
  readable : Bool
  writable : Bool
  ip : Nat
  off : Nat
  major : Nat

/-- `struct proc` のうち、ファイルに関わる欄。 -/
structure FProc where
  live : Bool
  ofile : Nat → Option Nat
  cwd : Option Nat

structure Kernel where
  itab : Nat → MInode
  files : Nat → File
  procs : Nat → FProc

/-- `put` はロックしたバッファの書き換え、`copyin` はその位置 `o` への、`copyout` は `d` の位置 `o` からの写しである。 -/
inductive FsOp
  | bread (b : Nat)
  | put (b : Nat) (d : Block)
  | logWrite (b : Nat)
  | brelse (b : Nat)
  | copyin (b o src n : Nat)
  | copyout (dst : Nat) (d : Bytes) (o n : Nat)
  | beginOp
  | endOp
  | get
  | set (k : Kernel)
  | panic (msg : String)

def FsOp.Resp : FsOp → Type
  | .bread _ => Block
  | .copyin _ _ _ _ => Bool
  | .copyout _ _ _ _ => Bool
  | .get => Kernel
  | .panic _ => Empty
  | _ => Unit

abbrev FsM := Free FsOp FsOp.Resp

def bread (b : Nat) : FsM Block := Free.send (FsOp.bread b)

def put (b : Nat) (d : Block) : FsM Unit := Free.send (FsOp.put b d)

def logWrite (b : Nat) : FsM Unit := Free.send (FsOp.logWrite b)

def brelse (b : Nat) : FsM Unit := Free.send (FsOp.brelse b)

def copyin (b o src n : Nat) : FsM Bool := Free.send (FsOp.copyin b o src n)

def copyout (dst : Nat) (d : Bytes) (o n : Nat) : FsM Bool := Free.send (FsOp.copyout dst d o n)

def beginOp : FsM Unit := Free.send FsOp.beginOp

def endOp : FsM Unit := Free.send FsOp.endOp

def getK : FsM Kernel := Free.send FsOp.get

def setK (k : Kernel) : FsM Unit := Free.send (FsOp.set k)

def fail {α : Type} (msg : String) : FsM α := Free.op (FsOp.panic msg) fun e : Empty => e.elim

/-! ## 表の読み書き -/

def Kernel.setI (k : Kernel) (inum : Nat) (m : MInode) : Kernel := { k with itab := update k.itab inum m }

def Kernel.setF (k : Kernel) (f : Nat) (x : File) : Kernel := { k with files := update k.files f x }

def Kernel.setP (k : Kernel) (p : Nat) (x : FProc) : Kernel := { k with procs := update k.procs p x }

def inode (inum : Nat) : FsM Dinode := do return ((← getK).itab inum).d

def setInode (inum : Nat) (d : Dinode) : FsM Unit := do
  let k ← getK
  setK (k.setI inum { k.itab inum with d := d })

def file (f : Nat) : FsM File := do return (← getK).files f

def setFile (f : Nat) (x : File) : FsM Unit := do setK ((← getK).setF f x)

def proc (p : Nat) : FsM FProc := do return (← getK).procs p

def setProc (p : Nat) (x : FProc) : FsM Unit := do setK ((← getK).setP p x)

end Xv6.Fs
