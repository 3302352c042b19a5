import Xv6.Fs.Dir

/-!
# ファイルの表とシステムコール

`kernel/file.c` の `struct file` の操作と、`kernel/sysfile.c` のシステムコールを定める。引数の文字列は、写せなければ
`none` である。
-/

namespace Xv6.Fs

open Xv6.Lib

variable (sb : Superblock)

/-! ## ファイルの表 -/

def firstIdx (f : Nat → Bool) : Nat → Nat → Option Nat
  | _, 0 => none
  | i, n + 1 => if f i then some i else firstIdx f (i + 1) n

def filealloc : FsM (Option Nat) := do
  let k ← getK
  match firstIdx (fun f => (k.files f).ref = 0) 0 nfile with
  | none => return none
  | some f =>
    setFile f { k.files f with ref := 1 }
    return some f

def filedup (f : Nat) : FsM Unit := do
  let x ← file f
  if x.ref < 1 then fail "filedup" else setFile f { x with ref := x.ref + 1 }

def fileclose (f : Nat) : FsM Unit := do
  let ff ← file f
  if ff.ref < 1 then fail "fileclose"
  else if ff.ref - 1 > 0 then setFile f { ff with ref := ff.ref - 1 }
  else
    setFile f { ff with ref := 0, type := .none }
    if ff.type = .inode ∨ ff.type = .device then
      beginOp
      iput sb ff.ip
      endOp
    else return ()

def fileread (f addr n : Nat) : FsM Int := do
  let x ← file f
  if !x.readable then return -1
  else
    match x.type with
    | .device => return -1
    | .inode =>
      ilock sb x.ip
      let (r, _) ← readi sb x.ip true addr x.off n
      match r with
      | some tot => do
        (if 0 < tot then setFile f { x with off := x.off + tot } else pure ())
        iunlock x.ip
        return tot
      | none =>
        iunlock x.ip
        return -1
    | .none => fail "fileread"

def writeMax : Nat := (10 - 1 - 1 - 2) / 2 * bsize

/-- `filewrite` のループ。`i` まで書いた。一回りに一バイトは進む。 -/
def filewriteLoop (f addr i n : Nat) : Nat → FsM Nat
  | 0 => return i
  | fuel + 1 => do
    if i < n then
      let n1 := min (n - i) writeMax
      beginOp
      let x ← file f
      ilock sb x.ip
      let r ← writei sb x.ip (.user (addr + i)) x.off n1
      match r with
      | some tot => do
        (if 0 < tot then setFile f { x with off := x.off + tot } else pure ())
        iunlock x.ip
        endOp
        if tot = n1 then filewriteLoop f addr (i + n1) n fuel else return i
      | none =>
        iunlock x.ip
        endOp
        return i
    else return i

def filewrite (f addr n : Nat) : FsM Int := do
  let x ← file f
  if !x.writable then return -1
  else
    match x.type with
    | .device => return -1
    | .inode =>
      let i ← filewriteLoop sb f addr 0 n n
      return if i = n then n else -1
    | .none => fail "filewrite"

/-! ## 記述子 -/

def argfd (p fd : Nat) : FsM (Option Nat) := do
  if nofile ≤ fd then return none else return (← proc p).ofile fd

def fdalloc (p f : Nat) : FsM (Option Nat) := do
  let x ← proc p
  match firstIdx (fun fd => (x.ofile fd).isNone) 0 nofile with
  | none => return none
  | some fd =>
    setProc p { x with ofile := update x.ofile fd (some f) }
    return some fd

def sysDup (p fd : Nat) : FsM Int := do
  match ← argfd p fd with
  | none => return -1
  | some f =>
    match ← fdalloc p f with
    | none => return -1
    | some fd =>
      filedup f
      return fd

def sysRead (p fd addr n : Nat) : FsM Int := do
  match ← argfd p fd with
  | none => return -1
  | some f => fileread sb f addr n

def sysWrite (p fd addr n : Nat) : FsM Int := do
  match ← argfd p fd with
  | none => return -1
  | some f => filewrite sb f addr n

def sysClose (p fd : Nat) : FsM Int := do
  match ← argfd p fd with
  | none => return -1
  | some f =>
    let x ← proc p
    setProc p { x with ofile := update x.ofile fd none }
    fileclose sb f
    return 0

/-! ## 名前 -/

def linkBad (ip : Nat) : FsM Int := do
  ilock sb ip
  let d ← inode ip
  setInode ip d.linkDown
  iupdate sb ip
  iunlockput sb ip
  endOp
  return -1

def linkInto (p ip : Nat) (new : List UInt8) : FsM Int := do
  match ← nameiparent sb p new with
  | none => linkBad sb ip
  | some (dp, name) =>
    ilock sb dp
    if ← dirlink sb dp name ip then
      iunlockput sb dp
      iput sb ip
      endOp
      return 0
    else
      iunlockput sb dp
      linkBad sb ip

def sysLink (p : Nat) (old new : Option (List UInt8)) : FsM Int := do
  match old, new with
  | some old, some new =>
    beginOp
    match ← namei sb p old with
    | none =>
      endOp
      return -1
    | some ip =>
      ilock sb ip
      let d ← inode ip
      if d.type = tDir then
        iunlockput sb ip
        endOp
        return -1
      else
        setInode ip d.linkUp
        iupdate sb ip
        iunlock ip
        linkInto sb p ip new
  | _, _ => return -1

def isdiremptyLoop (inum off : Nat) : Nat → FsM Bool
  | 0 => return true
  | n + 1 => do
    if off < (← inode inum).size then
      let de ← readDirent sb inum off "isdirempty: readi"
      if direntInum de 0 ≠ 0 then return false else isdiremptyLoop inum (off + direntSize) n
    else return true

def isdirempty (inum : Nat) : FsM Bool := do
  isdiremptyLoop sb inum (2 * direntSize) ((← inode inum).size / direntSize + 1)

def unlinkBad (dp : Nat) : FsM Int := do
  iunlockput sb dp
  endOp
  return -1

def unlinkDone (dp ip type : Nat) : FsM Int := do
  (if type = tDir then do
    let d ← inode dp
    setInode dp d.linkDown
    iupdate sb dp
  else pure ())
  iunlockput sb dp
  let d ← inode ip
  setInode ip d.linkDown
  iupdate sb ip
  iunlockput sb ip
  endOp
  return 0

def unlinkEntry (dp ip off : Nat) : FsM Int := do
  ilock sb ip
  let d ← inode ip
  if shortLtOne d.nlink then fail "unlink: nlink < 1"
  else
    let empty ← (if d.type = tDir then isdirempty sb ip else pure true)
    if !empty then
      iunlockput sb ip
      unlinkBad sb dp
    else
      let r ← writei sb dp (.kernel fun _ => 0) off direntSize
      if r ≠ some direntSize then fail "unlink: writei" else unlinkDone sb dp ip d.type

def sysUnlink (p : Nat) (path : Option (List UInt8)) : FsM Int := do
  match path with
  | none => return -1
  | some path =>
    beginOp
    match ← nameiparent sb p path with
    | none =>
      endOp
      return -1
    | some (dp, name) =>
      ilock sb dp
      if name = dot ∨ name = dotdot then unlinkBad sb dp
      else
        match ← dirlookup sb dp name with
        | none => unlinkBad sb dp
        | some (off, ip) => unlinkEntry sb dp ip off

def createFail (dp ip : Nat) : FsM (Option Nat) := do
  let d ← inode ip
  setInode ip { d with nlink := 0 }
  iupdate sb ip
  iunlockput sb ip
  iunlockput sb dp
  return none

def createDots (dp ip type : Nat) : FsM Bool := do
  if type = tDir then
    if ← dirlink sb ip dot ip then dirlink sb ip dotdot dp else return false
  else return true

def createNode (dp ip : Nat) (name : Name) (type major minor : Nat) : FsM (Option Nat) := do
  ilock sb ip
  let d ← inode ip
  setInode ip { d with major := major, minor := minor, nlink := 1 }
  iupdate sb ip
  if ← createDots sb dp ip type then
    if ← dirlink sb dp name ip then
      (if type = tDir then do
        let d ← inode dp
        setInode dp d.linkUp
        iupdate sb dp
      else pure ())
      iunlockput sb dp
      return some ip
    else createFail sb dp ip
  else createFail sb dp ip

def create (p : Nat) (path : List UInt8) (type major minor : Nat) : FsM (Option Nat) := do
  match ← nameiparent sb p path with
  | none => return none
  | some (dp, name) =>
    ilock sb dp
    match ← dirlookup sb dp name with
    | some (_, ip) =>
      iunlockput sb dp
      ilock sb ip
      let d ← inode ip
      if type = tFile ∧ (d.type = tFile ∨ d.type = tDevice) then return some ip
      else
        iunlockput sb ip
        return none
    | none =>
      match ← ialloc sb type with
      | none =>
        iunlockput sb dp
        return none
      | some ip => createNode sb dp ip name type major minor

structure OMode where
  wronly : Bool
  rdwr : Bool
  create : Bool
  trunc : Bool
  other : Bool
  deriving DecidableEq, Repr

def OMode.rdonly (m : OMode) : Bool := !m.wronly && !m.rdwr && !m.create && !m.trunc && !m.other

def openInode (p ip : Nat) (m : OMode) : FsM Int := do
  let d ← inode ip
  if d.type = tDevice ∧ ndev ≤ d.major then
    iunlockput sb ip
    endOp
    return -1
  else
    match ← filealloc with
    | none =>
      iunlockput sb ip
      endOp
      return -1
    | some f =>
      match ← fdalloc p f with
      | none =>
        fileclose sb f
        iunlockput sb ip
        endOp
        return -1
      | some fd =>
        let x ← file f
        setFile f { x with
          type := if d.type = tDevice then .device else .inode
          off := if d.type = tDevice then x.off else 0
          major := if d.type = tDevice then d.major else x.major
          ip := ip
          readable := !m.wronly
          writable := m.wronly || m.rdwr }
        (if m.trunc ∧ d.type = tFile then itrunc sb ip else pure ())
        iunlock ip
        endOp
        return fd

def sysOpen (p : Nat) (path : Option (List UInt8)) (m : OMode) : FsM Int := do
  match path with
  | none => return -1
  | some path =>
    beginOp
    if m.create then
      match ← create sb p path tFile 0 0 with
      | none =>
        endOp
        return -1
      | some ip => openInode sb p ip m
    else
      match ← namei sb p path with
      | none =>
        endOp
        return -1
      | some ip =>
        ilock sb ip
        let d ← inode ip
        if d.type = tDir ∧ !m.rdonly then
          iunlockput sb ip
          endOp
          return -1
        else openInode sb p ip m

def makeNode (p : Nat) (path : Option (List UInt8)) (type major minor : Nat) : FsM Int := do
  beginOp
  match path with
  | none =>
    endOp
    return -1
  | some path =>
    match ← create sb p path type major minor with
    | none =>
      endOp
      return -1
    | some ip =>
      iunlockput sb ip
      endOp
      return 0

def sysMkdir (p : Nat) (path : Option (List UInt8)) : FsM Int := makeNode sb p path tDir 0 0

/-- `major` と `minor` は `short` に切り詰められる。 -/
def sysMknod (p : Nat) (path : Option (List UInt8)) (major minor : Nat) : FsM Int :=
  makeNode sb p path tDevice (major % 2 ^ 16) (minor % 2 ^ 16)

def iputCwd (p : Nat) : FsM Unit := do
  match (← proc p).cwd with
  | some c => iput sb c
  | none => fail "iput"

def sysChdir (p : Nat) (path : Option (List UInt8)) : FsM Int := do
  beginOp
  match path with
  | none =>
    endOp
    return -1
  | some path =>
    match ← namei sb p path with
    | none =>
      endOp
      return -1
    | some ip =>
      ilock sb ip
      if (← inode ip).type ≠ tDir then
        iunlockput sb ip
        endOp
        return -1
      else
        iunlock ip
        iputCwd sb p
        endOp
        let x ← proc p
        setProc p { x with cwd := some ip }
        return 0

/-! ## fork と exit -/

def forkFd (p q fd : Nat) : FsM Unit := do
  match (← proc p).ofile fd with
  | some f =>
    filedup f
    let y ← proc q
    setProc q { y with ofile := update y.ofile fd (some f) }
  | none => return ()

def forkFiles (p q fd : Nat) : Nat → FsM Unit
  | 0 => return ()
  | n + 1 => do
    forkFd p q fd
    forkFiles p q (fd + 1) n

def forkFs (p q : Nat) : FsM Unit := do
  forkFiles p q 0 nofile
  let x ← proc p
  match x.cwd with
  | some c =>
    idup c
    let y ← proc q
    setProc q { y with live := true, cwd := some c }
  | none => fail "idup"

def exitFd (p fd : Nat) : FsM Unit := do
  match (← proc p).ofile fd with
  | some f =>
    fileclose sb f
    let x ← proc p
    setProc p { x with ofile := update x.ofile fd none }
  | none => return ()

def exitFiles (p fd : Nat) : Nat → FsM Unit
  | 0 => return ()
  | n + 1 => do
    exitFd sb p fd
    exitFiles p (fd + 1) n

def exitFs (p : Nat) : FsM Unit := do
  exitFiles sb p 0 nofile
  beginOp
  iputCwd sb p
  endOp
  let x ← proc p
  setProc p { x with live := false, cwd := none }

/-! ## exec と fstat -/

def readAll (ip : Nat) : List (Nat × Nat) → FsM Unit
  | [] => return ()
  | (off, n) :: rs => do
    let (r, _) ← readi sb ip false 0 off n
    if r = some n then readAll ip rs else return ()

/-- `exec` のうち、ファイルを読む部分。読む範囲は、ここでは任意の列とする。 -/
def execFs (p : Nat) (path : Option (List UInt8)) (ranges : List (Nat × Nat)) : FsM Unit := do
  match path with
  | none => return ()
  | some path =>
    beginOp
    match ← namei sb p path with
    | none => endOp
    | some ip =>
      ilock sb ip
      readAll sb ip ranges
      iunlockput sb ip
      endOp

def statSize : Nat := 16

def stati (inum : Nat) (ip : Dinode) : Bytes :=
  let st := putLE (putLE (fun _ => 0) 0 4 1) 4 4 inum
  putLE (putLE (putLE st 8 2 ip.type) 10 2 ip.nlink) 12 4 ip.size

def filestat (f addr : Nat) : FsM Int := do
  let x ← file f
  if x.type = .inode ∨ x.type = .device then
    ilock sb x.ip
    let st := stati x.ip (← inode x.ip)
    iunlock x.ip
    if ← copyout addr st 0 statSize then return 0 else return -1
  else return -1

def sysFstat (p fd addr : Nat) : FsM Int := do
  match ← argfd p fd with
  | none => return -1
  | some f => filestat sb f addr

inductive Call
  | dup (fd : Nat)
  | read (fd addr n : Nat)
  | write (fd addr n : Nat)
  | close (fd : Nat)
  | fstat (fd addr : Nat)
  | link (old new : Option (List UInt8))
  | unlink (path : Option (List UInt8))
  | open (path : Option (List UInt8)) (m : OMode)
  | mkdir (path : Option (List UInt8))
  | mknod (path : Option (List UInt8)) (major minor : Nat)
  | chdir (path : Option (List UInt8))
  | fork (q : Nat)
  | exec (path : Option (List UInt8)) (ranges : List (Nat × Nat))
  | exit

def Call.prog (p : Nat) : Call → FsM Unit
  | .dup fd => do let _ ← sysDup p fd
  | .read fd addr n => do let _ ← sysRead sb p fd addr n
  | .write fd addr n => do let _ ← sysWrite sb p fd addr n
  | .close fd => do let _ ← sysClose sb p fd
  | .fstat fd addr => do let _ ← sysFstat sb p fd addr
  | .link old new => do let _ ← sysLink sb p old new
  | .unlink path => do let _ ← sysUnlink sb p path
  | .open path m => do let _ ← sysOpen sb p path m
  | .mkdir path => do let _ ← sysMkdir sb p path
  | .mknod path major minor => do let _ ← sysMknod sb p path major minor
  | .chdir path => do let _ ← sysChdir sb p path
  | .fork q => forkFs p q
  | .exec path ranges => execFs sb p path ranges
  | .exit => exitFs sb p

end Xv6.Fs
