import Xv6.Fs.Ops

/-!
# ブロックと inode

`kernel/fs.c` の、ブロックの割り当てから `readi` と `writei` までを定める。
-/

namespace Xv6.Fs

open Xv6.Lib

variable (sb : Superblock)

def bzero (bno : Nat) : FsM Unit := do
  let bp ← bread bno
  put bno (fill bp 0 bsize)
  logWrite bno
  brelse bno

def findFree (d : Block) (size b bi : Nat) : Nat → Option Nat
  | 0 => none
  | n + 1 =>
    if b + bi < size then
      if bit d bi then findFree d size b (bi + 1) n else some bi
    else none

def ballocLoop (b : Nat) : Nat → FsM Nat
  | 0 => return 0
  | n + 1 => do
    if b < sb.size then
      let bp ← bread (sb.bblock b)
      match findFree bp sb.size b 0 bpb with
      | some bi =>
        put (sb.bblock b) (setBit bp bi)
        logWrite (sb.bblock b)
        brelse (sb.bblock b)
        bzero (b + bi)
        return b + bi
      | none =>
        brelse (sb.bblock b)
        ballocLoop (b + bpb) n
    else return 0

/-- `balloc`。空きがなければ `0` を返す。 -/
def balloc : FsM Nat := ballocLoop sb 0 (sb.size / bpb + 1)

def bfree (b : Nat) : FsM Unit := do
  let bp ← bread (sb.bblock b)
  if bit bp (b % bpb) then
    put (sb.bblock b) (clearBit bp (b % bpb))
    logWrite (sb.bblock b)
    brelse (sb.bblock b)
  else fail "freeing free block"

/-! ## inode の表 -/

def Kernel.active (k : Kernel) : Nat := (List.range sb.ninodes).countP fun i => 0 < (k.itab i).ref

def iget (inum : Nat) : FsM Unit := do
  let k ← getK
  if 0 < (k.itab inum).ref then setK (k.setI inum { k.itab inum with ref := (k.itab inum).ref + 1 })
  else if ninode ≤ k.active sb then fail "iget: no inodes"
  else setK (k.setI inum { k.itab inum with ref := 1, valid := false })

def idup (inum : Nat) : FsM Unit := do
  let k ← getK
  setK (k.setI inum { k.itab inum with ref := (k.itab inum).ref + 1 })

def iallocLoop (type inum : Nat) : Nat → FsM (Option Nat)
  | 0 => return none
  | n + 1 => do
    let bp ← bread (sb.iblock inum)
    if (getDinode bp (dinodeOff inum)).type = 0 then
      put (sb.iblock inum) (putDinode bp (dinodeOff inum) (.empty type))
      logWrite (sb.iblock inum)
      brelse (sb.iblock inum)
      iget sb inum
      return some inum
    else
      brelse (sb.iblock inum)
      iallocLoop type (inum + 1) n

/-- `ialloc`。空きがなければ `none` である。 -/
def ialloc (type : Nat) : FsM (Option Nat) := iallocLoop sb type 1 (sb.ninodes - 1)

def iupdate (inum : Nat) : FsM Unit := do
  let bp ← bread (sb.iblock inum)
  put (sb.iblock inum) (putDinode bp (dinodeOff inum) (← inode inum))
  logWrite (sb.iblock inum)
  brelse (sb.iblock inum)

def ilock (inum : Nat) : FsM Unit := do
  let k ← getK
  if (k.itab inum).ref < 1 then fail "ilock"
  else if (k.itab inum).valid then return ()
  else
    let bp ← bread (sb.iblock inum)
    let d := getDinode bp (dinodeOff inum)
    setK (k.setI inum { k.itab inum with valid := true, d := d })
    brelse (sb.iblock inum)
    if d.type = 0 then fail "ilock: no type" else return ()

def iunlock (inum : Nat) : FsM Unit := do
  if ((← getK).itab inum).ref < 1 then fail "iunlock" else return ()

/-! ## 中身 -/

def indirect (d : Block) (j : Nat) : Nat := getLE d (4 * j) 4

/-- `ip->addrs[k]`。零なら割り当てる。割り当てられなければ `0` を返す。 -/
def bmapAddr (inum k : Nat) : FsM Nat := do
  let ip ← inode inum
  if ip.addrs k = 0 then
    let addr ← balloc sb
    if addr = 0 then return 0
    else
      setInode inum { ip with addrs := update ip.addrs k addr }
      return addr
  else return ip.addrs k

def bmapEntry (ind j : Nat) : FsM Nat := do
  let bp ← bread ind
  if indirect bp j = 0 then
    let addr ← balloc sb
    if addr = 0 then
      brelse ind
      return 0
    else
      put ind (putLE bp (4 * j) 4 addr)
      logWrite ind
      brelse ind
      return addr
  else
    brelse ind
    return indirect bp j

def bmap (inum bn : Nat) : FsM Nat := do
  if bn < ndirect then bmapAddr sb inum bn
  else if bn - ndirect < nindirect then
    let ind ← bmapAddr sb inum ndirect
    if ind = 0 then return 0 else bmapEntry sb ind (bn - ndirect)
  else fail "bmap: out of range"

def truncAddr (inum i : Nat) : FsM Unit := do
  let ip ← inode inum
  if ip.addrs i ≠ 0 then
    bfree sb (ip.addrs i)
    setInode inum { ip with addrs := update ip.addrs i 0 }
  else return ()

def truncDirect (inum i : Nat) : Nat → FsM Unit
  | 0 => return ()
  | n + 1 => do
    truncAddr sb inum i
    truncDirect inum (i + 1) n

def truncEntries (a : Block) (j : Nat) : Nat → FsM Unit
  | 0 => return ()
  | n + 1 => do
    (if indirect a j ≠ 0 then bfree sb (indirect a j) else pure ())
    truncEntries a (j + 1) n

def truncIndirect (inum : Nat) : FsM Unit := do
  let ip ← inode inum
  if ip.addrs ndirect ≠ 0 then
    let bp ← bread (ip.addrs ndirect)
    truncEntries sb bp 0 nindirect
    brelse (ip.addrs ndirect)
    bfree sb (ip.addrs ndirect)
    setInode inum { ip with addrs := update ip.addrs ndirect 0 }
  else return ()

def itrunc (inum : Nat) : FsM Unit := do
  truncDirect sb inum 0 ndirect
  truncIndirect sb inum
  let ip ← inode inum
  setInode inum { ip with size := 0 }
  iupdate sb inum

def ifree (inum : Nat) : FsM Unit := do
  itrunc sb inum
  let ip ← inode inum
  setInode inum { ip with type := 0 }
  iupdate sb inum
  let k ← getK
  setK (k.setI inum { k.itab inum with valid := false })

/-- `iput`。最後の参照で、リンクもなければ、中身と inode を手放す。 -/
def iput (inum : Nat) : FsM Unit := do
  let k ← getK
  (if (k.itab inum).ref = 1 ∧ (k.itab inum).valid = true ∧ (k.itab inum).d.nlink = 0 then ifree sb inum else pure ())
  let k ← getK
  setK (k.setI inum { k.itab inum with ref := (k.itab inum).ref - 1 })

def iunlockput (inum : Nat) : FsM Unit := do
  iunlock inum
  iput sb inum

/-- `readi` のループ。`user` なら `dst` に写し、そうでなければ `acc` に集める。一回りに一バイトは進むので、`n` 回で足りる。 -/
def readiLoop (inum : Nat) (user : Bool) (dst off tot n : Nat) (acc : Bytes) : Nat → FsM (Option Nat × Bytes)
  | 0 => return (some tot, acc)
  | fuel + 1 => do
    if tot < n then
      let addr ← bmap sb inum (off / bsize)
      if addr = 0 then return (some tot, acc)
      else
        let bp ← bread addr
        let m := min (n - tot) (bsize - off % bsize)
        let ok ← (if user then copyout dst bp (off % bsize) m else pure true)
        brelse addr
        if ok then readiLoop inum user (dst + m) (off + m) (tot + m) n (blit acc tot bp (off % bsize) m) fuel
        else return (none, acc)
    else return (some tot, acc)

/-- `readi`。読んだ大きさ（失敗なら `none`）と、カーネルに写すときの中身を返す。 -/
def readi (inum : Nat) (user : Bool) (dst off n : Nat) : FsM (Option Nat × Bytes) := do
  let ip ← inode inum
  if off > ip.size ∨ 2 ^ 32 ≤ off + n then return (some 0, fun _ => 0)
  else
    let n := if off + n > ip.size then ip.size - off else n
    readiLoop sb inum user dst off 0 n (fun _ => 0) n

inductive Src
  | kernel (data : Bytes)
  | user (addr : Nat)

def Src.copy (bno : Nat) (bp : Block) (o tot m : Nat) : Src → FsM Bool
  | .kernel data => do
    put bno (blit bp o data tot m)
    logWrite bno
    brelse bno
    return true
  | .user addr => do
    if ← copyin bno o (addr + tot) m then
      logWrite bno
      brelse bno
      return true
    else
      brelse bno
      return false

def writeiLoop (inum : Nat) (src : Src) (off tot n : Nat) : Nat → FsM (Nat × Nat)
  | 0 => return (off, tot)
  | fuel + 1 => do
    if tot < n then
      let addr ← bmap sb inum (off / bsize)
      if addr = 0 then return (off, tot)
      else
        let bp ← bread addr
        let m := min (n - tot) (bsize - off % bsize)
        if ← src.copy addr bp (off % bsize) tot m then writeiLoop inum src (off + m) (tot + m) n fuel
        else return (off, tot)
    else return (off, tot)

/-- `writei`。書いた大きさを返す。範囲の外なら `none` である。 -/
def writei (inum : Nat) (src : Src) (off n : Nat) : FsM (Option Nat) := do
  let ip ← inode inum
  if off > ip.size ∨ 2 ^ 32 ≤ off + n then return none
  else if off + n > maxfile * bsize then return none
  else
    let (off, tot) ← writeiLoop sb inum src off 0 n n
    let ip ← inode inum
    (if off > ip.size then setInode inum { ip with size := off } else pure ())
    iupdate sb inum
    return some tot

end Xv6.Fs
