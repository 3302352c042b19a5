import Xv6.Lib.Bytes
import Xv6.Lib.Crash
import Xv6.Log.Log

/-!
# コミットと回復

`kernel/log.c` の `commit` と `recover_from_log` を、バッファの命令の列として定める。ブロック一つの書き込み
`bwrite` は不可分であり、機械はその直前で止まりうる。
-/

namespace Xv6.Log

open Xv6.Lib

abbrev Block := Bytes

structure Geometry where
  start : Nat
  size : Nat

def Geometry.InLog (G : Geometry) (b : Nat) : Prop := G.start ≤ b ∧ b < G.start + G.size

/-- `log.c` が使う命令。`getLh` と `setLh` はメモリの `log.lh` を読み書きする。 -/
inductive LogOp
  | bread (b : Nat)
  | put (b : Nat) (d : Block)
  | bwrite (b : Nat)
  | brelse (b : Nat)
  | bunpin (b : Nat)
  | getLh
  | setLh (lh : List Nat)

def LogOp.Resp : LogOp → Type
  | .bread _ => Block
  | .getLh => List Nat
  | _ => Unit

abbrev LogM := Free LogOp LogOp.Resp

def bread (b : Nat) : LogM Block := Free.send (LogOp.bread b)

def put (b : Nat) (d : Block) : LogM Unit := Free.send (LogOp.put b d)

def bwrite (b : Nat) : LogM Unit := Free.send (LogOp.bwrite b)

def brelse (b : Nat) : LogM Unit := Free.send (LogOp.brelse b)

def bunpin (b : Nat) : LogM Unit := Free.send (LogOp.bunpin b)

def getLh : LogM (List Nat) := Free.send LogOp.getLh

def setLh (lh : List Nat) : LogM Unit := Free.send (LogOp.setLh lh)

/-- `struct logheader` の `n` と `block[0..n)` を読む。`n` が負なら何も読まない。 -/
def readHeader (d : Block) : List Nat :=
  if getLE d 0 4 < 2 ^ 31 then (List.range (getLE d 0 4)).map fun i => getLE d (4 + 4 * i) 4 else []

def putBlocks (d : Block) : Nat → List Nat → Block
  | _, [] => d
  | i, b :: bs => putBlocks (putLE d (4 + 4 * i) 4 b) (i + 1) bs

def writeHeader (d : Block) (lh : List Nat) : Block := putBlocks (putLE d 0 4 lh.length) 0 lh

def readHead (G : Geometry) : LogM Unit := do
  let buf ← bread G.start
  setLh (readHeader buf)
  brelse G.start

def writeHead (G : Geometry) : LogM Unit := do
  let buf ← bread G.start
  let lh ← getLh
  put G.start (writeHeader buf lh)
  bwrite G.start
  brelse G.start

/-! ## 本体 -/

def installLoop (G : Geometry) (recovering : Bool) : Nat → List Nat → LogM Unit
  | _, [] => pure ()
  | tail, b :: bs => do
    let lbuf ← bread (G.start + tail + 1)
    let _ ← bread b
    put b lbuf
    bwrite b
    (if recovering then pure () else bunpin b)
    brelse (G.start + tail + 1)
    brelse b
    installLoop G recovering (tail + 1) bs

def installTrans (G : Geometry) (recovering : Bool) : LogM Unit := do
  installLoop G recovering 0 (← getLh)

def writeLogLoop (G : Geometry) : Nat → List Nat → LogM Unit
  | _, [] => pure ()
  | tail, b :: bs => do
    let _ ← bread (G.start + tail + 1)
    let «from» ← bread b
    put (G.start + tail + 1) «from»
    bwrite (G.start + tail + 1)
    brelse b
    brelse (G.start + tail + 1)
    writeLogLoop G (tail + 1) bs

def writeLog (G : Geometry) : LogM Unit := do
  writeLogLoop G 0 (← getLh)

def recoverFromLog (G : Geometry) : LogM Unit := do
  readHead G
  installTrans G true
  setLh []
  writeHead G

def commit (G : Geometry) : LogM Unit := do
  let lh ← getLh
  if lh.length > 0 then
    writeLog G
    writeHead G
    installTrans G false
    setLh []
    writeHead G
  else pure ()

/-! ## 機械 -/

/-- ディスク、有効なバッファの中身、メモリの `log.lh`、これまでの書き込みの回数。 -/
structure Mach where
  disk : Nat → Block
  cache : Nat → Option Block
  lh : List Nat
  nwrites : Nat

def Mach.content (m : Mach) (b : Nat) : Block := (m.cache b).getD (m.disk b)

def LogOp.apply : (i : LogOp) → Mach → i.Resp × Mach
  | .bread b, m => (m.content b, { m with cache := update m.cache b (some (m.content b)) })
  | .put b d, m => ((), { m with cache := update m.cache b (some d) })
  | .bwrite b, m =>
    ((), { m with disk := update m.disk b (m.content b), nwrites := m.nwrites + 1 })
  | .brelse _, m => ((), m)
  | .bunpin _, m => ((), m)
  | .getLh, m => (m.lh, m)
  | .setLh lh, m => ((), { m with lh := lh })

def LogOp.writes : LogOp → Bool
  | .bwrite _ => true
  | _ => false

def Mach.boot (disk : Nat → Block) : Mach := { disk, cache := fun _ => none, lh := [], nwrites := 0 }

/-- `commit` の途中で、`k` 回書いた後に止まったときのディスク。 -/
def crashCommit (G : Geometry) (m : Mach) (k : Nat) : Nat → Block :=
  (Free.exec LogOp.apply LogOp.writes (commit G) m k).state.disk

/-- 起動して回復を始め、ちょうど `k` 回書いた後に止まったときのディスク。 -/
def crashRecover (G : Geometry) (disk : Nat → Block) (k : Nat) : Nat → Block :=
  (Free.exec LogOp.apply LogOp.writes (recoverFromLog G) (.boot disk) k).state.disk

def recovered (G : Geometry) (disk : Nat → Block) : Nat → Block :=
  (Free.eval LogOp.apply (recoverFromLog G) (.boot disk)).2.disk

/-- `commit` が `k` 回書いて止まり、続く回復が `ks` の回数ずつ書いて止まり、最後に回復を終えたディスク。 -/
def survive (G : Geometry) (m : Mach) (k : Nat) (ks : List Nat) : Nat → Block :=
  recovered G (ks.foldl (crashRecover G) (crashCommit G m k))

/-- `log_write` を重ねた末に `commit` を始めるときの `log.lh`。 -/
structure Txn (G : Geometry) (lh : List Nat) : Prop where
  nodup : lh.Nodup
  fits : lh.length ≤ logsize
  small : lh.length + 1 ≤ G.size
  blockno : ∀ b ∈ lh, b < 2 ^ 32
  home : ∀ b ∈ lh, ¬ G.InLog b

def Mach.after (m : Mach) (b : Nat) : Block := if b ∈ m.lh then m.content b else m.disk b

end Xv6.Log
