import Xv6.Lib.Machine
import Xv6.Lib.Ring

/-!
# パイプ

`kernel/pipe.c` の関数を定める。`nread` と `nwrite` は 32 ビットの番号である。どの関数も `pi->lock` の下で進むので、`sleep` と戻るまでを一歩と
する。
-/

namespace Xv6.Ipc

open Xv6.Lib

def pipesize : Nat := 512

structure Pipe where
  data : Nat → UInt8
  nread : Nat
  nwrite : Nat
  readopen : Bool
  writeopen : Bool

def pipealloc (data : Nat → UInt8) : Pipe :=
  { data := data, nread := 0, nwrite := 0, readopen := true, writeopen := true }

/-- ロックを持つ間に外から受け取る値。`i` 周目の `killed`、`copyin` のバイト、`copyout` の成否である。 -/
structure Env where
  killed : Nat → Bool
  copyin : Nat → Option UInt8
  copyout : Nat → Bool

inductive Exit
  | sleep (i : Nat)
  | ret (value : Int) (failed : Bool)
  deriving DecidableEq, Repr

def Pipe.put (pi : Pipe) (ch : UInt8) : Pipe :=
  { pi with data := update pi.data (pi.nwrite % pipesize) ch, nwrite := (pi.nwrite + 1) % 2 ^ 32 }

/-- `pipewrite` のループ。残りは `k` バイトである。入れたバイトの列も返す。 -/
def pipewriteLoop (E : Env) (pi : Pipe) (i : Nat) : Nat → Pipe × List UInt8 × Exit
  | 0 => (pi, [], .ret i false)
  | k + 1 =>
    if pi.readopen = false ∨ E.killed i then (pi, [], .ret (-1) false)
    else if pi.nwrite = (pi.nread + pipesize) % 2 ^ 32 then (pi, [], .sleep i)
    else
      match E.copyin i with
      | none => (pi, [], .ret i true)
      | some ch =>
        let (pi', bs, x) := pipewriteLoop E (pi.put ch) (i + 1) k
        (pi', ch :: bs, x)

def pipereadLoop (E : Env) (pi : Pipe) (i : Nat) : Nat → Pipe × List UInt8 × Exit
  | 0 => (pi, [], .ret i false)
  | k + 1 =>
    if pi.nread = pi.nwrite then (pi, [], .ret i false)
    else
      let ch := pi.data (pi.nread % pipesize)
      let pi := { pi with nread := (pi.nread + 1) % 2 ^ 32 }
      if E.copyout i then
        let (pi', bs, x) := pipereadLoop E pi (i + 1) k
        (pi', ch :: bs, x)
      else (pi, [ch], .ret i true)

/-- `pipewrite` が、`i` バイトを入れたところからロックを手放すまで。 -/
def pipewrite (E : Env) (pi : Pipe) (n : Int) (i : Nat) : Pipe × List UInt8 × Exit :=
  pipewriteLoop E pi i (n - i).toNat

/-- `piperead` がロックを手放すまで。空の間は何も取り出さずに眠る。 -/
def piperead (E : Env) (pi : Pipe) (n : Int) : Pipe × List UInt8 × Exit :=
  if pi.nread = pi.nwrite ∧ pi.writeopen then
    if E.killed 0 then (pi, [], .ret (-1) false) else (pi, [], .sleep 0)
  else pipereadLoop E pi 0 n.toNat

/-- `pipeclose`。両端が閉じたら `none`（ページは解放される）。 -/
def pipeclose (pi : Pipe) (writable : Bool) : Option Pipe :=
  let pi := if writable then { pi with writeopen := false } else { pi with readopen := false }
  if pi.readopen = false ∧ pi.writeopen = false then none else some pi

/-! ## 並行な進み方 -/

inductive Kind
  | write
  | read
  deriving DecidableEq, Repr

structure Call where
  id : Nat
  kind : Kind
  n : Int
  i : Nat
  deriving DecidableEq, Repr

structure Return where
  id : Nat
  kind : Kind
  value : Int
  failed : Bool
  deriving DecidableEq, Repr

/-- 入れたバイトと取り出したバイトは、呼び出しの番号とともに記録する。 -/
structure Sys where
  pipe : Option Pipe
  calls : Nat → Option Call
  nextId : Nat
  put : List (Nat × UInt8)
  taken : List (Nat × UInt8)
  returns : List Return

/-- `resume` は、眠っている呼び出しが（余計にでも）起こされてロックを取り直したことを表す。 -/
inductive Event
  | call (p : Nat) (kind : Kind) (n : Int) (E : Env)
  | resume (p : Nat) (E : Env)
  | close (writable : Bool)

def Sys.init (data : Nat → UInt8) : Sys :=
  { pipe := some (pipealloc data), calls := fun _ => none, nextId := 0, put := [], taken := [], returns := [] }

def Sys.leave (s : Sys) (p : Nat) (c : Call) : Exit → Sys
  | .sleep i => { s with calls := update s.calls p (some { c with i := i }) }
  | .ret v failed =>
    { s with calls := update s.calls p none, returns := s.returns ++ [⟨c.id, c.kind, v, failed⟩] }

def Sys.enter (s : Sys) (E : Env) (pi : Pipe) (p : Nat) (c : Call) : Sys :=
  match c.kind with
  | .write =>
    let (pi', bs, x) := pipewrite E pi c.n c.i
    { s with pipe := some pi', put := s.put ++ bs.map fun b => (c.id, b) }.leave p c x
  | .read =>
    let (pi', bs, x) := piperead E pi c.n
    { s with pipe := some pi', taken := s.taken ++ bs.map fun b => (c.id, b) }.leave p c x

/-- 解放されたパイプには何も起こらない。`file.c` の参照の数がそれを保証する。 -/
def Sys.step : Machine Sys Event := fun s e =>
  match s.pipe with
  | none => none
  | some pi =>
    match e with
    | .call p kind n E =>
      match s.calls p with
      | some _ => none
      | none => some (.ok ({ s with nextId := s.nextId + 1 }.enter E pi p ⟨s.nextId, kind, n, 0⟩))
    | .resume p E =>
      match s.calls p with
      | none => none
      | some c => some (.ok (s.enter E pi p c))
    | .close writable => some (.ok { s with pipe := pipeclose pi writable })

end Xv6.Ipc
