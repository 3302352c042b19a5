import Xv6.Lib.Machine
import Xv6.Vm.Proc

/-!
# スケジューラ

`kernel/proc.c` の既定の `scheduler` と、`sched` を通る関数、ほかのプロセスの状態を変える関数を、CPU ごとの居場所として定める。`p->lock` の取得と解放、
ロックの下の書き換え、`swtch` を、それぞれ一歩とする。
-/

namespace Xv6.Sched

open Xv6.Lib
open Xv6.Vm (ProcState nproc)

inductive Why
  | yield
  | sleep (chan : Nat)
  | exit
  deriving DecidableEq, Repr

/-- `p->context` の戻り先。`allocproc` が置いた `forkret` か、`sched` の続きである。 -/
inductive Ctx
  | forkret
  | sched (w : Why)
  deriving DecidableEq, Repr

/-- `struct proc` のうち、スケジューラが使う欄。`context` は、戻り先が保存されているときだけ値を持つ。 -/
structure Proc where
  state : ProcState
  chan : Nat
  killed : Bool
  context : Option Ctx
  deriving DecidableEq

inductive Act
  /-- `scheduler` のループで、`p` のロックを取る前。 -/
  | scan (p : Nat)
  /-- `p` のロックを取り、状態を調べる前。 -/
  | check (p : Nat)
  /-- `p->state = RUNNING` の後、`c->proc = p` の前。 -/
  | picking (p : Nat)
  /-- `swtch(&c->context, &p->context)` の前。 -/
  | chosen (p : Nat)
  /-- `p` に移り、ロックを放す前。 -/
  | resume (p : Nat) (k : Ctx)
  /-- `p` として走っている。 -/
  | thread (p : Nat)
  /-- `p` が自分のロックを取り、状態を変える前。 -/
  | own (p : Nat) (w : Why)
  /-- 状態を変え、`sched` の `swtch` の前。 -/
  | leaving (p : Nat) (w : Why)
  /-- `scheduler` に戻り、`c->proc = 0` の前。 -/
  | back (p : Nat)
  /-- `c->proc = 0` の後、`p` のロックを放す前。 -/
  | done (p : Nat)
  /-- プロセス `p` が `q` のロックを取った。 -/
  | touch (p q : Nat)
  /-- プロセスのない CPU の割り込みの `wakeup` が、`q` のロックを取った。 -/
  | poke (i q : Nat)
  deriving DecidableEq, Repr

/-- `lock p` は `p->lock` を持つ CPU、`cur c` は `c->proc` である。`home` は証明のための記録で、`p` を選んでから
`c->proc` を消すまでの CPU を表す。 -/
structure Sys where
  proc : Nat → Proc
  lock : Nat → Option Nat
  cur : Nat → Option Nat
  act : Nat → Act
  home : Nat → Option Nat

namespace Sys

@[simps]
def go (s : Sys) (c : Nat) (a : Act) : Sys := { s with act := update s.act c a }

@[simps]
def setProc (s : Sys) (p : Nat) (x : Proc) : Sys := { s with proc := update s.proc p x }

@[simps]
def setLock (s : Sys) (p : Nat) (o : Option Nat) : Sys := { s with lock := update s.lock p o }

@[simps]
def setCur (s : Sys) (c : Nat) (o : Option Nat) : Sys := { s with cur := update s.cur c o }

@[simps]
def setHome (s : Sys) (p : Nat) (o : Option Nat) : Sys := { s with home := update s.home p o }

def acquire (s : Sys) (c p : Nat) (a : Act) : Option (Except String Sys) :=
  if s.lock p = none then some (.ok ((s.setLock p (some c)).go c a)) else none

def release (s : Sys) (c p : Nat) (a : Act) : Option (Except String Sys) := some (.ok ((s.setLock p none).go c a))

end Sys

def Why.apply (x : Proc) : Why → Proc
  | .yield => { x with state := .runnable }
  | .sleep chan => { x with chan := chan, state := .sleeping }
  | .exit => { x with state := .zombie }

/-- ほかのプロセスのロックの下で行うこと。`wakeup`、`kill`、`allocproc` の初期化、`fork` の最後、`freeproc` である。 -/
inductive Op
  | wakeup (chan : Nat)
  | kill
  | alloc
  | start
  | free
  deriving DecidableEq, Repr

def Op.apply (x : Proc) : Op → Proc
  | .wakeup chan => if x.state = .sleeping ∧ x.chan = chan then { x with state := .runnable } else x
  | .kill => { x with killed := true, state := if x.state = .sleeping then .runnable else x.state }
  | .alloc => if x.state = .unused then { x with state := .used, context := some .forkret } else x
  | .start => if x.state = .used then { x with state := .runnable } else x
  | .free =>
    if x.state = .used ∨ x.state = .zombie then { x with state := .unused, chan := 0, killed := false } else x

inductive Cmd
  | go
  | leave (w : Why)
  | lock (q : Nat)
  | op (o : Op)
  deriving DecidableEq, Repr

def nextProc (p : Nat) : Nat := (p + 1) % nproc

def Sys.next (s : Sys) (c : Nat) : Act → Cmd → Option (Except String Sys)
  | .scan p, .go => s.acquire c p (.check p)
  | .scan i, .lock q => s.acquire c q (.poke i q)
  | .check p, .go =>
    if (s.proc p).state = .runnable then
      some (.ok (((s.setProc p { s.proc p with state := .running }).setHome p (some c)).go c (.picking p)))
    else s.release c p (.scan (nextProc p))
  | .picking p, .go => some (.ok ((s.setCur c (some p)).go c (.chosen p)))
  | .chosen p, .go =>
    match (s.proc p).context with
    | some k => some (.ok ((s.setProc p { s.proc p with context := none }).go c (.resume p k)))
    | none => none
  | .resume p .forkret, .go => s.release c p (.thread p)
  | .resume p (.sched .yield), .go => s.release c p (.thread p)
  | .resume p (.sched (.sleep _)), .go =>
    some (.ok ((s.setProc p { s.proc p with chan := 0 }).go c (.resume p (.sched .yield))))
  | .resume _ (.sched .exit), .go => some (.error "zombie exit")
  | .thread p, .leave w => s.acquire c p (.own p w)
  | .thread p, .lock q => s.acquire c q (.touch p q)
  | .own p w, .go => some (.ok ((s.setProc p (w.apply (s.proc p))).go c (.leaving p w)))
  | .leaving p w, .go =>
    if (s.proc p).state = .running then some (.error "sched running")
    else some (.ok ((s.setProc p { s.proc p with context := some (.sched w) }).go c (.back p)))
  | .back p, .go => some (.ok (((s.setCur c none).setHome p none).go c (.done p)))
  | .done p, .go => s.release c p (.scan (nextProc p))
  | .touch p q, .op o => some (.ok ((s.setProc q (o.apply (s.proc q))).go c (.touch p q)))
  | .touch p q, .go => s.release c q (.thread p)
  | .poke i q, .op (.wakeup chan) => some (.ok ((s.setProc q (Op.apply (s.proc q) (.wakeup chan))).go c (.poke i q)))
  | .poke i q, .go => s.release c q (.scan i)
  | _, _ => none

structure Event where
  cpu : Nat
  cmd : Cmd

def step : Machine Sys Event := fun s e => s.next e.cpu (s.act e.cpu) e.cmd

def boot : Sys where
  proc := fun p => if p = 0 then ⟨.runnable, 0, false, some .forkret⟩ else ⟨.unused, 0, false, none⟩
  lock := fun _ => none
  cur := fun _ => none
  act := fun _ => .scan 0
  home := fun _ => none

end Xv6.Sched
