import Xv6.Lib.Machine
import Xv6.Vm.Proc
import Mathlib.Tactic.Simps.Basic

/-!
# スリープロック

`kernel/sleeplock.c` の関数を、`sleep`、`wakeup`、`kill` の歩とともに定める。一つのスピンロックを取って手放すだけの区間は一歩とする。
-/

namespace Xv6.Sleeplock

open Xv6.Lib
open Xv6.Vm (ProcState)

/-- `sleepEnter` から `again` までは `sleep` の中、`wake` は `wakeup` のループの中である。`ask` の `mine` は、ロックを持
って呼んだことである。 -/
inductive Pc
  | out
  | enter
  | test
  | sleepEnter
  | sleepHeld
  | sleepFall
  | sleepSched
  | asleep
  | tidy
  | again
  | take
  | leave
  | held
  | relEnter
  | clear
  | wake (k : Nat)
  | relLeave
  | askEnter (mine : Bool)
  | ask (mine : Bool)
  | askLeave (mine r : Bool)
  deriving DecidableEq

/-- `lk` は `lk->lk` の持ち主、`plock p` は `p->lock` が取られていること、`chan p` は `p->chan` がこのロックであること。 -/
structure Sys where
  pc : Nat → Pc
  lk : Option Nat
  plock : Nat → Bool
  locked : Bool
  pid : Nat
  state : Nat → ProcState
  chan : Nat → Bool

@[simps]
def Sys.goto (s : Sys) (p : Nat) (a : Pc) : Sys := { s with pc := update s.pc p a }

@[simps]
def Sys.own (s : Sys) (o : Option Nat) : Sys := { s with lk := o }

@[simps]
def Sys.hold (s : Sys) (p : Nat) (b : Bool) : Sys := { s with plock := update s.plock p b }

@[simps]
def Sys.row (s : Sys) (p : Nat) (x : ProcState) (c : Bool) : Sys :=
  { s with state := update s.state p x, chan := update s.chan p c }

@[simps]
def Sys.set (s : Sys) (b : Bool) (n : Nat) : Sys := { s with locked := b, pid := n }

def Sys.acquire (s : Sys) (p : Nat) (a : Pc) : Option Sys := if s.lk = none then some ((s.own (some p)).goto p a) else none

def Sys.wakeup (s : Sys) (k : Nat) : Sys := if s.state k = .sleeping ∧ s.chan k then s.row k .runnable (s.chan k) else s

def Sys.kill (s : Sys) (k : Nat) : Sys := if s.state k = .sleeping then s.row k .runnable (s.chan k) else s

def Sys.holdingsleep (s : Sys) (pid : Nat) : Bool := s.locked && s.pid == pid

variable (nproc : Nat) (pid : Nat → Nat)

def run (s : Sys) (p : Nat) : Option Sys :=
  match s.pc p with
  | .out | .held | .asleep => none
  | .enter | .again => s.acquire p .test
  | .test => some (s.goto p (if s.locked then .sleepEnter else .take))
  | .sleepEnter => if s.plock p = false then some ((s.hold p true).goto p .sleepHeld) else none
  | .sleepHeld => some ((s.own none).goto p .sleepFall)
  | .sleepFall => some ((s.row p .sleeping true).goto p .sleepSched)
  | .sleepSched => some ((s.hold p false).goto p .asleep)
  | .tidy => some (((s.row p (s.state p) false).hold p false).goto p .again)
  | .take => some ((s.set true (pid p)).goto p .leave)
  | .leave => some ((s.own none).goto p .held)
  | .relEnter => s.acquire p .clear
  | .clear => some ((s.set false 0).goto p (.wake 0))
  | .wake k =>
    if k < nproc then
      if k = p then some (s.goto p (.wake (k + 1)))
      else if s.plock k = false then some ((s.wakeup k).goto p (.wake (k + 1)))
      else none
    else some (s.goto p .relLeave)
  | .relLeave => some ((s.own none).goto p .out)
  | .askEnter mine => s.acquire p (.ask mine)
  | .ask mine => some (s.goto p (.askLeave mine (s.holdingsleep (pid p))))
  | .askLeave mine _ => some ((s.own none).goto p (if mine then .held else .out))

/-- `acquire`、`release`、`holding` は三つの関数を呼ぶこと、`dispatch` はスケジューラが走らせることである。 -/
inductive Event
  | acquire (p : Nat)
  | release (p : Nat)
  | holding (p : Nat)
  | run (p : Nat)
  | kill (p : Nat)
  | dispatch (p : Nat)

def Event.proc : Event → Nat
  | .acquire p | .release p | .holding p | .run p | .kill p | .dispatch p => p

/-- プロセスを区別しない一歩。`releasesleep` は、ロックを持つプロセスだけが呼ぶ。 -/
def move (s : Sys) : Event → Option Sys
  | .acquire p => if s.pc p = .out then some (s.goto p .enter) else none
  | .release p => if s.pc p = .held then some (s.goto p .relEnter) else none
  | .holding p =>
    match s.pc p with
    | .out => some (s.goto p (.askEnter false))
    | .held => some (s.goto p (.askEnter true))
    | _ => none
  | .run p => run nproc pid s p
  | .kill p => if s.plock p = false then some (s.kill p) else none
  | .dispatch p =>
    if s.plock p = false ∧ s.pc p = .asleep ∧ s.state p = .runnable then
      some (((s.row p .running (s.chan p)).hold p true).goto p .tidy)
    else none

def step : Machine Sys Event := fun s e => if e.proc < nproc then (move nproc pid s e).map .ok else none

def init : Sys where
  pc _ := .out
  lk := none
  plock _ := false
  locked := false
  pid := 0
  state _ := .running
  chan _ := false

end Xv6.Sleeplock
