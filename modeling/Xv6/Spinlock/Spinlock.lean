import Xv6.Lib.Machine

/-!
# スピンロックと割り込み

`kernel/spinlock.c` の関数を、CPU ごとの歩として定める。ほかの CPU も触る `lk->locked` と `lk->cpu` の読み書きと、割り込みの入りうる所で
歩を分け、自分の CPU だけが触る続きは一歩とする。
-/

namespace Xv6.Spinlock

open Xv6.Lib

structure Lock where
  locked : Bool
  cpu : Option Nat

/-- 関数の中の位置。`push_off` と `pop_off` の `k` は、`acquire` と `release` から呼ばれたときのロックである。 -/
inductive Pc
  | rest
  | offGet (k : Option Nat)
  | offClear (old : Bool) (k : Option Nat)
  | offCount (old : Bool) (k : Option Nat)
  | acqLocked (l : Nat)
  | acqCpu (l : Nat)
  | acqSwap (l : Nat)
  | acqRecord (l : Nat)
  | relLocked (l : Nat)
  | relCpu (l : Nat)
  | relClear (l : Nat)
  | relStore (l : Nat)
  | pop (k : Option Nat)
  deriving DecidableEq

/-- `struct cpu` と `SSTATUS_SIE`。`frame` は割り込まれたコードの位置である。残りは記録で、`held` は `locked` を自分で立てたロック、`pushed`
は `acquire` によらない `push_off` の数、`want` は最も外の `push_off` の前の `SSTATUS_SIE` である。 -/
structure Cpu where
  noff : Nat
  intena : Bool
  sie : Bool
  pc : Pc
  frame : Option Pc
  held : List Nat
  pushed : Nat
  want : Bool

/-- CPU `c` の次の一歩。`k` は、その位置で読み書きするロックである。 -/
def Cpu.next (x : Cpu) (c : Nat) (k : Lock) : Except String Cpu :=
  match x.pc with
  | .rest => .ok x
  | .offGet k => .ok { x with pc := .offClear x.sie k }
  | .offClear old k => .ok { x with sie := false, pc := .offCount old k }
  | .offCount old k =>
    .ok { x with
      noff := x.noff + 1
      intena := if x.noff = 0 then old else x.intena
      pushed := if k = none then x.pushed + 1 else x.pushed
      pc := k.elim .rest .acqLocked }
  | .acqLocked l => .ok { x with pc := if k.locked then .acqCpu l else .acqSwap l }
  | .acqCpu l => if k.cpu = some c then .error "acquire" else .ok { x with pc := .acqSwap l }
  | .acqSwap l => if k.locked then .ok x else .ok { x with held := l :: x.held, pc := .acqRecord l }
  | .acqRecord _ => .ok { x with pc := .rest }
  | .relLocked l => if k.locked then .ok { x with pc := .relCpu l } else .error "release"
  | .relCpu l => if k.cpu = some c then .ok { x with pc := .relClear l } else .error "release"
  | .relClear l => .ok { x with pc := .relStore l }
  | .relStore l => .ok { x with held := x.held.erase l, pc := .pop (some l) }
  | .pop k =>
    if x.sie then .error "pop_off - interruptible"
    else if x.noff < 1 then .error "pop_off"
    else .ok { x with
      noff := x.noff - 1
      sie := x.noff - 1 = 0 && x.intena
      pushed := if k = none then x.pushed - 1 else x.pushed
      pc := .rest }

def Pc.lock : Pc → Nat
  | .acqLocked l | .acqCpu l | .acqSwap l | .acqRecord l | .relLocked l | .relCpu l | .relClear l | .relStore l => l
  | _ => 0

def Lock.next (k : Lock) (c : Nat) : Pc → Lock
  | .acqSwap _ => { k with locked := true }
  | .acqRecord _ => { k with cpu := some c }
  | .relClear _ => { k with cpu := none }
  | .relStore _ => { k with locked := false }
  | _ => k

structure Sys where
  lock : Nat → Lock
  cpu : Nat → Cpu

def Sys.set (s : Sys) (c : Nat) (x : Cpu) : Sys := { s with cpu := update s.cpu c x }

def Sys.run (s : Sys) (c : Nat) : Except String Sys := do
  let a := (s.cpu c).pc
  let x ← (s.cpu c).next c (s.lock a.lock)
  return { s with lock := update s.lock a.lock ((s.lock a.lock).next c a) }.set c x

def holding (s : Sys) (c l : Nat) : Bool := (s.lock l).locked && (s.lock l).cpu == some c

/-- 割り込んでもよい位置。 -/
def Pc.calm : Pc → Bool
  | .rest | .offGet _ | .relLocked _ | .relCpu _ => true
  | .offClear old _ => old
  | _ => false

/-- はじめの四つは関数を呼ぶこと、`run` は呼んだ関数の一歩、`intr` は `intr_on` と `intr_off`、`trap` と `sret` は割り込みとその戻り、
`sched` は、保存した `intena` と割り込まれた位置を持つ別のスレッドに移ることである。 -/
inductive Event
  | acquire (c l : Nat)
  | release (c l : Nat)
  | pushOff (c : Nat)
  | popOff (c : Nat)
  | run (c : Nat)
  | intr (c : Nat) (on : Bool)
  | trap (c : Nat)
  | sret (c : Nat)
  | sched (c : Nat) (intena : Bool) (frame : Option Pc)

/-- 系の一歩。`pop_off` は前の `push_off` に対して呼ばれ、割り込みの処理はロックを放してから戻る。 -/
def step : Machine Sys Event := fun s e =>
  match e with
  | .acquire c l => if (s.cpu c).pc = .rest then some (.ok (s.set c { s.cpu c with pc := .offGet (some l) })) else none
  | .release c l => if (s.cpu c).pc = .rest then some (.ok (s.set c { s.cpu c with pc := .relLocked l })) else none
  | .pushOff c => if (s.cpu c).pc = .rest then some (.ok (s.set c { s.cpu c with pc := .offGet none })) else none
  | .popOff c =>
    if (s.cpu c).pc = .rest ∧ 0 < (s.cpu c).pushed then some (.ok (s.set c { s.cpu c with pc := .pop none })) else none
  | .run c => some (s.run c)
  | .intr c on =>
    if (s.cpu c).pc = .rest ∧ (s.cpu c).noff = 0 ∧ (s.cpu c).frame = none then
      some (.ok (s.set c { s.cpu c with sie := on, want := on }))
    else none
  | .trap c =>
    if (s.cpu c).sie then
      some (.ok (s.set c { s.cpu c with sie := false, want := false, pc := .rest, frame := some (s.cpu c).pc }))
    else none
  | .sret c =>
    match (s.cpu c).frame with
    | none => none
    | some a =>
      if (s.cpu c).pc = .rest ∧ (s.cpu c).noff = 0 then
        some (.ok (s.set c { s.cpu c with sie := true, want := true, pc := a, frame := none }))
      else none
  | .sched c intena frame =>
    if (s.cpu c).pc = .rest ∧ (s.cpu c).noff = 1 ∧ (s.cpu c).held ≠ [] ∧ frame.all fun a => !intena && a.calm then
      some (.ok (s.set c { s.cpu c with intena, want := intena, frame }))
    else none

/-- 起動したとき。割り込みは切れている。 -/
def init : Sys := ⟨fun _ => ⟨false, none⟩, fun _ => ⟨0, false, false, .rest, none, [], 0, false⟩⟩

end Xv6.Spinlock
