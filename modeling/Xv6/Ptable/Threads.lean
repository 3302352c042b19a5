import Xv6.Ptable.Calls
import Mathlib.Tactic.Simps.Basic

/-!
# 割り込まれる呼び出し

任意個の CPU の上で、プロセスが呼び出しを行う。ロックを持ち越すところで歩を分ける。`nextpid++` は `p->lock` しか持たずに行うので、読むことと書くことを別の歩とする。
`nextpid` の桁あふれから先の歩はない。
-/

namespace Xv6.Ptable

open Xv6.Vm (ProcState nproc)
open Xv6.Lib

def initproc : Nat := 0

/-- `wait_lock` の番号。ほかの番号は、`sleep` に渡されるスピンロックである。 -/
def waitLock : Nat := 0

/-- `x` は `waitx` であること、`addr` は結果を写す番地が零でないこと。 -/
structure WaitArgs where
  x : Bool
  addr : Bool
  deriving DecidableEq, Repr

/-- `wakeup` のループ。`due i` は、始めたときに欄 `i` が `chan` で行っていた眠りの番号である。 -/
structure Scan where
  chan : Nat
  k : Nat
  due : Nat → Nat

inductive WakeRet
  | run
  | reparent (st : Int) (k : Nat)
  | zombie (st : Int)
  deriving DecidableEq, Repr

inductive SleepRet
  | run
  | wait (w : WaitArgs)
  deriving DecidableEq, Repr

/-- カーネルの中の位置。`k` は見ている欄、または作っている子の欄である。 -/
inductive Pc
  | run
  | dead
  | forkScan (k : Nat)
  | forkPid (k : Nat)
  | forkLoad (k : Nat)
  | forkStore (k : Nat) (r : Int)
  | forkFill (k : Nat)
  | forkParent (k : Nat)
  | forkReady (k : Nat)
  | exitLock (st : Int)
  | exitReparent (st : Int) (k : Nat)
  | exitZombie (st : Int)
  | zombie
  | waitLock (w : WaitArgs)
  | waitScan (w : WaitArgs) (k : Nat) (havekids : Bool)
  | waitTest (w : WaitArgs) (havekids : Bool)
  | killScan (pid : Int) (k : Nat)
  | wake (sc : Scan) (r : WakeRet)
  | sleepEnter (c l : Nat) (r : SleepRet)
  | sleepHeld (c l : Nat) (r : SleepRet)
  | sleepFall (c l : Nat) (r : SleepRet)
  | asleep (c l : Nat) (r : SleepRet)
  | reacquire (l : Nat) (r : SleepRet)

/-- `freed` は解放した子の欄、`out` は写した終了値、`times` は `waitx` の二つの時間である。 -/
structure Waited where
  caller : Nat
  value : Int
  freed : Option Nat
  out : Option Int
  times : Option (Nat × Nat)
  deriving DecidableEq, Repr

/-- `plock` は `p->lock` の、`lock` はそのほかのロックの持ち主である。以下は履歴で、`maker` は欄を作っているプロセス、`began` と `ended` は眠りの
数、`bchan` と `bwait` は最後の眠りの場所と `wait` の中かどうか、`wakeInit` は `initproc` を起こす前であること、`exits` と `frees` は回
数を表す。 -/
structure Sys where
  procs : Nat → Proc
  pc : Nat → Pc
  plock : Nat → Option Nat
  lock : Nat → Option Nat
  nextpid : Int
  ticks : Nat
  maker : Nat → Option Nat
  began : Nat → Nat
  ended : Nat → Nat
  bchan : Nat → Nat
  bwait : Nat → Bool
  wakeInit : Bool
  exits : Nat → Nat
  frees : Nat → Nat
  waits : List Waited

/-! ## 状態の書き換え -/

@[simps]
def Sys.goto (s : Sys) (p : Nat) (a : Pc) : Sys := { s with pc := update s.pc p a }

@[simps]
def Sys.hold (s : Sys) (k : Nat) (o : Option Nat) : Sys := { s with plock := update s.plock k o }

@[simps]
def Sys.own (s : Sys) (l : Nat) (o : Option Nat) : Sys := { s with lock := update s.lock l o }

@[simps]
def Sys.row (s : Sys) (k : Nat) (x : Proc) : Sys := { s with procs := update s.procs k x }

/-- 欄 `k` を `x` にする。眠りから覚めたなら、その眠りは終わる。 -/
@[simps]
def Sys.rouse (s : Sys) (k : Nat) (x : Proc) : Sys :=
  { s with
    procs := update s.procs k x
    ended := update s.ended k
      (if (s.procs k).state = .sleeping ∧ x.state = .runnable then s.began k else s.ended k) }

@[simps]
def Sys.doze (s : Sys) (p c l : Nat) (r : SleepRet) : Sys :=
  { s with
    lock := update s.lock l none
    began := update s.began p (s.began p + 1)
    bchan := update s.bchan p c
    bwait := update s.bwait p (r ≠ .run) }

@[simps]
def Sys.make (s : Sys) (k : Nat) (o : Option Nat) : Sys := { s with maker := update s.maker k o }

@[simps]
def Sys.number (s : Sys) (k : Nat) (x : Proc) (n : Int) : Sys :=
  { s with procs := update s.procs k x, nextpid := n }

@[simps]
def Sys.adopt (s : Sys) (k : Nat) : Sys :=
  { s with
    procs := update s.procs k { s.procs k with parent := some initproc }
    wakeInit := true }

@[simps!]
def Sys.look (s : Sys) (k c : Nat) : Sys :=
  { s.rouse k ((s.procs k).wake c) with
    wakeInit := if k = initproc ∧ c = procAddr initproc then false else s.wakeInit }

@[simps]
def Sys.reap (s : Sys) (k : Nat) : Sys :=
  { s with
    procs := update s.procs k (s.procs k).freeproc
    frees := update s.frees k (s.frees k + 1) }

@[simps]
def Sys.finish (s : Sys) (p : Nat) (st : Int) : Sys :=
  { s with
    procs := update s.procs p { s.procs p with xstate := st, state := .zombie, etime := s.ticks }
    exits := update s.exits p (s.exits p + 1) }

@[simps]
def Sys.report (s : Sys) (r : Waited) : Sys := { s with waits := s.waits ++ [r] }

def Sys.startScan (s : Sys) (p c : Nat) : Scan where
  chan := c
  k := 0
  due i := if i ≠ p ∧ s.ended i < s.began i ∧ s.bchan i = c then s.began i else 0

/-- `allocproc` の割り当てから `fork` の写しまで。失敗すれば `.error` で、そのときの欄を返す。 -/
def Proc.build (np p : Proc) (a : Alloc) (ticks : Nat) : Except Proc Proc :=
  match a.trapframe, a.pagetable with
  | some tf, some pg =>
    let np := np.setup a.forkret tf pg ticks
    if a.copied then .ok (np.copyFrom p) else .error np
  | some tf, none => .error { np with trapframe := some tf }
  | none, _ => .error np

def Proc.times (x : Proc) : Nat × Nat :=
  (x.rtime, (x.etime + 2 * 2 ^ 32 - x.ctime - x.rtime) % 2 ^ 32)

/-! ## 一歩 -/

/-- 走っているプロセスが新しく行うこと。`acquire` と `release` は `wait_lock` のほかのロックの操作である。 -/
inductive Act
  | fork
  | exit (st : Int)
  | wait (w : WaitArgs)
  | kill (pid : Int)
  | wakeup (c : Nat)
  | sleep (c l : Nat)
  | acquire (l : Nat)
  | release (l : Nat)
  | setkilled

structure Env where
  alloc : Alloc
  copied : Bool

/-- `next` は呼び出しの続き、`yield` は時計の割り込みで CPU を譲ること、`charge` は `update_time` が、`poke` は割り込みの
中の `wakeup` が、一つの欄を見ることを表す。 -/
inductive Move
  | act (p : Nat) (a : Act)
  | next (p : Nat) (E : Env)
  | schedule (p : Nat)
  | yield (p : Nat)
  | tick
  | charge (k : Nat)
  | poke (k c : Nat)

def Pc.isOpen : Pc → Bool
  | .run | .forkScan _ | .forkParent _ | .forkReady _ | .exitLock _ | .waitLock _ | .killScan _ _ | .wake _ .run
  | .reacquire _ _ => true
  | _ => false

def Sys.act (s : Sys) (p : Nat) : Act → Option (Except String Sys)
  | .fork => some (.ok (s.goto p (.forkScan 0)))
  | .exit st => some (if p = initproc then .error "init exiting" else .ok (s.goto p (.exitLock st)))
  | .wait w => some (.ok (s.goto p (.waitLock w)))
  | .kill pid => some (.ok (s.goto p (.killScan pid 0)))
  | .wakeup c => some (.ok (s.goto p (.wake (s.startScan p c) .run)))
  | .sleep c l =>
    if l ≠ waitLock ∧ s.lock l = some p then some (.ok (s.goto p (.sleepEnter c l .run))) else none
  | .acquire l => if l ≠ waitLock ∧ s.lock l = none then some (.ok (s.own l (some p))) else none
  | .release l => if l ≠ waitLock ∧ s.lock l = some p then some (.ok (s.own l none)) else none
  | .setkilled =>
    if s.plock p = none then some (.ok (s.row p { s.procs p with killed := true })) else none

def WakeRet.pc : WakeRet → Pc
  | .run => .run
  | .reparent st k => .exitReparent st k
  | .zombie st => .exitZombie st

def SleepRet.pc : SleepRet → Pc
  | .run => .run
  | .wait w => .waitScan w 0 false

def intMax : Int := 2 ^ 31 - 1

/-- 呼び出しの続きを一歩進める。要るロックが空いていなければ `none` である。 -/
def Sys.next (s : Sys) (p : Nat) (E : Env) : Option Sys :=
  match s.pc p with
  | .forkScan k =>
    if k ≥ nproc then some (s.goto p .run)
    else if s.plock k ≠ none then none
    else if (s.procs k).state = .unused then some (((s.hold k (some p)).make k (some p)).goto p (.forkPid k))
    else some (s.goto p (.forkScan (k + 1)))
  | .forkPid k =>
    if s.nextpid < intMax then
      some ((s.number k { s.procs k with pid := s.nextpid } (s.nextpid + 1)).goto p (.forkLoad k))
    else none
  | .forkLoad k => some ((s.row k { s.procs k with state := .used }).goto p (.forkStore k s.nextpid))
  | .forkStore k r =>
    if r < intMax then some ((s.number k { s.procs k with pid := r, priority := 60 } (r + 1)).goto p (.forkFill k))
    else none
  | .forkFill k =>
    match (s.procs k).build (s.procs p) E.alloc s.ticks with
    | .ok x => some (((s.row k x).hold k none).goto p (.forkParent k))
    | .error x => some ((((s.row k x.freeproc).make k none).hold k none).goto p .run)
  | .forkParent k =>
    if s.lock waitLock = none then
      some ((s.row k { s.procs k with parent := some p }).goto p (.forkReady k))
    else none
  | .forkReady k =>
    if s.plock k = none then
      some ((((s.make k none).row k { s.procs k with state := .runnable }).goto k .run).goto p .run)
    else none
  | .exitLock st =>
    if s.lock waitLock = none then some ((s.own waitLock (some p)).goto p (.exitReparent st 0)) else none
  | .exitReparent st k =>
    if k ≥ nproc then some (s.goto p (.wake (s.startScan p (s.procs p).parentAddr) (.zombie st)))
    else if (s.procs k).parent = some p then
      some ((s.adopt k).goto p (.wake (s.startScan p (procAddr initproc)) (.reparent st (k + 1))))
    else some (s.goto p (.exitReparent st (k + 1)))
  | .exitZombie st =>
    if s.plock p = none then
      some ((((s.hold p (some p)).finish p st).own waitLock none).goto p .zombie)
    else none
  | .zombie => some ((s.hold p none).goto p .dead)
  | .waitLock w =>
    if s.lock waitLock = none then some ((s.own waitLock (some p)).goto p (.waitScan w 0 false)) else none
  | .waitScan w k hk =>
    if k ≥ nproc then some (s.goto p (.waitTest w hk))
    else if (s.procs k).parent = some p then
      if s.plock k ≠ none then none
      else if (s.procs k).state = .zombie then
        let times := if w.x then some (s.procs k).times else none
        if w.addr ∧ ¬E.copied then
          some (((s.own waitLock none).report ⟨p, -1, none, none, times⟩).goto p .run)
        else
          some ((((s.reap k).own waitLock none).report
            ⟨p, (s.procs k).pid, some k, if w.addr then some (s.procs k).xstate else none, times⟩).goto p .run)
      else some (s.goto p (.waitScan w (k + 1) true))
    else some (s.goto p (.waitScan w (k + 1) hk))
  | .waitTest w hk =>
    -- `wait` は `killed` を呼んで `p->lock` を取り、`waitx` は欄をそのまま読む。
    if hk = true ∧ w.x = false ∧ s.plock p ≠ none then none
    else if hk = false ∨ (s.procs p).killed then
      some (((s.own waitLock none).report ⟨p, -1, none, none, none⟩).goto p .run)
    else some (s.goto p (.sleepEnter (procAddr p) waitLock (.wait w)))
  | .killScan pid k =>
    if k ≥ nproc then some (s.goto p .run)
    else if s.plock k ≠ none then none
    else if (s.procs k).pid = pid then some ((s.rouse k (s.procs k).kill).goto p .run)
    else some (s.goto p (.killScan pid (k + 1)))
  | .wake sc r =>
    if sc.k ≥ nproc then some (s.goto p r.pc)
    else if sc.k = p then some (s.goto p (.wake { sc with k := sc.k + 1 } r))
    else if s.plock sc.k ≠ none then none
    else some ((s.look sc.k sc.chan).goto p (.wake { sc with k := sc.k + 1 } r))
  | .sleepEnter c l r => if s.plock p = none then some ((s.hold p (some p)).goto p (.sleepHeld c l r)) else none
  | .sleepHeld c l r => some ((s.doze p c l r).goto p (.sleepFall c l r))
  | .sleepFall c l r =>
    some (((s.row p { s.procs p with chan := c, state := .sleeping }).hold p none).goto p (.asleep c l r))
  | .reacquire l r => if s.lock l = none then some ((s.own l (some p)).goto p r.pc) else none
  | .run | .dead | .asleep _ _ _ => none

def Sys.step : Machine Sys Move := fun s m =>
  match m with
  | .act p a =>
    match s.pc p with
    | .run => if p < nproc ∧ (s.procs p).state = .running then s.act p a else none
    | _ => none
  | .next p E =>
    if p < nproc ∧ ((s.procs p).state = .running ∨ (s.procs p).state = .zombie) then (s.next p E).map .ok else none
  | .schedule p =>
    if p < nproc ∧ s.plock p = none ∧ (s.procs p).state = .runnable then
      match s.pc p with
      | .asleep _ l r => some (.ok ((s.row p { s.procs p with state := .running, chan := 0 }).goto p (.reacquire l r)))
      | _ => some (.ok (s.row p { s.procs p with state := .running }))
    else none
  | .yield p =>
    if p < nproc ∧ s.plock p = none ∧ (s.procs p).state = .running ∧ (s.pc p).isOpen then
      some (.ok (s.row p { s.procs p with state := .runnable }))
    else none
  | .tick => some (.ok { s with ticks := (s.ticks + 1) % 2 ^ 32 })
  | .charge k =>
    if k < nproc ∧ s.plock k = none then
      if (s.procs k).state = .running then
        some (.ok (s.row k { s.procs k with rtime := ((s.procs k).rtime + 1) % 2 ^ 32 }))
      else some (.ok s)
    else none
  | .poke k c => if k < nproc ∧ s.plock k = none then some (.ok (s.look k c)) else none

def Sys.boot (forkret tf pg root : Nat) : Sys where
  procs := (Table.boot ⟨forkret, some tf, some pg, true⟩ root).procs
  pc i := if i = initproc then .run else .dead
  plock _ := none
  lock _ := none
  nextpid := (Table.boot ⟨forkret, some tf, some pg, true⟩ root).nextpid
  ticks := 0
  maker _ := none
  began _ := 0
  ended _ := 0
  bchan _ := 0
  bwait _ := false
  wakeInit := false
  exits _ := 0
  frees _ := 0
  waits := []

end Xv6.Ptable
