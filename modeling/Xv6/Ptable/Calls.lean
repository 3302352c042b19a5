import Xv6.Ptable.Proc

/-!
# 割り込まれない呼び出し

それぞれの呼び出しを終わりまで続けて行うときのプロセス表の変わり方を定める。
-/

namespace Xv6.Ptable

open Xv6.Vm (ProcState nproc)
open Xv6.Lib

structure Table where
  procs : Nat → Proc
  nextpid : Int
  ticks : Nat
  initproc : Nat

def Table.set (t : Table) (i : Nat) (p : Proc) : Table := { t with procs := update t.procs i p }

def Table.find (t : Table) (f : Proc → Bool) : Option Nat := (List.range nproc).find? fun i => f (t.procs i)

def Table.wakeup (t : Table) (chan : Nat) (self : Option Nat) : Table :=
  { t with procs := fun i => if some i = self then t.procs i else (t.procs i).wake chan }

/-- メモリの割り当ての結果。`forkret` は関数の番地、`copied` は `uvmcopy` の成否である。 -/
structure Alloc where
  forkret : Nat
  trapframe : Option Nat
  pagetable : Option Nat
  copied : Bool
  deriving DecidableEq, Repr

/-- `allocproc`。`p->pid` は、もう一度 `nextpid++` で上書きされる。 -/
def allocproc (t : Table) (a : Alloc) : Table × Option Nat :=
  match t.find fun p => p.state = .unused with
  | none => (t, none)
  | some i =>
    let p := t.procs i
    let pid := incr t.nextpid
    let t := { t with nextpid := incr pid }
    let p := { p with state := .used, pid := pid, priority := 60 }
    match a.trapframe with
    | none => (t.set i p.freeproc, none)
    | some tf =>
      match a.pagetable with
      | none => (t.set i { p with trapframe := some tf }.freeproc, none)
      | some pg => (t.set i (p.setup a.forkret tf pg t.ticks), some i)

def fork (t : Table) (p : Nat) (a : Alloc) : Table × Int :=
  match allocproc t a with
  | (t, none) => (t, -1)
  | (t, some i) =>
    if a.copied then
      let np := (t.procs i).copyFrom (t.procs p)
      (t.set i { np with parent := some p, state := .runnable }, np.pid)
    else (t.set i (t.procs i).freeproc, -1)

def Table.adopt (t : Table) (p : Nat) : Table :=
  { t with procs := fun i =>
      if (t.procs i).parent = some p then { t.procs i with parent := some t.initproc } else t.procs i }

/-- `reparent`。子があれば `initproc` を起こす。 -/
def reparent (t : Table) (p : Nat) : Table :=
  if (t.find fun q => q.parent = some p).isSome then (t.adopt p).wakeup (procAddr t.initproc) (some p)
  else t.adopt p

/-- `exit`。ファイルと作業ディレクトリを閉じてから、子を渡し、親を起こす。 -/
def exit (t : Table) (p : Nat) (status : Int) : Except String Table :=
  if p = t.initproc then .error "init exiting"
  else
    let t := t.set p { t.procs p with ofile := List.replicate nofile none, cwd := none }
    let t := reparent t p
    let t := t.wakeup (t.procs p).parentAddr (some p)
    .ok (t.set p { t.procs p with xstate := status, state := .zombie, etime := t.ticks })

/-- `wait`。`copied` は `copyout` の成否（番地が零なら成功）である。眠るときは値がない。 -/
def wait (t : Table) (p : Nat) (copied : Bool) : Table × Option Int :=
  match t.find fun q => q.parent = some p ∧ q.state = .zombie with
  | some i => if copied then (t.set i (t.procs i).freeproc, some (t.procs i).pid) else (t, some (-1))
  | none =>
    if (t.find fun q => q.parent = some p).isNone ∨ (t.procs p).killed then (t, some (-1))
    else (t.set p { t.procs p with chan := procAddr p, state := .sleeping }, none)

def kill (t : Table) (pid : Int) : Table × Int :=
  match t.find fun p => p.pid = pid with
  | some i => (t.set i (t.procs i).kill, 0)
  | none => (t, -1)

def Table.boot (a : Alloc) (root : Nat) : Table :=
  let t : Table := { procs := Proc.init, nextpid := 1, ticks := 0, initproc := 0 }
  match allocproc t a with
  | (t, none) => t
  | (t, some i) => t.set i { t.procs i with
      sz := 4096, regs := ((t.procs i).regs.set 3 0).set 6 4096, name := "initcode".toList, cwd := some root
      state := .runnable }

inductive Call
  | fork (a : Alloc)
  | exit (status : Int)
  | wait (copied : Bool)
  | kill (pid : Int)
  | sleep (chan : Nat)
  | wakeup (chan : Nat)
  | yield
  | setkilled
  | trace (mask : Int)
  | exec (name : List Char) (sz pg : Nat) (regs : List Nat)
  | grow (sz : Nat)
  | file (fd : Nat) (f : Option Nat)
  | chdir (ip : Nat)
  | user (regs : List Nat)

/-- `schedule` は選ばれて走り出すこと（眠りから覚めたら `chan` を消す）、`tick` は時計の割り込みである。 -/
inductive Event
  | run (p : Nat) (c : Call)
  | schedule (p : Nat)
  | tick

def Table.call (t : Table) (p : Nat) : Call → Except String Table
  | .fork a => .ok (fork t p a).1
  | .exit status => exit t p status
  | .wait copied => .ok (wait t p copied).1
  | .kill pid => .ok (kill t pid).1
  | .sleep chan => .ok (t.set p { t.procs p with chan := chan, state := .sleeping })
  | .wakeup chan => .ok (t.wakeup chan (some p))
  | .yield => .ok (t.set p { t.procs p with state := .runnable })
  | .setkilled => .ok (t.set p { t.procs p with killed := true })
  | .trace mask => .ok (t.set p { t.procs p with tracemask := mask })
  | .exec name sz pg regs =>
    .ok (t.set p { t.procs p with name := name, sz := sz, pagetable := some pg, regs := regs, priority := 20 })
  | .grow sz => .ok (t.set p { t.procs p with sz := sz })
  | .file fd f => .ok (t.set p { t.procs p with ofile := (t.procs p).ofile.set fd f })
  | .chdir ip => .ok (t.set p { t.procs p with cwd := some ip })
  | .user regs => .ok (t.set p { t.procs p with regs := regs })

def Table.step : Machine Table Event := fun t e =>
  match e with
  | .run p c => if p < nproc ∧ (t.procs p).state = .running then some (t.call p c) else none
  | .schedule p =>
    if p < nproc ∧ (t.procs p).state = .runnable then
      some (.ok (t.set p { t.procs p with state := .running, chan := 0 }))
    else none
  | .tick =>
    some (.ok { t with
      ticks := t.ticks + 1
      procs := fun i =>
        if (t.procs i).state = .running then { t.procs i with rtime := (t.procs i).rtime + 1 } else t.procs i })

/-- 例の割り当て。 -/
def exampleAlloc : Alloc := { forkret := 100, trapframe := some 8, pagetable := some 9, copied := true }

end Xv6.Ptable
