import Xv6.Vm.Exec

/-!
# プロセスの実行

プロセスのメモリに関わる操作を一つずつ実行する機械を定める。
-/

namespace Xv6.Vm

open Xv6.Lib

/-- プロセスが行う操作。`reap` は親の `wait` が終わったプロセスを返すことを表す。 -/
inductive UserOp where
  | fork (p : Fin nproc)
  | load (p : Fin nproc) (va : Nat)
  | store (p : Fin nproc) (va : Nat) (b : UInt8)
  | copyin (p : Fin nproc) (va len : Nat)
  | copyout (p : Fin nproc) (va : Nat) (src : List UInt8)
  | sbrk (p : Fin nproc) (n : Int)
  | exit (p : Fin nproc)
  | reap (p : Fin nproc)

inductive Out where
  | skip
  | ret (r : Int)
  | byte (b : UInt8)
  | bytes (r : Int) (l : List UInt8)
  | killed
  deriving DecidableEq

def exit (p : Fin nproc) : PM Unit := do
  let s ← get
  if s.initproc = some p then throw "init exiting"
  else setProc p fun q => { q with state := .zombie }

def userLoad (p : Fin nproc) (va : Nat) : PM Out := do
  let s ← get
  match s.k.access ((s.proc p).pagetable.getD 0) va pteR with
  | some q => return .byte (s.k.mem q (va % pgsize))
  | none =>
    exit p
    return .killed

def Kernel.read (s : Kernel) (p : Fin nproc) (va : Nat) : Option UInt8 :=
  (s.k.access ((s.proc p).pagetable.getD 0) va pteR).map fun q => s.k.mem q (va % pgsize)

/-- ユーザーの書き込み。書けないページなら `cowfault` を呼び、成功すればやり直す。 -/
def userStore (L : Layout) (p : Fin nproc) (va : Nat) (b : UInt8) : PM Out := do
  let s ← get
  match s.k.access ((s.proc p).pagetable.getD 0) va pteW with
  | some q =>
    liftK (modify fun k => k.blit q (va % pgsize) (fun _ => b) 0 1)
    return .ret 0
  | none =>
    if (← liftK (cowfault L ((s.proc p).pagetable.getD 0) va)) < 0 then
      exit p
      return .killed
    else
      let s' ← get
      match s'.k.access ((s.proc p).pagetable.getD 0) va pteW with
      | some q =>
        liftK (modify fun k => k.blit q (va % pgsize) (fun _ => b) 0 1)
        return .ret 0
      | none => return .skip

def sbrk (L : Layout) (p : Fin nproc) (n : Int) : PM Int := do
  let s ← get
  if (← growproc L p n) < 0 then return -1
  else return ((s.proc p).sz : Int)

def reap (L : Layout) (p : Fin nproc) : PM Out := do
  let s ← get
  if (s.proc p).state = .zombie then
    freeproc L p
    return .ret 0
  else return .skip

def running (p : Fin nproc) (x : PM Out) : PM Out := do
  let s ← get
  if (s.proc p).state = .runnable then x else return .skip

def userStep (L : Layout) : UserOp → PM Out
  | .fork p => running p do
      let r ← fork L p
      return .ret r
  | .load p va => running p (userLoad p va)
  | .store p va b => running p (userStore L p va b)
  | .copyin p va len => running p do
      let s ← get
      let (r, dst) ← liftK (copyin ((s.proc p).pagetable.getD 0) (fun _ => 0) va len)
      return .bytes r ((List.range len).map dst)
  | .copyout p va src => running p do
      let s ← get
      let r ← liftK (copyout L ((s.proc p).pagetable.getD 0) va (ofList src) src.length)
      return .ret r
  | .sbrk p n => running p do
      let r ← sbrk L p n
      return .ret r
  | .exit p => running p do
      exit p
      return .skip
  | .reap p => reap L p

def userRun (L : Layout) : List UserOp → PM (List Out)
  | [] => return []
  | op :: ops => do
    let o ← userStep L op
    let os ← userRun L ops
    return o :: os

/-! ## `exec` とパイプ -/

def pipealloc : PM Out := do
  match ← liftK kalloc with
  | none => return .ret (-1)
  | some q =>
    modify fun s => { s with pipes := q :: s.pipes }
    return .ret 0

def pipeclose (L : Layout) (q : Nat) : PM Out := do
  let s ← get
  if q ∈ s.pipes then
    set { s with pipes := s.pipes.erase q }
    liftK (kfree L q)
    return .ret 0
  else return .skip

inductive Op where
  | user (op : UserOp)
  | exec (p : Fin nproc) (file : Option File) (argv : List (List UInt8))
  | pipealloc
  | pipeclose (q : Nat)

def step (L : Layout) : Op → PM Out
  | .user op => userStep L op
  | .exec p file argv => running p do
      let r ← exec L p file argv
      return .ret r
  | .pipealloc => pipealloc
  | .pipeclose q => pipeclose L q

def run (L : Layout) : List Op → PM Unit
  | [] => return ()
  | op :: ops => do
    let _ ← step L op
    run L ops

/-- `userinit` の直前の状態。カーネルの使うページは空きリストになく、最初のプロセスのページは足りている。 -/
structure Boot (L : Layout) (s : Kernel) : Prop where
  range : ∀ p ∈ s.k.freelist, L.kend ≤ p ∧ p < physpages
  nodup : s.k.freelist.Nodup
  refcnt : ∀ p ∈ s.k.freelist, s.k.refcnt p = 0
  proc : ∀ p, s.proc p = ⟨.unused, 0, 0, none, none⟩
  pipes : s.pipes = []
  enough : 7 ≤ s.k.freelist.length

/-- 操作が一つ終わるごとの状態。 -/
inductive Reachable (L : Layout) : Kernel → Prop
  | boot {s s'} (hb : Boot L s) (h : userinit L s = .ok ((), s')) : Reachable L s'
  | step {s s' o} (op : Op) (hr : Reachable L s) (h : step L op s = .ok (o, s')) :
      Reachable L s'

end Xv6.Vm
