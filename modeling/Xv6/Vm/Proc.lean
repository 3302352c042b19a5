import Xv6.Vm.Copy
import Mathlib.Data.List.FinRange

/-!
# プロセスとアドレス空間

`kernel/proc.c` のうち、プロセスのメモリを作り、伸び縮みさせ、返す関数を定める。
-/

namespace Xv6.Vm

open Xv6.Lib

def nproc : Nat := 64

inductive ProcState where
  | unused
  | used
  | sleeping
  | runnable
  | running
  | zombie
  deriving DecidableEq, Repr

/-- `struct proc` のうち、メモリに関わる欄。 -/
structure Proc where
  state : ProcState
  pid : Nat
  sz : Nat
  pagetable : Option Nat
  trapframe : Option Nat

/-- カーネルの状態。`pipes` は使用中のパイプのページである。 -/
structure Kernel where
  k : Kmem
  proc : Fin nproc → Proc
  nextpid : Nat
  initproc : Option (Fin nproc)
  pipes : List Nat

abbrev PM := StateT Kernel (Except String)

def liftK {α : Type} (x : KM α) : PM α := fun s =>
  match x s.k with
  | .ok (a, k) => .ok (a, { s with k })
  | .error e => .error e

def Kernel.setProc (s : Kernel) (p : Fin nproc) (f : Proc → Proc) : Kernel :=
  { s with proc := update s.proc p (f (s.proc p)) }

def setProc (p : Fin nproc) (f : Proc → Proc) : PM Unit := modify fun s => s.setProc p f

def procPagetable (L : Layout) (tf : Nat) : KM (Option Nat) := do
  match ← uvmcreate with
  | none => return none
  | some pagetable =>
    if (← mappages pagetable trampoline pgsize L.trampoline (pteR ||| pteX)) < 0 then
      uvmfree L pagetable 0
      return none
    else if (← mappages pagetable trapframe pgsize tf (pteR ||| pteW)) < 0 then
      uvmunmap L pagetable trampoline 1 false
      uvmfree L pagetable 0
      return none
    else return some pagetable

def procFreepagetable (L : Layout) (pagetable sz : Nat) : KM Unit := do
  uvmunmap L pagetable trampoline 1 false
  uvmunmap L pagetable trapframe 1 false
  uvmfree L pagetable sz

/-! ## プロセスを作る・返す -/

def freeproc (L : Layout) (p : Fin nproc) : PM Unit := do
  let s ← get
  (match (s.proc p).trapframe with
    | none => pure ()
    | some t => liftK (kfree L t))
  (match (s.proc p).pagetable with
    | none => pure ()
    | some r => liftK (procFreepagetable L r (s.proc p).sz))
  setProc p fun _ => ⟨.unused, 0, 0, none, none⟩

def findUnused (proc : Fin nproc → Proc) : Option (Fin nproc) :=
  (List.finRange nproc).find? fun p => (proc p).state = .unused

def allocproc (L : Layout) : PM (Option (Fin nproc)) := do
  let s ← get
  match findUnused s.proc with
  | none => return none
  | some p =>
    -- `allocpid()` の後に `nextpid++` があるので、番号は二つ進む。
    set { s with nextpid := s.nextpid + 2 }
    setProc p fun q => { q with state := .used, pid := s.nextpid + 1 }
    match ← liftK kalloc with
    | none =>
      setProc p fun q => { q with trapframe := none }
      freeproc L p
      return none
    | some t =>
      setProc p fun q => { q with trapframe := some t }
      match ← liftK (procPagetable L t) with
      | none =>
        setProc p fun q => { q with pagetable := none }
        freeproc L p
        return none
      | some r =>
        setProc p fun q => { q with pagetable := some r }
        return some p

/-- `*(np->trapframe) = *(p->trapframe); np->trapframe->a0 = 0`。`a0` は 112 バイト目にある。 -/
def copyTrapframe (dst src : Nat) : KM Unit := do
  modify fun k => k.blit dst 0 (k.mem src) 0 288
  setPte dst 14 0

def fork (L : Layout) (p : Fin nproc) : PM Int := do
  match ← allocproc L with
  | none => return -1
  | some np =>
    let s ← get
    if (← liftK (uvmcopy L ((s.proc p).pagetable.getD 0) ((s.proc np).pagetable.getD 0) (s.proc p).sz)) < 0 then
      freeproc L np
      return -1
    else
      setProc np fun q => { q with sz := (s.proc p).sz }
      liftK (copyTrapframe ((s.proc np).trapframe.getD 0) ((s.proc p).trapframe.getD 0))
      setProc np fun q => { q with state := .runnable }
      return ((s.proc np).pid : Int)

def growproc (L : Layout) (p : Fin nproc) (n : Int) : PM Int := do
  let s ← get
  if n > 0 then
    let sz ← liftK (uvmalloc L ((s.proc p).pagetable.getD 0) (s.proc p).sz ((s.proc p).sz + n.toNat) pteW)
    if sz = 0 then return -1
    else
      setProc p fun q => { q with sz }
      return 0
  else if n < 0 then
    let sz ← liftK (uvmdealloc L ((s.proc p).pagetable.getD 0) (s.proc p).sz
      (((s.proc p).sz + n) % 2 ^ 64).toNat)
    setProc p fun q => { q with sz }
    return 0
  else return 0

def initcode : List UInt8 :=
  [0x17, 0x05, 0x00, 0x00, 0x13, 0x05, 0x45, 0x02,
   0x97, 0x05, 0x00, 0x00, 0x93, 0x85, 0x35, 0x02,
   0x93, 0x08, 0x70, 0x00, 0x73, 0x00, 0x00, 0x00,
   0x93, 0x08, 0x20, 0x00, 0x73, 0x00, 0x00, 0x00,
   0xef, 0xf0, 0x9f, 0xff, 0x2f, 0x69, 0x6e, 0x69,
   0x74, 0x00, 0x00, 0x24, 0x00, 0x00, 0x00, 0x00,
   0x00, 0x00, 0x00, 0x00]

def ofList (l : List UInt8) : Bytes := fun i => l.getD i 0

def uvmfirst (pagetable : Nat) (src : List UInt8) : KM Unit := do
  if src.length ≥ pgsize then throw "uvmfirst: more than a page"
  else
    match ← kalloc with
    -- 戻り値は調べられない。0 番地への書き込みはカーネルの例外になる。
    | none => throw "kerneltrap"
    | some m =>
      zeroPage m
      record pagetable 0 (pteW ||| pteR ||| pteX ||| pteU)
      let _ ← mappages pagetable 0 pgsize m (pteW ||| pteR ||| pteX ||| pteU)
      modify fun k => k.blit m 0 (ofList src) 0 src.length

def userinit (L : Layout) : PM Unit := do
  match ← allocproc L with
  | none => throw "kerneltrap"
  | some p =>
    let s ← get
    set { s with initproc := some p }
    liftK (uvmfirst ((s.proc p).pagetable.getD 0) initcode)
    setProc p fun q => { q with sz := pgsize }
    liftK (setPte ((s.proc p).trapframe.getD 0) 3 0)
    liftK (setPte ((s.proc p).trapframe.getD 0) 6 pgsize)
    setProc p fun q => { q with state := .runnable }

end Xv6.Vm
