import Xv6.Lib.Machine
import Xv6.Vm.Proc

/-!
# プロセス表

`kernel/proc.h` の `struct proc` と、`kernel/proc.c` のうちその欄を書き換える関数を定める。ページ表は番地だけを、名前は最初の零までの文字列を持つ。
-/

namespace Xv6.Ptable

open Xv6.Vm (ProcState nproc)

def nofile : Nat := 16

def kstackOf (i : Nat) : Nat := (2 ^ 38 - 4096) - (i + 1) * 2 * 4096

/-- `struct proc`。`regs` は `trapframe` の指すページの中身である。 -/
structure Proc where
  state : ProcState
  chan : Nat
  killed : Bool
  xstate : Int
  pid : Int
  priority : Int
  tracemask : Int
  parent : Option Nat
  kstack : Nat
  sz : Nat
  pagetable : Option Nat
  trapframe : Option Nat
  regs : List Nat
  context : List Nat
  ofile : List (Option Nat)
  cwd : Option Nat
  name : List Char
  rtime : Nat
  ctime : Nat
  etime : Nat
  deriving DecidableEq

def Proc.init (i : Nat) : Proc where
  state := .unused
  chan := 0
  killed := false
  xstate := 0
  pid := 0
  priority := 0
  tracemask := 0
  parent := none
  kstack := kstackOf i
  sz := 0
  pagetable := none
  trapframe := none
  regs := []
  context := []
  ofile := List.replicate nofile none
  cwd := none
  name := []
  rtime := 0
  ctime := 0
  etime := 0

def Proc.freeproc (p : Proc) : Proc :=
  { p with
    trapframe := none, regs := [], pagetable := none, sz := 0, pid := 0, parent := none, name := [], chan := 0
    killed := false, xstate := 0, state := .unused }

/-- プロセスの番地。眠る場所として使う。`0` は空の番地である。 -/
def procAddr (i : Nat) : Nat := i + 1

def Proc.parentAddr (p : Proc) : Nat :=
  match p.parent with
  | some q => procAddr q
  | none => 0

/-- 子の待ち合わせの起こし方。眠っていて `chan` が等しければ走れるようにする。 -/
def Proc.wake (p : Proc) (chan : Nat) : Proc :=
  if p.state = .sleeping ∧ p.chan = chan then { p with state := .runnable } else p

def Proc.kill (p : Proc) : Proc :=
  { p with killed := true, state := if p.state = .sleeping then .runnable else p.state }

/-- `allocproc` が `trapframe` とページ表を得た後に整える欄。`forkret` の番地は定数である。 -/
def Proc.setup (p : Proc) (forkret tf pg ticks : Nat) : Proc :=
  { p with
    trapframe := some tf, regs := List.replicate 36 0, pagetable := some pg
    context := [forkret, p.kstack + 4096] ++ List.replicate 12 0
    rtime := 0, etime := 0, ctime := ticks }

/-- `fork` が親 `p` から子 `np` に写す欄。`a0` は 14 番目である。 -/
def Proc.copyFrom (np p : Proc) : Proc :=
  { np with
    sz := p.sz, regs := p.regs.set 14 0
    ofile := List.zipWith (fun f g => if f.isSome then f else g) p.ofile np.ofile
    cwd := p.cwd, name := p.name }

def incr (x : Int) : Int := Int.bmod (x + 1) (2 ^ 32)

end Xv6.Ptable
