import Xv6.Lib.Machine
import Mathlib.Data.Nat.Bitwise
import Mathlib.Data.Int.Bitwise

/-!
# システムコールの振り分け

`kernel/syscall.c` の `syscall` と `kernel/sysproc.c` の `sys_trace` を定める。`trace` のほかの呼び出しは、戻り値と
レジスタの変わり方を問わない。
-/

namespace Xv6.Syscall

open Xv6.Lib

inductive Sysno
  | fork | exit | wait | pipe | read | kill | exec | fstat | chdir | dup | getpid | sbrk | sleep | uptime | open
  | write | mknod | unlink | link | mkdir | close | trace | cps | chpr | waitx
  deriving DecidableEq, Repr

/-- 表 `syscalls`。番号 `0` と、`SYS_sigalarm`、`SYS_sigreturn` の欄は空である。 -/
def table : List (Option Sysno) :=
  [none, some .fork, some .exit, some .wait, some .pipe, some .read, some .kill, some .exec, some .fstat, some .chdir,
    some .dup, some .getpid, some .sbrk, some .sleep, some .uptime, some .open, some .write, some .mknod, some .unlink,
    some .link, some .mkdir, some .close, none, none, some .trace, some .cps, some .chpr, some .waitx]

/-- `num > 0 && num < NELEM(syscalls) && syscalls[num]` -/
def syscalls (num : Int) : Option Sysno := if 0 < num ∧ num < table.length then table.getD num.toNat none else none

def Sysno.name : Sysno → String
  | .fork => "fork"
  | .exit => "exit"
  | .wait => "wait"
  | .pipe => "pipe"
  | .read => "read"
  | .kill => "kill"
  | .exec => "exec"
  | .fstat => "fstat"
  | .chdir => "chdir"
  | .dup => "dup"
  | .getpid => "getpid"
  | .sbrk => "sbrk"
  | .sleep => "sleep"
  | .uptime => "uptime"
  | .open => "open"
  | .write => "write"
  | .mknod => "mknod"
  | .unlink => "unlink"
  | .link => "link"
  | .mkdir => "mkdir"
  | .close => "close"
  | .trace => "trace"
  | .cps => "cps"
  | .chpr => "chpr"
  | .waitx => "waitx"

/-- 表 `syscallNos`。`cps`、`chpr`、`waitx` の番号は表の外である。 -/
def Sysno.nargs : Sysno → Option Nat
  | .fork | .getpid | .uptime => some 0
  | .exit | .wait | .pipe | .close | .kill | .unlink | .mkdir | .chdir | .dup | .sbrk | .sleep | .trace => some 1
  | .exec | .open | .fstat | .link => some 2
  | .write | .read | .mknod => some 3
  | .cps | .chpr | .waitx => none

/-- `trapframe` のうち、`a0` から `a5` までと `a7`。 -/
structure Frame where
  a : Nat → Nat
  a7 : Nat

/-- `struct proc` のうち、`syscall` が使う欄。 -/
structure Task where
  pid : Int
  name : String
  tracemask : Int

def toInt (x : Nat) : Int := (BitVec.ofNat 32 x).toInt

/-- `int` の `x >> num`。桁数は、命令 `sraw` と同じく下の五ビットだけを使う。 -/
def sra (x num : Int) : Int := x >>> (num % 32).toNat

/-- 印字される行。名前と引数の数が表にないものは `none` とする。 -/
inductive Line
  | unknown (pid : Int) (name : String) (num : Int)
  | traced (pid : Int) (name : Option String) (args : Option (List Int)) (ret : Int)

/-- 呼び出しの結果。`trace` のほかの呼び出しが返す値と、返ったときのレジスタである。 -/
structure Outcome where
  ret : Nat
  a : Nat → Nat

def sysTrace (p : Task) (f : Frame) : Task × Int :=
  ({ p with tracemask := toInt (f.a 0) }, if toInt (f.a 0) < 0 then -1 else 0)

def ofInt (x : Int) : Nat := (x % 2 ^ 64).toNat

def call (found : Option Sysno) (num : Int) (p : Task) (f : Frame) (o : Outcome) : Task × Frame × List Line :=
  match found with
  | some .trace => ((sysTrace p f).1, { f with a := update f.a 0 (ofInt (sysTrace p f).2) }, [])
  | some _ => (p, { f with a := update o.a 0 o.ret }, [])
  | none => (p, { f with a := update f.a 0 (ofInt (-1)) }, [.unknown p.pid p.name num])

def dispatch (num : Int) (p : Task) (f : Frame) (o : Outcome) : Task × Frame × List Line := call (syscalls num) num p f o

/-- 追跡の行。最初の引数の欄には、もう戻り値が入っている。 -/
def traceLine (num : Int) (p : Task) (f : Frame) : Line :=
  .traced p.pid ((syscalls num).map Sysno.name)
    (((syscalls num).bind Sysno.nargs).map fun n => (List.range n).map fun i => toInt (f.a i)) (toInt (f.a 0))

def report (num : Int) (d : Task × Frame × List Line) : Task × Frame × List Line :=
  if sra d.1.tracemask num ≠ 0 then (d.1, d.2.1, d.2.2 ++ [traceLine num d.1 d.2.1]) else d

def syscall (p : Task) (f : Frame) (o : Outcome) : Task × Frame × List Line :=
  report (toInt f.a7) (dispatch (toInt f.a7) p f o)

/-! ## 呼び出しの列 -/

structure Sys where
  task : Task
  wanted : Option Int

structure Event where
  frame : Frame
  outcome : Outcome

def Event.num (e : Event) : Int := toInt e.frame.a7

def Event.mask (e : Event) : Option Int :=
  if syscalls e.num = some .trace then some (toInt (e.frame.a 0)) else none

/-- 記録の変わり方。負の引数の `trace` は失敗するので、記録に残らない。 -/
def Event.want (e : Event) (w : Option Int) : Option Int :=
  match e.mask with
  | some m => if 0 ≤ m then some m else w
  | none => w

def Sys.after (s : Sys) (e : Event) : Sys where
  task := (syscall s.task e.frame e.outcome).1
  wanted := e.want s.wanted

def step : Machine Sys Event := fun s e => some (.ok (s.after e))

def Sys.start (pid : Int) (name : String) : Sys := { task := ⟨pid, name, 0⟩, wanted := none }

def Traced (s : Sys) (e : Event) : Prop :=
  ∃ pid name args ret, Line.traced pid name args ret ∈ (syscall s.task e.frame e.outcome).2.2

def Wanted (s : Sys) (e : Event) : Prop :=
  (syscalls e.num).isSome ∧ ∃ m, e.want s.wanted = some m ∧ m.toNat.testBit e.num.toNat

/-- 呼び出しの行が正しく印字され、失敗した `trace` は何も変えない。 -/
def Right (s : Sys) (e : Event) : Prop :=
  (Traced s e ↔ Wanted s e) ∧ ((∃ m, e.mask = some m ∧ m < 0) → (s.after e).task = s.task)

/-- `trace` の引数は負でない。マスクの番号以上の位に立つビットがあれば、番号は表にあって、その位のビットが立っている。 -/
def Fits (s : Sys) (e : Event) : Prop :=
  (∀ m, e.mask = some m → 0 ≤ m) ∧ (sra (e.mask.getD s.task.tracemask) e.num ≠ 0 →
    (syscalls e.num).isSome ∧ (e.mask.getD s.task.tracemask).toNat.testBit e.num.toNat)

end Xv6.Syscall
