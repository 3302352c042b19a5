import Xv6.Vm.System

/-!
# システムコールの引数と `sys_exec`

`kernel/syscall.c` の引数の取り出しと、`kernel/sysfile.c` の `sys_exec` を定める。
-/

namespace Xv6.Vm

open Xv6.Lib

/-- `strlen`。文字列は `fuel` バイトのうちに終わるものとする。 -/
def strlen (s : Bytes) : Nat → Nat → Nat
  | 0, n => n
  | fuel + 1, n => if s n = 0 then n else strlen s fuel (n + 1)

/-- 番地 `addr` の `uint64`。失敗は `none` で表す。 -/
def fetchaddr (p : Fin nproc) (addr : Nat) : PM (Option Nat) := do
  let s ← get
  if addr ≥ (s.proc p).sz ∨ (addr + 8) % 2 ^ 64 > (s.proc p).sz then return none
  else
    let (r, ip) ← liftK (copyin ((s.proc p).pagetable.getD 0) (fun _ => 0) addr 8)
    if r ≠ 0 then return none else return some (getLE ip 0 8)

/-- 返す組は、文字列の長さか -1 と、`buf` の中身である。 -/
def fetchstr (p : Fin nproc) (addr : Nat) (buf : Bytes) (max : Nat) : PM (Int × Bytes) := do
  let s ← get
  let (r, buf') ← liftK (copyinstr ((s.proc p).pagetable.getD 0) buf addr max)
  if r < 0 then return (-1, buf') else return ((strlen buf' max 0 : Nat), buf')

/-- `struct trapframe` の `a0` から `a5` は 112 バイト目から並ぶ。 -/
def argraw (p : Fin nproc) (n : Nat) : PM Nat := do
  let s ← get
  if n < 6 then return s.k.pte ((s.proc p).trapframe.getD 0) (14 + n) else throw "argraw"

def argstr (p : Fin nproc) (n : Nat) (buf : Bytes) (max : Nat) : PM (Int × Bytes) := do
  let addr ← argraw p n
  fetchstr p addr buf max

/-! ## `sys_exec` -/

def maxpath : Nat := 128

/-- カーネルの状態に、`exec` が書き換えるメモリ以外の欄を加えたもの。 -/
structure Sys where
  kern : Kernel
  name : Fin nproc → Bytes
  priority : Fin nproc → Nat

abbrev SM := StateT Sys (Except String)

def liftP {α : Type} (x : PM α) : SM α := fun s =>
  match x s.kern with
  | .ok (a, kern) => .ok (a, { s with kern })
  | .error e => .error e

def cstring (s : Bytes) (max : Nat) : List UInt8 := (List.range (strlen s max 0)).map s

def lastElem (path : List UInt8) : List UInt8 := (path.reverse.takeWhile (· ≠ 47)).reverse

/-- `safestrcpy(dst, s, n)`。短い文字列では、NUL を写した後にもう一つ NUL を書く。 -/
def safestrcpy (dst : Bytes) (s : List UInt8) (n : Nat) : Bytes :=
  blit dst 0 (ofList (s.take (n - 1))) 0 (min (s.length + 2) n)

/-- `exec` に、名前と優先度の変更を加えたもの。どちらも、成功が決まった後に書かれる。 -/
def execNamed (L : Layout) (p : Fin nproc) (file : Option File) (path : List UInt8) (argv : List (List UInt8)) :
    SM Int := do
  let r ← liftP (exec L p file argv)
  if r < 0 then return r
  else
    modify fun s =>
      { s with
        name := update s.name p (safestrcpy (s.name p) (lastElem path) 16)
        priority := update s.priority p 20 }
    return r

/-- `sys_exec` の `for(;;)`。引数を写したページを、成否とともに返す。 -/
def fetchArgs (p : Fin nproc) (uargv : Nat) : Nat → Nat → List Nat → PM (Bool × List Nat)
  | 0, _, argv => return (false, argv)
  | fuel + 1, i, argv => do
    match ← fetchaddr p ((uargv + 8 * i) % 2 ^ 64) with
    | none => return (false, argv)
    | some uarg =>
      if uarg = 0 then return (true, argv)
      else
        match ← liftK kalloc with
        | none => return (false, argv)
        | some q =>
          let s ← get
          let (r, buf) ← fetchstr p uarg (s.k.mem q) pgsize
          liftK (modify fun k => k.setPage q buf)
          if r < 0 then return (false, argv ++ [q])
          else fetchArgs p uargv fuel (i + 1) (argv ++ [q])

def freeArgs (L : Layout) : List Nat → PM Unit
  | [] => return ()
  | q :: argv => do
    liftK (kfree L q)
    freeArgs L argv

/-- `files` は、パス名で開けるファイルの中身である。 -/
def sysExec (L : Layout) (files : List UInt8 → Option File) (p : Fin nproc) : SM Int := do
  let uargv ← liftP (argraw p 1)
  let (n, path) ← liftP (argstr p 0 (fun _ => 0) maxpath)
  if n < 0 then return -1
  else
    match ← liftP (fetchArgs p uargv maxarg 0 []) with
    | (false, argv) =>
      liftP (freeArgs L argv)
      return -1
    | (true, argv) =>
      let s ← get
      let ret ← execNamed L p (files (cstring path maxpath)) (cstring path maxpath)
        (argv.map fun q => cstring (s.kern.k.mem q) pgsize)
      liftP (freeArgs L argv)
      return ret

end Xv6.Vm
