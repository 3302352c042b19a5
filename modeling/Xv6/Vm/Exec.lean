import Xv6.Vm.Proc

/-!
# プログラムの読み込み

`kernel/exec.c` の `exec` を定める。読むファイルは長さと中身で表す。
-/

namespace Xv6.Vm

open Xv6.Lib

structure File where
  size : Nat
  data : Bytes

def File.readi (f : File) (off n : Nat) : Nat :=
  if off > f.size ∨ (off + n) % 2 ^ 32 < off then 0
  else if off + n > f.size then f.size - off
  else n

/-! ## ELF -/

def elfMagic : Nat := 0x464C457F

/-- `struct elfhdr` のうち読まれる欄。 -/
structure Elfhdr where
  magic : Nat
  entry : Nat
  phoff : Nat
  phnum : Nat

def File.elfhdr (f : File) : Elfhdr :=
  ⟨getLE f.data 0 4, getLE f.data 24 8, getLE f.data 32 8, getLE f.data 56 2⟩

/-- `struct proghdr` のうち読まれる欄。 -/
structure Proghdr where
  type : Nat
  flags : Nat
  off : Nat
  vaddr : Nat
  filesz : Nat
  memsz : Nat

def File.proghdr (f : File) (off : Nat) : Proghdr :=
  ⟨getLE f.data off 4, getLE f.data (off + 4) 4, getLE f.data (off + 8) 8, getLE f.data (off + 16) 8,
    getLE f.data (off + 32) 8, getLE f.data (off + 40) 8⟩

def flags2perm (flags : Nat) : Nat :=
  (if has flags 1 then pteX else 0) ||| (if has flags 2 then pteW else 0)

def loadsegLoop (pagetable va : Nat) (f : File) (offset sz : Nat) : Nat → Nat → KM Int
  | 0, _ => return 0
  | fuel + 1, i =>
    if i < sz then do
      let p ← walkaddr pagetable (va + i)
      if p = 0 then throw "loadseg: address should exist"
      else
        let n := min (sz - i) pgsize
        let m := f.readi ((offset + i) % 2 ^ 32) n
        modify fun k => k.blit p 0 f.data ((offset + i) % 2 ^ 32) m
        if m ≠ n then return -1
        else loadsegLoop pagetable va f offset sz fuel (i + pgsize)
    else return 0

def loadseg (pagetable va : Nat) (f : File) (offset sz : Nat) : KM Int :=
  loadsegLoop pagetable va f offset sz sz 0

/-- `exec` の最初のループ。成否と、その時の `sz` を返す。 -/
def execSegs (L : Layout) (f : File) (pagetable : Nat) : Nat → Nat → Nat → KM (Bool × Nat)
  | 0, _, sz => return (true, sz)
  | n + 1, off, sz =>
    if f.readi off 56 ≠ 56 then return (false, sz)
    else
      let ph := f.proghdr off
      if ph.type ≠ 1 then execSegs L f pagetable n ((off + 56) % 2 ^ 32) sz
      else if ph.memsz < ph.filesz then return (false, sz)
      else if (ph.vaddr + ph.memsz) % 2 ^ 64 < ph.vaddr then return (false, sz)
      else if ph.vaddr % pgsize ≠ 0 then return (false, sz)
      else do
        let sz1 ← uvmalloc L pagetable sz (ph.vaddr + ph.memsz) (flags2perm ph.flags)
        if sz1 = 0 then return (false, sz)
        else if (← loadseg pagetable ph.vaddr f (ph.off % 2 ^ 32) (ph.filesz % 2 ^ 32)) < 0 then
          return (false, sz1)
        else execSegs L f pagetable n ((off + 56) % 2 ^ 32) sz1

/-! ## 引数を積む -/

def maxarg : Nat := 32

def pushdown (sp n : Nat) : Nat :=
  (sp + (2 ^ 64 - n % 2 ^ 64)) % 2 ^ 64 / 16 * 16

def execArgs (L : Layout) (pagetable stackbase : Nat) :
    List (List UInt8) → Nat → Nat → List Nat → KM (Option (Nat × List Nat))
  | [], _, sp, ustack => return some (sp, ustack)
  | a :: argv, argc, sp, ustack =>
    if argc ≥ maxarg then return none
    else if pushdown sp (a.length + 1) < stackbase then return none
    else do
      if (← copyout L pagetable (pushdown sp (a.length + 1)) (ofList a) (a.length + 1)) < 0 then
        return none
      else
        execArgs L pagetable stackbase argv (argc + 1) (pushdown sp (a.length + 1))
          (ustack ++ [pushdown sp (a.length + 1)])

def ofWords (l : List Nat) : Bytes := fun i => UInt8.ofNat (l.getD (i / 8) 0 / 256 ^ (i % 8))

/-- スタックの二ページを作り、引数を積む。成功なら `sp` と、その時の `sz` を返す。 -/
def execStack (L : Layout) (pagetable sz : Nat) (argv : List (List UInt8)) : KM (Option Nat × Nat) := do
  let sz1 ← uvmalloc L pagetable (pgroundup sz) (pgroundup sz + 2 * pgsize) pteW
  if sz1 = 0 then return (none, pgroundup sz)
  else
    uvmclear pagetable (sz1 - 2 * pgsize)
    match ← execArgs L pagetable (sz1 - pgsize) argv 0 sz1 [] with
    | none => return (none, sz1)
    | some (sp, ustack) =>
      if pushdown sp ((argv.length + 1) * 8) < sz1 - pgsize then return (none, sz1)
      else if (← copyout L pagetable (pushdown sp ((argv.length + 1) * 8)) (ofWords ustack)
          ((argv.length + 1) * 8)) < 0 then return (none, sz1)
      else return (some (pushdown sp ((argv.length + 1) * 8)), sz1)

def execImage (L : Layout) (tf : Nat) (f : File) (argv : List (List UInt8)) :
    KM (Option (Nat × Nat × Nat)) := do
  match ← procPagetable L tf with
  | none => return none
  | some pagetable =>
    match ← execSegs L f pagetable f.elfhdr.phnum (f.elfhdr.phoff % 2 ^ 32) 0 with
    | (false, sz) =>
      procFreepagetable L pagetable sz
      return none
    | (true, sz) =>
      match ← execStack L pagetable sz argv with
      | (none, sz1) =>
        procFreepagetable L pagetable sz1
        return none
      | (some sp, sz1) => return some (pagetable, sz1, sp)

def exec (L : Layout) (p : Fin nproc) (file : Option File) (argv : List (List UInt8)) : PM Int := do
  match file with
  | none => return -1
  | some f =>
    if f.readi 0 64 ≠ 64 then return -1
    else if f.elfhdr.magic ≠ elfMagic then return -1
    else
      let s ← get
      match ← liftK (execImage L ((s.proc p).trapframe.getD 0) f argv) with
      | none => return -1
      | some (pagetable, sz, sp) =>
        -- `a1`、`epc`、`sp` は 120、24、48 バイト目にある。
        liftK (setPte ((s.proc p).trapframe.getD 0) 15 sp)
        setProc p fun q => { q with pagetable := some pagetable, sz }
        liftK (setPte ((s.proc p).trapframe.getD 0) 3 f.elfhdr.entry)
        liftK (setPte ((s.proc p).trapframe.getD 0) 6 sp)
        liftK (procFreepagetable L ((s.proc p).pagetable.getD 0) (s.proc p).sz)
        return (argv.length : Int)

end Xv6.Vm
