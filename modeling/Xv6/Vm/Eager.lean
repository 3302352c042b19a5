import Xv6.Vm.System

/-!
# すぐに複製する `fork`

仕様となる機械を定める。各プロセスは自分だけのページを持ち、`fork` は親のすべてのページをその場で複製する。
-/

namespace Xv6.Vm.Eager

open Xv6.Lib

structure Page where
  perm : Nat
  data : Bytes

structure Proc where
  pid : Nat
  sz : Nat
  alive : Bool
  page : Nat → Option Page

structure Sys where
  proc : Fin nproc → Option Proc
  nextpid : Nat

/-- ユーザーモードで `f` の許可を要するアクセスが届くページ。 -/
def Proc.access (u : Proc) (va f : Nat) : Option Page :=
  (u.page (va / pgsize)).filter fun pg => has pg.perm pteU && has pg.perm f

def Proc.write (u : Proc) (v d : Nat) (src : Bytes) (s n : Nat) : Proc :=
  { u with page := update u.page v ((u.page v).map fun pg => { pg with data := blit pg.data d src s n }) }

def copyout (src : Bytes) : Nat → Nat → Nat → Nat → Proc → Int × Proc
  | 0, _, _, _, u => (0, u)
  | fuel + 1, dstva, s, len, u =>
    if len = 0 then (0, u)
    else
      match u.access dstva pteU with
      | none => (-1, u)
      | some _ =>
        let n := min (pgsize - dstva % pgsize) len
        copyout src fuel (pgrounddown dstva + pgsize) (s + n) (len - n)
          (u.write (dstva / pgsize) (dstva % pgsize) src s n)

def copyin (u : Proc) : Nat → Bytes → Nat → Nat → Nat → Int × Bytes
  | 0, dst, _, _, _ => (0, dst)
  | fuel + 1, dst, d, srcva, len =>
    if len = 0 then (0, dst)
    else
      match u.access srcva pteU with
      | none => (-1, dst)
      | some pg =>
        let n := min (pgsize - srcva % pgsize) len
        copyin u fuel (blit dst d pg.data (srcva % pgsize) n) (d + n) (pgrounddown srcva + pgsize) (len - n)

/-! ## 操作 -/

def zeroed : Page := ⟨pteR ||| pteU ||| pteW, fun _ => 0⟩

def Proc.resize (u : Proc) (sz : Nat) : Proc :=
  { u with
    sz
    page := fun v => if v < npages sz then (if v < npages u.sz then u.page v else some zeroed) else none }

def Proc.sbrk (u : Proc) (n : Int) : Proc :=
  if 0 < n then u.resize (u.sz + n.toNat)
  else if ((u.sz + n) % 2 ^ 64).toNat < u.sz then u.resize ((u.sz + n) % 2 ^ 64).toNat
  else u

def Sys.set (a : Sys) (p : Fin nproc) (u : Option Proc) : Sys :=
  { a with proc := update a.proc p u }

def Sys.kill (a : Sys) (p : Fin nproc) (u : Proc) : Sys := a.set p (some { u with alive := false })

def Sys.fork (a : Sys) (u : Proc) : Out × Sys :=
  match (List.finRange nproc).find? fun p => (a.proc p).isNone with
  | none => (.ret (-1), a)
  | some np =>
    (.ret (a.nextpid + 1 : Nat),
      { a.set np (some { u with pid := a.nextpid + 1, alive := true }) with nextpid := a.nextpid + 2 })

/-- 実行中のプロセスだけが操作を行う。 -/
def Sys.running (a : Sys) (p : Fin nproc) (f : Proc → Out × Sys) : Out × Sys :=
  match a.proc p with
  | some u => if u.alive then f u else (.skip, a)
  | none => (.skip, a)

def step (a : Sys) : UserOp → Out × Sys
  | .fork p => a.running p fun u => a.fork u
  | .load p va => a.running p fun u =>
    match u.access va pteR with
    | some pg => (.byte (pg.data (va % pgsize)), a)
    | none => (.killed, a.kill p u)
  | .store p va b => a.running p fun u =>
    match u.access va pteW with
    | some _ => (.ret 0, a.set p (some (u.write (va / pgsize) (va % pgsize) (fun _ => b) 0 1)))
    | none => (.killed, a.kill p u)
  | .copyin p va len => a.running p fun u =>
    let (r, dst) := copyin u len (fun _ => 0) 0 va len
    (.bytes r ((List.range len).map dst), a)
  | .copyout p va src => a.running p fun u =>
    let (r, u') := copyout (ofList src) src.length va 0 src.length u
    (.ret r, a.set p (some u'))
  | .sbrk p n => a.running p fun u => (.ret u.sz, a.set p (some (u.sbrk n)))
  | .exit p => a.running p fun u => (.skip, a.kill p u)
  | .reap p =>
    match a.proc p with
    | some u => if u.alive then (.skip, a) else (.ret 0, a.set p none)
    | none => (.skip, a)

def run : List UserOp → Sys → List Out × Sys
  | [], a => ([], a)
  | op :: ops, a =>
    let (o, a') := step a op
    let (os, a'') := run ops a'
    (o :: os, a'')

/-- 書けないページへの書き込みを含まない操作。 -/
def Allowed (a : Sys) : UserOp → Prop
  | .store p va _ => ∀ u pg, a.proc p = some u → u.access va pteU = some pg → has pg.perm pteW
  | _ => True

/-- どの書き込みも、仕様の機械で書けるか、届かないページに対するものである。 -/
def AllAllowed : List UserOp → Sys → Prop
  | [], _ => True
  | op :: ops, a => Allowed a op ∧ AllAllowed ops (step a op).2

instance decidableAllowed (a : Sys) : (op : UserOp) → Decidable (Allowed a op)
  | .store p va _ =>
    decidable_of_iff ((a.proc p).all fun u => (u.access va pteU).all fun pg => has pg.perm pteW)
      (by simp only [Allowed, Option.all_eq_true]; exact ⟨fun h u pg hu => h u hu pg, fun h u hu pg => h u pg hu⟩)
  | .fork _ | .load _ _ | .copyin _ _ _ | .copyout _ _ _ | .sbrk _ _ | .exit _ | .reap _ => .isTrue trivial

instance decidableAllAllowed : (ops : List UserOp) → (a : Sys) → Decidable (AllAllowed ops a)
  | [], _ => .isTrue trivial
  | op :: ops, a =>
    have := decidableAllAllowed ops (step a op).2
    inferInstanceAs (Decidable (Allowed a op ∧ AllAllowed ops (step a op).2))

end Xv6.Vm.Eager
