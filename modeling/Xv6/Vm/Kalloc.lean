import Xv6.Lib.Bytes
import Xv6.Lib.Wp

/-!
# 物理ページの割り当て

`kernel/kalloc.c` の `kalloc`、`kfree`、`increse` を定める。物理アドレスはページ番号とページの中の位置に分けて
表し、空きページのリストは列で表す。
-/

namespace Xv6.Vm

open Xv6.Lib

def pgsize : Nat := 4096

def physpages : Nat := 0x88000000 / pgsize

def kernbase : Nat := 0x80000000 / pgsize

/-- カーネルの像で決まる定数。`kend` は `end` 以上の最初のページ、`trampoline` は `trampoline.S` のページである。 -/
structure Layout where
  kend : Nat
  trampoline : Nat
  base : kernbase ≤ kend
  below : trampoline < kend

/-- `failed`、`created`、`touched` は検証のための記録で、`kalloc` が 0 を返した回数、ページ表 `r` の仮想ページ `v` を作っ
たときの許可、その後に `cowfault` が写し直したことを表す。 -/
structure Kmem where
  mem : Nat → Bytes
  refcnt : Nat → Nat
  freelist : List Nat
  failed : Nat
  created : Nat → Nat → Nat
  touched : Nat → Nat → Bool

abbrev KM := StateT Kmem (Except String)

def Kmem.setPage (k : Kmem) (p : Nat) (d : Bytes) : Kmem :=
  { k with mem := update k.mem p d }

def Kmem.take (k : Kmem) (q : Nat) (rest : List Nat) : Kmem :=
  { k with
    mem := update k.mem q (fill (k.mem q) 5 pgsize)
    refcnt := update k.refcnt q 1
    freelist := rest }

def Kmem.unref (k : Kmem) (p : Nat) : Kmem :=
  { k with refcnt := update k.refcnt p (k.refcnt p - 1) }

def Kmem.push (k : Kmem) (p : Nat) : Kmem :=
  { k with
    mem := update k.mem p (fill (k.mem p) 1 pgsize)
    refcnt := update k.refcnt p 0
    freelist := p :: k.freelist }

def increse (p : Nat) : KM Unit := do
  let k ← get
  if p > physpages ∨ k.refcnt p < 1 then throw "increase ref cnt"
  else set { k with refcnt := update k.refcnt p (k.refcnt p + 1) }

def kfree (L : Layout) (p : Nat) : KM Unit := do
  let k ← get
  if p < L.kend ∨ physpages ≤ p then throw "kfree"
  else if k.refcnt p < 1 then throw "kfree panic"
  else if k.refcnt p - 1 > 0 then set (k.unref p)
  else set (k.push p)

def kalloc : KM (Option Nat) := do
  let k ← get
  match k.freelist with
  | [] => set { k with failed := k.failed + 1 }; return none
  | q :: rest =>
    if k.refcnt q ≠ 0 then throw "refcnt kalloc"
    else set (k.take q rest); return some q

end Xv6.Vm
