import Xv6.Vm.Pagetable

/-!
# コピーオンライトとユーザー空間との転送

`kernel/trap.c` の `cowfault` と、`kernel/vm.c` の `copyout`、`copyin`、`copyinstr` を定める。
-/

namespace Xv6.Vm

open Xv6.Lib

def Kmem.blit (k : Kmem) (p d : Nat) (src : Bytes) (s n : Nat) : Kmem :=
  k.setPage p (Lib.blit (k.mem p) d src s n)

def touch (pagetable v : Nat) : KM Unit := modify fun k => k.note pagetable v (k.created pagetable v) true

def cowfault (L : Layout) (pagetable va : Nat) : KM Int := do
  if va ≥ maxva then return -1
  else
    match ← walk pagetable va false with
    | none => return -1
    | some (q, i) =>
      let k ← get
      if has (k.pte q i) pteU = false ∨ has (k.pte q i) pteV = false then return -1
      else
        match ← kalloc with
        | none => return -1
        | some p =>
          modify fun k' => k'.blit p 0 (k'.mem (pte2pa (k.pte q i))) 0 pgsize
          touch pagetable (va / pgsize)
          setPte q i (pa2pte p ||| pteU ||| pteV ||| pteW ||| pteX ||| pteR)
          kfree L (pte2pa (k.pte q i))
          return 0

/-- `copyout` のループ。一回に一バイト以上進むので、回数は `len` で足りる。 -/
def copyoutLoop (L : Layout) (pagetable : Nat) (src : Bytes) : Nat → Nat → Nat → Nat → KM Int
  | 0, _, _, _ => return 0
  | fuel + 1, dstva, s, len =>
    if len = 0 then return 0
    else if pgrounddown dstva > maxva then return -1
    else do
      if (← cowfault L pagetable (pgrounddown dstva)) < 0 then return -1
      else
        let p ← walkaddr pagetable (pgrounddown dstva)
        if p = 0 then return -1
        else
          let n := min (pgsize - (dstva - pgrounddown dstva)) len
          modify fun k => k.blit p (dstva - pgrounddown dstva) src s n
          copyoutLoop L pagetable src fuel (pgrounddown dstva + pgsize) (s + n) (len - n)

def copyout (L : Layout) (pagetable dstva : Nat) (src : Bytes) (len : Nat) : KM Int :=
  copyoutLoop L pagetable src len dstva 0 len

/-- `copyin` のループ。返した値とともに、コピー先の中身を返す。 -/
def copyinLoop (pagetable : Nat) : Nat → Bytes → Nat → Nat → Nat → KM (Int × Bytes)
  | 0, dst, _, _, _ => return (0, dst)
  | fuel + 1, dst, d, srcva, len =>
    if len = 0 then return (0, dst)
    else do
      let p ← walkaddr pagetable (pgrounddown srcva)
      if p = 0 then return (-1, dst)
      else
        let n := min (pgsize - (srcva - pgrounddown srcva)) len
        let k ← get
        copyinLoop pagetable fuel (Lib.blit dst d (k.mem p) (srcva - pgrounddown srcva) n) (d + n)
          (pgrounddown srcva + pgsize) (len - n)

def copyin (pagetable : Nat) (dst : Bytes) (srcva len : Nat) : KM (Int × Bytes) :=
  copyinLoop pagetable len dst 0 srcva len

def copyinstrPage (page : Bytes) : Nat → Nat → Bytes → Nat → Bool × Bytes × Nat
  | 0, _, dst, d => (false, dst, d)
  | n + 1, i, dst, d =>
    if page i = 0 then (true, update dst d 0, d)
    else copyinstrPage page n (i + 1) (update dst d (page i)) (d + 1)

/-- `copyinstr` の外側のループ。一回に一バイト以上進むので、回数は `max` で足りる。 -/
def copyinstrLoop (pagetable : Nat) : Nat → Bytes → Nat → Nat → Nat → KM (Int × Bytes)
  | 0, dst, _, _, _ => return (-1, dst)
  | fuel + 1, dst, d, srcva, max =>
    if max = 0 then return (-1, dst)
    else do
      let p ← walkaddr pagetable (pgrounddown srcva)
      if p = 0 then return (-1, dst)
      else
        let n := min (pgsize - (srcva - pgrounddown srcva)) max
        let k ← get
        match copyinstrPage (k.mem p) n (srcva - pgrounddown srcva) dst d with
        | (true, dst', _) => return (0, dst')
        | (false, dst', d') => copyinstrLoop pagetable fuel dst' d' (pgrounddown srcva + pgsize) (max - n)

def copyinstr (pagetable : Nat) (dst : Bytes) (srcva max : Nat) : KM (Int × Bytes) :=
  copyinstrLoop pagetable max dst 0 srcva max

end Xv6.Vm
