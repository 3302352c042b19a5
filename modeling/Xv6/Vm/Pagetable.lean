import Xv6.Vm.Kalloc

/-!
# ページ表

`kernel/vm.c` のページ表の関数を定める。ページ表は物理メモリの中にあり、各ページは 64 ビットの PTE を 512 個持つ。
-/

namespace Xv6.Vm

open Xv6.Lib

/-! ## PTE -/

def pteV : Nat := 1
def pteR : Nat := 2
def pteW : Nat := 4
def pteX : Nat := 8
def pteU : Nat := 16

def has (pte f : Nat) : Bool := pte &&& f != 0

def clear (pte f : Nat) : Nat := pte ^^^ (pte &&& f)

def pa2pte (p : Nat) : Nat := p * 1024

def pte2pa (pte : Nat) : Nat := pte / 1024

def pteFlags (pte : Nat) : Nat := pte % 1024

def maxva : Nat := 2 ^ 38

def trampoline : Nat := maxva - pgsize

def trapframe : Nat := trampoline - pgsize

def px (level va : Nat) : Nat := va / pgsize / 512 ^ level % 512

def pgroundup (a : Nat) : Nat := (a + pgsize - 1) / pgsize * pgsize

def npages (sz : Nat) : Nat := pgroundup sz / pgsize

def pgrounddown (a : Nat) : Nat := a / pgsize * pgsize

def Kmem.pte (k : Kmem) (p i : Nat) : Nat := getLE (k.mem p) (8 * i) 8

def Kmem.setPte (k : Kmem) (p i w : Nat) : Kmem := k.setPage p (putLE (k.mem p) (8 * i) 8 w)

def setPte (p i w : Nat) : KM Unit := modify fun k => k.setPte p i w

def zeroPage (p : Nat) : KM Unit := modify fun k => k.setPage p (fill (k.mem p) 0 pgsize)

/-! ## たどる -/

def walkLoop (va : Nat) (alloc : Bool) : Nat → Nat → KM (Option (Nat × Nat))
  | 0, pagetable => return some (pagetable, px 0 va)
  | level + 1, pagetable => do
    let k ← get
    let pte := k.pte pagetable (px (level + 1) va)
    if has pte pteV then walkLoop va alloc level (pte2pa pte)
    else if alloc then
      match ← kalloc with
      | none => return none
      | some q =>
        zeroPage q
        setPte pagetable (px (level + 1) va) (pa2pte q ||| pteV)
        walkLoop va alloc level q
    else return none

/-- 仮想アドレスの PTE の場所（ページ番号と添字）を返す。 -/
def walk (pagetable va : Nat) (alloc : Bool) : KM (Option (Nat × Nat)) :=
  if va ≥ maxva then throw "walk" else walkLoop va alloc 2 pagetable

def walkaddr (pagetable va : Nat) : KM Nat := do
  if va ≥ maxva then return 0
  else
    match ← walk pagetable va false with
    | none => return 0
    | some (q, i) =>
      let k ← get
      if has (k.pte q i) pteV = false then return 0
      else if has (k.pte q i) pteU = false then return 0
      else return pte2pa (k.pte q i)

/-- MMU がたどる PTE の場所。 -/
def Kmem.find (k : Kmem) (va : Nat) : Nat → Nat → Option (Nat × Nat)
  | 0, pagetable => some (pagetable, px 0 va)
  | level + 1, pagetable =>
    let pte := k.pte pagetable (px (level + 1) va)
    if has pte pteV then k.find va level (pte2pa pte) else none

/-- 仮想ページ `v` の末端の PTE。途中の表がなければ 0 とする。 -/
def Kmem.leaf (k : Kmem) (pagetable v : Nat) : Nat :=
  match k.find (v * pgsize) 2 pagetable with
  | none => 0
  | some (q, i) => k.pte q i

/-- ユーザーモードで `f` の許可を要するアクセスが届く物理ページ。 -/
def Kmem.access (k : Kmem) (pagetable va f : Nat) : Option Nat :=
  let pte := k.leaf pagetable (va / pgsize)
  if va < maxva ∧ has pte pteV ∧ has pte pteU ∧ has pte f then some (pte2pa pte) else none

/-- `mappages` の `for(;;)`。`MAXVA` に達すれば `walk` が止まるので、回数は `fuel` で足りる。 -/
def mappagesLoop (pagetable last perm : Nat) : Nat → Nat → Nat → KM Int
  | 0, _, _ => throw "walk"
  | fuel + 1, a, p => do
    match ← walk pagetable a true with
    | none => return -1
    | some (q, i) =>
      let k ← get
      if has (k.pte q i) pteV then throw "mappages: remap"
      else
        setPte q i (pa2pte p ||| perm ||| pteV)
        if a = last then return 0
        else mappagesLoop pagetable last perm fuel (a + pgsize) (p + 1)

def mappages (pagetable va size p perm : Nat) : KM Int :=
  if size = 0 then throw "mappages: size"
  else mappagesLoop pagetable (pgrounddown ((va + size - 1) % 2 ^ 64)) perm (maxva / pgsize + 1)
    (pgrounddown va) p

def uvmunmapLoop (L : Layout) (pagetable : Nat) (doFree : Bool) : Nat → Nat → KM Unit
  | 0, _ => return ()
  | n + 1, a => do
    match ← walk pagetable a false with
    | none => throw "uvmunmap: walk"
    | some (q, i) =>
      let k ← get
      if has (k.pte q i) pteV = false then throw "uvmunmap: not mapped"
      else if pteFlags (k.pte q i) = pteV then throw "uvmunmap: not a leaf"
      else
        (if doFree then kfree L (pte2pa (k.pte q i)) else pure ())
        setPte q i 0
        uvmunmapLoop L pagetable doFree n (a + pgsize)

def uvmunmap (L : Layout) (pagetable va npages : Nat) (doFree : Bool) : KM Unit :=
  if va % pgsize ≠ 0 then throw "uvmunmap: not aligned"
  else uvmunmapLoop L pagetable doFree npages va

def uvmcreate : KM (Option Nat) := do
  match ← kalloc with
  | none => return none
  | some pagetable =>
    zeroPage pagetable
    return some pagetable

/-! ## 伸び縮み -/

def uvmdealloc (L : Layout) (pagetable oldsz newsz : Nat) : KM Nat := do
  if newsz ≥ oldsz then return oldsz
  else
    (if pgroundup newsz < pgroundup oldsz then
      uvmunmap L pagetable (pgroundup newsz) ((pgroundup oldsz - pgroundup newsz) / pgsize) true
    else pure ())
    return newsz

def Kmem.note (k : Kmem) (pagetable v perm : Nat) (touched : Bool) : Kmem :=
  { k with
    created := update k.created pagetable (update (k.created pagetable) v perm)
    touched := update k.touched pagetable (update (k.touched pagetable) v touched) }

def record (pagetable v perm : Nat) : KM Unit := modify fun k => k.note pagetable v perm false

def uvmallocLoop (L : Layout) (pagetable oldsz newsz xperm : Nat) : Nat → Nat → KM Nat
  | 0, _ => return newsz
  | n + 1, a => do
    match ← kalloc with
    | none =>
      let _ ← uvmdealloc L pagetable a oldsz
      return 0
    | some m =>
      zeroPage m
      record pagetable (a / pgsize) (pteR ||| pteU ||| xperm)
      if (← mappages pagetable a pgsize m (pteR ||| pteU ||| xperm)) ≠ 0 then
        kfree L m
        let _ ← uvmdealloc L pagetable a oldsz
        return 0
      else
        uvmallocLoop L pagetable oldsz newsz xperm n (a + pgsize)

def uvmalloc (L : Layout) (pagetable oldsz newsz xperm : Nat) : KM Nat :=
  if newsz < oldsz then return oldsz
  else uvmallocLoop L pagetable (pgroundup oldsz) newsz xperm
    ((pgroundup newsz - pgroundup oldsz) / pgsize) (pgroundup oldsz)

def freewalkLoop (f : Nat → KM Unit) (pagetable : Nat) : Nat → Nat → KM Unit
  | 0, _ => return ()
  | n + 1, i => do
    let k ← get
    let pte := k.pte pagetable i
    if has pte pteV ∧ has pte (pteR ||| pteW ||| pteX) = false then
      f (pte2pa pte)
      setPte pagetable i 0
      freewalkLoop f pagetable n (i + 1)
    else if has pte pteV then throw "freewalk: leaf"
    else freewalkLoop f pagetable n (i + 1)

def freewalk (L : Layout) : Nat → Nat → KM Unit
  | 0, _ => throw "freewalk: depth"
  | fuel + 1, pagetable => do
    freewalkLoop (freewalk L fuel) pagetable 512 0
    kfree L pagetable

def uvmfree (L : Layout) (pagetable sz : Nat) : KM Unit := do
  (if sz > 0 then uvmunmap L pagetable 0 (pgroundup sz / pgsize) true else pure ())
  freewalk L 3 pagetable

/-- ページ表 `r` をなす表のページ。`freewalk` が下りていくページと同じである。 -/
inductive TablePage (k : Kmem) (r : Nat) : Nat → Prop
  | root : TablePage k r r
  | child {p i} (hp : TablePage k r p) (hi : i < 512) (hv : has (k.pte p i) pteV)
      (hx : has (k.pte p i) (pteR ||| pteW ||| pteX) = false) : TablePage k r (pte2pa (k.pte p i))

def inherit (old new v : Nat) : KM Unit := modify fun k => k.note new v (k.created old v) (k.touched old v)

def uvmcopyLoop (L : Layout) (old new : Nat) : Nat → Nat → KM Int
  | 0, _ => return 0
  | n + 1, i => do
    match ← walk old i false with
    | none => throw "uvmcopy: pte should exist"
    | some (q, j) =>
      let k ← get
      if has (k.pte q j) pteV = false then throw "uvmcopy: page not present"
      else
        setPte q j (clear (k.pte q j) pteW)
        increse (pte2pa (k.pte q j))
        inherit old new (i / pgsize)
        if (← mappages new i pgsize (pte2pa (k.pte q j)) (pteFlags (clear (k.pte q j) pteW))) ≠ 0 then
          uvmunmap L new 0 (i / pgsize) true
          return -1
        else
          uvmcopyLoop L old new n (i + pgsize)

def uvmcopy (L : Layout) (old new sz : Nat) : KM Int :=
  uvmcopyLoop L old new (pgroundup sz / pgsize) 0

def uvmclear (pagetable va : Nat) : KM Unit := do
  match ← walk pagetable va false with
  | none => throw "uvmclear"
  | some (q, i) =>
    let k ← get
    setPte q i (clear (k.pte q i) pteU)

end Xv6.Vm
