import Xv6.Lib.Machine
import Mathlib.Algebra.GroupWithZero.Nat

/-!
# ユーザのヒープ

`user/umalloc.c` の `malloc`、`free`、`morecore` を定める。番地はバイトで数える。`chunks`、`live`、`top` は記録で、`sbrk` から得た
領域、使用中のブロック、得た領域の終わりである。探すループの燃料が尽きれば `none` である。
-/

namespace Xv6.Umalloc

open Xv6.Lib

def hdr : Nat := 16

structure Heap where
  ptr : Nat → Nat
  size : Nat → Nat
  freep : Nat
  top : Nat
  chunks : List (Nat × Nat)
  live : List Nat

def Heap.setPtr (h : Heap) (a v : Nat) : Heap := { h with ptr := update h.ptr a v }

def Heap.setSize (h : Heap) (a v : Nat) : Heap := { h with size := update h.size a (v % 2 ^ 32) }

def Heap.setFreep (h : Heap) (p : Nat) : Heap := { h with freep := p }

def Heap.units (h : Heap) : Nat := (h.chunks.map Prod.snd).sum

def searchFree (h : Heap) (bp p : Nat) : Nat → Option Nat
  | 0 => none
  | fuel + 1 =>
    if bp > p ∧ bp < h.ptr p then some p
    else if p ≥ h.ptr p ∧ (bp > p ∨ bp < h.ptr p) then some p
    else searchFree h bp (h.ptr p) fuel

def Heap.joinNext (h : Heap) (bp p : Nat) : Heap :=
  if bp + hdr * h.size bp = h.ptr p then
    (h.setSize bp (h.size bp + h.size (h.ptr p))).setPtr bp (h.ptr (h.ptr p))
  else h.setPtr bp (h.ptr p)

def Heap.joinPrev (h : Heap) (bp p : Nat) : Heap :=
  if p + hdr * h.size p = bp then (h.setSize p (h.size p + h.size bp)).setPtr p (h.ptr bp)
  else h.setPtr p bp

def free (h : Heap) (ap fuel : Nat) : Option Heap :=
  let bp := ap - hdr
  match searchFree h bp h.freep fuel with
  | none => none
  | some p => some (((h.joinNext bp p).joinPrev bp p).setFreep p)

/-! ## `malloc` -/

/-- `sbrk` で `nu` 個分の領域を得る。`os` は、領域の終わりからどれだけ離れた番地を返すかを決める。 -/
def sbrk (h : Heap) (os : Nat → Option Nat) (nu : Nat) : Option (Nat × Heap) :=
  (os h.top).map fun g => (h.top + g, { h with top := h.top + g + hdr * nu, chunks := (h.top + g, nu) :: h.chunks })

def coreUnits (nu : Nat) : Nat := if nu < 4096 then 4096 else nu

def morecore (h : Heap) (nu : Nat) (os : Nat → Option Nat) (fuel : Nat) : Option (Option Nat × Heap) :=
  match sbrk h os (coreUnits nu) with
  | none => some (none, h)
  | some (hp, h) =>
    match free (h.setSize hp (coreUnits nu)) (hp + hdr) fuel with
    | none => none
    | some h => some (some h.freep, h)

/-- 見つけたブロック `p` から取る。余れば後ろから切り取る。 -/
def Heap.take (h : Heap) (prevp p nunits : Nat) : Nat × Heap :=
  if h.size p = nunits then (p + hdr, { (h.setPtr prevp (h.ptr p)).setFreep prevp with live := p :: h.live })
  else
    let h := h.setSize p (h.size p - nunits)
    let p := p + hdr * h.size p
    (p + hdr, { (h.setSize p nunits).setFreep prevp with live := p :: h.live })

def mallocLoop (nunits : Nat) (os : Nat → Option Nat) (n : Nat) (h : Heap) (prevp p : Nat) : Nat → Option
    (Option Nat × Heap)
  | 0 => none
  | fuel + 1 =>
    if h.size p ≥ nunits then some ((h.take prevp p nunits).map some id)
    else if p = h.freep then
      match morecore h nunits os n with
      | none => none
      | some (none, h) => some (none, h)
      | some (some p, h) => mallocLoop nunits os n h p (h.ptr p) fuel
    else mallocLoop nunits os n h p (h.ptr p) fuel

def nunits (nbytes : Nat) : Nat := ((nbytes + hdr - 1) / hdr + 1) % 2 ^ 32

def Heap.prepare (base : Nat) (h : Heap) : Heap :=
  if h.freep = 0 then ((h.setPtr base base).setFreep base).setSize base 0 else h

def malloc (base : Nat) (h : Heap) (nbytes : Nat) (os : Nat → Option Nat) (fuel : Nat) : Option (Option Nat × Heap) :=
  let h := h.prepare base
  mallocLoop (nunits nbytes) os fuel h h.freep (h.ptr h.freep) fuel

/-! ## 呼び出しの列 -/

/-- `write b f g` は、ブロック `b` の使う者がその中身に書くことである。ヘッダの外の値だけが変わる。 -/
inductive Ev
  | malloc (nbytes : Nat) (os : Nat → Option Nat) (fuel : Nat)
  | free (b fuel : Nat)
  | write (b : Nat) (f g : Nat → Nat)

def Heap.write (h : Heap) (b : Nat) (f g : Nat → Nat) : Heap :=
  let inside a := decide (b < a ∧ a < b + hdr * h.size b)
  { h with ptr := fun a => if inside a then f a else h.ptr a, size := fun a => if inside a then g a else h.size a }

/-- 大きさが `sbrk` の引数に収まる要求。 -/
def Fair (nbytes : Nat) : Prop := nbytes < 2 ^ 32 ∧ hdr * nunits nbytes < 2 ^ 31

instance {n : Nat} : Decidable (Fair n) := inferInstanceAs (Decidable (_ ∧ _))

def step (base : Nat) : Machine Heap Ev := fun h e =>
  match e with
  | .malloc nbytes os fuel => if Fair nbytes then (malloc base h nbytes os fuel).map fun r => .ok r.2 else none
  | .free b fuel =>
    if b ∈ h.live then (free h (b + hdr) fuel).map fun h => .ok { h with live := h.live.erase b } else none
  | .write b f g => if b ∈ h.live then some (.ok (h.write b f g)) else none

/-- `top` はプログラムの領域の終わりであり、静的変数 `base` はその中にある。 -/
structure Boot where
  base : Nat
  ptr : Nat → Nat
  size : Nat → Nat
  top : Nat
  pos : 0 < base
  inside : base + hdr ≤ top

def Boot.heap (x : Boot) : Heap := ⟨x.ptr, x.size, 0, x.top, [], []⟩

end Xv6.Umalloc
