import Xv6.Lib.Chain
import Xv6.Lib.Machine
import Xv6.Lib.Occ
import Xv6.Vm.Kalloc

/-!
# 複数の CPU によるページの割り当て

`kernel/kalloc.c` の関数を、`kmem.lock` の区間ごとの歩に分けて定める。`increse` と `kfree` を呼ぶのは、そのページの参照を持つ者だけである。
-/

namespace Xv6.Kalloc

open Xv6.Lib
open Xv6.Vm (Layout physpages)

/-- `fill` は参照がなくなって `memset` を行うところ、`push` は空きリストに加えるところ、`got` は `kalloc` が取り出したペ
ージに `memset` を行うところである。 -/
inductive Pos
  | idle
  | incr (p : Nat)
  | dec (p : Nat)
  | fill (p : Nat)
  | push (p : Nat)
  | got (p : Nat)
  deriving DecidableEq, Repr

def Pos.ref : Pos → Option Nat
  | .incr p => some p
  | .dec p => some p
  | .got p => some p
  | _ => none

/-- 参照がなくなり、まだ空きリストにないページ。 -/
def Pos.limbo : Pos → Option Nat
  | .fill p => some p
  | .push p => some p
  | _ => none

/-- `link p` はページ `p` の `r->next`、`held p` は呼び出しの外にある参照の数である。 -/
structure Sys (n : Nat) where
  refcnt : Nat → Nat
  link : Nat → Option Nat
  head : Option Nat
  pos : Fin n → Pos
  held : Nat → Nat

variable {n : Nat}

def Sys.outstanding (s : Sys n) (p : Nat) : Nat := s.held p + occ (Pos.ref ∘ s.pos) (some p)

/-- `run` は CPU を一区間進める。`v` は `memset` や使う者がページの先頭に残す値である。 -/
inductive Ev (n : Nat)
  | kalloc (c : Fin n)
  | kfree (c : Fin n) (p : Nat)
  | increse (c : Fin n) (p : Nat)
  | run (c : Fin n) (v : Option Nat)
  | write (p : Nat) (v : Option Nat)

def Sys.goto (s : Sys n) (c : Fin n) (x : Pos) : Sys n := { s with pos := update s.pos c x }

def Sys.count (s : Sys n) (p k : Nat) : Sys n := { s with refcnt := update s.refcnt p k }

def Sys.hold (s : Sys n) (p k : Nat) : Sys n := { s with held := update s.held p k }

def Sys.store (s : Sys n) (p : Nat) (v : Option Nat) : Sys n := { s with link := update s.link p v }

def Sys.setHead (s : Sys n) (h : Option Nat) : Sys n := { s with head := h }

def Sys.kalloc (s : Sys n) (c : Fin n) : Except String (Sys n) :=
  match s.head with
  | none => .ok s
  | some p =>
    if s.refcnt p ≠ 0 then .error "refcnt kalloc"
    else .ok (((s.count p 1).setHead (s.link p)).goto c (.got p))

def Sys.unref (s : Sys n) (c : Fin n) (p : Nat) : Except String (Sys n) :=
  if s.refcnt p < 1 then .error "kfree panic"
  else .ok ((s.count p (s.refcnt p - 1)).goto c (if s.refcnt p - 1 > 0 then .idle else .fill p))

def Sys.enqueue (s : Sys n) (p : Nat) : Sys n := (s.store p s.head).setHead (some p)

/-- 途中の呼び出しを一区間進める。`refcnt` の桁あふれは C では意味を持たないので、その歩はない。 -/
def Sys.run (s : Sys n) (c : Fin n) (v : Option Nat) : Option (Except String (Sys n)) :=
  match s.pos c with
  | .idle => none
  | .incr p =>
    if p > physpages ∨ s.refcnt p < 1 then some (.error "increase ref cnt")
    else if s.refcnt p + 1 < 2 ^ 31 then
      some (.ok (((s.count p (s.refcnt p + 1)).hold p (s.held p + 2)).goto c .idle))
    else none
  | .dec p => some (s.unref c p)
  | .fill p => some (.ok ((s.store p v).goto c (.push p)))
  | .push p => some (.ok ((s.enqueue p).goto c .idle))
  | .got p => some (.ok (((s.store p v).hold p (s.held p + 1)).goto c .idle))

def step (L : Layout) : Machine (Sys n) (Ev n) := fun s e =>
  match e with
  | .kalloc c => if s.pos c = .idle then some (s.kalloc c) else none
  | .kfree c p =>
    if s.pos c = .idle ∧ 0 < s.held p then
      if p < L.kend ∨ physpages ≤ p then some (.error "kfree")
      else some (.ok ((s.hold p (s.held p - 1)).goto c (.dec p)))
    else none
  | .increse c p =>
    if s.pos c = .idle ∧ 0 < s.held p then some (.ok ((s.hold p (s.held p - 1)).goto c (.incr p))) else none
  | .run c v => s.run c v
  | .write p v => if 0 < s.held p then some (.ok (s.store p v)) else none

/-- `freerange` の一ページ。`refcnt` を 1 にして `kfree` を行う。起動の間は一つの CPU しか動かない。 -/
def Sys.seed (s : Sys n) (p : Nat) : Sys n :=
  let s := s.count p 1
  (s.count p (s.refcnt p - 1)).enqueue p

def freerange (s : Sys n) (p : Nat) : Nat → Sys n
  | 0 => s
  | k + 1 => freerange (s.seed p) (p + 1) k

def kinit (L : Layout) (n : Nat) : Sys n :=
  freerange { refcnt := fun _ => 0, link := fun _ => none, head := none, pos := fun _ => .idle, held := fun _ => 0 } L.kend
    (physpages - L.kend)

end Xv6.Kalloc
