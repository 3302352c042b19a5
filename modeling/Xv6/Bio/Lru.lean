import Xv6.Lib.Dlist
import Xv6.Lib.Machine

/-!
# バッファの表と LRU の並び

`kernel/bio.c` の `bcache` を、バッファの番号と番兵 `head` の間のつなぎとして定める。`bcache.lock` の下の区間を一歩とする。
-/

namespace Xv6.Bio.Lru

open Xv6.Lib

def nbuf : Nat := 30

def head : Nat := nbuf

/-- `struct buf` のうち、表が使う欄。`held` と `pins` は証明のための記録で、まだ放していない `bget` と `bpin` の参照の数
である。 -/
structure Buf where
  dev : Nat
  blockno : Nat
  valid : Bool
  refcnt : Nat
  held : Nat
  pins : Nat

/-- `bcache`。`released` と `clock` は証明のための記録で、`brelse` で参照が零になった最後の時刻と、次の時刻である。 -/
structure Cache where
  buf : Nat → Buf
  links : Links
  released : Nat → Nat
  clock : Nat

def binitLoop (l : Links) (b : Nat) : Nat → Links
  | 0 => l
  | n + 1 => binitLoop (l.pushFront head b) (b + 1) n

def binit : Cache where
  buf := fun _ => ⟨0, 0, false, 0, 0, 0⟩
  links := binitLoop ⟨fun _ => head, fun _ => head⟩ 0 nbuf
  released := fun _ => 0
  clock := 1

namespace Cache

@[simps]
def set (s : Cache) (b : Nat) (u : Buf) : Cache := { s with buf := update s.buf b u }

@[simps]
def touch (s : Cache) (b : Nat) : Cache :=
  { s with
    links := (s.links.unlink b).pushFront head b
    released := update s.released b s.clock
    clock := s.clock + 1 }

def lookup (s : Cache) (dev blockno : Nat) : Option Nat :=
  Links.scan s.links.next head (fun b => (s.buf b).dev = dev ∧ (s.buf b).blockno = blockno) (nbuf + 1)
    (s.links.next head)

def victim (s : Cache) : Option Nat :=
  Links.scan s.links.prev head (fun b => (s.buf b).refcnt = 0) (nbuf + 1) (s.links.prev head)

def bget (s : Cache) (dev blockno : Nat) : Except String Cache :=
  match s.lookup dev blockno with
  | some b => .ok (s.set b { s.buf b with refcnt := (s.buf b).refcnt + 1, held := (s.buf b).held + 1 })
  | none =>
    match s.victim with
    | some b =>
      .ok (s.set b { s.buf b with dev := dev, blockno := blockno, valid := false, refcnt := 1, held :=
          (s.buf b).held + 1 })
    | none => .error "bget: no buffers"

def brelse (s : Cache) (b : Nat) : Cache :=
  let t := s.set b { s.buf b with refcnt := (s.buf b).refcnt - 1, held := (s.buf b).held - 1 }
  if (t.buf b).refcnt = 0 then t.touch b else t

def bpin (s : Cache) (b : Nat) : Cache :=
  s.set b { s.buf b with refcnt := (s.buf b).refcnt + 1, pins := (s.buf b).pins + 1 }

def bunpin (s : Cache) (b : Nat) : Cache :=
  s.set b { s.buf b with refcnt := (s.buf b).refcnt - 1, pins := (s.buf b).pins - 1 }

def fill (s : Cache) (b : Nat) : Cache := s.set b { s.buf b with valid := true }

end Cache

inductive Event
  | bget (dev blockno : Nat)
  | fill (b : Nat)
  | brelse (b : Nat)
  | bpin (b : Nat)
  | bunpin (b : Nat)

/-- 放すのは、得た参照か留めた参照があるときに限る。 -/
def step : Machine Cache Event := fun s e =>
  match e with
  | .bget dev blockno => some (s.bget dev blockno)
  | .fill b => if b < nbuf ∧ 0 < (s.buf b).held then some (.ok (s.fill b)) else none
  | .brelse b => if b < nbuf ∧ 0 < (s.buf b).held then some (.ok (s.brelse b)) else none
  | .bpin b => if b < nbuf ∧ 0 < (s.buf b).held then some (.ok (s.bpin b)) else none
  | .bunpin b => if b < nbuf ∧ 0 < (s.buf b).pins then some (.ok (s.bunpin b)) else none

/-- 装置 `0` のほかでは、同じブロックを持つバッファは一つである。 -/
def Unique (s : Cache) : Prop :=
  ∀ b c, b < nbuf → c < nbuf → (s.buf b).dev ≠ 0 → (s.buf b).dev = (s.buf c).dev →
    (s.buf b).blockno = (s.buf c).blockno → b = c

/-- つなぎは、すべてのバッファを一度ずつ通る一つの環である。 -/
def Linked (s : Cache) : Prop := ∃ order, s.links.Ring head order ∧ order.Perm (List.range nbuf)

def Reassigned (s t : Cache) (b : Nat) : Prop :=
  ((t.buf b).dev, (t.buf b).blockno) ≠ ((s.buf b).dev, (s.buf b).blockno)

/-- 替わるのは参照のないバッファで、その中で最も前に放されたものである。 -/
def OldestFirst (s t : Cache) : Prop :=
  ∀ b, b < nbuf → Reassigned s t b →
    (s.buf b).refcnt = 0 ∧ ∀ c, c < nbuf → (s.buf c).refcnt = 0 → s.released b ≤ s.released c

end Xv6.Bio.Lru
