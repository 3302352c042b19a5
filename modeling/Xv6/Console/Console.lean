import Xv6.Lib.Machine
import Xv6.Lib.Ring

/-!
# コンソールの入力

`kernel/console.c` の `consoleintr` と `consoleread` を定める。`r`、`w`、`e` は 32 ビットの番号である。`consoleread` は、眠
るまで、または返るまでを一歩とする。
-/

namespace Xv6.Console

open Xv6.Lib

def inputBufSize : Nat := 128

def word : Nat := 2 ^ 32

def ctrlD : UInt8 := 4

def ctrlH : UInt8 := 8

def newline : UInt8 := 10

def ret : UInt8 := 13

def ctrlP : UInt8 := 16

def ctrlU : UInt8 := 21

def delete : UInt8 := 127

structure Cons where
  buf : Nat → UInt8
  r : Nat
  w : Nat
  e : Nat

def inc (x : Nat) : Nat := (x + 1) % word

def dec (x : Nat) : Nat := (x + word - 1) % word

def sub (x y : Nat) : Nat := (x + word - y) % word

/-- `C('U')` のループ。`fuel` は `e - w` であり、ループは高々その回数で終わる。 -/
def killLine (k : Cons) : Nat → Cons
  | 0 => k
  | fuel + 1 =>
    if k.e ≠ k.w ∧ k.buf (dec k.e % inputBufSize) ≠ newline then killLine { k with e := dec k.e } fuel else k

def consoleintr (k : Cons) (c : UInt8) : Cons :=
  if c = ctrlP then k
  else if c = ctrlU then killLine k (sub k.e k.w)
  else if c = ctrlH ∨ c = delete then if k.e ≠ k.w then { k with e := dec k.e } else k
  else if c ≠ 0 ∧ sub k.e k.r < inputBufSize then
    let c := if c = ret then newline else c
    let k := { k with buf := update k.buf (k.e % inputBufSize) c, e := inc k.e }
    if c = newline ∨ c = ctrlD ∨ sub k.e k.r = inputBufSize then { k with w := k.e } else k
  else k

/-! ## 読み -/

inductive Reader
  | idle
  | asleep (target n : Nat) (got : List UInt8)
  | done (ret : Int) (got : List UInt8)
  deriving DecidableEq

/-- `consoleread` のループ。`copyout i` は、`i` 文字目を渡せることである。 -/
def readLoop (killed : Bool) (copyout : Nat → Bool) (target : Nat) : Nat → Cons → List UInt8 → Cons × Reader
  | 0, k, got => (k, .done target got)
  | n + 1, k, got =>
    if k.r = k.w then (k, if killed then .done (-1) got else .asleep target (n + 1) got)
    else
      let c := k.buf (k.r % inputBufSize)
      let k := { k with r := inc k.r }
      if c = ctrlD then
        (if n + 1 < target then { k with r := dec k.r } else k, .done (target - (n + 1) : Nat) got)
      else if copyout (target - (n + 1)) = false then (k, .done (target - (n + 1) : Nat) got)
      else if c = newline then (k, .done (target - n : Nat) (got ++ [c]))
      else readLoop killed copyout target n k (got ++ [c])

structure Sys where
  cons : Cons
  reader : Nat → Reader

/-- `call` は `consoleread` に入ること、`resume` は起きて `cons.lock` を取り直すことである。 -/
inductive Event
  | intr (c : UInt8)
  | call (p : Nat) (n : Int) (killed : Bool) (copyout : Nat → Bool)
  | resume (p : Nat) (killed : Bool) (copyout : Nat → Bool)

def Sys.put (s : Sys) (p : Nat) (v : Cons × Reader) : Sys := ⟨v.1, update s.reader p v.2⟩

def step : Machine Sys Event := fun s e =>
  match e with
  | .intr c => some (.ok { s with cons := consoleintr s.cons c })
  | .call p n killed copyout =>
    match s.reader p with
    | .asleep .. => none
    | _ => some (.ok (s.put p (readLoop killed copyout n.toNat n.toNat s.cons [])))
  | .resume p killed copyout =>
    match s.reader p with
    | .asleep target n got => some (.ok (s.put p (readLoop killed copyout target n s.cons got)))
    | _ => none

def start (buf : Nat → UInt8) : Sys := ⟨⟨buf, 0, 0, 0⟩, fun _ => .idle⟩

/-! ## 二つの列 -/

structure Line where
  queue : List UInt8
  line : List UInt8
  deriving DecidableEq

def Line.intr (a : Line) (c : UInt8) : Line :=
  if c = ctrlU then { a with line := [] }
  else if c = ctrlH ∨ c = delete then { a with line := a.line.dropLast }
  else if c = 0 ∨ c = ctrlP ∨ inputBufSize ≤ a.queue.length + a.line.length then a
  else
    let c := if c = ret then newline else c
    if c = newline ∨ c = ctrlD ∨ a.queue.length + a.line.length + 1 = inputBufSize then
      ⟨a.queue ++ (a.line ++ [c]), []⟩
    else { a with line := a.line ++ [c] }

/-- 確定した文字を先頭から取る。改行の後と `C('D')` で終わり、何かを渡した後の `C('D')` は残す。 -/
def take (killed : Bool) (copyout : Nat → Bool) (target : Nat) : Nat → List UInt8 → List UInt8 → List UInt8 × Reader
  | 0, queue, got => (queue, .done target got)
  | n + 1, [], got => ([], if killed then .done (-1) got else .asleep target (n + 1) got)
  | n + 1, c :: queue, got =>
    if c = ctrlD then (if got = [] then queue else c :: queue, .done got.length got)
    else if copyout got.length = false then (queue, .done got.length got)
    else if c = newline then (queue, .done (got.length + 1) (got ++ [c]))
    else take killed copyout target n queue (got ++ [c])

structure Abs where
  cons : Line
  reader : Nat → Reader

def Abs.put (s : Abs) (p : Nat) (v : List UInt8 × Reader) : Abs :=
  ⟨{ s.cons with queue := v.1 }, update s.reader p v.2⟩

def absStep : Machine Abs Event := fun s e =>
  match e with
  | .intr c => some (.ok { s with cons := s.cons.intr c })
  | .call p n killed copyout =>
    match s.reader p with
    | .asleep .. => none
    | _ => some (.ok (s.put p (take killed copyout n.toNat n.toNat s.cons.queue [])))
  | .resume p killed copyout =>
    match s.reader p with
    | .asleep target n got => some (.ok (s.put p (take killed copyout target n s.cons.queue got)))
    | _ => none

def Cons.walk (k : Cons) (x n : Nat) : List UInt8 := (List.range n).map fun i => k.buf ((x + i) % inputBufSize)

/-- 確定した文字は `r` から `w` まで、編集している行は `w` から `e` までである。 -/
def Cons.abs (k : Cons) : Line := ⟨k.walk k.r (sub k.w k.r), k.walk k.w (sub k.e k.w)⟩

def Sys.abs (s : Sys) : Abs := ⟨s.cons.abs, s.reader⟩

end Xv6.Console
