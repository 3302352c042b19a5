import Xv6.Log.Log
import Mathlib.Algebra.BigOperators.Group.Finset.Basic
import Mathlib.Algebra.Order.BigOperators.Group.Finset

/-!
# ログを使う処理の並行な進み方

任意個のプロセスが `begin_op`、`log_write`、`end_op` を呼ぶ。`log.lock` の下の区間を一歩とする。`commit` はロックの外で進むので、`end_op` の
前半と `commit` の終わりを別の歩とする。
-/

namespace Xv6.Log

/-- 操作の途中なら、その操作が記録した互いに異なるブロックを持つ。 -/
inductive Status
  | idle
  | waiting
  | active (blocks : List Nat)
  | committing
  deriving DecidableEq, Repr

inductive Event
  | beginOp (p : Nat)
  | logWrite (p b : Nat)
  | endOp (p : Nat)
  | commit (p : Nat)
  deriving DecidableEq, Repr

structure Sys where
  log : LogState
  procs : Nat → Status

def Sys.init : Sys := { log := initlog, procs := fun _ => .idle }

def Sys.go (s : Sys) (l : LogState) (p : Nat) (st : Status) : Sys :=
  { log := l, procs := Function.update s.procs p st }

/-- 一歩。`panic` すれば `error` である。操作が記録する異なるブロックは `MAXOPBLOCKS` 個までとする。 -/
def step (s : Sys) : Event → Option (Except String Sys)
  | .beginOp p =>
    match s.procs p with
    | .idle | .waiting =>
      match beginOp s.log with
      | none => some (.ok (s.go s.log p .waiting))
      | some l => some (.ok (s.go l p (.active [])))
    | _ => none
  | .logWrite p b =>
    match s.procs p with
    | .active bs =>
      if (absorb bs b).length ≤ maxopblocks then
        match logWrite s.log b with
        | .error m => some (.error m)
        | .ok l => some (.ok (s.go l p (.active (absorb bs b))))
      else none
    | _ => none
  | .endOp p =>
    match s.procs p with
    | .active _ =>
      match endOp s.log with
      | .error m => some (.error m)
      | .ok (l, true) => some (.ok (s.go l p .committing))
      | .ok (l, false) => some (.ok (s.go l p .idle))
    | _ => none
  | .commit p =>
    match s.procs p with
    | .committing => some (.ok (s.go (endCommit s.log) p .idle))
    | _ => none

def exec (s : Sys) : List Event → Option (Except String Sys)
  | [] => some (.ok s)
  | e :: es =>
    match step s e with
    | none => none
    | some (.error m) => some (.error m)
    | some (.ok t) => exec t es

/-- 直前の `commit` の後に記録されたブロックが `bs` のとき、以降のどの `log_write` も、それが `n` 個に満たないうちに呼ば
れる。 -/
def Fits (n : Nat) : List Nat → List Event → Prop
  | _, [] => True
  | bs, .logWrite _ b :: es => bs.length < n ∧ Fits n (absorb bs b) es
  | _, .commit _ :: es => Fits n [] es
  | bs, .beginOp _ :: es => Fits n bs es
  | bs, .endOp _ :: es => Fits n bs es

/-- どの操作も、互いに異なるブロックを `n` 個までしか記録しない。`cur p` は `p` の操作が記録したものである。 -/
def PerOp (n : Nat) : (Nat → List Nat) → List Event → Prop
  | _, [] => True
  | cur, .logWrite p b :: es =>
    (absorb (cur p) b).length ≤ n ∧ PerOp n (Function.update cur p (absorb (cur p) b)) es
  | cur, .endOp p :: es => PerOp n (Function.update cur p []) es
  | cur, .beginOp _ :: es => PerOp n cur es
  | cur, .commit _ :: es => PerOp n cur es

instance decidableFits (n : Nat) : (bs : List Nat) → (es : List Event) → Decidable (Fits n bs es)
  | _, [] => .isTrue trivial
  | bs, .logWrite _ b :: es =>
    have := decidableFits n (absorb bs b) es
    inferInstanceAs (Decidable (_ ∧ _))
  | _, .commit _ :: es => decidableFits n [] es
  | bs, .beginOp _ :: es => decidableFits n bs es
  | bs, .endOp _ :: es => decidableFits n bs es

instance decidablePerOp (n : Nat) : (cur : Nat → List Nat) → (es : List Event) →
    Decidable (PerOp n cur es)
  | _, [] => .isTrue trivial
  | cur, .logWrite p b :: es =>
    have := decidablePerOp n (Function.update cur p (absorb (cur p) b)) es
    inferInstanceAs (Decidable (_ ∧ _))
  | cur, .endOp p :: es => decidablePerOp n (Function.update cur p []) es
  | cur, .beginOp _ :: es => decidablePerOp n cur es
  | cur, .commit _ :: es => decidablePerOp n cur es

end Xv6.Log
