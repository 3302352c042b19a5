import Xv6.Lib.Machine
import Xv6.Log.Machine

/-!
# 操作とトランザクション

`begin_op` から `end_op` までの操作と、`commit` が確定するトランザクションを対応させる。`commit` は `log.lock` を持たずに進むので、その中の区切りも歩
とする。
-/

namespace Xv6.Log

open Xv6.Lib

inductive CommitPos
  | start
  | writeLog
  | writeHead
  | install
  | erase
  | done
  deriving DecidableEq, Repr

/-- 操作の途中なら、`log_write` ごとに、次に確定するトランザクションの番号とブロックを持つ。 -/
inductive Place
  | idle
  | waiting
  | active (writes : List (Nat × Nat))
  | committing (pos : CommitPos)
  deriving DecidableEq, Repr

/-- ログの状態と、確定した `lh` の列、終わった操作の記録。 -/
structure Journal where
  log : LogState
  procs : Nat → Place
  commits : List (List Nat)
  ended : List (List (Nat × Nat))

def Journal.init (size : Nat) : Journal :=
  { log := { initlog with size := size }, procs := fun _ => .idle, commits := [], ended := [] }

def Journal.go (j : Journal) (l : LogState) (p : Nat) (pl : Place) : Journal :=
  { j with log := l, procs := update j.procs p pl }

/-- `commit` の一区切り。ヘッダを書くところで確定し、`lh` を空にするのはその後である。 -/
def commitStep (j : Journal) (p : Nat) : CommitPos → Journal
  | .start => j.go j.log p (.committing (if j.log.lh.length > 0 then .writeLog else .done))
  | .writeLog => j.go j.log p (.committing .writeHead)
  | .writeHead => { j.go j.log p (.committing .install) with commits := j.commits ++ [j.log.lh] }
  | .install => j.go j.log p (.committing .erase)
  | .erase => j.go { j.log with lh := [] } p (.committing .done)
  | .done => j.go { j.log with committing := false } p .idle

def Journal.step : Machine Journal Event := fun j e =>
  match e with
  | .beginOp p =>
    match j.procs p with
    | .idle | .waiting =>
      match beginOp j.log with
      | none => some (.ok (j.go j.log p .waiting))
      | some l => some (.ok (j.go l p (.active [])))
    | _ => none
  | .logWrite p b =>
    match j.procs p with
    | .active ws =>
      match logWrite j.log b with
      | .error m => some (.error m)
      | .ok l => some (.ok (j.go l p (.active (ws ++ [(j.commits.length, b)]))))
    | _ => none
  | .endOp p =>
    match j.procs p with
    | .active ws =>
      match endOp j.log with
      | .error m => some (.error m)
      | .ok (l, c) =>
        some (.ok { j.go l p (if c then .committing .start else .idle) with
          ended := j.ended ++ [ws] })
    | _ => none
  | .commit p =>
    match j.procs p with
    | .committing pos => some (.ok (commitStep j p pos))
    | _ => none

end Xv6.Log
