import Mathlib.Data.List.Nodup

/-!
# ログの状態と予約

`kernel/log.c` の `struct log` のうち、ロックの下で読み書きする部分と、それを変える関数を定める。
`lh.block[0..lh.n)` は長さ `lh.n` の列で表す。定数は `kernel/param.h`、ログの大きさは `mkfs/mkfs.c` による。
-/

namespace Xv6.Log

def maxopblocks : Nat := 10

def logsize : Nat := maxopblocks * 3

def nlog : Nat := logsize

structure LogState where
  size : Nat
  outstanding : Nat
  committing : Bool
  lh : List Nat
  deriving DecidableEq, Repr

def initlog : LogState := { size := nlog, outstanding := 0, committing := false, lh := [] }

def beginOp (l : LogState) : Option LogState :=
  if l.committing then none
  else if l.lh.length + (l.outstanding + 1) * maxopblocks > logsize then none
  else some { l with outstanding := l.outstanding + 1 }

def absorb : List Nat → Nat → List Nat
  | [], b => [b]
  | x :: xs, b => if x = b then b :: xs else x :: absorb xs b

def logWrite (l : LogState) (b : Nat) : Except String LogState :=
  if l.lh.length ≥ logsize ∨ l.lh.length ≥ l.size - 1 then .error "too big a transaction"
  else if l.outstanding < 1 then .error "log_write outside of trans"
  else .ok { l with lh := absorb l.lh b }

/-- `end_op` のうち、`commit` の前にロックの下で行う部分。`do_commit` も返す。 -/
def endOp (l : LogState) : Except String (LogState × Bool) :=
  if l.committing then .error "log.committing"
  else if l.outstanding - 1 = 0 then
    .ok ({ l with outstanding := l.outstanding - 1, committing := true }, true)
  else .ok ({ l with outstanding := l.outstanding - 1 }, false)

def endCommit (l : LogState) : LogState := { l with committing := false, lh := [] }

theorem absorb_of_mem {l b} (h : b ∈ l) : absorb l b = l := by
  induction l with
  | nil => cases h
  | cons x xs ih =>
    simp only [absorb]
    split
    · rename_i hx; rw [hx]
    · rename_i hx
      rcases List.mem_cons.mp h with rfl | h
      · exact absurd rfl hx
      · rw [ih h]

theorem absorb_of_not_mem {l b} (h : b ∉ l) : absorb l b = l ++ [b] := by
  induction l with
  | nil => rfl
  | cons x xs ih =>
    simp only [List.mem_cons, not_or] at h
    simp only [absorb, if_neg (Ne.symm h.1), ih h.2, List.cons_append]

theorem mem_absorb {l b c} : c ∈ absorb l b ↔ c ∈ l ∨ c = b := by
  by_cases h : b ∈ l
  · rw [absorb_of_mem h]
    constructor
    · exact Or.inl
    · rintro (hc | rfl)
      · exact hc
      · exact h
  · rw [absorb_of_not_mem h, List.mem_append, List.mem_singleton]

theorem nodup_absorb {l b} (h : l.Nodup) : (absorb l b).Nodup := by
  by_cases hb : b ∈ l
  · rwa [absorb_of_mem hb]
  · rw [absorb_of_not_mem hb]
    exact List.nodup_append.mpr ⟨h, List.nodup_singleton b, by
      rintro x hx y hy rfl
      exact hb (List.mem_singleton.mp hy ▸ hx)⟩

end Xv6.Log
