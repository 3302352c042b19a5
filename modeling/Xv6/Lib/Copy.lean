import Mathlib.Data.List.Basic
import Xv6.Lib.Update

/-!
# 一つずつ写すこと

書き先と読み元の組の列に従って、中身を一つずつ写す。書いた所を後で読み書きしない順であれば、重なりがあっても元の中身が写る。
-/

namespace Xv6.Lib

variable {A α : Type} [DecidableEq A] {m : A → α} {a : A} {x : A × A} {l : List (A × A)}

/-- 組 `(d, s)` を順に取り、`s` の中身を `d` に写す。 -/
def copyAll (m : A → α) : List (A × A) → A → α
  | [] => m
  | x :: l => copyAll (update m x.1 (m x.2)) l

/-- どの組の書き先も、後の組は読み書きしない。 -/
def Apart (l : List (A × A)) : Prop := l.Pairwise fun x y => y.1 ≠ x.1 ∧ y.2 ≠ x.1

theorem copyAll_of_notMem (ha : ∀ x ∈ l, a ≠ x.1) : copyAll m l a = m a := by
  induction l generalizing m with
  | nil => rfl
  | cons x l ih =>
    rw [copyAll, ih fun y hy => ha y (List.mem_cons_of_mem _ hy)]
    exact update_of_ne (ha x List.mem_cons_self) ..

theorem copyAll_of_mem (h : Apart l) (hx : x ∈ l) : copyAll m l x.1 = m x.2 := by
  induction l generalizing m with
  | nil => cases hx
  | cons y l ih =>
    obtain ⟨hy, hl⟩ := List.pairwise_cons.mp h
    rw [copyAll]
    obtain rfl | hx := List.mem_cons.mp hx
    · rw [copyAll_of_notMem fun z hz => (hy z hz).1.symm, update_self]
    · -- 読み元は、先に書いた所ではない。
      rw [ih hl hx]
      exact update_of_ne (hy x hx).2 ..

end Xv6.Lib
