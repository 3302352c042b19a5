import Mathlib.Data.List.Basic
import Mathlib.Tactic.Common

/-!
# 次を指す欄でつながった列

`f` が次を指す欄であるとき、列の要素が順につながり、最後が `z` を指すことを定める。`z` を列の先頭にすれば輪になる。
-/

namespace Xv6.Lib

variable {α : Type} {f g : α → α} {z : α} {a : α} {l m : List α}

/-- 列 `l` は `f` で順につながり、最後は `z` を指す。 -/
def Path (f : α → α) (z : α) : List α → Prop
  | [] => True
  | a :: l => f a = l.headD z ∧ Path f z l

namespace Path

@[simp]
theorem nil : Path f z [] := trivial

theorem cons_iff : Path f z (a :: l) ↔ f a = l.headD z ∧ Path f z l := Iff.rfl

theorem append_iff : Path f z (l ++ m) ↔ Path f (m.headD z) l ∧ Path f z m := by
  induction l with
  | nil => simp
  | cons a l ih =>
    have hhead : (l ++ m).headD z = l.headD (m.headD z) := by cases l <;> rfl
    rw [List.cons_append, cons_iff, cons_iff, ih, hhead, and_assoc]

theorem congr (h : Path f z l) (hfg : ∀ a ∈ l, g a = f a) : Path g z l := by
  induction l with
  | nil => exact trivial
  | cons a l ih =>
    exact ⟨(hfg a List.mem_cons_self).trans h.1, ih h.2 fun b hb => hfg b (List.mem_cons_of_mem a hb)⟩

theorem apply_mem (h : Path f z l) (ha : a ∈ l) : f a ∈ l ∨ f a = z := by
  induction l with
  | nil => cases ha
  | cons b l ih =>
    obtain rfl | ha := List.mem_cons.mp ha
    · cases l with
      | nil => exact .inr h.1
      | cons c l => exact .inl (h.1 ▸ List.mem_cons_of_mem a List.mem_cons_self)
    · exact (ih h.2 ha).imp_left (List.mem_cons_of_mem b)

theorem rotate (h : Path f z (l ++ a :: m)) (hz : (l ++ a :: m).head? = some z) : Path f a (a :: m ++ l) := by
  obtain ⟨hl, ham⟩ := append_iff.mp h
  have hhead : l.headD a = z := by
    cases l with
    | nil | cons b l => exact Option.some.inj hz
  exact append_iff.mpr ⟨hhead.symm ▸ ham, hl⟩

end Path

end Xv6.Lib
