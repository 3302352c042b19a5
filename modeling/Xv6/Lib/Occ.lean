import Mathlib.Algebra.BigOperators.Fin
import Mathlib.Algebra.Order.BigOperators.Group.Finset
import Mathlib.Data.Fintype.BigOperators
import Xv6.Lib.Update

/-!
# 現れる回数

有限の表に値が現れる回数を数える。
-/

namespace Xv6.Lib

open Finset

variable {α β γ : Type} [Fintype α]

section

variable [DecidableEq β]

def occ (o : α → β) (b : β) : Nat := (Finset.univ.filter fun a => o a = b).card

theorem occ_eq_zero {o : α → β} {b : β} : occ o b = 0 ↔ ∀ a, o a ≠ b := by
  simp [occ, filter_eq_empty_iff]

theorem occ_pos {o : α → β} {b : β} : 0 < occ o b ↔ ∃ a, o a = b := by
  rw [Nat.pos_iff_ne_zero, Ne, occ_eq_zero]
  push Not
  rfl

theorem occ_update [DecidableEq α] (o : α → β) (a : α) (v b : β) :
    occ (update o a v) b + (if o a = b then 1 else 0) = occ o b + if v = b then 1 else 0 := by
  simp only [occ, card_filter]
  rw [← add_sum_erase _ _ (mem_univ a), ← add_sum_erase _ (fun i => if o i = b then 1 else 0)
      (mem_univ a)]
  have hrest : ∑ i ∈ Finset.univ.erase a, (if update o a v i = b then 1 else 0) =
      ∑ i ∈ Finset.univ.erase a, if o i = b then 1 else 0 :=
    sum_congr rfl fun i hi => by rw [update_of_ne (ne_of_mem_erase hi)]
  rw [hrest, update_self]
  omega

theorem occ_uncurry [Fintype γ] (o : γ → α → β) (b : β) : occ (fun x : γ × α => o x.1 x.2) b = ∑ c, occ (o c) b := by
  simp only [occ, card_filter, Fintype.sum_prod_type]

end

theorem sum_update [DecidableEq α] (o : α → γ → Nat) (a : α) (g : γ → Nat) (c : γ) :
    ∑ i, update o a g i c + o a c = ∑ i, o i c + g c := by
  rw [← add_sum_erase _ _ (mem_univ a), ← add_sum_erase _ (fun i => o i c) (mem_univ a)]
  have hrest : ∑ i ∈ Finset.univ.erase a, update o a g i c = ∑ i ∈ Finset.univ.erase a, o i c :=
    sum_congr rfl fun i hi => by rw [update_of_ne (ne_of_mem_erase hi)]
  rw [hrest, update_self]
  omega

end Xv6.Lib
