import Mathlib.Logic.Function.Basic

/-!
# 一点の書き換え

表やメモリの一か所を書き換える `Function.update` を、この開発では短い名前で使う。
-/

namespace Xv6.Lib

export Function (update update_self update_of_ne update_idem update_eq_self update_apply update_comm)

/-- 書き換えた後の値は、書いた値か、ほかの所の前からの値である。 -/
theorem update_eq {α β} [DecidableEq α] {f : α → β} {a x : α} {b c : β} (h : update f a b x = c) :
    x = a ∧ b = c ∨ x ≠ a ∧ f x = c := by
  by_cases hx : x = a
  · subst hx
    exact .inl ⟨rfl, by rwa [update_self] at h⟩
  · exact .inr ⟨hx, by rwa [update_of_ne hx] at h⟩

theorem update_cases {α : Type} {f : Nat → α} {p q : Nat} {a : α} {P : α → Prop}
    (h : P (Function.update f p a q)) : (q = p ∧ P a) ∨ (q ≠ p ∧ P (f q)) := by
  by_cases hq : q = p
  · subst hq
    exact .inl ⟨rfl, by rwa [Function.update_self] at h⟩
  · exact .inr ⟨hq, by rwa [Function.update_of_ne hq] at h⟩

end Xv6.Lib
