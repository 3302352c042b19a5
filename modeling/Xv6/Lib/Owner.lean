import Xv6.Lib.Update
import Mathlib.Data.Option.Basic

/-!
# 持ち主の記録

物ごとの持ち主 `o` と、者ごとの様子 `s` から `g` で読み取る持ち物が一致することを述べる。者は一度に一つだけを持つ。
-/

namespace Xv6.Lib

variable {α β γ : Type} {o : α → Option β} {g : γ → Option α} {s : β → γ} {a : α} {b b' : β} {v : γ}

/-- `a` の持ち主が `b` であることと、`b` の持ち物が `a` であることは同じである。 -/
def Matched (o : α → Option β) (g : γ → Option α) (s : β → γ) : Prop := ∀ a b, o a = some b ↔ g (s b) = some a

namespace Matched

theorem unique (h : Matched o g s) (hb : g (s b) = some a) (hb' : g (s b') = some a) : b = b' :=
  Option.some.inj (((h a b).mpr hb).symm.trans ((h a b').mpr hb'))

variable [DecidableEq β]

theorem keep (h : Matched o g s) (hv : g v = g (s b)) : Matched o g (update s b v) := by
  intro x y
  by_cases hy : y = b
  · rw [hy, update_self, hv, h x b]
  · rw [update_of_ne hy, h x y]

variable [DecidableEq α]

theorem take (h : Matched o g s) (ha : o a = none) (hb : g (s b) = none) (hv : g v = some a) :
    Matched (update o a (some b)) g (update s b v) := by
  intro x y
  by_cases hx : x = a <;> by_cases hy : y = b
  · simp [hx, hy, hv]
  · have hne : g (s y) ≠ some a := fun hf => by simp [(h a y).mpr hf] at ha
    simp [hx, hy, hne, Ne.symm hy]
  · have hne : o x ≠ some b := fun ho => by simp [(h x b).mp ho] at hb
    simp [hx, hy, hne, hv, Ne.symm hx]
  · simp [hx, hy, h x y]

theorem give (h : Matched o g s) (hb : g (s b) = some a) (hv : g v = none) :
    Matched (update o a none) g (update s b v) := by
  intro x y
  by_cases hx : x = a <;> by_cases hy : y = b
  · simp [hx, hy, hv]
  · have hne : g (s y) ≠ some a := fun hf => hy (h.unique hf hb)
    simp [hx, hy, hne]
  · have hne : o x ≠ some b := fun ho => hx (Option.some.inj (((h x b).mp ho).symm.trans hb))
    simp [hx, hy, hne, hv]
  · simp [hx, hy, h x y]

end Matched

end Xv6.Lib
