import Mathlib.Tactic.Common

/-!
# 燃料を持つ計算

燃料が尽きると `none` になる計算について、燃料が足りるときの結果を扱う。
-/

namespace Xv6.Lib

variable {ε α β : Type} {x : Nat → ExceptT ε Option α} {f : Nat → α → ExceptT ε Option β}

/-- 燃料が足りれば、計算の結果は `r` である。 -/
def Returns (x : Nat → ExceptT ε Option α) (r : Except ε α) : Prop := ∃ K, ∀ k, K ≤ k → (x k).run = some r

namespace Returns

theorem const (r : Except ε α) : Returns (fun _ => ExceptT.mk (some r)) r := ⟨0, fun _ _ => rfl⟩

theorem unique {r r'} (h : Returns x r) (h' : Returns x r') : r = r' := by
  obtain ⟨K, hK⟩ := h
  obtain ⟨K', hK'⟩ := h'
  have := (hK (max K K') (Nat.le_max_left ..)).symm.trans (hK' _ (Nat.le_max_right ..))
  exact Option.some.inj this

theorem succ {r} (h : Returns (fun k => x (k + 1)) r) : Returns x r := by
  obtain ⟨K, hK⟩ := h
  refine ⟨K + 1, fun k hk => ?_⟩
  obtain ⟨k, rfl⟩ : ∃ j, k = j + 1 := ⟨k - 1, by omega⟩
  exact hK k (by omega)

theorem bind {a r} (h : Returns x (.ok a)) (hf : Returns (fun k => f k a) r) :
    Returns (fun k => x k >>= f k) r := by
  obtain ⟨K, hK⟩ := h
  obtain ⟨K', hK'⟩ := hf
  refine ⟨max K K', fun k hk => ?_⟩
  have hx : x k = some (.ok a) := hK k (by omega)
  change (x k >>= f k : ExceptT ε Option β).run = _
  rw [hx]
  exact hK' k (by omega)

theorem bind_error {e} (h : Returns x (.error e)) : Returns (fun k => x k >>= f k) (.error e) := by
  obtain ⟨K, hK⟩ := h
  refine ⟨K, fun k hk => ?_⟩
  have hx : x k = some (.error e) := hK k hk
  change (x k >>= f k : ExceptT ε Option β).run = _
  rw [hx]
  rfl

end Returns

end Xv6.Lib
