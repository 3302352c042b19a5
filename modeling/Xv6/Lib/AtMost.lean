import Mathlib.Data.Finset.Card

/-!
# 個数の上界

述語を満たす要素が高々 `n` 個であることを、要素の数え上げによらずに扱う。参照の数の不変条件に使う。
-/

namespace Xv6.Lib

variable {ι : Type} {P Q : ι → Prop} {n m : Nat} {a b : ι}

/-- `P` を満たす要素は高々 `n` 個である。 -/
def AtMost (P : ι → Prop) (n : Nat) : Prop := ∀ S : Finset ι, (∀ x ∈ S, P x) → S.card ≤ n

theorem AtMost.mono (h : AtMost P n) (hQ : ∀ x, Q x → P x) (hn : n ≤ m) : AtMost Q m :=
  fun S hS => (h S fun x hx => hQ x (hS x hx)).trans hn

theorem AtMost.of_empty (h : ∀ x, ¬P x) : AtMost P n := by
  intro S hS
  have : S = ∅ := Finset.eq_empty_of_forall_notMem fun x hx => h x (hS x hx)
  simp [this]

theorem AtMost.add (h : AtMost P n) (hQ : ∀ x, Q x → P x ∨ x = a) : AtMost Q (n + 1) := by
  classical
  intro S hS
  have hle := h (S.erase a) fun x hx => by
    rw [Finset.mem_erase] at hx
    exact (hQ x (hS x hx.2)).resolve_right hx.1
  have := Finset.pred_card_le_card_erase (s := S) (a := a)
  omega

theorem AtMost.remove (h : AtMost P (n + 1)) (ha : P a) (hQ : ∀ x, Q x → P x ∧ x ≠ a) : AtMost Q n := by
  classical
  intro S hS
  have hna : a ∉ S := fun hmem => (hQ a (hS a hmem)).2 rfl
  have hle := h (insert a S) fun x hx => by
    rcases Finset.mem_insert.mp hx with rfl | hx
    · exact ha
    · exact (hQ x (hS x hx)).1
  rw [Finset.card_insert_of_notMem hna] at hle
  omega

theorem AtMost.pos (h : AtMost P n) (ha : P a) : 0 < n := by
  have := h {a} (by simpa using ha)
  simpa [Nat.succ_le_iff] using this

theorem AtMost.unique (h : AtMost P 1) (ha : P a) (hb : P b) : a = b := by
  classical
  by_contra hne
  have hle := h {a, b} fun x hx => by
    rcases Finset.mem_insert.mp hx with rfl | hx
    · exact ha
    · rw [Finset.mem_singleton.mp hx]
      exact hb
  rw [Finset.card_pair hne] at hle
  omega

end Xv6.Lib
