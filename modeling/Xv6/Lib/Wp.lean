import Mathlib.Tactic.Common

/-!
# 最弱事前条件

状態を持ち途中で失敗しうる計算について、終わったときの条件と失敗したときの条件を一組で扱う。
計算は合成の規則でほどき、関数ごとの仕様は単調性で使う。
-/

namespace Xv6.Lib

variable {σ ε α β : Type}

/-- `s` から実行して終われば結果が `Q` を満たし、失敗すればその値が `E` を満たす。 -/
def wp (x : StateT σ (Except ε) α) (Q : α → σ → Prop) (E : ε → Prop) (s : σ) : Prop :=
  match x s with
  | .ok r => Q r.1 r.2
  | .error e => E e

section Rules

variable {Q : α → σ → Prop} {E : ε → Prop} {s : σ}

theorem wp_mono {x Q' E'} (h : wp x Q E s)
    (hQ : ∀ a t, Q a t → Q' a t) (hE : ∀ e, E e → E' e) : wp x Q' E' s := by
  unfold wp at *
  split
  · rename_i r hx
    rw [hx] at h
    exact hQ _ _ h
  · rename_i e hx
    rw [hx] at h
    exact hE _ h

theorem wp_post {x Q'} (h : wp x Q E s) (hQ : ∀ a t, Q a t → Q' a t) : wp x Q' E s :=
  wp_mono h hQ fun _ he => he

theorem wp_ok {x a t} (h : wp x Q E s) (hx : x s = .ok (a, t)) :
    Q a t := by
  unfold wp at h
  rw [hx] at h
  exact h

theorem wp_error {x e} (h : wp x Q E s) (hx : x s = .error e) :
    E e := by
  unfold wp at h
  rw [hx] at h
  exact h

theorem wp_of_ok {x : StateT σ (Except ε) α} (h : ∀ a t, x s = .ok (a, t) → Q a t) :
    wp x Q (fun _ => True) s := by
  unfold wp
  split
  · rename_i r hx
    exact h r.1 r.2 hx
  · trivial

theorem wp_run {x} (h : wp x Q E s) : wp x (fun a t => x s = .ok (a, t) ∧ Q a t) E s := by
  unfold wp at h ⊢
  split at h
  · rename_i r hx
    exact ⟨hx, h⟩
  · exact h

theorem wp_exists {x : StateT σ (Except ε) α} (h : wp x Q (fun _ => False) s) : ∃ a t, x s = .ok (a, t) ∧ Q a t := by
  unfold wp at h
  split at h
  · rename_i r hx
    exact ⟨r.1, r.2, hx, h⟩
  · exact h.elim

@[simp]
theorem wp_pure {a} : wp (pure a) Q E s ↔ Q a s := Iff.rfl

@[simp]
theorem wp_bind {x : StateT σ (Except ε) β} {f : β → StateT σ (Except ε) α} :
    wp (x >>= f) Q E s ↔ wp x (fun b t => wp (f b) Q E t) E s := by
  unfold wp
  change (match (x s >>= fun r => f r.1 r.2) with | .ok r => Q r.1 r.2 | .error e => E e) ↔ _
  cases x s <;> rfl

@[simp]
theorem wp_throw {e} : wp (throw e) Q E s ↔ E e := Iff.rfl

@[simp]
theorem wp_get {Q} : wp get Q E s ↔ Q s s := Iff.rfl

@[simp]
theorem wp_set {Q t} : wp (set t) Q E s ↔ Q () t := Iff.rfl

@[simp]
theorem wp_modify {Q f} : wp (modify f) Q E s ↔ Q () (f s) := Iff.rfl

theorem wp_ite {c} [Decidable c] {x y} :
    wp (if c then x else y) Q E s ↔ (c → wp x Q E s) ∧ (¬c → wp y Q E s) := by
  by_cases hc : c <;> simp [hc]

end Rules

end Xv6.Lib
