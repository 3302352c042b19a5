import Xv6.Lib.Free

/-!
# 途中で止まる実行

永続する状態を書く命令の直前で機械が止まりうる実行を定める。止まった時点の状態が満たす条件と、
最後まで進んだときの条件を、合成できる形で述べる。
-/

namespace Xv6.Lib.Free

variable {ι : Type} {ρ : ι → Type} {α β σ : Type}

inductive Outcome (σ α : Type) : Type
  | crashed (s : σ)
  | done (a : α) (s : σ)

def Outcome.state : Outcome σ α → σ
  | .crashed s => s
  | .done _ s => s

variable (h : (i : ι) → σ → ρ i × σ) (w : ι → Bool)

/-- `w` の命令をちょうど `n` 回まで実行し、次の `w` の命令の直前で止まる。 -/
def exec : Free ι ρ α → σ → Nat → Outcome σ α
  | .ret a, s, _ => .done a s
  | .op i k, s, n =>
    if w i then
      match n with
      | 0 => .crashed s
      | n + 1 => exec (k (h i s).1) (h i s).2 n
    else exec (k (h i s).1) (h i s).2 n

def eval : Free ι ρ α → σ → α × σ
  | .ret a, s => (a, s)
  | .op i k, s => eval (k (h i s).1) (h i s).2

/-- 最後まで進めば `Q` が成り立ち、どの書き込みの直前の状態でも `I` が成り立つ。 -/
def cwp : Free ι ρ α → (α → σ → Prop) → (σ → Prop) → σ → Prop
  | .ret a, Q, _, s => Q a s
  | .op i k, Q, I, s => (w i = true → I s) ∧ cwp (k (h i s).1) Q I (h i s).2

variable {h w} {Q : α → σ → Prop} {I : σ → Prop} {s : σ}

@[simp]
theorem cwp_ret {a} : cwp h w (.ret a) Q I s ↔ Q a s := Iff.rfl

@[simp]
theorem cwp_op {i k} :
    cwp h w (.op i k) Q I s ↔ (w i = true → I s) ∧ cwp h w (k (h i s).1) Q I (h i s).2 := Iff.rfl

theorem cwp_bind {p : Free ι ρ β} {f : β → Free ι ρ α} :
    cwp h w (p >>= f) Q I s ↔ cwp h w p (fun b t => cwp h w (f b) Q I t) I s := by
  induction p generalizing s with
  | ret b => simp
  | op i k ih => simp [ih]

theorem cwp_mono {p Q' I'} (hp : cwp h w p Q I s)
    (hQ : ∀ a t, Q a t → Q' a t) (hI : ∀ t, I t → I' t) : cwp h w p Q' I' s := by
  induction p generalizing s with
  | ret a => exact hQ _ _ hp
  | op i k ih => exact ⟨fun hw => hI _ (hp.1 hw), ih _ hp.2⟩

theorem exec_cwp {p} (hp : cwp h w p Q I s) (n : Nat) :
    (∃ t, exec h w p s n = .crashed t ∧ I t) ∨ (∃ a t, exec h w p s n = .done a t ∧ Q a t) := by
  induction p generalizing s n with
  | ret a => exact .inr ⟨a, s, rfl, hp⟩
  | op i k ih =>
    simp only [exec]
    by_cases hw : w i = true
    · rw [if_pos hw]
      cases n with
      | zero => exact .inl ⟨s, rfl, hp.1 hw⟩
      | succ n => exact ih _ hp.2 n
    · rw [if_neg hw]
      exact ih _ hp.2 n

theorem eval_cwp {p} (hp : cwp h w p Q I s) : ∃ a t, eval h p s = (a, t) ∧ Q a t := by
  induction p generalizing s with
  | ret a => exact ⟨a, s, rfl, hp⟩
  | op i k ih => exact ih _ hp.2

theorem exec_crashed_count {c : σ → Nat}
    (hc : ∀ i s, c (h i s).2 = if w i then c s + 1 else c s) {p : Free ι ρ α} {n : Nat} {t : σ}
    (he : exec h w p s n = .crashed t) : c t = c s + n := by
  induction p generalizing s n with
  | ret a => simp [exec] at he
  | op i k ih =>
    simp only [exec] at he
    have hi := hc i s
    by_cases hw : w i = true
    · rw [if_pos hw] at he hi
      cases n with
      | zero => cases he; rfl
      | succ n => rw [ih _ he, hi]; omega
    · rw [if_neg hw] at he hi
      rw [ih _ he, hi]

end Xv6.Lib.Free
