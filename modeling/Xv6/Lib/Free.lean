import Xv6.Lib.Wp

/-!
# 命令の列としてのプログラム

命令の集まり `ι` と、命令ごとの応答の型 `ρ` から、応答を見て次の命令を決めるプログラムの型を作る。
同じプログラムを、状態の上の計算としても、ほかのプログラムと交互に進む列としても読める。
-/

namespace Xv6.Lib

/-- 命令 `i` を出し、応答を受け取って続きを決めるプログラム。 -/
inductive Free (ι : Type) (ρ : ι → Type) (α : Type) : Type
  | ret (a : α)
  | op (i : ι) (k : ρ i → Free ι ρ α)

namespace Free

variable {ι : Type} {ρ : ι → Type} {α β σ ε τ : Type}

def bind : Free ι ρ α → (α → Free ι ρ β) → Free ι ρ β
  | .ret a, f => f a
  | .op i k, f => .op i fun r => bind (k r) f

instance : Monad (Free ι ρ) where
  pure := .ret
  bind := bind

def send (i : ι) : Free ι ρ (ρ i) := .op i .ret

@[simp]
theorem ret_bind (a : α) (f : α → Free ι ρ β) : (Free.ret a >>= f : Free ι ρ β) = f a := rfl

@[simp]
theorem op_bind (i : ι) (k : ρ i → Free ι ρ α) (f : α → Free ι ρ β) :
    (Free.op i k >>= f : Free ι ρ β) = .op i fun r => k r >>= f := rfl

@[simp]
theorem pure_eq (a : α) : (pure a : Free ι ρ α) = .ret a := rfl

def run (h : (i : ι) → StateT σ (Except ε) (ρ i)) : Free ι ρ α → StateT σ (Except ε) α
  | .ret a => pure a
  | .op i k => do run h (k (← h i))

variable {h : (i : ι) → StateT σ (Except ε) (ρ i)} {Q : α → σ → Prop} {E : ε → Prop} {s : σ}

@[simp]
theorem wp_run_ret {a} : wp (run h (.ret a)) Q E s ↔ Q a s := Iff.rfl

@[simp]
theorem wp_run_op {i k} :
    wp (run h (.op i k)) Q E s ↔ wp (h i) (fun r t => wp (run h (k r)) Q E t) E s := wp_bind

theorem wp_run_bind {p : Free ι ρ β} {f : β → Free ι ρ α} :
    wp (run h (p >>= f)) Q E s ↔ wp (run h p) (fun b t => wp (run h (f b)) Q E t) E s := by
  induction p generalizing s with
  | ret b => simp
  | op i k ih => simp [ih]

/-! ## 命令ごとの述語変換 -/

/-- 命令ごとの述語変換 `t` から定まる最弱事前条件。命令の応答を一つに決めなくてよい。 -/
def spec (t : (i : ι) → (ρ i → τ → Prop) → τ → Prop) : Free ι ρ α → (α → τ → Prop) → τ → Prop
  | .ret a, Q, s => Q a s
  | .op i k, Q, s => t i (fun r s' => spec t (k r) Q s') s

variable {t : (i : ι) → (ρ i → τ → Prop) → τ → Prop} {R : α → τ → Prop} {u : τ}

@[simp]
theorem spec_ret {a} : spec t (.ret a : Free ι ρ α) R u ↔ R a u := Iff.rfl

@[simp]
theorem spec_op {i k} : spec t (.op i k) R u ↔ t i (fun r v => spec t (k r) R v) u := Iff.rfl

@[simp]
theorem spec_send {i R} : spec t (send i) R u ↔ t i R u := Iff.rfl

theorem spec_ite {c} [Decidable c] {x y} :
    spec t (if c then x else y) R u ↔ (c → spec t x R u) ∧ (¬c → spec t y R u) := by
  by_cases hc : c <;> simp [hc]

theorem spec_bind {p : Free ι ρ β} {f : β → Free ι ρ α} :
    spec t (p >>= f) R u ↔ spec t p (fun b v => spec t (f b) R v) u := by
  induction p generalizing u with
  | ret b => rfl
  | op i k ih => simp [ih]

section Guarded

variable {guard : ι → τ → Prop} {next : τ → ι → τ}

/-- 命令 `i` は、`guard` の成り立つ状態でだけ出し、応答によらず状態を `next` に変える。 -/
def guarded (guard : ι → τ → Prop) (next : τ → ι → τ) (i : ι) (Q : ρ i → τ → Prop) (u : τ) : Prop :=
  guard i u ∧ ∀ r, Q r (next u i)

theorem spec_mono {p : Free ι ρ α} {R' : α → τ → Prop} (hp : spec (guarded guard next) p R u)
    (h : ∀ a v, R a v → R' a v) : spec (guarded guard next) p R' u := by
  induction p generalizing u with
  | ret a => exact h a u hp
  | op i k ih => exact ⟨hp.1, fun r => ih r (hp.2 r)⟩

/-- プログラムが命令の列を出し、何らかの応答を受けて、残りのプログラムになる。 -/
inductive Runs : Free ι ρ α → List ι → Free ι ρ α → Prop
  | refl (p : Free ι ρ α) : Runs p [] p
  | op {i k r is q} (h : Runs (k r) is q) :
      Runs (.op i k) (i :: is) q

/-- 応答を決めて走らせ、出した命令の列と残りを求める。 -/
def follow (reply : (i : ι) → Option (ρ i)) : Free ι ρ α → List ι × Free ι ρ α
  | .ret a => ([], .ret a)
  | .op i k =>
    match reply i with
    | none => ([], .op i k)
    | some r => (i :: (follow reply (k r)).1, (follow reply (k r)).2)

theorem runs_follow (reply : (i : ι) → Option (ρ i)) (p : Free ι ρ α) :
    Runs p (follow reply p).1 (follow reply p).2 := by
  induction p with
  | ret a => exact .refl _
  | op i k ih =>
    unfold follow
    split
    · exact .refl _
    · exact .op (ih _)

theorem Runs.spec {p q : Free ι ρ α} {is : List ι} (hr : Runs p is q) (h : spec (guarded guard next) p R u) :
    (∀ pre i post, is = pre ++ i :: post → guard i (pre.foldl next u)) ∧
      Free.spec (guarded guard next) q R (is.foldl next u) := by
  induction hr generalizing u with
  | refl p => exact ⟨fun pre i post hi => by simp at hi, h⟩
  | op hr ih =>
    obtain ⟨hg, hq⟩ := ih (h.2 _)
    refine ⟨fun pre i post hi => ?_, hq⟩
    cases pre with
    | nil =>
      cases hi
      exact h.1
    | cons j pre =>
      cases hi
      exact hg pre i post rfl

end Guarded

end Free

end Xv6.Lib
