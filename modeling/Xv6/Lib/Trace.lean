import Xv6.Lib.Free

/-!
# 記録を付けた計算

命令の意味に、出した命令の記録を加える。記録は計算に関わらないので、記録を捨てればもとの計算になる。
-/

namespace Xv6.Lib.Free

variable {ι : Type} {ρ : ι → Type} {α σ ε τ : Type} {h : (i : ι) → StateT σ (Except ε) (ρ i)} {f : ι → τ → τ}

/-- 命令の意味 `h` に、命令ごとの記録 `f` を加える。 -/
def traced (h : (i : ι) → StateT σ (Except ε) (ρ i)) (f : ι → τ → τ) (i : ι) : StateT (σ × τ) (Except ε) (ρ i) :=
  fun s => (h i s.1).map fun r => (r.1, r.2, f i s.2)

theorem run_traced (p : Free ι ρ α) (s : σ) (t : τ) :
    (run (traced h f) p (s, t)).map (fun r => (r.1, r.2.1)) = run h p s := by
  induction p generalizing s t with
  | ret a => rfl
  | op i k ih =>
    change Except.map _ (traced h f i (s, t) >>= fun r => run (traced h f) (k r.1) r.2) =
      (h i s >>= fun r => run h (k r.1) r.2)
    unfold traced
    cases h i s with
    | error e => rfl
    | ok r => exact ih r.1 r.2 (f i t)

end Xv6.Lib.Free
