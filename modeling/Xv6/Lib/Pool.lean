import Xv6.Lib.Free
import Xv6.Lib.Machine

/-!
# 交互に進むプログラム

複数のプログラムが共有の状態の上で命令を一つずつ交互に進める系を定める。一つずつのプログラムについて示した条件は、どう交互に進んでも成り立つ。
-/

namespace Xv6.Lib

/-- 共有の状態と、者ごとの残りのプログラム。`ret` は何もしていないことを表す。 -/
structure Pool (σ P ι : Type) (ρ : ι → Type) where
  shared : σ
  code : P → Free ι ρ Unit

namespace Pool

variable {σ P C χ ι τ : Type} {ρ : ι → Type}

/-- `call` は始められる呼び出しのプログラムを、`exec` は外からの選択 `χ` の下での命令の結果を与える。 -/
structure Sem (σ P C χ ι : Type) (ρ : ι → Type) where
  call : σ → P → C → Option (Free ι ρ Unit)
  exec : σ → P → χ → (i : ι) → Option (Except String (ρ i × σ))

inductive Ev (P C χ : Type)
  | start (p : P) (c : C)
  | step (p : P) (ch : χ)

def run [DecidableEq P] (m : Sem σ P C χ ι ρ) (s : Pool σ P ι ρ) (p : P) (ch : χ) :
    Free ι ρ Unit → Option (Except String (Pool σ P ι ρ))
  | .ret _ => none
  | .op i k =>
    match m.exec s.shared p ch i with
    | none => none
    | some (.error msg) => some (.error msg)
    | some (.ok (r, t)) => some (.ok ⟨t, update s.code p (k r)⟩)

def begin [DecidableEq P] (m : Sem σ P C χ ι ρ) (s : Pool σ P ι ρ) (p : P) (c : C) :
    Free ι ρ Unit → Option (Except String (Pool σ P ι ρ))
  | .ret _ => (m.call s.shared p c).map fun x => .ok ⟨s.shared, update s.code p x⟩
  | .op _ _ => none

def step [DecidableEq P] (m : Sem σ P C χ ι ρ) : Machine (Pool σ P ι ρ) (Ev P C χ)
  | s, .start p c => begin m s p c (s.code p)
  | s, .step p ch => run m s p ch (s.code p)

/-- 誰も呼び出しの途中でない。 -/
def Quiet (s : Pool σ P ι ρ) : Prop := ∀ p, s.code p = .ret ()

def idle : Free ι ρ Unit → Bool
  | .ret _ => true
  | .op _ _ => false

theorem quiet_of_idle {s : Pool σ P ι ρ} (h : ∀ p, idle (s.code p) = true) : s.Quiet := by
  intro p
  have hp := h p
  cases hc : s.code p with
  | ret a => rfl
  | op i k => simp [hc, idle] at hp

/-- 述語変換 `t` が命令の意味に合う。`view` は者から見える状態、`Rest` は呼び出しの合間の条件、`A` は起こりうる `panic`
である。 -/
structure Sound (m : Sem σ P C χ ι ρ) (t : (i : ι) → (ρ i → τ → Prop) → τ → Prop) (view : σ → P → τ) (Inv : σ → Prop)
    (Rest : τ → Prop) (A : String → Prop) : Prop where
  call : ∀ {s p c x}, Inv s → Rest (view s p) → m.call s p c = some x → Free.spec t x (fun _ => Rest) (view s p)
  ok : ∀ {s p ch i r s'} {Q : ρ i → τ → Prop}, Inv s → t i Q (view s p) → m.exec s p ch i = some (.ok (r, s')) →
    Inv s' ∧ Q r (view s' p) ∧ ∀ q ≠ p, ∀ x : Free ι ρ Unit,
      Free.spec t x (fun _ => Rest) (view s q) → Free.spec t x (fun _ => Rest) (view s' q)
  error : ∀ {s p ch i msg} {Q : ρ i → τ → Prop}, Inv s → t i Q (view s p) → m.exec s p ch i = some (.error msg) → A msg

/-- 不変条件が成り立ち、どの者の残りのプログラムも述語変換の条件を満たす。 -/
structure Safe (t : (i : ι) → (ρ i → τ → Prop) → τ → Prop) (view : σ → P → τ) (Inv : σ → Prop) (Rest : τ → Prop)
    (s : Pool σ P ι ρ) : Prop where
  inv : Inv s.shared
  spec : ∀ p, Free.spec t (s.code p) (fun _ => Rest) (view s.shared p)

variable {m : Sem σ P C χ ι ρ} {t : (i : ι) → (ρ i → τ → Prop) → τ → Prop} {view : σ → P → τ}
  {Inv : σ → Prop} {Rest : τ → Prop} {A : String → Prop} {s s' : Pool σ P ι ρ} {e : Ev P C χ} {msg : String}

theorem Safe.rest (h : Safe t view Inv Rest s) (hq : s.Quiet) (p : P) : Rest (view s.shared p) := by
  have := h.spec p
  rwa [hq p] at this

namespace Sound

variable [DecidableEq P]

section

variable (hm : Sound m t view Inv Rest A) (h : Safe t view Inv Rest s)
include hm h

theorem step (hs : step m s e = some (.ok s')) :
    Safe t view Inv Rest s' := by
  cases e with
  | start p c =>
    simp only [Pool.step] at hs
    have hp := h.spec p
    cases hc : s.code p with
    | op i k => simp [hc, begin] at hs
    | ret a =>
      rw [hc] at hs hp
      simp only [begin, Option.map_eq_some_iff, Except.ok.injEq] at hs
      obtain ⟨x, hx, rfl⟩ := hs
      refine ⟨h.inv, fun q => ?_⟩
      by_cases hq : q = p
      · subst hq
        simpa using hm.call h.inv hp hx
      · simpa [hq] using h.spec q
  | step p ch =>
    simp only [Pool.step] at hs
    have hp := h.spec p
    cases hc : s.code p with
    | ret a => simp [hc, run] at hs
    | op i k =>
      rw [hc] at hs hp
      simp only [run] at hs
      split at hs <;> simp only [Option.some.injEq, reduceCtorEq, Except.ok.injEq] at hs
      rename_i r t' he
      obtain rfl := hs
      obtain ⟨hinv, hQ, hframe⟩ := hm.ok h.inv hp he
      refine ⟨hinv, fun q => ?_⟩
      by_cases hq : q = p
      · subst hq
        simpa using hQ
      · simpa [hq] using hframe q hq _ (h.spec q)

theorem reaches (hr : (Pool.step m).Reaches s s') :
    Safe t view Inv Rest s' :=
  hr.inv (Safe t view Inv Rest) h fun _ _ _ hu hstep => hm.step hu hstep

theorem panics (hs : Pool.step m s e = some (.error msg)) :
    A msg := by
  cases e with
  | start p c =>
    simp only [Pool.step] at hs
    cases hc : s.code p with
    | op i k | ret a => simp [hc, begin] at hs
  | step p ch =>
    simp only [Pool.step] at hs
    have hp := h.spec p
    cases hc : s.code p with
    | ret a => simp [hc, run] at hs
    | op i k =>
      rw [hc] at hs hp
      simp only [run] at hs
      split at hs <;> simp only [Option.some.injEq, reduceCtorEq, Except.error.injEq] at hs
      rename_i he
      exact hm.error h.inv hp (hs ▸ he)

end

end Sound

end Pool

end Xv6.Lib
