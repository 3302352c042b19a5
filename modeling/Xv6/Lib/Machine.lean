import Mathlib.Data.List.Basic
import Xv6.Lib.Update

/-!
# 一歩ずつ進む系

並行に進む系を、出来事を一つ受けて進む部分関数で表す。出来事の列の上の帰納法をここで一度だけ行う。
-/

namespace Xv6.Lib

variable {σ ε : Type}

/-- 系の一歩。その出来事が起こりえなければ `none`、`panic` すれば `error` である。 -/
def Machine (σ ε : Type) : Type := σ → ε → Option (Except String σ)

namespace Machine

variable {m : Machine σ ε} {s t : σ}

/-- 出来事の列を順に進める。`panic` したらそこで止まる。 -/
def exec (m : Machine σ ε) (s : σ) : List ε → Option (Except String σ)
  | [] => some (.ok s)
  | e :: es =>
    match m s e with
    | none => none
    | some (.error msg) => some (.error msg)
    | some (.ok t) => exec m t es

def Reaches (m : Machine σ ε) (s t : σ) : Prop := ∃ es, m.exec s es = some (.ok t)

theorem Reaches.refl : m.Reaches s s := ⟨[], rfl⟩

theorem Reaches.head {e u} (h : m s e = some (.ok u)) (h' : m.Reaches u t) : m.Reaches s t := by
  obtain ⟨es, h'⟩ := h'
  exact ⟨e :: es, by simp only [exec, h, h']⟩

theorem exec_cons {e es} (h : m.exec s (e :: es) = some (.ok t)) :
    ∃ u, m s e = some (.ok u) ∧ m.exec u es = some (.ok t) := by
  simp only [exec] at h
  cases hs : m s e with
  | none => simp [hs] at h
  | some r =>
    cases r with
    | error msg => simp [hs] at h
    | ok u => exact ⟨u, rfl, by simpa [hs] using h⟩

theorem Reaches.inv (Inv : σ → Prop) (h : m.Reaches s t) (h0 : Inv s)
    (hstep : ∀ u e v, Inv u → m u e = some (.ok v) → Inv v) : Inv t := by
  obtain ⟨es, h⟩ := h
  induction es generalizing s with
  | nil => cases h; exact h0
  | cons e es ih =>
    obtain ⟨u, hu, hes⟩ := exec_cons h
    exact ih (hstep s e u h0 hu) hes

theorem Reaches.trans {u} (h : m.Reaches s t) (h' : m.Reaches t u) : m.Reaches s u := by
  obtain ⟨es, h⟩ := h
  induction es generalizing s with
  | nil =>
    cases h
    exact h'
  | cons e es ih =>
    obtain ⟨v, hv, hes⟩ := exec_cons h
    exact .head hv (ih hes)

def final (m : Machine σ ε) (s : σ) (es : List ε) : σ :=
  match m.exec s es with
  | some (.ok t) => t
  | _ => s

theorem reaches_final (es : List ε) : m.Reaches s (m.final s es) := by
  unfold final
  split
  · exact ⟨es, ‹_›⟩
  · exact .refl

/-- 出来事の列の、起こる直前の状態とその出来事が、すべて条件 `C` を満たす。 -/
def Along (m : Machine σ ε) (C : σ → ε → Prop) (s : σ) : List ε → Prop
  | [] => True
  | e :: es => C s e ∧ ∀ t, m s e = some (.ok t) → Along m C t es

/-- 条件 `C` を満たす歩だけで `s` から `t` に着く。 -/
def ReachesBy (m : Machine σ ε) (C : σ → ε → Prop) (s t : σ) : Prop :=
  ∃ es, m.exec s es = some (.ok t) ∧ m.Along C s es

theorem ReachesBy.reaches {C} (h : m.ReachesBy C s t) : m.Reaches s t := by
  obtain ⟨es, h, -⟩ := h
  exact ⟨es, h⟩

theorem ReachesBy.inv {C} (Inv : σ → Prop) (h : m.ReachesBy C s t) (h0 : Inv s)
    (hstep : ∀ u e v, Inv u → C u e → m u e = some (.ok v) → Inv v) : Inv t := by
  obtain ⟨es, h, hc⟩ := h
  induction es generalizing s with
  | nil => cases h; exact h0
  | cons e es ih =>
    obtain ⟨u, hu, hes⟩ := exec_cons h
    exact ih (hstep s e u h0 hc.1 hu) hes (hc.2 u hu)

theorem ReachesBy.weaken {C D} (Inv : σ → Prop) (h : m.ReachesBy C s t) (h0 : Inv s)
    (hstep : ∀ u e v, Inv u → C u e → m u e = some (.ok v) → Inv v) (hCD : ∀ u e, Inv u → C u e → D u e) :
    m.ReachesBy D s t := by
  obtain ⟨es, h, hc⟩ := h
  refine ⟨es, h, ?_⟩
  clear h
  induction es generalizing s with
  | nil => trivial
  | cons e es ih => exact ⟨hCD s e h0 hc.1, fun u hu => ih (hstep s e u h0 hc.1 hu) (hc.2 u hu)⟩

/-- 列を進めながら条件 `c` を調べ、着いた状態を `f` で調べる。 -/
def test (m : Machine σ ε) (c : σ → ε → Bool) (s : σ) (f : σ → Bool) : List ε → Bool
  | [] => f s
  | e :: es =>
    c s e && match m s e with
      | some (.ok t) => test m c t f es
      | _ => false

theorem reachesBy_of_test {c f es} (h : m.test c s f es = true) :
    ∃ t, m.ReachesBy (fun u e => c u e = true) s t ∧ f t = true := by
  induction es generalizing s with
  | nil => exact ⟨s, ⟨[], rfl, trivial⟩, h⟩
  | cons e es ih =>
    simp only [test, Bool.and_eq_true] at h
    obtain ⟨hc, h⟩ := h
    split at h
    · rename_i u hu
      obtain ⟨t, ⟨es', hes, hal⟩, hf⟩ := ih h
      refine ⟨t, ⟨e :: es', ?_, hc, fun v hv => ?_⟩, hf⟩
      · simp only [exec, hu, hes]
      · rw [hu] at hv
        cases hv
        exact hal
    · cases h

end Machine

end Xv6.Lib
