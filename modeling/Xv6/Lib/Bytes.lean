import Xv6.Lib.Update
import Mathlib.Tactic.Ring
import Mathlib.Data.Nat.Basic

/-!
# バイト列

位置からバイトへの写像と、その中の小端の整数の読み書き、範囲の複写を定める。範囲の外が変わらないことを
補題として置く。
-/

namespace Xv6.Lib

abbrev Bytes := Nat → UInt8

def getLE (b : Bytes) (off : Nat) : Nat → Nat
  | 0 => 0
  | w + 1 => (b off).toNat + 256 * getLE b (off + 1) w

def putLE (b : Bytes) (off w v : Nat) : Bytes :=
  fun i => if off ≤ i ∧ i < off + w then UInt8.ofNat (v / 256 ^ (i - off)) else b i

def blit (dst : Bytes) (d : Nat) (src : Bytes) (s n : Nat) : Bytes :=
  fun i => if d ≤ i ∧ i < d + n then src (s + (i - d)) else dst i

def fill (dst : Bytes) (v : UInt8) (n : Nat) : Bytes :=
  fun i => if i < n then v else dst i

/-! ## 整数の読み書き -/

theorem getLE_congr {b c off w} (h : ∀ i, off ≤ i → i < off + w → b i = c i) :
    getLE b off w = getLE c off w := by
  induction w generalizing off with
  | zero => rfl
  | succ w ih =>
    simp only [getLE]
    rw [h off le_rfl (by omega), ih fun i h1 h2 => h i (by omega) (by omega)]

theorem getLE_lt (b : Bytes) (off w : Nat) : getLE b off w < 256 ^ w := by
  induction w generalizing off with
  | zero => simp [getLE]
  | succ w ih =>
    have h1 := ih (off + 1)
    have h2 : (b off).toNat < 256 := (b off).toNat_lt
    simp only [getLE, pow_succ]
    omega

theorem putLE_of_lt {b off w v i} (h : i < off) : putLE b off w v i = b i := by
  simp only [putLE]; rw [if_neg (by omega)]

theorem putLE_of_ge {b off w v i} (h : off + w ≤ i) : putLE b off w v i = b i := by
  simp only [putLE]; rw [if_neg (by omega)]

theorem putLE_succ_tail {b off w v i} (h : off + 1 ≤ i) :
    putLE b off (w + 1) v i = putLE b (off + 1) w (v / 256) i := by
  simp only [putLE]
  by_cases hi : i < off + (w + 1)
  · rw [if_pos ⟨by omega, hi⟩, if_pos ⟨h, by omega⟩, Nat.div_div_eq_div_mul]
    have : i - off = (i - (off + 1)) + 1 := by omega
    rw [this, pow_succ, Nat.mul_comm]
  · rw [if_neg (by omega), if_neg (by omega)]

theorem getLE_putLE (b : Bytes) (off w v : Nat) : getLE (putLE b off w v) off w = v % 256 ^ w := by
  induction w generalizing off v b with
  | zero => simp [getLE, Nat.mod_one]
  | succ w ih =>
    have hhead : putLE b off (w + 1) v off = UInt8.ofNat v := by simp [putLE]
    have htail : getLE (putLE b off (w + 1) v) (off + 1) w = (v / 256) % 256 ^ w := by
      rw [← ih b (off + 1) (v / 256)]
      exact getLE_congr fun i h _ => putLE_succ_tail h
    simp only [getLE]
    rw [hhead, htail, UInt8.toNat_ofNat', Nat.pow_succ 256 w, Nat.mul_comm (256 ^ w) 256, Nat.mod_mul]

theorem getLE_of_digits {b : Bytes} {off w v : Nat} (h : ∀ j < w, b (off + j) = UInt8.ofNat (v / 256 ^ j)) :
    getLE b off w = v % 256 ^ w := by
  rw [← getLE_putLE b off w v]
  refine getLE_congr fun i h1 h2 => ?_
  rw [putLE, if_pos ⟨h1, h2⟩, ← h (i - off) (by omega), Nat.add_sub_cancel' h1]

theorem getLE_putLE_self {b off w v} (h : v < 256 ^ w) :
    getLE (putLE b off w v) off w = v := by
  rw [getLE_putLE, Nat.mod_eq_of_lt h]

theorem getLE_putLE_disjoint {b off w v off' w'}
    (h : off' + w' ≤ off ∨ off + w ≤ off') : getLE (putLE b off w v) off' w' = getLE b off' w' := by
  refine getLE_congr fun i h1 h2 => ?_
  rcases h with h | h
  · exact putLE_of_lt (by omega)
  · exact putLE_of_ge (by omega)

/-! ## 範囲の複写 -/

theorem blit_in {dst src d s n i} (h1 : d ≤ i) (h2 : i < d + n) :
    blit dst d src s n i = src (s + (i - d)) := by
  simp only [blit]; rw [if_pos ⟨h1, h2⟩]

theorem blit_out {dst src d s n i} (h : i < d ∨ d + n ≤ i) :
    blit dst d src s n i = dst i := by
  simp only [blit]; rw [if_neg (by omega)]

theorem blit_congr {dst src src' d s n} (h : ∀ x, x < n → src' (s + x) = src (s + x)) :
    blit dst d src' s n = blit dst d src s n := by
  funext i
  by_cases hin : d ≤ i ∧ i < d + n
  · rw [blit_in hin.1 hin.2, blit_in hin.1 hin.2, h _ (by omega)]
  · rw [blit_out (by omega), blit_out (by omega)]

theorem blit_shift {dst src src' d s o n} (h : ∀ x, x < n → src' (o + x) = src (s + x)) :
    blit dst d src' o n = blit dst d src s n := by
  funext i
  by_cases hi : d ≤ i ∧ i < d + n
  · rw [blit_in hi.1 hi.2, blit_in hi.1 hi.2, h _ (by omega)]
  · rw [blit_out (by omega), blit_out (by omega)]

theorem blit_append {dst src src' d s o m n} (hm : m ≤ n) (h : ∀ x, x < m → src' (o + x) = src (s + x)) :
    blit (blit dst d src' o m) (d + m) src (s + m) (n - m) = blit dst d src s n := by
  funext i
  by_cases hlo : i < d
  · rw [blit_out (.inl (by omega)), blit_out (.inl hlo), blit_out (.inl hlo)]
  by_cases hmid : i < d + m
  · rw [blit_out (.inl hmid), blit_in (by omega) hmid, blit_in (by omega) (by omega), h _ (by omega)]
  by_cases hhi : i < d + n
  · rw [blit_in (by omega) (by omega), blit_in (by omega) hhi]
    congr 1
    omega
  · rw [blit_out (.inr (by omega)), blit_out (.inr (by omega)), blit_out (.inr (by omega))]

@[simp]
theorem blit_zero (dst src : Bytes) (d s : Nat) : blit dst d src s 0 = dst := by
  funext i
  exact blit_out (by omega)

end Xv6.Lib
