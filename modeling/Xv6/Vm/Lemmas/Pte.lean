import Xv6.Vm.Pagetable
import Mathlib.Data.Nat.Bitwise
import Mathlib.Data.Nat.Size

/-!
# PTE の読み書き
-/

namespace Xv6.Vm

open Xv6.Lib

theorem has_two_pow (w i : Nat) : has w (2 ^ i) = w.testBit i := by
  rw [has, Nat.and_two_pow]
  cases w.testBit i <;> simp

theorem has_add {q f i} (hi : i < 10) : has (q * 1024 + f) (2 ^ i) = has f (2 ^ i) := by
  rw [has_two_pow, has_two_pow, Nat.testBit_eq_decide_div_mod_eq, Nat.testBit_eq_decide_div_mod_eq]
  have h : q * 1024 = 2 ^ i * (q * (2 ^ (9 - i) * 2)) := by
    have : (1024 : Nat) = 2 ^ i * (2 ^ (9 - i) * 2) := by
      rw [← Nat.pow_succ, ← Nat.pow_add, show i + (9 - i).succ = 10 by omega]
    rw [Nat.mul_left_comm, ← this]
  rw [h, Nat.mul_add_div (Nat.two_pow_pos i), show q * (2 ^ (9 - i) * 2) = q * 2 ^ (9 - i) * 2 by ring]
  congr 2
  omega

theorem pa2pte_or {q f} (hf : f < 1024) : pa2pte q ||| f = q * 1024 + f := by
  have h := Nat.two_pow_add_eq_or_of_lt (show f < 2 ^ 10 from hf) q
  rw [pa2pte, Nat.mul_comm q 1024]
  exact h.symm

@[simp]
theorem pte2pa_add {q f} (hf : f < 1024) : pte2pa (q * 1024 + f) = q := by
  simp only [pte2pa]; omega

@[simp]
theorem pteFlags_add {q f} (hf : f < 1024) : pteFlags (q * 1024 + f) = f := by
  simp only [pteFlags]; omega

theorem pte_eq_add (w : Nat) : w = pte2pa w * 1024 + pteFlags w := by
  simp only [pte2pa, pteFlags]; omega

theorem pteFlags_lt (w : Nat) : pteFlags w < 1024 := Nat.mod_lt _ (by decide)

theorem has_pteFlags {w i} (hi : i < 10) : has (pteFlags w) (2 ^ i) = has w (2 ^ i) := by
  have h := has_add (q := pte2pa w) (f := pteFlags w) hi
  rw [← pte_eq_add] at h
  exact h.symm

theorem has_zero (f : Nat) : has 0 f = false := by simp [has]

theorem ne_zero_of_has {w f} (h : has w f) : w ≠ 0 := by
  rintro rfl
  rw [has_zero] at h
  cases h

theorem has_clear {w i j} : has (clear w (2 ^ i)) (2 ^ j) = (has w (2 ^ j) && decide (i ≠ j)) := by
  rw [has_two_pow, has_two_pow, clear, Nat.testBit_xor, Nat.testBit_and, Nat.testBit_two_pow]
  by_cases h : i = j <;> simp [h]

theorem clear_lt {w f n} (hw : w < 2 ^ n) : clear w f < 2 ^ n :=
  Nat.xor_lt_two_pow hw (Nat.lt_of_le_of_lt Nat.and_le_left hw)

theorem clear_div {w i} (hi : i < 10) : pte2pa (clear w (2 ^ i)) = pte2pa w := by
  simp only [pte2pa, show (1024 : Nat) = 2 ^ 10 from rfl]
  apply Nat.eq_of_testBit_eq
  intro j
  simp only [Nat.testBit_div_two_pow, clear, Nat.testBit_xor, Nat.testBit_and, Nat.testBit_two_pow]
  simp [show i ≠ j + 10 by omega]

theorem or_pteV {w} (h : has w pteV) : w ||| pteV = w := by
  rw [show pteV = 2 ^ 0 from rfl, has_two_pow] at h
  apply Nat.eq_of_testBit_eq
  intro i
  rw [show pteV = 2 ^ 0 from rfl, Nat.testBit_or, Nat.testBit_two_pow]
  cases i with
  | zero => simp [h]
  | succ i => simp

theorem word_flags {w} (h : has w pteV) : pte2pa w * 1024 + (pteFlags w ||| pteV) = w := by
  have h' : has (pteFlags w) pteV := (has_pteFlags (i := 0) (by decide)).trans h
  rw [or_pteV h', ← pte_eq_add]

theorem has_word {p perm i} (hi : i < 10) :
    has (p * 1024 + (perm ||| pteV)) (2 ^ i) = (has perm (2 ^ i) || decide (i = 0)) := by
  rw [has_add hi, has_two_pow, has_two_pow, Nat.testBit_or, show pteV = 2 ^ 0 from rfl, Nat.testBit_two_pow]
  simp [eq_comm]

theorem has_user_perm (xperm q : Nat) : has (q * 1024 + ((pteR ||| pteU ||| xperm) ||| pteV)) pteU := by
  rw [show pteU = 2 ^ 4 from rfl, has_word (by decide), has_two_pow, Nat.testBit_or, Nat.testBit_or, Nat.testBit_two_pow_self, Bool.or_true, Bool.true_or,
    Bool.true_or]

theorem flags_lt {perm} (h : perm < 1024) : perm ||| pteV < 1024 :=
  Nat.or_lt_two_pow (n := 10) h (by decide)

theorem has_link_leaf (q : Nat) : has (q * 1024 + pteV) (pteR ||| pteW ||| pteX) = false := by
  have h : (q * 1024 + pteV) &&& (pteR ||| pteW ||| pteX) = 0 := by
    apply Nat.eq_of_testBit_eq
    intro i
    rw [Nat.testBit_and, Nat.zero_testBit]
    by_cases hi : i < 10
    · rw [← has_two_pow, has_add hi]
      revert i
      decide
    · have : (pteR ||| pteW ||| pteX).testBit i = false :=
        Nat.testBit_lt_two_pow (Nat.lt_of_lt_of_le (by decide) (Nat.pow_le_pow_right (by decide) (by omega : 10 ≤ i)))
      rw [this, Bool.and_false]
  simp [has, h]

section

variable (k : Kmem) (p : Nat) (d : Bytes)
include k p d

@[simp]
theorem Kmem.setPage_freelist : (k.setPage p d).freelist = k.freelist := rfl

@[simp]
theorem Kmem.setPage_refcnt : (k.setPage p d).refcnt = k.refcnt := rfl

@[simp]
theorem Kmem.setPage_failed : (k.setPage p d).failed = k.failed := rfl

@[simp]
theorem Kmem.setPage_created : (k.setPage p d).created = k.created := rfl

@[simp]
theorem Kmem.setPage_touched : (k.setPage p d).touched = k.touched := rfl

end

section

variable (k : Kmem) (p i w : Nat)
include k p i w

@[simp]
theorem Kmem.setPte_freelist : (k.setPte p i w).freelist = k.freelist := rfl

@[simp]
theorem Kmem.setPte_refcnt : (k.setPte p i w).refcnt = k.refcnt := rfl

@[simp]
theorem Kmem.setPte_failed : (k.setPte p i w).failed = k.failed := rfl

@[simp]
theorem Kmem.setPte_created : (k.setPte p i w).created = k.created := rfl

@[simp]
theorem Kmem.setPte_touched : (k.setPte p i w).touched = k.touched := rfl

end

theorem Kmem.setPte_mem {k : Kmem} {p i w p' : Nat} (h : p' ≠ p) : (k.setPte p i w).mem p' = k.mem p' := by
  simp [Kmem.setPte, Kmem.setPage, h]

theorem Kmem.pte_lt (k : Kmem) (p i : Nat) : k.pte p i < 2 ^ 64 := getLE_lt _ _ _

theorem Kmem.setPte_pte {k : Kmem} {p i w : Nat} (hw : w < 2 ^ 64) (p' i' : Nat) :
    (k.setPte p i w).pte p' i' = if p' = p ∧ i' = i then w else k.pte p' i' := by
  simp only [Kmem.pte, Kmem.setPte, Kmem.setPage]
  by_cases hp : p' = p
  · subst hp
    rw [update_self]
    by_cases hi : i' = i
    · subst hi
      simpa using getLE_putLE_self (w := 8) hw
    · have hd : 8 * i' + 8 ≤ 8 * i ∨ 8 * i + 8 ≤ 8 * i' := by omega
      simpa [hi] using getLE_putLE_disjoint hd
  · simp [hp]

theorem Kmem.pte_congr {k k' : Kmem} {p : Nat} (h : k'.mem p = k.mem p) (i : Nat) : k'.pte p i = k.pte p i := by
  simp only [Kmem.pte, h]

theorem Kmem.pte_zero {k : Kmem} {p i : Nat} (h : ∀ j < pgsize, k.mem p j = 0) (hi : i < 512) :
    k.pte p i = 0 := by
  have h0 : k.pte p i = getLE (fun _ => 0) (8 * i) 8 := by
    refine getLE_congr fun j h1 h2 => h j ?_
    simp only [pgsize]; omega
  rw [h0]
  simp [getLE]

theorem Kmem.find_congr {k k' : Kmem} (h : k'.mem = k.mem) (va l r : Nat) : k'.find va l r = k.find va l r := by
  induction l generalizing r with
  | zero => rfl
  | succ l ih =>
    simp only [Kmem.find, Kmem.pte, h, ih]
    rfl

theorem Kmem.leaf_congr {k k' : Kmem} (h : k'.mem = k.mem) : k'.leaf = k.leaf := by
  funext r v
  simp only [Kmem.leaf, Kmem.find_congr h, Kmem.pte, h]

end Xv6.Vm
