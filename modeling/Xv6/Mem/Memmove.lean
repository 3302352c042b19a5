import Xv6.Lib.Copy
import Mathlib.Data.BitVec
import Mathlib.Tactic.Common

/-!
# `memmove`

`kernel/string.c` と `user/ulib.c` の `memmove` を、64 ビットの番地の上で定める。二つは写す向きを異なる条件で選ぶが、範囲が
番地の終わりを越えなければ、どう重なっていても同じ結果になる。
-/

namespace Xv6.Mem

open Xv6.Lib List

abbrev Addr : Type := BitVec 64

abbrev Memory : Type := Addr → UInt8

/-- `while(n-- > 0) *d++ = *s++;` -/
def copyUp (m : Memory) (d s : Addr) : Nat → Memory
  | 0 => m
  | n + 1 => copyUp (update m d (m s)) (d + 1) (s + 1) n

/-- `while(n-- > 0) *--d = *--s;` -/
def copyDown (m : Memory) (d s : Addr) : Nat → Memory
  | 0 => m
  | n + 1 => copyDown (update m (d - 1) (m (s - 1))) (d - 1) (s - 1) n

/-- `kernel/string.c` の `memmove`。`n` は `uint` である。 -/
def Kernel.memmove (m : Memory) (dst src : Addr) (n : BitVec 32) : Memory × Addr :=
  if n = 0 then (m, dst)
  else if src < dst ∧ src + n.setWidth 64 > dst then
    (copyDown m (dst + n.setWidth 64) (src + n.setWidth 64) n.toNat, dst)
  else (copyUp m dst src n.toNat, dst)

def User.memmove (m : Memory) (dst src : Addr) (n : BitVec 32) : Memory × Addr :=
  if src > dst then (copyUp m dst src n.toInt.toNat, dst)
  else (copyDown m (dst + n.signExtend 64) (src + n.signExtend 64) n.toInt.toNat, dst)

/-- `m'` は、`m` の `src` からの `n` バイトを `dst` に移し、ほかは変えない。 -/
structure Moved (m : Memory) (dst src : Addr) (n : Nat) (m' : Memory) : Prop where
  copied : ∀ i < n, m' (dst + BitVec.ofNat 64 i) = m (src + BitVec.ofNat 64 i)
  kept : ∀ a, (∀ i < n, a ≠ dst + BitVec.ofNat 64 i) → m' a = m a

variable {m m' m'' : Memory} {d s : Addr} {n : Nat}

theorem Moved.unique (h : Moved m d s n m') (h' : Moved m d s n m'') : m' = m'' := by
  funext a
  by_cases ha : ∃ i < n, a = d + BitVec.ofNat 64 i
  · obtain ⟨i, hi, rfl⟩ := ha
    rw [h.copied i hi, h'.copied i hi]
  · have hne : ∀ i < n, a ≠ d + BitVec.ofNat 64 i := fun i hi he => ha ⟨i, hi, he⟩
    rw [h.kept a hne, h'.kept a hne]

/-! ## 写す順 -/

def ascending (d s : Addr) (n : Nat) : List (Addr × Addr) :=
  (List.range n).map fun i => (d + BitVec.ofNat 64 i, s + BitVec.ofNat 64 i)

theorem mem_ascending {x} :
    x ∈ ascending d s n ↔ ∃ i < n, (d + BitVec.ofNat 64 i, s + BitVec.ofNat 64 i) = x := by
  simp only [ascending, mem_map, mem_range]

theorem copyUp_eq : copyUp m d s n = copyAll m (ascending d s n) := by
  induction n generalizing m d s with
  | zero => rfl
  | succ n ih =>
    have hshift : ascending d s (n + 1) = (d, s) :: ascending (d + 1) (s + 1) n := by
      simp only [ascending, range_succ_eq_map, map_cons, map_map, BitVec.ofNat_eq_ofNat, BitVec.add_zero]
      congr 2
      funext i
      simp only [Function.comp_apply, Nat.succ_eq_add_one, BitVec.ofNat_add, Prod.mk.injEq]
      exact ⟨by ac_rfl, by ac_rfl⟩
    rw [copyUp, ih, hshift, copyAll]

theorem copyDown_eq :
    copyDown m (d + BitVec.ofNat 64 n) (s + BitVec.ofNat 64 n) n = copyAll m (ascending d s n).reverse := by
  induction n generalizing m with
  | zero => rfl
  | succ n ih =>
    have hback (a : Addr) : a + BitVec.ofNat 64 (n + 1) - 1 = a + BitVec.ofNat 64 n := by
      rw [BitVec.ofNat_add, ← BitVec.add_assoc]
      exact BitVec.add_sub_cancel _ _
    have hlast : (ascending d s (n + 1)).reverse =
        (d + BitVec.ofNat 64 n, s + BitVec.ofNat 64 n) :: (ascending d s n).reverse := by
      simp only [ascending, range_succ, map_append, map_cons, map_nil, reverse_append,
        reverse_cons, reverse_nil, nil_append, singleton_append]
    rw [copyDown, hback, hback, ih, hlast, copyAll]

theorem ascending_apart (hn : n < 2 ^ 64) (hs : s.toNat + n ≤ 2 ^ 64)
    (h : ¬(s.toNat < d.toNat ∧ d.toNat < s.toNat + n)) : Apart (ascending d s n) := by
  rw [Apart, ascending, pairwise_map]
  refine pairwise_lt_range.imp_of_mem fun {i j} hi hj hlt => ?_
  have := mem_range.mp hj
  constructor <;> bv_omega

theorem descending_apart (hn : n < 2 ^ 64) (hd : d.toNat + n ≤ 2 ^ 64)
    (h : ¬(d.toNat < s.toNat ∧ s.toNat < d.toNat + n)) : Apart (ascending d s n).reverse := by
  rw [Apart, pairwise_reverse, ascending, pairwise_map]
  refine pairwise_lt_range.imp_of_mem fun {i j} hi hj hlt => ?_
  have := mem_range.mp hj
  constructor <;> bv_omega

theorem moved_of_apart {l} (hl : Apart l) (hmem : ∀ x, x ∈ l ↔ x ∈ ascending d s n) :
    Moved m d s n (copyAll m l) where
  copied i hi := copyAll_of_mem (x := (_, _)) hl ((hmem _).mpr (mem_ascending.mpr ⟨i, hi, rfl⟩))
  kept a ha := by
    refine copyAll_of_notMem fun x hx => ?_
    obtain ⟨i, hi, rfl⟩ := mem_ascending.mp ((hmem x).mp hx)
    exact ha i hi

theorem copyUp_moved (hn : n < 2 ^ 64) (hs : s.toNat + n ≤ 2 ^ 64)
    (h : ¬(s.toNat < d.toNat ∧ d.toNat < s.toNat + n)) : Moved m d s n (copyUp m d s n) := by
  rw [copyUp_eq]
  exact moved_of_apart (ascending_apart hn hs h) fun _ => Iff.rfl

theorem copyDown_moved (hn : n < 2 ^ 64) (hd : d.toNat + n ≤ 2 ^ 64)
    (h : ¬(d.toNat < s.toNat ∧ s.toNat < d.toNat + n)) :
    Moved m d s n (copyDown m (d + BitVec.ofNat 64 n) (s + BitVec.ofNat 64 n) n) := by
  rw [copyDown_eq]
  exact moved_of_apart (descending_apart hn hd h) fun _ => mem_reverse

/-! ## 二つの `memmove` -/

section

variable {k : BitVec 32}

theorem Kernel.memmove_moved (hs : s.toNat + k.toNat ≤ 2 ^ 64) (hd : d.toNat + k.toNat ≤ 2 ^ 64) :
    Moved m d s k.toNat (Kernel.memmove m d s k).1 := by
  have hk : k.toNat < 2 ^ 64 := k.isLt.trans (by decide)
  have hwide : k.setWidth 64 = BitVec.ofNat 64 k.toNat := (BitVec.ofNat_toNat 64 k).symm
  rw [Kernel.memmove]
  split_ifs with hz hover
  · subst hz
    exact ⟨fun i hi => absurd hi (Nat.not_lt_zero i), fun _ _ => rfl⟩
  · rw [hwide]
    exact copyDown_moved hk hd (by bv_omega)
  · exact copyUp_moved hk hs (by bv_omega)

theorem User.memmove_moved (hs : s.toNat + k.toNat ≤ 2 ^ 64) (hd : d.toNat + k.toNat ≤ 2 ^ 64) (h0 : 0 ≤ k.toInt) :
    Moved m d s k.toNat (User.memmove m d s k).1 := by
  have hk : k.toNat < 2 ^ 64 := k.isLt.trans (by decide)
  have hmsb : k.msb = false := by
    rw [BitVec.msb_eq_toInt]
    exact decide_eq_false (Int.not_lt.mpr h0)
  have hwide : k.signExtend 64 = BitVec.ofNat 64 k.toNat := by
    rw [BitVec.signExtend_eq_setWidth_of_msb_false hmsb, BitVec.ofNat_toNat]
  have hcount : k.toInt.toNat = k.toNat := by
    rw [BitVec.toInt_eq_toNat_of_msb hmsb]
    rfl
  rw [User.memmove, hwide, hcount]
  split_ifs with hlt
  · exact copyUp_moved hk hs (by bv_omega)
  · exact copyDown_moved hk hd (by bv_omega)

theorem Kernel.memmove_snd : (Kernel.memmove m d s k).2 = d := by
  rw [Kernel.memmove]
  split_ifs <;> rfl

theorem User.memmove_snd : (User.memmove m d s k).2 = d := by
  rw [User.memmove]
  split_ifs <;> rfl

end

/-- 範囲が番地の終わりを越えなければ、どちらの `memmove` も、重なりによらず元の `n` バイトを移し、ほかを変えない。結果は等しい。 -/
theorem memmove_overlap (m : Memory) (dst src : Addr) (n : BitVec 32) (hs : src.toNat + n.toNat ≤ 2 ^ 64)
    (hd : dst.toNat + n.toNat ≤ 2 ^ 64) :
    Moved m dst src n.toNat (Kernel.memmove m dst src n).1 ∧
      (0 ≤ n.toInt → Moved m dst src n.toNat (User.memmove m dst src n).1 ∧
        User.memmove m dst src n = Kernel.memmove m dst src n) := by
  have hkernel : Moved m dst src n.toNat (Kernel.memmove m dst src n).1 := Kernel.memmove_moved hs hd
  refine ⟨hkernel, fun h0 => ?_⟩
  have huser : Moved m dst src n.toNat (User.memmove m dst src n).1 := User.memmove_moved hs hd h0
  exact ⟨huser, Prod.ext (huser.unique hkernel) (User.memmove_snd.trans Kernel.memmove_snd.symm)⟩

theorem memmove_overlap_top :
    (Kernel.memmove (fun a => a.toNat.toUInt8) 0xfffffffffffffffd 0xfffffffffffffffc 3).1 0xffffffffffffffff = 0xfe ∧
      User.memmove (fun a => a.toNat.toUInt8) 0xfffffffffffffffd 0xfffffffffffffffc 3 =
        Kernel.memmove (fun a => a.toNat.toUInt8) 0xfffffffffffffffd 0xfffffffffffffffc 3 :=
  ⟨by decide +kernel, ((memmove_overlap _ _ _ 3 (by decide) (by decide)).2 (by decide)).2⟩

end Xv6.Mem
