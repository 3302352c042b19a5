import Xv6.Fs.Seq
import Mathlib.Tactic.IntervalCases

/-!
# ディスクの形の補題
-/

namespace Xv6.Fs

open Xv6.Lib

theorem mask_toBitVec (bi : Nat) : (mask bi).toBitVec = BitVec.twoPow 8 (bi % 8) := by
  have hlt : bi % 8 < 8 := Nat.mod_lt _ (by decide)
  unfold mask
  generalize bi % 8 = n at hlt
  interval_cases n <;> rfl

theorem bit_eq (b : Block) (bi : Nat) : bit b bi = (b (bi / 8)).toBitVec.getLsbD (bi % 8) := by
  have hzero : (b (bi / 8) &&& mask bi = 0) ↔ (b (bi / 8)).toBitVec.getLsbD (bi % 8) = false := by
    rw [← UInt8.toBitVec_inj, UInt8.toBitVec_and, mask_toBitVec, BitVec.and_twoPow]
    have hlt : bi % 8 < 8 := Nat.mod_lt _ (by decide)
    generalize bi % 8 = n at hlt
    cases (b (bi / 8)).toBitVec.getLsbD n with
    | false => simp
    | true => interval_cases n <;> simp <;> decide
  rw [bit, Bool.eq_iff_iff, bne_iff_ne, Ne, hzero, Bool.not_eq_false]

theorem getLsbD_mask (bi bj : Nat) : (mask bi).toBitVec.getLsbD (bj % 8) = decide (bi % 8 = bj % 8) := by
  have hlt : bi % 8 < 8 := Nat.mod_lt _ (by decide)
  rw [mask_toBitVec, BitVec.getLsbD_twoPow]
  simp [hlt]

theorem bit_setBit (b : Block) (bi bj : Nat) : bit (setBit b bi) bj = (decide (bi = bj) || bit b bj) := by
  rw [bit_eq, bit_eq, setBit]
  by_cases hdiv : bj / 8 = bi / 8
  · have hij : bi % 8 = bj % 8 ↔ bi = bj := by omega
    rw [hdiv, update_self, UInt8.toBitVec_or, BitVec.getLsbD_or, getLsbD_mask, Bool.or_comm]
    simp only [hij]
  · have hne : bi ≠ bj := fun h => hdiv (by rw [h])
    simp [update_of_ne hdiv, hne]

theorem bit_clearBit (b : Block) (bi bj : Nat) : bit (clearBit b bi) bj = (!decide (bi = bj) && bit b bj) := by
  rw [bit_eq, bit_eq, clearBit]
  by_cases hdiv : bj / 8 = bi / 8
  · have hij : bi % 8 = bj % 8 ↔ bi = bj := by omega
    have hlt : bj % 8 < 8 := Nat.mod_lt _ (by decide)
    rw [hdiv, update_self, UInt8.toBitVec_and, BitVec.getLsbD_and, UInt8.toBitVec_not, BitVec.getLsbD_not,
      getLsbD_mask, Bool.and_comm]
    simp only [hlt, decide_true, Bool.true_and, hij]
  · have hne : bi ≠ bj := fun h => hdiv (by rw [h])
    simp [update_of_ne hdiv, hne]

theorem indirect_put {a : Block} {j l v : Nat} (hv : v < 2 ^ 32) :
    indirect (putLE a (4 * j) 4 v) l = if l = j then v else indirect a l := by
  unfold indirect
  split
  · rename_i h
    rw [h]
    exact getLE_putLE_self (by omega)
  · rename_i h
    exact getLE_putLE_disjoint (by omega)

theorem indirect_zero {a : Block} {j : Nat} (hj : j < nindirect) : indirect (fill a 0 bsize) j = 0 := by
  have hin : ∀ i, 4 * j ≤ i → i < 4 * j + 4 → fill a 0 bsize i = (fun _ => (0 : UInt8)) i := fun i _ hi => by
    have : i < bsize := by
      simp only [nindirect] at hj
      simp only [bsize]
      omega
    simp [fill, this]
  unfold indirect
  rw [getLE_congr hin]
  simp [getLE]

theorem putWords_out {b o n i f} (h : i < o ∨ o + 4 * n ≤ i) : putWords b o f n i = b i := by
  induction n with
  | zero => rfl
  | succ n ih =>
    rw [putWords]
    rcases h with h | h
    · rw [putLE_of_lt (by omega), ih (.inl h)]
    · rw [putLE_of_ge (by omega), ih (.inr (by omega))]

theorem putDinode_out {b o i d} (h : i < o ∨ o + 64 ≤ i) : putDinode b o d i = b i := by
  unfold putDinode
  simp only [ndirect]
  rw [putWords_out (by omega)]
  rcases h with h | h
  · rw [putLE_of_lt (by omega), putLE_of_lt (by omega), putLE_of_lt (by omega), putLE_of_lt (by omega), putLE_of_lt h]
  · rw [putLE_of_ge (by omega), putLE_of_ge (by omega), putLE_of_ge (by omega), putLE_of_ge (by omega),
      putLE_of_ge (by omega)]

theorem getDinode_congr {b c o} (h : ∀ i, o ≤ i → i < o + 64 →
    b i = c i) : getDinode b o = getDinode c o := by
  have hle : ∀ x w, o ≤ x → x + w ≤ o + 64 → getLE b x w = getLE c x w := fun x w h1 h2 =>
    getLE_congr fun i hi hw => h i (by omega) (by omega)
  unfold getDinode
  rw [hle o 2 (by omega) (by omega), hle (o + 2) 2 (by omega) (by omega), hle (o + 4) 2 (by omega) (by omega),
    hle (o + 6) 2 (by omega) (by omega), hle (o + 8) 4 (by omega) (by omega)]
  congr 1
  funext k
  split
  · rename_i hk
    simp only [ndirect] at hk
    exact hle _ 4 (by omega) (by omega)
  · rfl

theorem getDinode_put_of_ne {b i j d} (h : i % ipb ≠ j % ipb) :
    getDinode (putDinode b (dinodeOff i) d) (dinodeOff j) = getDinode b (dinodeOff j) := by
  refine getDinode_congr fun x h1 h2 => putDinode_out ?_
  unfold dinodeOff at *
  omega

structure Storable (d : Dinode) : Prop where
  type : d.type < 2 ^ 16
  major : d.major < 2 ^ 16
  minor : d.minor < 2 ^ 16
  nlink : d.nlink < 2 ^ 16
  size : d.size < 2 ^ 32
  addrs : ∀ k, d.addrs k < 2 ^ 32
  none : ∀ k, ndirect < k → d.addrs k = 0

theorem getDinode_storable (b : Block) (o : Nat) : Storable (getDinode b o) where
  type := getLE_lt _ _ 2
  major := getLE_lt _ _ 2
  minor := getLE_lt _ _ 2
  nlink := getLE_lt _ _ 2
  size := getLE_lt _ _ 4
  addrs k := by
    simp only [getDinode]
    split
    · exact getLE_lt _ _ 4
    · decide
  none k hk := if_neg (by omega)

theorem getLE_putWords {b o n k f} (hk : k < n) (hf : f k < 2 ^ 32) :
    getLE (putWords b o f n) (o + 4 * k) 4 = f k := by
  induction n with
  | zero => omega
  | succ n ih =>
    rw [putWords]
    by_cases hkn : k = n
    · subst hkn
      exact getLE_putLE_self (by omega)
    · rw [getLE_putLE_disjoint (by omega), ih (by omega)]

theorem getLE_putWords_below {b o n x w f} (h : x + w ≤ o) :
    getLE (putWords b o f n) x w = getLE b x w :=
  getLE_congr fun _ _ _ => putWords_out (.inl (by omega))

theorem getDinode_put_self {b o d} (h : Storable d) : getDinode (putDinode b o d) o = d := by
  have h1 := h.type
  have h2 := h.major
  have h3 := h.minor
  have h4 := h.nlink
  have h5 := h.size
  unfold putDinode
  refine Dinode.ext ?_ ?_ ?_ ?_ ?_ (funext fun k => ?_)
  · change getLE (putWords _ _ _ _) o 2 = _
    rw [getLE_putWords_below (by omega), getLE_putLE_disjoint (by omega), getLE_putLE_disjoint (by omega),
      getLE_putLE_disjoint (by omega), getLE_putLE_disjoint (by omega), getLE_putLE_self (by omega)]
  · change getLE (putWords _ _ _ _) (o + 2) 2 = _
    rw [getLE_putWords_below (by omega), getLE_putLE_disjoint (by omega), getLE_putLE_disjoint (by omega),
      getLE_putLE_disjoint (by omega), getLE_putLE_self (by omega)]
  · change getLE (putWords _ _ _ _) (o + 4) 2 = _
    rw [getLE_putWords_below (by omega), getLE_putLE_disjoint (by omega), getLE_putLE_disjoint (by omega),
      getLE_putLE_self (by omega)]
  · change getLE (putWords _ _ _ _) (o + 6) 2 = _
    rw [getLE_putWords_below (by omega), getLE_putLE_disjoint (by omega), getLE_putLE_self (by omega)]
  · change getLE (putWords _ _ _ _) (o + 8) 4 = _
    rw [getLE_putWords_below (by omega), getLE_putLE_self (by omega)]
  simp only [getDinode]
  split
  · rename_i hk
    exact getLE_putWords hk (h.addrs k)
  · rename_i hk
    exact (h.none k (by omega)).symm

end Xv6.Fs
