import Mathlib.Algebra.BigOperators.Group.List.Basic
import Mathlib.Algebra.Order.BigOperators.Group.List
import Mathlib.Data.List.Nodup
import Xv6.Lib.Path
import Xv6.Umalloc.Heap

/-!
# 領域の分割
-/

namespace Xv6.Umalloc

open Xv6.Lib

variable {base : Nat} {h : Heap} {L W : List Nat} {f : Nat → Nat → Nat} {g g' : Nat → Nat} {a b x : Nat} {l m : List Nat}

def Additive (f : Nat → Nat → Nat) : Prop := ∀ a u v, f a (u + v) = f a u + f (a + hdr * u) v

def inside (x a u : Nat) : Nat := if a ≤ x ∧ x < a + hdr * u then 1 else 0

theorem additive_inside (x : Nat) : Additive (inside x) := by
  intro a u v
  have hsplit : (a ≤ x ∧ x < a + hdr * (u + v)) ↔
      (a ≤ x ∧ x < a + hdr * u) ∨ (a + hdr * u ≤ x ∧ x < a + hdr * u + hdr * v) := by
    simp only [hdr]
    omega
  have hone : ¬((a ≤ x ∧ x < a + hdr * u) ∧ a + hdr * u ≤ x ∧ x < a + hdr * u + hdr * v) := by omega
  simp only [inside, hsplit]
  by_cases h1 : a ≤ x ∧ x < a + hdr * u
  · rw [if_pos (.inl h1), if_pos h1, if_neg fun h2 => hone ⟨h1, h2⟩]
  · rw [if_neg h1, Nat.zero_add]
    exact if_congr (by rw [or_iff_right h1]) rfl rfl

theorem additive_units : Additive fun _ u => u := fun _ _ _ => rfl

theorem Additive.zero (hf : Additive f) (a : Nat) : f a 0 = 0 := by
  have := hf a 0 0
  simp only [Nat.mul_zero, Nat.add_zero] at this
  omega

def total (f : Nat → Nat → Nat) (g : Nat → Nat) (l : List Nat) : Nat := (l.map fun b => f b (g b)).sum

def chunkTotal (f : Nat → Nat → Nat) (cs : List (Nat × Nat)) : Nat := (cs.map fun c => f c.1 c.2).sum

@[simp] theorem total_cons : total f g (b :: l) = f b (g b) + total f g l := by simp [total]
@[simp] theorem total_append : total f g (l ++ m) = total f g l + total f g m := by simp [total]

theorem total_congr (hg : ∀ b ∈ l, g' b = g b) : total f g' l = total f g l := by
  unfold total
  congr 1
  exact List.map_congr_left fun b hb => by rw [hg b hb]

theorem le_total (hb : b ∈ l) : f b (g b) ≤ total f g l := by
  obtain ⟨l, m, rfl⟩ := List.append_of_mem hb
  simp only [total_append, total_cons]
  omega

theorem total_erase (hb : b ∈ l) : total f g l = f b (g b) + total f g (l.erase b) := by
  rw [total, ((List.perm_cons_erase hb).map _).sum_eq]
  exact total_cons

theorem chunkTotal_inside {cs} (hcs : cs.Pairwise fun c d => d.1 + hdr * d.2 ≤ c.1) :
    chunkTotal (inside x) cs = if ∃ c ∈ cs, c.1 ≤ x ∧ x < c.1 + hdr * c.2 then 1 else 0 := by
  induction cs with
  | nil => simp [chunkTotal]
  | cons c cs ih =>
    obtain ⟨hc, hcs⟩ := List.pairwise_cons.mp hcs
    have hcons : chunkTotal (inside x) (c :: cs) = inside x c.1 c.2 + chunkTotal (inside x) cs := by simp [chunkTotal]
    rw [hcons, ih hcs]
    simp only [List.mem_cons, exists_eq_or_imp, inside]
    by_cases h1 : c.1 ≤ x ∧ x < c.1 + hdr * c.2
    · rw [if_pos h1]
      have h2 : ¬∃ d ∈ cs, d.1 ≤ x ∧ x < d.1 + hdr * d.2 := by
        rintro ⟨d, hd, -, hx⟩
        have := hc d hd
        omega
      rw [if_neg h2, if_pos (.inl h1)]
    · rw [if_neg h1, Nat.zero_add]
      exact if_congr (by rw [or_iff_right h1]) rfl rfl

/-- 空きブロックの列 `L` と残り `W` による分割。`L` は `base` から、番地の順に間を空けて並ぶ。 -/
structure Tiled (base : Nat) (h : Heap) (L W : List Nat) : Prop where
  head : L.head? = some base
  zero : h.size base = 0
  spaced : L.Pairwise fun a b => a + hdr * h.size a < b
  pos : ∀ b ∈ L, b ≠ base → 0 < h.size b
  posW : ∀ b ∈ W, 0 < h.size b
  tiles : ∀ f, Additive f → total f h.size L + total f h.size W = chunkTotal f h.chunks
  apart : h.chunks.Pairwise fun c d => d.1 + hdr * d.2 ≤ c.1
  low : ∀ c ∈ h.chunks, base + hdr ≤ c.1
  high : ∀ c ∈ h.chunks, c.1 + hdr * c.2 ≤ h.top
  top : base + hdr ≤ h.top
  small : h.units < 2 ^ 32

namespace Tiled

section

variable (t : Tiled base h L W)
include t

/-- どの番地も、高々一つのブロックに入る。 -/
theorem cover_le (x : Nat) : total (inside x) h.size L + total (inside x) h.size W ≤ 1 := by
  rw [t.tiles _ (additive_inside x), chunkTotal_inside t.apart]
  split <;> omega

theorem chunk_of_cover (hx : 0 < total (inside x) h.size L + total (inside x) h.size W) :
    base + hdr ≤ x ∧ x < h.top := by
  rw [t.tiles _ (additive_inside x), chunkTotal_inside t.apart] at hx
  split at hx
  · rename_i hc
    obtain ⟨c, hc, h1, h2⟩ := hc
    have := t.low c hc
    have := t.high c hc
    omega
  · omega

theorem range (hb : b ∈ L ∧ b ≠ base ∨ b ∈ W) : base + hdr ≤ b ∧ b < h.top := by
  refine t.chunk_of_cover ?_
  have hself : 0 < h.size b → inside b b (h.size b) = 1 := fun hp => if_pos ⟨le_rfl, by simp only [hdr]; omega⟩
  obtain ⟨hb, hne⟩ | hb := hb
  · have := le_total (f := inside b) (g := h.size) hb
    rw [hself (t.pos b hb hne)] at this
    omega
  · have := le_total (f := inside b) (g := h.size) hb
    rw [hself (t.posW b hb)] at this
    omega

theorem disjoint (ha : a ∈ L) (hb : b ∈ W) :
    a + hdr * h.size a ≤ b ∨ b + hdr * h.size b ≤ a := by
  by_cases hbase : a = base
  · subst hbase
    have := t.range (.inr hb)
    rw [t.zero]
    omega
  by_contra hno
  have hpa := t.pos a ha hbase
  have hpb := t.posW b hb
  have h1 := le_total (f := inside (max a b)) (g := h.size) ha
  have h2 := le_total (f := inside (max a b)) (g := h.size) hb
  rw [inside, if_pos (by simp only [hdr] at *; omega)] at h1 h2
  have := t.cover_le (max a b)
  omega

theorem not_mem (hb : b ∈ W) : b ∉ L := by
  intro ha
  have hp := t.posW b hb
  have := t.disjoint ha hb
  simp only [hdr] at this
  omega

theorem base_lt (hb : b ∈ W) : base < b := by
  have := t.range (.inr hb)
  simp only [hdr] at this
  omega

theorem base_le (ha : a ∈ L) : base ≤ a := by
  by_cases hbase : a = base
  · omega
  · have := t.range (.inl ⟨ha, hbase⟩)
    omega

theorem nodup : W.Nodup := by
  rw [List.nodup_iff_count_le_one]
  intro b
  by_contra hcount
  have hb : b ∈ W := List.count_pos_iff.mp (by omega)
  have hb' : b ∈ W.erase b := List.count_pos_iff.mp (by rw [List.count_erase_self]; omega)
  have hself : inside b b (h.size b) = 1 := by
    have := t.posW b hb
    exact if_pos ⟨le_rfl, by simp only [hdr]; omega⟩
  have h1 := total_erase (f := inside b) (g := h.size) hb
  have h2 := le_total (f := inside b) (g := h.size) hb'
  have := t.cover_le b
  omega

theorem units_eq : total (fun _ u => u) h.size L + total (fun _ u => u) h.size W = h.units :=
  t.tiles _ additive_units

theorem sum_lt (ha : a ∈ L) (hb : b ∈ W) : h.size a + h.size b < 2 ^ 32 := by
  have h1 := le_total (f := fun _ u => u) (g := h.size) ha
  have h2 := le_total (f := fun _ u => u) (g := h.size) hb
  have := t.units_eq
  have := t.small
  omega

theorem lt_of_spaced : L.Pairwise (· < ·) := t.spaced.imp fun hab => by omega

theorem perm {W'} (hw : W.Perm W') : Tiled base h L W' :=
  { t with
    posW := fun b hb => t.posW b (hw.mem_iff.mpr hb)
    tiles := fun f hf => by rw [← t.tiles f hf, total, total, total, (hw.map _).sum_eq] }

end

end Tiled

end Xv6.Umalloc
