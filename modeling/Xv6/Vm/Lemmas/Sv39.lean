import Xv6.Vm.Lemmas.Pte
import Mathlib.Data.List.Induction

/-!
# 木としてのページ表
-/

namespace Xv6.Vm

open Xv6.Lib

theorem px_lt (l va : Nat) : px l va < 512 := Nat.mod_lt _ (by decide)

theorem px_page (l v : Nat) : px l (v * pgsize) = v / 512 ^ l % 512 := by
  rw [px, Nat.mul_div_cancel _ (show 0 < pgsize by decide)]

theorem px_div (l va : Nat) : px l (va / pgsize * pgsize) = px l va := by
  rw [px_page, px]

theorem px_inj {v w} (hv : v < 2 ^ 26) (hw : w < 2 ^ 26) (h2 : px 2 (v * pgsize) = px 2 (w * pgsize))
    (h1 : px 1 (v * pgsize) = px 1 (w * pgsize)) (h0 : px 0 (v * pgsize) = px 0 (w * pgsize)) : v = w := by
  simp only [px_page] at h2 h1 h0
  omega

theorem has_link (q : Nat) : has (q * 1024 + pteV) pteV := by
  rw [show pteV = 2 ^ 0 from rfl, has_add (by decide)]
  decide

theorem pte2pa_link (q : Nat) : pte2pa (q * 1024 + pteV) = q := pte2pa_add (by decide)

/-- 根 `r` のページ表は木をなす。`path` は根からの添字の列である。どの表も一つの経路だけで着く。 -/
structure Sv39 (k : Kmem) (r : Nat) (path : Nat → Option (List Nat)) : Prop where
  top : path r = some []
  root : ∀ p, path p = some [] → p = r
  depth : ∀ p l, path p = some l → l.length ≤ 2
  child : ∀ p l i, path p = some l → l.length < 2 → i < 512 → has (k.pte p i) pteV →
    path (pte2pa (k.pte p i)) = some (l ++ [i])
  parent : ∀ q l i, path q = some (l ++ [i]) →
    i < 512 ∧ ∃ p, path p = some l ∧ has (k.pte p i) pteV ∧ pte2pa (k.pte p i) = q

namespace Sv39

variable {k k' : Kmem} {r p q i v w : Nat} {path : Nat → Option (List Nat)} {l : List Nat} (h : Sv39 k r path)
include h

theorem unique {p p'} (hp : path p = some l) (hp' : path p' = some l) : p = p' := by
  induction l using List.reverseRecOn generalizing p p' with
  | nil => rw [h.root p hp, h.root p' hp']
  | append_singleton l i ih =>
    obtain ⟨_, t, ht, _, he⟩ := h.parent p l i hp
    obtain ⟨_, t', ht', _, he'⟩ := h.parent p' l i hp'
    rw [← he, ← he', ih ht ht']

theorem find_iff {va} :
    k.find va 2 r = some (q, i) ↔ path q = some [px 2 va, px 1 va] ∧ i = px 0 va := by
  simp only [Kmem.find]
  constructor
  · intro hf
    split at hf
    case isTrue h2 =>
      have hc := h.child r [] _ h.top (by decide) (px_lt 2 va) h2
      split at hf
      case isTrue h1 =>
        have hc' := h.child _ _ _ hc (by simp) (px_lt 1 va) h1
        cases hf
        exact ⟨hc', rfl⟩
      case isFalse => cases hf
    case isFalse => cases hf
  · rintro ⟨hq, rfl⟩
    obtain ⟨_, q1, hpath1, hv1, he1⟩ := h.parent q [px 2 va] (px 1 va) hq
    obtain ⟨_, q2, hpath2, hv2, he2⟩ := h.parent q1 [] (px 2 va) hpath1
    rw [h.root q2 hpath2] at hv2 he2
    rw [if_pos hv2, he2, if_pos hv1, he1]

theorem leaf_eq (hq : path q = some [px 2 (v * pgsize), px 1 (v * pgsize)]) :
    k.leaf r v = k.pte q (px 0 (v * pgsize)) := by
  rw [Kmem.leaf, h.find_iff.mpr ⟨hq, rfl⟩]

theorem leaf_none (hq : ∀ q, path q ≠ some [px 2 (v * pgsize), px 1 (v * pgsize)]) :
    k.leaf r v = 0 := by
  have hf : k.find (v * pgsize) 2 r = none := by
    cases hc : k.find (v * pgsize) 2 r with
    | none => rfl
    | some x => exact absurd (h.find_iff.mp hc).1 (hq x.1)
  rw [Kmem.leaf, hf]

/-- 末端でない表が同じなら、木の形も同じである。 -/
theorem of_upper
    (hm : ∀ p l i, path p = some l → l.length < 2 → i < 512 → k'.pte p i = k.pte p i) : Sv39 k' r path where
  __ := h
  child p l i hp hl hi hv := by
    rw [hm p l i hp hl hi] at hv ⊢
    exact h.child p l i hp hl hi hv
  parent q l i hq := by
    obtain ⟨hi, p, hp, hv, he⟩ := h.parent q l i hq
    have hl := h.depth q _ hq
    rw [List.length_append, List.length_singleton] at hl
    rw [← hm p l i hp (by omega) hi] at hv he
    exact ⟨hi, p, hp, hv, he⟩

/-- 葉の表の中身が同じなら、どの葉も同じである。 -/
theorem leaf_congr (h' : Sv39 k' r path) (hm : ∀ q a b i, path q = some [a, b] → i < 512 → k'.pte q i = k.pte q i)
    (v : Nat) : k'.leaf r v = k.leaf r v := by
  by_cases hex : ∃ q, path q = some [px 2 (v * pgsize), px 1 (v * pgsize)]
  · obtain ⟨q, hq⟩ := hex
    rw [h.leaf_eq hq, h'.leaf_eq hq, hm q _ _ _ hq (px_lt _ _)]
  · rw [h.leaf_none fun q hc => hex ⟨q, hc⟩, h'.leaf_none fun q hc => hex ⟨q, hc⟩]

theorem of_tables (k' : Kmem) (hm : ∀ p l, path p = some l → k'.mem p = k.mem p) :
    Sv39 k' r path ∧ ∀ v, k'.leaf r v = k.leaf r v := by
  have h' : Sv39 k' r path := h.of_upper fun p l i hp _ _ => Kmem.pte_congr (hm p l hp) i
  exact ⟨h', h.leaf_congr h' fun q a b i hq _ => Kmem.pte_congr (hm q _ hq) i⟩

theorem setLeaf (hq : path q = some [px 2 (v * pgsize), px 1 (v * pgsize)]) (hw : w < 2 ^ 64)
    (hv : v < 2 ^ 26) : Sv39 (k.setPte q (px 0 (v * pgsize)) w) r path ∧
      ∀ u, u < 2 ^ 26 → (k.setPte q (px 0 (v * pgsize)) w).leaf r u = if u = v then w else k.leaf r u := by
  have h' : Sv39 (k.setPte q (px 0 (v * pgsize)) w) r path := by
    refine h.of_upper fun p l i hp hl _ => ?_
    have hne : p ≠ q := by
      rintro rfl
      rw [hq] at hp
      cases hp
      simp at hl
    rw [Kmem.setPte_pte hw, if_neg fun hc => hne hc.1]
  refine ⟨h', fun u hu => ?_⟩
  by_cases hex : ∃ q', path q' = some [px 2 (u * pgsize), px 1 (u * pgsize)]
  · obtain ⟨q', hq'⟩ := hex
    rw [h.leaf_eq hq', h'.leaf_eq hq', Kmem.setPte_pte hw]
    by_cases hc : u = v
    · subst hc
      rw [if_pos ⟨h.unique hq' hq, rfl⟩, if_pos rfl]
    · rw [if_neg hc, if_neg]
      rintro ⟨rfl, h0⟩
      rw [hq] at hq'
      simp only [Option.some.injEq, List.cons.injEq, and_true] at hq'
      exact hc (px_inj hv hu hq'.1 hq'.2 h0.symm).symm
  · rw [h.leaf_none fun q hc => hex ⟨q, hc⟩, h'.leaf_none fun q hc => hex ⟨q, hc⟩, if_neg]
    rintro rfl
    exact hex ⟨q, hq⟩

theorem link (hp : path p = some l) (hl : l.length < 2) (hi : i < 512)
    (hv : has (k.pte p i) pteV = false) (hq : path q = none) (hz : ∀ j < 512, k'.pte q j = 0)
    (hpte : ∀ t j, t ≠ q → k'.pte t j = if t = p ∧ j = i then q * 1024 + pteV else k.pte t j) :
    Sv39 k' r (update path q (some (l ++ [i]))) ∧ ∀ v, k'.leaf r v = k.leaf r v := by
  have hold : ∀ t m, path t = some m → t ≠ q := by
    rintro t m ht rfl
    simp [hq] at ht
  have hkeep : ∀ t m, path t = some m → update path q (some (l ++ [i])) t = some m := fun t m ht => by
    rw [update_of_ne (hold t m ht), ht]
  have hnew : ∀ t, path t ≠ some (l ++ [i]) := by
    intro t ht
    obtain ⟨_, p', hp', hv', _⟩ := h.parent t l i ht
    rw [h.unique hp' hp, hv] at hv'
    cases hv'
  have h' : Sv39 k' r (update path q (some (l ++ [i]))) := by
    constructor
    case top => exact hkeep r _ h.top
    case root =>
      intro t ht
      rcases update_eq ht with ⟨_, hm⟩ | ⟨_, ht⟩
      · simp at hm
      · exact h.root t ht
    case depth =>
      intro t m ht
      rcases update_eq ht with ⟨_, ⟨⟩⟩ | ⟨_, ht⟩
      · simp
        omega
      · exact h.depth t m ht
    case child =>
      intro t m j ht hm hj hV
      rcases update_eq ht with ⟨rfl, _⟩ | ⟨he, ht'⟩
      · rw [hz j hj, has_zero] at hV
        cases hV
      rw [hpte t j he] at hV ⊢
      by_cases hc : t = p ∧ j = i
      · obtain ⟨rfl, rfl⟩ := hc
        rw [hp] at ht'
        cases ht'
        rw [if_pos ⟨rfl, rfl⟩, pte2pa_link, update_self]
      · rw [if_neg hc] at hV ⊢
        exact hkeep _ _ (h.child t m j ht' hm hj hV)
    case parent =>
      intro t m j ht
      rcases update_eq ht with ⟨rfl, hm⟩ | ⟨_, ht'⟩
      · rw [Option.some.injEq] at hm
        obtain ⟨rfl, rfl⟩ := List.append_inj' hm rfl |>.imp_right List.singleton_inj.mp
        refine ⟨hi, p, hkeep p _ hp, ?_⟩
        rw [hpte p i (hold p _ hp), if_pos ⟨rfl, rfl⟩, pte2pa_link]
        exact ⟨has_link t, rfl⟩
      obtain ⟨hj, p', hp', hV, hpa⟩ := h.parent t m j ht'
      refine ⟨hj, p', hkeep p' m hp', ?_⟩
      have hc : ¬(p' = p ∧ j = i) := by
        rintro ⟨rfl, rfl⟩
        rw [hp] at hp'
        cases hp'
        exact hnew t ht'
      rw [hpte p' j (hold p' m hp'), if_neg hc]
      exact ⟨hV, hpa⟩
  refine ⟨h', fun v => ?_⟩
  by_cases hex : ∃ t, path t = some [px 2 (v * pgsize), px 1 (v * pgsize)]
  · obtain ⟨t, ht⟩ := hex
    have htp : t ≠ p := by
      rintro rfl
      rw [hp] at ht
      cases ht
      simp at hl
    rw [h.leaf_eq ht, h'.leaf_eq (hkeep t _ ht), hpte t _ (hold t _ ht), if_neg fun hc => htp hc.1]
  rw [h.leaf_none fun t hc => hex ⟨t, hc⟩]
  by_cases hqv : update path q (some (l ++ [i])) q = some [px 2 (v * pgsize), px 1 (v * pgsize)]
  · rw [h'.leaf_eq hqv, hz _ (px_lt _ _)]
  · refine h'.leaf_none fun t ht => ?_
    rcases update_eq ht with ⟨rfl, _⟩ | ⟨_, ht'⟩
    · exact hqv ht
    · exact hex ⟨t, ht'⟩

end Sv39

end Xv6.Vm
