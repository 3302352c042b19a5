import Xv6.Vm.Lemmas.Tree

/-!
# 写像としてのページ表
-/

namespace Xv6.Vm

open Xv6.Lib

variable {k k' : Kmem} {r p v perm : Nat} {path : Nat → Option (List Nat)}

theorem walk_finds (hv : v * pgsize < maxva) (hw : has (k.leaf r v) pteV) :
    ∃ q i, walk r (v * pgsize) false k = .ok (some (q, i), k) ∧ k.pte q i = k.leaf r v := by
  rw [walk, if_neg (by omega), walkLoop_false]
  unfold Kmem.leaf at hw ⊢
  cases hf : k.find (v * pgsize) 2 r with
  | none => simp [hf, has] at hw
  | some x => exact ⟨x.1, x.2, rfl, rfl⟩

theorem MappedTo.walk {m} (h : MappedTo r k v m p perm k') (hm : v + m ≤ 2 ^ 26) (hperm : perm < 1024) :
    ∀ j < m, ∃ q i, walk r ((v + j) * pgsize) false k' = .ok (some (q, i), k') ∧ pte2pa (k'.pte q i) = p + j ∧
      pteFlags (k'.pte q i) = perm ||| pteV := by
  intro j hj
  have hleaf := h.inside j hj
  have hva := page_lt_maxva (show v + j < 2 ^ 26 by omega)
  have hlt := flags_lt hperm
  have hV : has (k'.leaf r (v + j)) pteV := by
    rw [hleaf, show pteV = 2 ^ 0 from rfl]
    exact (has_word (by decide)).trans (by simp)
  obtain ⟨q, i, hwalk, hpte⟩ := walk_finds hva hV
  refine ⟨q, i, hwalk, ?_, ?_⟩
  · rw [hpte, hleaf, pte2pa]
    omega
  · rw [hpte, hleaf, pteFlags]
    omega

/-- ページ表は、仮想ページから PTE への写像として働く。`mappages` は範囲の先頭から順に写し、失敗すれば途中までを写す。
`uvmunmap` は範囲の写像だけを除く。 -/
theorem page_table_is_map (h : Sv39 k r path) :
    (∀ va size p perm res k', Spare k path → 0 < size → va + size - 1 < maxva →
      p + ((va + size - 1) / pgsize - va / pgsize) < 2 ^ 52 → perm < 1024 → mappages r va size p perm k = .ok (res, k') →
      ∃ path' m, Sv39 k' r path' ∧
        (res = 0 ∧ m = (va + size - 1) / pgsize - va / pgsize + 1 ∨
          res = -1 ∧ m ≤ (va + size - 1) / pgsize - va / pgsize) ∧
        (∀ j < m, ∃ q i, walk r (pgrounddown va + j * pgsize) false k' = .ok (some (q, i), k') ∧
          pte2pa (k'.pte q i) = p + j ∧ pteFlags (k'.pte q i) = perm ||| pteV) ∧
        ∀ u < maxva / pgsize, u < va / pgsize ∨ va / pgsize + m ≤ u → k'.leaf r u = k.leaf r u) ∧
    ∀ L va n doFree k', (doFree = true → ∀ j < n, path (pte2pa (k.leaf r (va / pgsize + j))) = none) →
      uvmunmap L r va n doFree k = .ok ((), k') → Sv39 k' r path ∧
        (∀ j < n, k'.leaf r (va / pgsize + j) = 0) ∧
        ∀ u < maxva / pgsize, u < va / pgsize ∨ va / pgsize + n ≤ u → k'.leaf r u = k.leaf r u := by
  constructor
  · intro va size p perm res k' hs hsize hva hp hperm hok
    obtain ⟨n, hn⟩ : ∃ n, (va + size - 1) / pgsize = va / pgsize + n :=
      Nat.exists_eq_add_of_le (Nat.div_le_div_right (by omega))
    rw [hn, Nat.add_sub_cancel_left] at hp ⊢
    obtain ⟨path', m, ht, hm, hmap⟩ := wp_ok (mappages_grows (fun _ => trivial) h hs hsize hva hn hp hperm) hok
    have hlast := div_lt_of_lt_maxva hva
    rw [hn] at hlast
    refine ⟨path', m, ht, by omega, fun j hj => ?_, hmap.outside⟩
    rw [pgrounddown, ← Nat.add_mul]
    exact hmap.walk (by omega) hperm j hj
  intro L va n doFree k' hfree hok
  have hwp : wp (uvmunmap L r va n doFree) (fun _ k' => Sv39 k' r path ∧ Cleared r k (va / pgsize) n k')
      (fun _ => True) k := by
    rw [uvmunmap, wp_ite]
    refine ⟨fun _ => trivial, fun hal => ?_⟩
    have hva : va / pgsize * pgsize = va := Nat.div_mul_cancel (Nat.dvd_of_mod_eq_zero (not_not.mp hal))
    have := uvmunmapLoop_clears (E := fun _ => True) (L := L) (fun _ => trivial) n h fun hd j hj _ => hfree hd j hj
    rwa [hva] at this
  obtain ⟨ht, hc⟩ := wp_ok hwp hok
  exact ⟨ht, hc.inside, hc.outside⟩

def exampleRoot : Kmem where
  mem := fun _ _ => 0
  refcnt := fun _ => 0
  freelist := [2, 3, 4]
  failed := 0
  created := fun _ _ => 0
  touched := fun _ _ => false

theorem exampleRoot_tree : Sv39 exampleRoot 1 (fun p => if p = 1 then some [] else none) where
  top := rfl
  root p hp := by
    split at hp
    case isTrue h => exact h
    case isFalse => cases hp
  depth p l hp := by
    split at hp
    case isTrue =>
      cases hp
      decide
    case isFalse => cases hp
  child p l i _ _ _ hv := by
    have hz : exampleRoot.pte p i = 0 := by simp [Kmem.pte, exampleRoot, getLE]
    rw [hz, has_zero] at hv
    cases hv
  parent q l i hq := by
    split at hq
    case isTrue => simp at hq
    case isFalse => cases hq

theorem page_table_is_map_onePage : ∃ k', mappages 1 pgsize pgsize 9 pteR exampleRoot = .ok (0, k') ∧
    (∃ q i, walk 1 pgsize false k' = .ok (some (q, i), k') ∧ pte2pa (k'.pte q i) = 9 ∧
      pteFlags (k'.pte q i) = pteR ||| pteV) ∧ k'.leaf 1 0 = exampleRoot.leaf 1 0 := by
  have hrun : (match mappages 1 pgsize pgsize 9 pteR exampleRoot with
      | .ok x => x.1 == 0
      | .error _ => false) = true := by decide +kernel
  split at hrun
  case h_1 x hx =>
    obtain ⟨res, k'⟩ := x
    obtain rfl : res = 0 := by simpa using hrun
    obtain ⟨_, m, _, hm, hin, hout⟩ := (page_table_is_map exampleRoot_tree).1 pgsize pgsize 9 pteR 0 k'
      ⟨by decide, by decide, by decide⟩ (by decide) (by decide) (by decide) (by decide) hx
    obtain ⟨_, rfl⟩ | ⟨hc, _⟩ := hm
    · obtain ⟨q, i, hwalk, hp, hf⟩ := hin 0 (Nat.succ_pos _)
      exact ⟨k', hx, ⟨q, i, hwalk, hp, hf⟩, hout 0 (by decide) (.inl (by decide))⟩
    · cases hc
  case h_2 => cases hrun

end Xv6.Vm
