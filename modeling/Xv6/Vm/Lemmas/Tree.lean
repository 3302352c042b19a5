import Xv6.Vm.Lemmas.Walk

/-!
# 木への追加と削除
-/

namespace Xv6.Vm

open Xv6.Lib

/-- 空きリストのページは木の外にあり、重ならず、物理番地の範囲にある。 -/
structure Spare (k : Kmem) (path : Nat → Option (List Nat)) : Prop where
  out : ∀ q ∈ k.freelist, path q = none
  nodup : k.freelist.Nodup
  small : ∀ q ∈ k.freelist, q < 2 ^ 52

variable {k k' : Kmem} {r p q i v w : Nat} {path path' : Nat → Option (List Nat)} {l : List Nat} {E : String → Prop}

theorem Sv39.addTable (h : Sv39 k r path) (hs : Spare k path) {rest} (hk : k.freelist = q :: rest)
    (hp : path p = some l) (hl : l.length < 2) (hi : i < 512) (hv : has (k.pte p i) pteV = false) :
    Sv39 (k.addTable q rest p i) r (update path q (some (l ++ [i]))) ∧
      (∀ v, (k.addTable q rest p i).leaf r v = k.leaf r v) ∧
      Spare (k.addTable q rest p i) (update path q (some (l ++ [i]))) := by
  have hmem : q ∈ k.freelist := by simp [hk]
  have hq := hs.out q hmem
  have hsmall := hs.small q hmem
  have hpq : p ≠ q := by
    rintro rfl
    simp [hq] at hp
  have hw : q * 1024 + pteV < 2 ^ 64 := by
    simp only [pteV]
    omega
  have hword : pa2pte q ||| pteV = q * 1024 + pteV := pa2pte_or (by decide)
  have hz : ∀ j < 512, (k.addTable q rest p i).pte q j = 0 := by
    intro j hj
    rw [Kmem.addTable, hword, Kmem.setPte_pte hw, if_neg fun hc => hpq hc.1.symm]
    refine Kmem.pte_zero (fun b hb => ?_) hj
    simp [Kmem.setPage, fill, hb]
  have hpte : ∀ t j, t ≠ q →
      (k.addTable q rest p i).pte t j = if t = p ∧ j = i then q * 1024 + pteV else k.pte t j := by
    intro t j ht
    have hmem' : ((k.take q rest).setPage q (fill ((k.take q rest).mem q) 0 pgsize)).mem t = k.mem t := by
      simp [Kmem.setPage, Kmem.take, ht]
    rw [Kmem.addTable, hword, Kmem.setPte_pte hw, Kmem.pte_congr hmem']
  obtain ⟨h', hlf⟩ := h.link hp hl hi hv hq hz hpte
  have hnd := hs.nodup
  rw [hk, List.nodup_cons] at hnd
  have hrest : (k.addTable q rest p i).freelist = rest := rfl
  refine ⟨h', hlf, ?_, ?_, ?_⟩
  · intro t ht
    rw [hrest] at ht
    have he : t ≠ q := fun he => hnd.1 (he ▸ ht)
    rw [update_of_ne he]
    exact hs.out t (by simp [hk, ht])
  · rw [hrest]
    exact hnd.2
  · intro t ht
    rw [hrest] at ht
    exact hs.small t (by simp [hk, ht])

structure TreeGrown (r : Nat) (k : Kmem) (path : Nat → Option (List Nat)) (k' : Kmem) (path' : Nat → Option (List Nat)) :
    Prop where
  tree : Sv39 k' r path'
  spare : Spare k' path'
  kept : ∀ p l, path p = some l → path' p = some l
  leaf : ∀ v, k'.leaf r v = k.leaf r v

theorem walkLoop_grows {va n} (hE : ∀ e, E e) : ∀ {k : Kmem} {path : Nat → Option (List Nat)} {pt : Nat}
    {l : List Nat},
    Sv39 k r path → Spare k path → path pt = some l → l.length + n = 2 →
      wp (walkLoop va true n pt) (fun res k' => ∃ path', TreeGrown r k path k' path' ∧
        ∀ q i, res = some (q, i) → path' q = some (l ++ down va n) ∧ i = px 0 va) E k := by
  induction n with
  | zero =>
    intro k path pt l h hs hp _
    refine ⟨path, ⟨h, hs, fun _ _ hp => hp, fun _ => rfl⟩, ?_⟩
    rintro q i ⟨⟩
    exact ⟨by simpa [down] using hp, rfl⟩
  | succ n ih =>
    intro k path pt l h hs hp hl
    simp only [walkLoop, wp_bind, wp_get, wp_ite]
    refine ⟨fun hv => ?_, fun hv => ⟨fun _ => ?_, fun hc => absurd trivial hc⟩⟩
    · have hc := h.child pt l _ hp (by omega) (px_lt (n + 1) va) hv
      refine wp_post (ih h hs hc (by simp; omega)) ?_
      rintro res k' ⟨path', hg, hres⟩
      refine ⟨path', hg, fun q i hq => ?_⟩
      simpa [down] using hres q i hq
    refine wp_kalloc_cases (fun _ _ _ => hE) (fun hk => ?_) fun q rest hk => ?_
    · obtain ⟨h', hlf⟩ := h.of_tables { k with failed := k.failed + 1 } fun _ _ _ => rfl
      exact ⟨path, ⟨h', { hs with }, fun _ _ hp => hp, hlf⟩, by simp⟩
    simp only [zeroPage, setPte, wp_bind, wp_modify]
    obtain ⟨h1, hlf, hs1⟩ := h.addTable hs hk hp (by omega) (px_lt (n + 1) va) (by simpa using hv)
    change wp (walkLoop va true n q) _ _ (k.addTable q rest pt (px (n + 1) va))
    refine wp_post (ih h1 hs1 (update_self q _ path) (by simp; omega)) ?_
    rintro res k' ⟨path', hg, hres⟩
    refine ⟨path', ⟨hg.tree, hg.spare, fun p m hm => hg.kept p m ?_, fun v => (hg.leaf v).trans (hlf v)⟩, ?_⟩
    · have he : p ≠ q := by
        rintro rfl
        simp [hs.out p (by simp [hk])] at hm
      rwa [update_of_ne he]
    · intro t i ht
      simpa [down] using hres t i ht

/-- 不変条件が無くても、木の形だけから `walk` の結果が決まる。 -/
theorem walk_grows {va} (hE : ∀ e, E e) (h : Sv39 k r path) (hs : Spare k path) :
    wp (walk r va true) (fun res k' => ∃ path', TreeGrown r k path k' path' ∧
      ∀ q i, res = some (q, i) → path' q = some [px 2 va, px 1 va] ∧ i = px 0 va) E k := by
  rw [walk, wp_ite]
  exact ⟨fun _ => hE _, fun _ => walkLoop_grows hE h hs h.top rfl⟩

/-- 仮想ページ `v` から `m` ページを、物理ページ `p` から順に写した結果。 -/
structure MappedTo (r : Nat) (k : Kmem) (v m p perm : Nat) (k' : Kmem) : Prop where
  inside : ∀ j < m, k'.leaf r (v + j) = (p + j) * 1024 + (perm ||| pteV)
  outside : ∀ u < 2 ^ 26, u < v ∨ v + m ≤ u → k'.leaf r u = k.leaf r u

theorem MappedTo.cons {k1 m perm} (hv : v < 2 ^ 26)
    (h1 : ∀ u < 2 ^ 26, k1.leaf r u = if u = v then p * 1024 + (perm ||| pteV) else k.leaf r u)
    (h : MappedTo r k1 (v + 1) m (p + 1) perm k') : MappedTo r k v (m + 1) p perm k' where
  inside j hj := by
    cases j with
    | zero => rw [Nat.add_zero, h.outside v hv (.inl (Nat.lt_succ_self v)), h1 v hv, if_pos rfl, Nat.add_zero]
    | succ j =>
      have := h.inside j (by omega)
      rwa [Nat.add_right_comm, Nat.add_right_comm p] at this
  outside u hu hout := by
    rw [h.outside u hu (by omega), h1 u hu, if_neg (by omega)]

theorem mappagesLoop_grows (hE : ∀ e, E e) {perm} (hperm : perm < 1024) : ∀ {fuel n v p : Nat} {k : Kmem}
    {path : Nat → Option (List Nat)}, Sv39 k r path → Spare k path → v + n < 2 ^ 26 → p + n < 2 ^ 52 → n < fuel →
      wp (mappagesLoop r ((v + n) * pgsize) perm fuel (v * pgsize) p) (fun res k' => ∃ path' m, Sv39 k' r path' ∧
        (res = 0 ∧ m = n + 1 ∨ res = -1 ∧ m < n + 1) ∧ MappedTo r k v m p perm k') E k := by
  intro fuel
  induction fuel with
  | zero => exact fun _ _ _ _ hf => absurd hf (Nat.not_lt_zero _)
  | succ fuel ih =>
    intro n v p k path h hs hv hp hf
    simp only [mappagesLoop, wp_bind]
    refine wp_post (walk_grows hE h hs) ?_
    rintro res k1 ⟨path', hg, hres⟩
    cases res with
    | none => exact ⟨path', 0, hg.tree, .inr ⟨rfl, by omega⟩, by simp, fun u _ _ => hg.leaf u⟩
    | some x =>
      obtain ⟨hq, hi⟩ := hres x.1 x.2 rfl
      simp only [wp_bind, wp_get, wp_ite, wp_throw, setPte, wp_modify, wp_pure]
      have hw : p * 1024 + (perm ||| pteV) < 2 ^ 64 := by
        have := flags_lt hperm
        omega
      rw [hi, Nat.or_assoc, pa2pte_or (flags_lt hperm)]
      obtain ⟨h', hlf⟩ := hg.tree.setLeaf hq hw (by omega)
      have hlf' : ∀ u < 2 ^ 26, (k1.setPte x.1 (px 0 (v * pgsize)) (p * 1024 + (perm ||| pteV))).leaf r u =
          if u = v then p * 1024 + (perm ||| pteV) else k.leaf r u := fun u hu => by rw [hlf u hu, hg.leaf u]
      refine ⟨fun _ => hE _, fun _ => ⟨fun hlast => ?_, fun hlast => ?_⟩⟩
      · have hn : n = 0 := by
          simp only [pgsize] at hlast
          omega
        exact ⟨path', 1, h', .inl ⟨trivial, by omega⟩, .cons (by omega) hlf' ⟨by simp, fun _ _ _ => rfl⟩⟩
      obtain ⟨n, rfl⟩ : ∃ m, n = m + 1 := by
        refine Nat.exists_eq_succ_of_ne_zero ?_
        rintro rfl
        exact hlast rfl
      rw [show v + (n + 1) = v + 1 + n by omega, ← Nat.succ_mul]
      refine wp_post (ih h' { hg.spare with } (by omega) (by omega) (by omega)) ?_
      rintro res k' ⟨path'', m, ht, hcount, hmap⟩
      exact ⟨path'', m + 1, ht, by omega, hmap.cons (by omega) hlf'⟩

theorem mappages_grows (hE : ∀ e, E e) {va size n perm} (h : Sv39 k r path) (hs : Spare k path) (hsize : 0 < size)
    (hva : va + size - 1 < maxva) (hn : (va + size - 1) / pgsize = va / pgsize + n) (hp : p + n < 2 ^ 52)
    (hperm : perm < 1024) : wp (mappages r va size p perm) (fun res k' => ∃ path' m, Sv39 k' r path' ∧
      (res = 0 ∧ m = n + 1 ∨ res = -1 ∧ m < n + 1) ∧ MappedTo r k (va / pgsize) m p perm k') E k := by
  have hlast := div_lt_of_lt_maxva hva
  rw [hn] at hlast
  have hmod : (va + size - 1) % 2 ^ 64 = va + size - 1 := by
    simp only [maxva] at hva
    omega
  rw [mappages, if_neg (by omega), hmod, pgrounddown, pgrounddown, hn]
  have hfuel : maxva / pgsize = 2 ^ 26 := by decide
  have hn' : n < 2 ^ 26 := (Nat.le_add_left n _).trans_lt hlast
  exact mappagesLoop_grows hE hperm h hs hlast hp (by omega)

structure Cleared (r : Nat) (k : Kmem) (v n : Nat) (k' : Kmem) : Prop where
  inside : ∀ j < n, k'.leaf r (v + j) = 0
  outside : ∀ u < 2 ^ 26, u < v ∨ v + n ≤ u → k'.leaf r u = k.leaf r u

theorem uvmunmapLoop_clears (hE : ∀ e, E e) {L doFree} (n : Nat) : ∀ {v : Nat} {k : Kmem}, Sv39 k r path →
    (doFree = true → ∀ j < n, v + j < 2 ^ 26 → path (pte2pa (k.leaf r (v + j))) = none) →
      wp (uvmunmapLoop L r doFree n (v * pgsize)) (fun _ k' => Sv39 k' r path ∧ Cleared r k v n k') E k := by
  induction n with
  | zero => exact fun h _ => ⟨h, by simp, fun _ _ _ => rfl⟩
  | succ n ih =>
    intro v k h hfree
    simp only [uvmunmapLoop, wp_bind]
    by_cases hva : v * pgsize < maxva
    case neg =>
      rw [walk, if_pos (by omega)]
      exact hE _
    have hv : v < 2 ^ 26 := by
      simp only [pgsize, maxva] at hva
      omega
    rw [wp_walk_false hva]
    cases hf : k.find (v * pgsize) 2 r with
    | none => exact hE _
    | some x =>
      obtain ⟨hq, hi⟩ := h.find_iff.mp hf
      simp only [wp_bind, wp_get, wp_ite, wp_throw]
      refine ⟨fun _ => hE _, fun _ => ⟨fun _ => hE _, fun _ => ?_⟩⟩
      rw [hi]
      -- ページを手放しても、表の中身は変わらない
      have hstep : ∀ k1 : Kmem, (∀ p l, path p = some l → k1.mem p = k.mem p) →
          wp (setPte x.1 (px 0 (v * pgsize)) 0 >>= fun _ => uvmunmapLoop L r doFree n (v * pgsize + pgsize))
            (fun _ k' => Sv39 k' r path ∧ Cleared r k v (n + 1) k') E k1 := by
        intro k1 hk1
        obtain ⟨h1, hlf1⟩ := h.of_tables _ hk1
        obtain ⟨h2, hlf2⟩ := h1.setLeaf hq (w := 0) (by decide) (by omega)
        simp only [setPte, wp_bind, wp_modify]
        rw [show v * pgsize + pgsize = (v + 1) * pgsize by ring]
        refine wp_post (ih h2 fun hd j hj hu => ?_) fun _ k' ⟨h', hc⟩ => ⟨h', ?_, fun u hu hout => ?_⟩
        · rw [hlf2 _ hu, if_neg (by omega), hlf1, Nat.add_right_comm]
          exact hfree hd (j + 1) (by omega) (by omega)
        · intro j hj
          cases j with
          | zero => rw [Nat.add_zero, hc.outside v (by omega) (.inl (Nat.lt_succ_self v)), hlf2 v (by omega), if_pos rfl]
          | succ j =>
            have := hc.inside j (by omega)
            rwa [Nat.add_right_comm] at this
        · rw [hc.outside u hu (by omega), hlf2 u hu, if_neg (by omega), hlf1]
      refine ⟨fun hd => ?_, fun _ => hstep k fun _ _ _ => rfl⟩
      have hout := hfree hd 0 (by omega) (by omega)
      rw [Nat.add_zero, h.leaf_eq hq] at hout
      simp only [kfree, wp_bind, wp_get, wp_ite, wp_throw, wp_set]
      refine ⟨fun _ => hE _, fun _ => ⟨fun _ => hE _, fun _ => ⟨fun _ => ?_, fun _ => ?_⟩⟩⟩
      · exact hstep _ fun _ _ _ => rfl
      · refine hstep _ fun p l hp => update_of_ne ?_ ..
        rintro rfl
        rw [hout] at hp
        cases hp

end Xv6.Vm
