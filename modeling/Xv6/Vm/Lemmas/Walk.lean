import Xv6.Vm.Lemmas.Space

/-!
# 割り当てと `walk` の仕様
-/

namespace Xv6.Vm

open Xv6.Lib

variable {L : Layout} {k k' k'' : Kmem} {role role' role'' : Nat → Role} {as : Nat → Option Shape}
variable {p q r va : Nat} {sh : Shape} {E : String → Prop}

theorem wp_kalloc_cases {Q} (hE : ∀ q ∈ k.freelist, k.refcnt q ≠ 0 → ∀ e, E e)
    (hnone : k.freelist = [] → Q none { k with failed := k.failed + 1 })
    (hsome : ∀ q rest, k.freelist = q :: rest → Q (some q) (k.take q rest)) : wp kalloc Q E k := by
  simp only [kalloc, wp_bind, wp_get]
  split
  case h_1 hk => exact hnone hk
  case h_2 q rest hk =>
    simp only [wp_ite, wp_throw, wp_bind, wp_set, wp_pure]
    exact ⟨fun hc => hE q (by simp [hk]) hc _, fun _ => hsome q rest hk⟩

/-- 空きページの参照の数は零なので、`kalloc` は止まらない。 -/
theorem wp_kalloc (h : World L k role as) {Q}
    (hnone : k.freelist = [] → Q none { k with failed := k.failed + 1 })
    (hsome : ∀ q rest, k.freelist = q :: rest → Q (some q) (k.take q rest)) : wp kalloc Q E k := by
  refine wp_kalloc_cases (fun q hq hc => absurd ?_ hc) hnone hsome
  have := h.counts q
  rwa [(h.free q).mp hq] at this

theorem World.fail (h : World L k role as) (n : Nat) : World L { k with failed := n } role as := by
  refine h.frame (h.toTyped.of_mem rfl rfl fun _ _ _ _ _ _ _ => rfl) (fun _ _ _ => Iff.rfl) (fun r _ v _ _ => ?_)
    (fun p x hx => ⟨h.user_of_maps hx, rfl⟩) rfl rfl
  exact congrFun (congrFun (Kmem.leaf_congr rfl) r) v

def Kmem.drop (k : Kmem) (p : Nat) : Kmem := if k.refcnt p - 1 > 0 then k.unref p else k.push p

def dropRole (k : Kmem) (role : Nat → Role) (p : Nat) : Nat → Role :=
  if k.refcnt p - 1 > 0 then role else update role p .free

theorem Kmem.drop_unref (h : 1 < k.refcnt p) : k.drop p = k.unref p := if_pos (by omega)

theorem Kmem.drop_push (h : k.refcnt p ≤ 1) : k.drop p = k.push p := if_neg (by omega)

theorem dropRole_unref (h : 1 < k.refcnt p) : dropRole k role p = role := if_pos (by omega)

theorem dropRole_push (h : k.refcnt p ≤ 1) : dropRole k role p = update role p .free := if_neg (by omega)

theorem dropRole_apply (k : Kmem) (role : Nat → Role) (p p' : Nat) :
    dropRole k role p p' = if p' = p ∧ k.refcnt p ≤ 1 then .free else role p' := by
  rcases Nat.lt_or_ge 1 (k.refcnt p) with h | h
  · rw [dropRole_unref h, if_neg (by omega)]
  · rw [dropRole_push h, update_apply]
    simp [h]

theorem Kmem.drop_refcnt (k : Kmem) (p p' : Nat) :
    (k.drop p).refcnt p' = if p' = p then k.refcnt p - 1 else k.refcnt p' := by
  rcases Nat.lt_or_ge 1 (k.refcnt p) with h | h
  · simp [Kmem.drop_unref h, Kmem.unref, update_apply]
  · have : k.refcnt p - 1 = 0 := by omega
    simp [Kmem.drop_push h, Kmem.push, update_apply, this]

theorem Kmem.drop_mem {p'} (h : p' ≠ p) : (k.drop p).mem p' = k.mem p' := by
  rcases Nat.lt_or_ge 1 (k.refcnt p) with h1 | h1
  · rw [Kmem.drop_unref h1]
    rfl
  · simp [Kmem.drop_push h1, Kmem.push, h]

theorem Kmem.drop_same (k : Kmem) (p : Nat) :
    (k.drop p).created = k.created ∧ (k.drop p).touched = k.touched ∧ (k.drop p).failed = k.failed := by
  rcases Nat.lt_or_ge 1 (k.refcnt p) with h | h
  · rw [Kmem.drop_unref h]
    exact ⟨rfl, rfl, rfl⟩
  · rw [Kmem.drop_push h]
    exact ⟨rfl, rfl, rfl⟩

/-- 範囲の中で参照があれば、`kfree` は `panic` しない。 -/
theorem wp_kfree (hr : L.kend ≤ p ∧ p < physpages) (hp : 1 ≤ k.refcnt p) {Q} :
    wp (kfree L p) Q E k ↔ Q () (k.drop p) := by
  have h1 : ¬(p < L.kend ∨ physpages ≤ p) := by omega
  have h2 : ¬(k.refcnt p < 1) := by omega
  simp only [kfree, wp_bind, wp_get, if_neg h1, if_neg h2, Kmem.drop]
  split <;> exact Iff.rfl

section

variable (h : World L k role as)
include h

theorem World.drop (hp : role p = .user) (hn : AtMost (Maps k as p) (k.refcnt p - 1)) :
    World L (k.drop p) (dropRole k role p) as := by
  rcases Nat.lt_or_ge 1 (k.refcnt p) with h1 | h1
  · rw [Kmem.drop_unref h1, dropRole_unref h1]
    exact h.unref hp hn (by omega)
  · rw [Kmem.drop_push h1, dropRole_push h1]
    refine h.push (.inr hp) fun x hx => ?_
    have := hn.pos hx
    omega

/-- 手元のページの参照は一つなので、必ず空きに戻る。 -/
theorem World.drop_held (hp : role p = .held) :
    k.drop p = k.push p ∧ World L (k.push p) (update role p .free) as := by
  have h1 : k.refcnt p = 1 := by
    have := h.counts p
    rwa [hp] at this
  exact ⟨Kmem.drop_push h1.le, h.push (.inl hp) (h.held_not_maps hp)⟩

theorem World.leaf_drop (hp : role p = .user) (hr : role r = .table r []) (v : Nat) :
    (k.drop p).leaf r v = k.leaf r v := by
  rcases Nat.lt_or_ge 1 (k.refcnt p) with h1 | h1
  · rw [Kmem.drop_unref h1]
    exact congrFun (congrFun (Kmem.leaf_congr rfl) r) v
  · rw [Kmem.drop_push h1]
    refine h.toTyped.leaf_update (h.toTyped.push (.inl hp)) (by simp [hp]) (by simp) ?_ hr v
    intro p' hp'
    simp [Kmem.push, hp']

theorem World.range_user (hp : role p = .user) :
    (L.kend ≤ p ∧ p < physpages) ∧ 1 ≤ k.refcnt p := by
  refine ⟨h.range p (by simp [hp]), ?_⟩
  have := h.counts p
  rwa [hp] at this

end

theorem walkLoop_false (va l r : Nat) (k : Kmem) : walkLoop va false l r k = .ok (k.find va l r, k) := by
  induction l generalizing r with
  | zero => rfl
  | succ l ih =>
    simp only [walkLoop, Kmem.find]
    change (if _ then _ else _ : KM _) k = _
    by_cases hv : has (k.pte r (px (l + 1) va)) pteV
    · rw [if_pos hv, if_pos hv, ih]
    · rw [if_neg hv, if_neg hv]
      rfl

theorem wp_walk_false (hva : va < maxva) {Q} :
    wp (walk r va false) Q E k ↔ Q (k.find va 2 r) k := by
  rw [walk, if_neg (by omega)]
  unfold wp
  rw [walkLoop_false]

structure Ext (r : Nat) (k k' : Kmem) (role role' : Nat → Role) : Prop where
  roles : ∀ p, role' p = role p ∨ (role p = .free ∧ ∃ path, role' p = .table r path)
  refcnt : ∀ p, role p ≠ .free → k'.refcnt p = k.refcnt p
  mem : ∀ p, role p ≠ .free → (∀ path, role p ≠ .table r path) → k'.mem p = k.mem p
  created : k'.created = k.created
  touched : k'.touched = k.touched

theorem Ext.refl (r : Nat) (k : Kmem) (role : Nat → Role) : Ext r k k role role where
  roles _ := .inl rfl
  refcnt _ _ := rfl
  mem _ _ _ := rfl
  created := rfl
  touched := rfl

theorem Ext.role_eq (h : Ext r k k' role role') (hp : role p ≠ .free) : role' p = role p :=
  (h.roles p).resolve_right fun hc => hp hc.1

theorem Ext.trans (h : Ext r k k' role role') (h' : Ext r k' k'' role' role'') : Ext r k k'' role role'' where
  roles p := by
    rcases h.roles p with he | ⟨hf, path, hp⟩
    · rw [← he]
      exact h'.roles p
    · right
      refine ⟨hf, path, ?_⟩
      rw [h'.role_eq (by simp [hp]), hp]
  refcnt p hp := by
    rw [h'.refcnt p (by rwa [h.role_eq hp]), h.refcnt p hp]
  mem p hp ht := by
    rw [h'.mem p (by rwa [h.role_eq hp]) (by rwa [h.role_eq hp]), h.mem p hp ht]
  created := h'.created.trans h.created
  touched := h'.touched.trans h.touched

def Kmem.addTable (k : Kmem) (q : Nat) (rest : List Nat) (p i : Nat) : Kmem :=
  ((k.take q rest).setPage q (fill ((k.take q rest).mem q) 0 pgsize)).setPte p i (pa2pte q ||| pteV)

theorem World.addTable (h : World L k role as) {rest path i} (hk : k.freelist = q :: rest)
    (hp : role p = .table r path) (hl : path.length < 2) (hi : i < 512) (htop : path = [] → i < 256)
    (hv : has (k.pte p i) pteV = false) :
    World L (k.addTable q rest p i) (update role q (.table r (path ++ [i]))) as ∧
      Ext r k (k.addTable q rest p i) role (update role q (.table r (path ++ [i]))) ∧
      (∀ r' s u, as r' = some s → (k.addTable q rest p i).leaf r' u = k.leaf r' u) ∧
      ∀ j < 512, (k.addTable q rest p i).pte q j = 0 := by
  have hq : role q = .free := (h.free q).mp (by simp [hk])
  have hpq : p ≠ q := by
    rintro rfl
    simp [hp] at hq
  have h1 := (h.take hk).setPage (p := q) (by simp) (fill ((k.take q rest).mem q) 0 pgsize)
  have hmem : ∀ t, t ≠ q → ((k.take q rest).setPage q (fill ((k.take q rest).mem q) 0 pgsize)).mem t = k.mem t := by
    intro t ht
    simp [Kmem.setPage, Kmem.take, ht]
  have hz : ∀ j < 512, ((k.take q rest).setPage q (fill ((k.take q rest).mem q) 0 pgsize)).pte q j = 0 := by
    intro j hj
    refine Kmem.pte_zero (fun b hb => ?_) hj
    simp [Kmem.setPage, fill, hb]
  have hp1 : update role q .held p = .table r path := by rwa [update_of_ne hpq]
  have hv1 : has (((k.take q rest).setPage q (fill ((k.take q rest).mem q) 0 pgsize)).pte p i) pteV = false := by
    rwa [Kmem.pte_congr (hmem p hpq)]
  have h2 := h1.link hp1 hl hi htop hv1 (update_self q _ role) hz
  have hlf := fun r' s u (hs : as r' = some s) =>
    h1.toTyped.leaf_link hp1 hl hi htop hv1 (update_self q _ role) hz (h1.roots r' s hs) u
  have hw : q * 1024 + pteV < 2 ^ 64 := h.lt_two_pow (by simp [hq]) (by decide)
  rw [update_idem] at h2
  rw [Kmem.addTable, pa2pte_or (show pteV < 1024 by decide)]
  refine ⟨h2, ⟨?_, ?_, ?_, rfl, rfl⟩, ?_, ?_⟩
  · intro t
    by_cases ht : t = q
    · subst ht
      exact .inr ⟨hq, path ++ [i], by simp⟩
    · exact .inl (update_of_ne ht _ _)
  · intro t ht
    have hne : t ≠ q := fun he => ht (he ▸ hq)
    simp [Kmem.take, hne]
  · intro t ht htab
    have hne : t ≠ q := fun he => ht (he ▸ hq)
    have hne' : t ≠ p := fun he => htab path (he ▸ hp)
    rw [Kmem.setPte_mem hne', hmem t hne]
  · intro r' s u hs
    rw [hlf r' s u hs]
    exact h.toTyped.leaf_update h1.toTyped (by simp [hq]) (by simp) hmem (h.roots r' s hs) u
  · intro j hj
    rw [Kmem.setPte_pte hw, if_neg fun hc => hpq hc.1.symm, hz j hj]

def Kmem.missing (k : Kmem) (va : Nat) : Nat → Nat → Nat
  | 0, _ => 0
  | l + 1, r => if has (k.pte r (px (l + 1) va)) pteV then k.missing va l (pte2pa (k.pte r (px (l + 1) va))) else l + 1

def down (va : Nat) : Nat → List Nat
  | 0 => []
  | l + 1 => px (l + 1) va :: down va l

theorem Kmem.missing_zero {l} (h : ∀ j < 512, k.pte q j = 0) : k.missing va l q = l := by
  cases l with
  | zero => rfl
  | succ l => rw [Kmem.missing, h _ (px_lt _ _), has_zero, if_neg (by decide)]

structure Walked (L : Layout) (as : Nat → Option Shape) (r va l pt : Nat) (path : List Nat) (k : Kmem)
    (role : Nat → Role) (res : Option (Nat × Nat)) (k' : Kmem) (role' : Nat → Role) : Prop where
  world : World L k' role' as
  ext : Ext r k k' role role'
  leaf : ∀ r' s u, as r' = some s → k'.leaf r' u = k.leaf r' u
  added : ∀ p, role' p = role p ∨ ∃ j < l, role' p = .table r (path ++ (down va l).take (j + 1))
  none : res = none → k'.freelist = [] ∧ k'.failed = k.failed + 1 ∧ k.freelist.length < k.missing va l pt
  some : ∀ q i, res = some (q, i) → k'.failed = k.failed ∧ role' q = .table r (path ++ down va l) ∧ i = px 0 va ∧
    k'.freelist.length + k.missing va l pt = k.freelist.length

theorem walkLoop_spec (hva : va < maxva) (l : Nat) : ∀ {k : Kmem} {role : Nat → Role} {pt : Nat} {path : List Nat},
    World L k role as → role pt = .table r path → path.length + l = 2 →
      wp (walkLoop va true l pt) (fun res k' => ∃ role', Walked L as r va l pt path k role res k' role') E k := by
  induction l with
  | zero =>
    intro k role pt path h hp _
    refine ⟨role, h, .refl .., fun _ _ _ _ => rfl, fun p => .inl rfl, by simp, ?_⟩
    rintro q i ⟨⟩
    exact ⟨rfl, by simpa [down] using hp, rfl, by simp [Kmem.missing]⟩
  | succ l ih =>
    intro k role pt path h hp hl
    simp only [walkLoop, wp_bind, wp_get, wp_ite]
    refine ⟨fun hv => ?_, fun hv => ⟨fun _ => ?_, fun hc => absurd trivial hc⟩⟩
    · obtain ⟨c, hc, hrole⟩ := h.child pt r path _ hp (by omega) (px_lt (l + 1) va) hv
      have hpa : pte2pa (k.pte pt (px (l + 1) va)) = c := by rw [hc, pte2pa_link]
      rw [hpa]
      refine wp_post (ih h hrole (by simp; omega)) ?_
      rintro res k' ⟨role', hw⟩
      refine ⟨role', hw.world, hw.ext, hw.leaf, ?_, ?_, ?_⟩
      · intro p
        rcases hw.added p with he | ⟨j, hj, he⟩
        · exact .inl he
        · refine .inr ⟨j + 1, by omega, ?_⟩
          rw [he]
          simp [down]
      · intro hres
        rw [Kmem.missing, if_pos hv, hpa]
        exact hw.none hres
      · intro q i hres
        rw [Kmem.missing, if_pos hv, hpa]
        simpa [down] using hw.some q i hres
    refine wp_kalloc h (fun hk => ?_) fun q rest hk => ?_
    · refine ⟨role, ?_, ⟨fun p => .inl rfl, fun _ _ => rfl, fun _ _ _ => rfl, rfl, rfl⟩, fun r' _ v _ => ?_,
        fun p => .inl rfl, fun _ => ⟨hk, rfl, ?_⟩, by simp⟩
      · exact h.fail _
      · exact congrFun (congrFun (Kmem.leaf_congr rfl) r') v
      · rw [Kmem.missing, if_neg hv, hk]
        simp
    simp only [zeroPage, setPte, wp_bind, wp_modify]
    have htop : path = [] → px (l + 1) va < 256 := by
      rintro rfl
      obtain rfl : l = 1 := by simpa using hl
      simp only [px, maxva, pgsize] at hva ⊢
      omega
    obtain ⟨h1, hext, hlf, hz⟩ := h.addTable hk hp (by omega) (px_lt (l + 1) va) htop (by simpa using hv)
    have hlen : (k.addTable q rest pt (px (l + 1) va)).freelist = rest := rfl
    change wp (walkLoop va true l q) _ _ (k.addTable q rest pt (px (l + 1) va))
    refine wp_post (ih h1 (update_self q _ role) (by simp; omega)) ?_
    rintro res k' ⟨role', hw⟩
    refine ⟨role', hw.world, hext.trans hw.ext, fun r' s u hs => (hw.leaf r' s u hs).trans (hlf r' s u hs), ?_, ?_, ?_⟩
    · intro p
      rcases hw.added p with he | ⟨j, hj, he⟩
      · rcases update_eq he.symm with ⟨_, hq⟩ | ⟨_, hp⟩
        · exact .inr ⟨0, by omega, by simp [← hq, down]⟩
        · exact .inl hp.symm
      · refine .inr ⟨j + 1, by omega, ?_⟩
        rw [he]
        simp [down]
    · intro hres
      obtain ⟨hf, hfail, hlt⟩ := hw.none hres
      rw [Kmem.missing_zero hz, hlen] at hlt
      rw [Kmem.missing, if_neg hv, hk]
      exact ⟨hf, hfail, by simpa using hlt⟩
    intro t i hres
    obtain ⟨hfail, hrole, hi, hl'⟩ := hw.some t i hres
    rw [Kmem.missing_zero hz, hlen] at hl'
    refine ⟨hfail, by simpa [down] using hrole, hi, ?_⟩
    rw [Kmem.missing, if_neg hv, hk, List.length_cons]
    omega

theorem walk_spec (h : World L k role as) (hr : as r = some sh) (hva : va < maxva) :
    wp (walk r va true) (fun res k' => ∃ role', Walked L as r va 2 r [] k role res k' role') E k := by
  rw [walk, if_neg (by omega)]
  exact walkLoop_spec hva 2 h (h.roots r sh hr) rfl

theorem wp_mappages_page (hva : va < maxva) (hal : va % pgsize = 0) {perm Q}
    (h : wp (walk r va true) (fun res k' => (res = none → Q (-1) k') ∧ ∀ q i, res = some (q, i) →
      has (k'.pte q i) pteV = false ∧ Q 0 (k'.setPte q i (pa2pte p ||| perm ||| pteV))) E k) :
    wp (mappages r va pgsize p perm) Q E k := by
  have hstart : pgrounddown va = va := by
    simp only [pgrounddown, pgsize] at hal ⊢
    omega
  have hlast : pgrounddown ((va + pgsize - 1) % 2 ^ 64) = va := by
    rw [Nat.mod_eq_of_lt]
    · simp only [pgrounddown, pgsize] at hal ⊢
      omega
    · simp only [pgsize, maxva] at hva ⊢
      omega
  rw [mappages, if_neg (by decide), hlast, hstart]
  simp only [mappagesLoop, wp_bind]
  refine wp_post h ?_
  rintro res k' ⟨hn, hs⟩
  cases res with
  | none => exact hn rfl
  | some x =>
    obtain ⟨q, i⟩ := x
    obtain ⟨hv, hq⟩ := hs q i rfl
    simp only [wp_bind, wp_get, hv, Bool.false_eq_true, if_false, setPte, wp_modify, if_true, wp_pure]
    exact hq

end Xv6.Vm
