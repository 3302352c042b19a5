import Xv6.Vm.Lemmas.Map

/-!
# アドレス空間の伸び縮み
-/

namespace Xv6.Vm

open Xv6.Lib Finset

variable {L : Layout} {k k' k'' : Kmem} {role role' role'' : Nat → Role} {as : Nat → Option Shape}
variable {p q r v w perm : Nat} {sh sh' : Shape} {E : String → Prop}

theorem npages_mul (sz : Nat) : npages sz * pgsize = pgroundup sz := by
  simp only [npages, pgroundup, pgsize]
  omega

theorem npages_mono {a b} (h : a ≤ b) : npages a ≤ npages b := by
  simp only [npages, pgroundup, pgsize]
  omega

theorem page_lt_npages {a sz} (h : a < sz) : a / pgsize < npages sz := by
  simp only [npages, pgroundup, pgsize]
  omega

theorem npages_page (n : Nat) : npages (n * pgsize) = n := by
  simp only [npages, pgroundup, pgsize]
  omega

theorem uvmdealloc_spec {oldsz newsz} (h : World L k role as) (hr : as r = some sh)
    (hdom : ∀ u, npages newsz ≤ u → u < npages oldsz → u ∈ sh.dom) :
    wp (uvmdealloc L r oldsz newsz) (fun res k' => res = min oldsz newsz ∧ ∃ role',
      Unmapped L as r (npages newsz) (npages oldsz - npages newsz) sh k role k' role') E k := by
  simp only [uvmdealloc, wp_ite, wp_pure, wp_bind]
  refine ⟨fun hge => ⟨by omega, role, ?_⟩, fun hlt => ⟨fun hpg => ?_, fun hpg => ⟨by omega, role, ?_⟩⟩⟩
  · have := npages_mono hge
    rw [show npages oldsz - npages newsz = 0 by omega]
    exact .zero h hr
  · have hn : (pgroundup oldsz - pgroundup newsz) / pgsize = npages oldsz - npages newsz := by
      simp only [npages, pgroundup, pgsize]
      omega
    rw [hn, ← npages_mul newsz]
    refine wp_post (uvmunmap_spec h hr fun u hu1 hu2 => hdom u hu1 (by omega)) fun _ k' hk' => ⟨by omega, hk'⟩
  · have : npages oldsz - npages newsz = 0 := by
      simp only [npages, pgroundup, pgsize] at hpg ⊢
      omega
    rw [this]
    exact .zero h hr

theorem World.card_dom_le (h : World L k role as) (hr : as r = some sh) : sh.dom.card ≤ 32768 := by
  have hs := h.space r sh hr
  have hcard : (Finset.Ico kernbase physpages).card = 32768 := by
    rw [Nat.card_Ico]
    rfl
  rw [← hcard]
  refine card_le_card_of_injOn (fun v => pte2pa (k.leaf r v)) (fun v hv => ?_) fun v hv w hw he => ?_
  · obtain ⟨h1, h2⟩ := (h.range_user (hs.user v hv)).1
    exact mem_coe.mpr (mem_Ico.mpr ⟨L.base.trans h1, h2⟩)
  · exact hs.inj v hv w hw he

/-- 初めから使われていたページと、`r` の `o` より前の写像は変わっていない。 -/
structure Kept (r o : Nat) (k : Kmem) (role : Nat → Role) (as : Nat → Option Shape) (k' : Kmem) (role' : Nat → Role) :
    Prop where
  roles : ∀ p, role p ≠ .free → role' p = role p
  refcnt : ∀ p, role p ≠ .free → k'.refcnt p = k.refcnt p
  mem : ∀ p, role p ≠ .free → (∀ path, role p ≠ .table r path) → k'.mem p = k.mem p
  leaf : ∀ r' s u, as r' = some s → u < 2 ^ 26 → r' ≠ r ∨ u < o ∨ tfV ≤ u → k'.leaf r' u = k.leaf r' u
  notes : ∀ r' u, r' ≠ r ∨ u < o → k'.created r' u = k.created r' u ∧ k'.touched r' u = k.touched r' u

theorem Kept.refl (r o : Nat) (k : Kmem) (role : Nat → Role) (as : Nat → Option Shape) :
    Kept r o k role as k role where
  roles _ _ := rfl
  refcnt _ _ := rfl
  mem _ _ _ := rfl
  leaf _ _ _ _ _ _ := rfl
  notes _ _ _ := ⟨rfl, rfl⟩

theorem Kept.ext {o k0 role0} (h : Kept r o k0 role0 as k role) (he : Ext r k k' role role')
    (hl : ∀ r' s u, as r' = some s → u < 2 ^ 26 → r' ≠ r ∨ u < o ∨ tfV ≤ u → k'.leaf r' u = k.leaf r' u) :
    Kept r o k0 role0 as k' role' where
  roles p hp := by
    rw [he.role_eq (by rwa [h.roles p hp]), h.roles p hp]
  refcnt p hp := by
    rw [he.refcnt p (by rwa [h.roles p hp]), h.refcnt p hp]
  mem p hp ht := by
    rw [he.mem p (by rwa [h.roles p hp]) (by rwa [h.roles p hp]), h.mem p hp ht]
  leaf r' s u hs hu hc := by
    rw [hl r' s u hs hu hc, h.leaf r' s u hs hu hc]
  notes r' u hc := by
    rw [he.created, he.touched]
    exact h.notes r' u hc

theorem Kept.page {o k0 role0} (h : Kept r o k0 role0 as k role) (hq : role0 q = .free)
    (hrole : ∀ p, p ≠ q → role' p = role p) (href : ∀ p, p ≠ q → k'.refcnt p = k.refcnt p)
    (hmem : ∀ p, p ≠ q → k'.mem p = k.mem p) (hl : ∀ r' s u, as r' = some s → k'.leaf r' u = k.leaf r' u)
    (hn : ∀ r' u, r' ≠ r ∨ u < o → k'.created r' u = k.created r' u ∧ k'.touched r' u = k.touched r' u) :
    Kept r o k0 role0 as k' role' := by
  have hne : ∀ p, role0 p ≠ .free → p ≠ q := fun p hp he => hp (he ▸ hq)
  constructor
  case roles =>
    intro p hp
    rw [hrole p (hne p hp), h.roles p hp]
  case refcnt =>
    intro p hp
    rw [href p (hne p hp), h.refcnt p hp]
  case mem =>
    intro p hp ht
    rw [hmem p (hne p hp), h.mem p hp ht]
  case leaf =>
    intro r' s u hs hu hc
    rw [hl r' s u hs, h.leaf r' s u hs hu hc]
  case notes =>
    intro r' u hc
    rw [(hn r' u hc).1, (hn r' u hc).2]
    exact h.notes r' u hc

theorem Kept.unmapped {o n k0 role0 as'}
    (h : Kept r o k0 role0 as k role) (hw : World L k role as') (ho : o ≤ v) (hlow : v + n ≤ tfV)
    (hu : Unmapped L as' r v n sh k role k' role') (has : ∀ r' s, as r' = some s → ∃ s', as' r' = some s')
    (hfree : ∀ u, v ≤ u → u < v + n → role0 (pte2pa (k.leaf r u)) = .free) : Kept r o k0 role0 as k' role' := by
  have hout : ∀ p, role0 p ≠ .free → k'.refcnt p = k.refcnt p := by
    intro p hp
    refine hu.refOut p fun u hu1 hu2 he => hp ?_
    rw [← he]
    exact hfree u hu1 hu2
  have hrole : ∀ p, role0 p ≠ .free → role' p = role0 p := by
    intro p hp
    have h1 := h.roles p hp
    by_cases hpu : role p = .user
    · have h2 := hu.user p hpu
      have h3 := (hw.range_user hpu).2
      rw [hout p hp, if_neg (by omega)] at h2
      rw [h2, ← h1, hpu]
    · rw [hu.other p hpu, h1]
  constructor
  case roles => exact hrole
  case refcnt =>
    intro p hp
    rw [hout p hp, h.refcnt p hp]
  case mem =>
    intro p hp ht
    rw [hu.mem p (by rwa [hrole p hp]) (by rwa [h.roles p hp]), h.mem p hp ht]
  case leaf =>
    intro r' s u hs hu26 hc
    obtain ⟨s', hs'⟩ := has r' s hs
    rw [hu.leaf r' s' u hs' hu26, if_neg (by omega), h.leaf r' s u hs hu26 hc]
  case notes =>
    rw [hu.created, hu.touched]
    exact h.notes

def Kmem.fresh (k : Kmem) (q : Nat) (rest : List Nat) (r v c : Nat) : Kmem :=
  ((k.take q rest).setPage q (fill ((k.take q rest).mem q) 0 pgsize)).note r v c false

theorem World.fresh (h : World L k role as) {rest c} (hk : k.freelist = q :: rest)
    (hr : as r = some sh) (hv : v ∉ sh.dom) :
    World L (k.fresh q rest r v c) (update role q .user) as ∧
      (∀ x, ¬Maps (k.fresh q rest r v c) as q x) ∧
      (∀ r' s u, as r' = some s → (k.fresh q rest r v c).leaf r' u = k.leaf r' u) := by
  have hq : role q = .free := (h.free q).mp (by simp [hk])
  have h1 := (h.take hk).setPage (p := q) (by simp) (fill ((k.take q rest).mem q) 0 pgsize)
  have h2 := h1.note (v := v) (c := c) (t := false) hr fun hc => absurd hc hv
  have h3 := h2.share (p := q) (by simp)
  have hlf : ∀ r' s u, as r' = some s → (k.fresh q rest r v c).leaf r' u = k.leaf r' u := by
    intro r' s u hs
    have hnote : (k.fresh q rest r v c).leaf r' u =
        ((k.take q rest).setPage q (fill ((k.take q rest).mem q) 0 pgsize)).leaf r' u :=
      congrFun (congrFun (Kmem.leaf_congr rfl) r') u
    rw [hnote]
    refine h.toTyped.leaf_update h1.toTyped (by simp [hq]) (by simp) ?_ (h.roots r' s hs) u
    intro p' hp'
    simp [Kmem.setPage, Kmem.take, hp']
  rw [update_idem] at h3
  exact ⟨h3, h2.held_not_maps (by simp), hlf⟩

/-- `uvmalloc` の途中の状態。`o` から `v` までのページが加わった。 -/
structure Growing (L : Layout) (r o perm : Nat) (sh : Shape) (k0 : Kmem) (role0 : Nat → Role)
    (as : Nat → Option Shape) (v : Nat) (k : Kmem) (role : Nat → Role) : Prop where
  world : World L k role (update as r (some { sh with dom := Finset.range v }))
  kept : Kept r o k0 role0 as k role
  fresh : ∀ u, o ≤ u → u < v → role0 (pte2pa (k.leaf r u)) = .free
  zero : ∀ u, o ≤ u → u < v → ∀ i < pgsize, k.mem (pte2pa (k.leaf r u)) i = 0
  flags : ∀ u, o ≤ u → u < v → pteFlags (k.leaf r u) = perm ||| pteV
  noted : ∀ u, o ≤ u → u < v → k.created r u = perm ∧ k.touched r u = false
  failed : k.failed = k0.failed

theorem Growing.low {o k0 role0} (h : Growing L r o perm sh k0 role0 as v k role) : v ≤ 32768 := by
  have := h.world.card_dom_le (update_self r _ as)
  rwa [card_range] at this

def Spent (role0 : Nat → Role) (r : Nat) (D : Nat → Prop) (k : Kmem) (role : Nat → Role) : Prop :=
  ∀ p, role0 p = .free → role p = .free ∨ (∃ path, role p = .table r path) ∨
    ∃ u, D u ∧ pte2pa (k.leaf r u) = p ∧ k.refcnt p = 1

section Spent

variable {D : Nat → Prop} {role0 : Nat → Role} {rest : List Nat}

theorem Spent.refl (role : Nat → Role) (r : Nat) (D : Nat → Prop) (k : Kmem) : Spent role r D k role :=
  fun _ hp => .inl hp

section

variable (h : Spent role0 r D k role)
include h

theorem Spent.mono {D'} (hD : ∀ u, D u → D' u) : Spent role0 r D' k role := by
  intro p hp
  rcases h p hp with hf | ht | ⟨u, hu, he, hc⟩
  · exact .inl hf
  · exact .inr (.inl ht)
  · exact .inr (.inr ⟨u, hD u hu, he, hc⟩)

theorem Spent.ext (he : Ext r k k' role role')
    (hl : ∀ u, D u → k'.leaf r u = k.leaf r u) (huser : ∀ u, D u → role (pte2pa (k.leaf r u)) = .user) :
    Spent role0 r D k' role' := by
  intro p hp
  rcases h p hp with hf | ⟨path, ht⟩ | ⟨u, hu, rfl, hc⟩
  · rcases he.roles p with hsame | ⟨_, hnew⟩
    · exact .inl (hsame.trans hf)
    · exact .inr (.inl hnew)
  · exact .inr (.inl ⟨path, by rw [he.role_eq (by simp [ht]), ht]⟩)
  · refine .inr (.inr ⟨u, hu, by rw [hl u hu], ?_⟩)
    rw [he.refcnt _ (by simp [huser u hu]), hc]

/-- 新しいページ `q` のほかは、表を伸ばしても増えない。 -/
theorem Spent.fresh {c as' p} (hw : World L k role as') (hr : as' r = some sh) (hD : ∀ u, D u → u ∈ sh.dom)
    (he : Ext r (k.fresh q rest r v c) k' (update role q .user) role') (hp : role0 p = .free) (hpq : p ≠ q) :
    role' p = .free ∨ (∃ path, role' p = .table r path) ∨ ∃ u, D u ∧ pte2pa (k.leaf r u) = p ∧ k'.refcnt p = 1 := by
  rcases h p hp with hf | ⟨path, ht⟩ | ⟨u, hu, rfl, hc⟩
  · rcases he.roles p with hsame | ⟨_, hnew⟩
    · rw [update_of_ne hpq] at hsame
      exact .inl (hsame.trans hf)
    · exact .inr (.inl hnew)
  · have ht' : update role q .user p = .table r path := by rwa [update_of_ne hpq]
    exact .inr (.inl ⟨path, by rw [he.role_eq (by simp [ht']), ht']⟩)
  · have hrole : update role q .user (pte2pa (k.leaf r u)) = .user := by
      rw [update_of_ne hpq, (hw.space r sh hr).user u (hD u hu)]
    refine .inr (.inr ⟨u, hu, rfl, ?_⟩)
    rw [he.refcnt _ (by simp [hrole])]
    simp [Kmem.fresh, Kmem.note, Kmem.take, hpq, hc]

theorem Spent.map {w c sh' as'} (hw : World L k role as')
    (hr : as' r = some sh) (hD : ∀ u, D u → u ∈ sh.dom) (hk : k.freelist = q :: rest) (hv : v ∉ sh.dom) (hlow : v < tfV)
    (hpa : pte2pa w = q)
    (hm : Mapped L as' r v w sh' (k.fresh q rest r v c) (update role q .user) k' role') :
    Spent role0 r (fun u => D u ∨ u = v) k' role' := by
  intro p hp
  by_cases hpq : p = q
  · subst hpq
    refine .inr (.inr ⟨v, .inr rfl, ?_, ?_⟩)
    · rw [hm.leaf r sh v hr (hlow.trans (by decide)), if_pos ⟨rfl, rfl⟩, hpa]
    · rw [hm.ext.refcnt p (by simp)]
      simp [Kmem.fresh, Kmem.note, Kmem.take]
  rcases h.fresh hw hr hD hm.ext hp hpq with hf | ht | ⟨u, hu, rfl, hc⟩
  · exact .inl hf
  · exact .inr (.inl ht)
  · have hne : ¬(r = r ∧ u = v) := fun hc => hv (hc.2 ▸ hD u hu)
    refine .inr (.inr ⟨u, .inl hu, ?_, hc⟩)
    rw [hm.leaf r sh u hr (hw.dom_lt hr (hD u hu)), if_neg hne, (hw.fresh hk hr hv).2.2 r sh u hr]

theorem Spent.unmapped_page {c as'} (hw : World L k role as')
    (hr : as' r = some sh) (hD : ∀ u, D u → u ∈ sh.dom) (hk : k.freelist = q :: rest) (hv : v ∉ sh.dom)
    (hn : NotMapped L as' r v (k.fresh q rest r v c) (update role q .user) k' role') :
    Spent role0 r D (k'.drop q) (dropRole k' role' q) := by
  have hq' : role' q = .user := by rw [hn.ext.role_eq (by simp), update_self]
  have hone : k'.refcnt q = 1 := by
    rw [hn.ext.refcnt q (by simp)]
    simp [Kmem.fresh, Kmem.note, Kmem.take]
  intro p hp
  by_cases hpq : p = q
  · subst hpq
    exact .inl (by rw [dropRole_apply, if_pos ⟨rfl, hone.le⟩])
  rw [dropRole_apply, if_neg fun hc => hpq hc.1]
  rcases h.fresh hw hr hD hn.ext hp hpq with hf | ht | ⟨u, hu, rfl, hc⟩
  · exact .inl hf
  · exact .inr (.inl ht)
  refine .inr (.inr ⟨u, hu, ?_, ?_⟩)
  · rw [hn.world.leaf_drop hq' (hn.world.roots r sh hr), hn.leaf r sh u hr, (hw.fresh hk hr hv).2.2 r sh u hr]
  · rw [Kmem.drop_refcnt, if_neg hpq, hc]

theorem Spent.undo {n as'} (hw : World L k role as')
    (hr : as' r = some sh) (hD : ∀ u, D u → u ∈ sh.dom) (hdom : ∀ u, v ≤ u → u < v + n → u ∈ sh.dom)
    (hu : Unmapped L as' r v n sh k role k' role') : Spent role0 r (fun u => D u ∧ ¬(v ≤ u ∧ u < v + n)) k' role' := by
  have hs := hw.space r sh hr
  intro p hp
  rcases h p hp with hf | ⟨path, ht⟩ | ⟨u, hDu, rfl, hc⟩
  · exact .inl (by rw [hu.other p (by simp [hf]), hf])
  · exact .inr (.inl ⟨path, by rw [hu.other p (by simp [ht]), ht]⟩)
  by_cases hin : v ≤ u ∧ u < v + n
  · refine .inl ?_
    rw [hu.user _ (hs.user u (hD u hDu)), hu.refIn u hin.1 hin.2, hc]
    rfl
  · refine .inr (.inr ⟨u, ⟨hDu, hin⟩, ?_, ?_⟩)
    · rw [hu.leaf r sh u hr (hs.dom_lt (hD u hDu)), if_neg (fun hc => hin hc.2)]
    · rw [hu.refOut _ fun w hw1 hw2 he => hin (hs.inj w (hdom w hw1 hw2) u (hD u hDu) he ▸ ⟨hw1, hw2⟩), hc]

theorem Spent.trans {o D'} (hr : as r = some sh)
    (hs : World L k role as) (hD : ∀ u, D u → u < o ∧ u ∈ sh.dom) (hk : Kept r o k role as k' role')
    (h' : Spent role r D' k' role') : Spent role0 r (fun u => D u ∨ D' u) k' role' := by
  intro p hp
  rcases h p hp with hf | ⟨path, ht⟩ | ⟨u, hu, rfl, hc⟩
  · exact h'.mono (fun _ => .inr) p hf
  · exact .inr (.inl ⟨path, by rw [hk.roles p (by simp [ht]), ht]⟩)
  · have hdom := (hD u hu).2
    have husr := (hs.space r sh hr).user u hdom
    refine .inr (.inr ⟨u, .inl hu, ?_, ?_⟩)
    · rw [hk.leaf r sh u hr (hs.dom_lt hr hdom) (.inr (.inl (hD u hu).1))]
    · rw [hk.refcnt _ (by simp [husr]), hc]

end

end Spent

/-- 伸ばしかけた分を外すと、元の大きさに戻る。 -/
theorem Growing.undo {o k0 role0} (hr : as r = some { sh with dom := Finset.range o })
    (hov : o ≤ v) (hlow : v ≤ tfV)
    (h : World L k role (update as r (some { sh with dom := Finset.range v })))
    (hk : Kept r o k0 role0 as k role) (hfree : ∀ u, o ≤ u → u < v → role0 (pte2pa (k.leaf r u)) = .free)
    (hsp : Spent role0 r (fun u => o ≤ u ∧ u < v) k role) :
    wp (uvmdealloc L r (v * pgsize) (o * pgsize)) (fun _ k' => ∃ role', World L k' role' as ∧
      Kept r o k0 role0 as k' role' ∧ Spent role0 r (fun _ => False) k' role' ∧ k'.failed = k.failed) E k := by
  refine wp_post (uvmdealloc_spec h (update_self r _ as) fun u _ hu => ?_) ?_
  · rw [npages_page] at hu
    exact mem_range.mpr hu
  rintro _ k' ⟨_, role', hu⟩
  rw [npages_page, npages_page] at hu
  have hd : Finset.range v \ Finset.Ico o (o + (v - o)) = Finset.range o := by
    ext u
    simp only [mem_sdiff, mem_range, mem_Ico]
    omega
  have hw := hu.world
  simp only [update_idem, hd] at hw
  rw [← hr, update_eq_self] at hw
  have hspent := hsp.undo h (update_self r _ as) (fun u hu => mem_range.mpr hu.2)
    (fun u _ hu2 => mem_range.mpr (by omega)) hu
  refine ⟨role', hw, hk.unmapped h le_rfl (by omega) hu (fun r' s hs => ?_) ?_,
    hspent.mono fun u hu => hu.2 ⟨hu.1.1, by omega⟩, hu.failed⟩
  · by_cases he : r' = r
    · subst he
      exact ⟨_, update_self ..⟩
    · exact ⟨s, by rwa [update_of_ne he]⟩
  · intro u hu1 hu2
    exact hfree u hu1 (by omega)

section Growing

variable {o : Nat} {k0 : Kmem} {role0 : Nat → Role} {rest : List Nat}

theorem Growing.free_start (h : Growing L r o perm sh k0 role0 as v k role) (hk : k.freelist = q :: rest) :
    role q = .free ∧ role0 q = .free := by
  have hq : role q = .free := (h.world.free q).mp (by simp [hk])
  refine ⟨hq, ?_⟩
  by_contra hc
  rw [h.kept.roles q hc] at hq
  exact hc hq

theorem Growing.kept_fresh (hr : as r = some { sh with dom := Finset.range o }) (hov : o ≤ v)
    (h : Growing L r o perm sh k0 role0 as v k role) (hk : k.freelist = q :: rest) :
    Kept r o k0 role0 as (k.fresh q rest r v perm) (update role q .user) := by
  obtain ⟨_, _, hlf⟩ := h.world.fresh (c := perm) hk (update_self r _ as) (v := v) (by simp)
  refine h.kept.page (h.free_start hk).2 ?_ ?_ ?_ ?_ ?_
  · intro p hp
    exact update_of_ne hp _ _
  · intro p hp
    simp [Kmem.fresh, Kmem.note, Kmem.take, hp]
  · intro p hp
    simp [Kmem.fresh, Kmem.note, Kmem.setPage, Kmem.take, hp]
  · intro r' s u hs
    by_cases he : r' = r
    · subst he
      exact hlf r' _ u (update_self ..)
    · exact hlf r' s u (by rwa [update_of_ne he])
  intro r' u hc
  by_cases he : r' = r
  · subst he
    have : u ≠ v := by omega
    simp [Kmem.fresh, Kmem.note, Kmem.setPage, Kmem.take, this]
  · simp [Kmem.fresh, Kmem.note, Kmem.setPage, Kmem.take, he]

theorem Growing.step (hr : as r = some { sh with dom := Finset.range o }) (hov : o ≤ v)
    (h : Growing L r o perm sh k0 role0 as v k role) (hk : k.freelist = q :: rest)
    (hperm : perm < 1024) (hR : has perm pteR) :
    wp (mappages r (v * pgsize) pgsize q perm) (fun res k' => ∃ role',
      (res = -1 ∧ NotMapped L (update as r (some { sh with dom := Finset.range v })) r v
        (k.fresh q rest r v perm) (update role q .user) k' role') ∨
      (res = 0 ∧ Growing L r o perm sh k0 role0 as (v + 1) k' role' ∧
        (Spent role0 r (fun u => o ≤ u ∧ u < v) k role → Spent role0 r (fun u => o ≤ u ∧ u < v + 1) k' role')))
      E (k.fresh q rest r v perm) := by
  obtain ⟨hf, hnm, hlf⟩ := h.world.fresh (c := perm) hk (update_self r _ as) (v := v) (by simp)
  have hkept := h.kept_fresh hr hov hk
  obtain ⟨hq, hq0⟩ := h.free_start hk
  have hflags := flags_lt hperm
  have hlow : v < tfV := h.low.trans_lt (by decide)
  have hself : update as r (some { sh with dom := Finset.range v }) r = some { sh with dom := Finset.range v } :=
    update_self ..
  refine wp_post (mapUser_spec hf hself (by simp) hlow hperm hR (update_self ..) ?_
    (AtMost.of_empty hnm) ?_ ?_) ?_
  · intro u hu he
    exact hnm (r, u) ⟨_, hself, hu, he⟩
  · intro _
    simp [Kmem.fresh, Kmem.note, Kmem.take]
  · intro _ i _ _ hi
    simpa [Kmem.fresh, Kmem.note] using hi
  rintro res k' ⟨role', ⟨rfl, hn⟩ | ⟨rfl, hm⟩⟩
  · exact ⟨role', .inl ⟨rfl, hn⟩⟩
  refine ⟨role', .inr ⟨rfl, ?_, fun hsp => ?_⟩⟩
  case refine_2 =>
    have hspent := hsp.map h.world hself (fun u hu => mem_range.mpr hu.2) hk (by simp) hlow
      (pte2pa_add hflags) hm
    refine hspent.mono fun u hu => ?_
    rcases hu with hu | rfl <;> omega
  have hold : ∀ u, u < v → k'.leaf r u = k.leaf r u := by
    intro u hu
    rw [hm.leaf r _ u hself ((hu.trans hlow).trans (by decide)), if_neg (by omega), hlf r _ u hself]
  have hnew : k'.leaf r v = q * 1024 + (perm ||| pteV) := by
    rw [hm.leaf r _ v hself (hlow.trans (by decide)), if_pos ⟨rfl, rfl⟩]
  have hsp := hf.space r _ hself
  constructor
  case world =>
    have := hm.world
    simp only [update_idem] at this
    rwa [← range_add_one] at this
  case kept =>
    refine hkept.ext hm.ext fun r' s u hs hu hc => ?_
    by_cases he : r' = r
    · subst he
      rw [hm.leaf r' _ u hself hu, if_neg (by omega)]
    · rw [hm.leaf r' s u (by rwa [update_of_ne he]) hu, if_neg fun hc => he hc.1]
  case fresh =>
    intro u hu1 hu2
    by_cases huv : u = v
    · rw [huv, hnew, pte2pa_add hflags, hq0]
    · rw [hold u (by omega)]
      exact h.fresh u hu1 (by omega)
  case zero =>
    intro u hu1 hu2 i hi
    by_cases huv : u = v
    · rw [huv, hnew, pte2pa_add hflags, hm.ext.mem q (by simp) (by simp)]
      simp [Kmem.fresh, Kmem.note, Kmem.setPage, fill, hi]
    have hu : u < v := by omega
    have hrole := hsp.user u (mem_range.mpr hu)
    rw [hlf r _ u hself] at hrole
    have hne : pte2pa (k.leaf r u) ≠ q := by
      intro he
      have := (h.world.space r _ hself).user u (mem_range.mpr hu)
      rw [he, hq] at this
      cases this
    rw [hold u hu, hm.ext.mem _ (by simp [hrole]) (by simp [hrole])]
    simp only [Kmem.fresh, Kmem.note, Kmem.setPage, Kmem.take, update_of_ne hne]
    exact h.zero u hu1 hu i hi
  case flags =>
    intro u hu1 hu2
    by_cases huv : u = v
    · rw [huv, hnew, pteFlags_add hflags]
    · rw [hold u (by omega)]
      exact h.flags u hu1 (by omega)
  case noted =>
    intro u hu1 hu2
    rw [hm.ext.created, hm.ext.touched]
    by_cases huv : u = v
    · subst huv
      simp [Kmem.fresh, Kmem.note]
    · have := h.noted u hu1 (by omega)
      simpa [Kmem.fresh, Kmem.note, Kmem.setPage, Kmem.take, huv] using this
  case failed => exact hm.failed.trans h.failed

theorem uvmallocLoop_spec {newsz xperm} (hr : as r = some { sh with dom := Finset.range o })
    (hx : pteR ||| pteU ||| xperm < 1024) (n : Nat) : ∀ {v : Nat} {k : Kmem} {role : Nat → Role}, o ≤ v →
      Growing L r o (pteR ||| pteU ||| xperm) sh k0 role0 as v k role → Spent role0 r (fun u => o ≤ u ∧ u < v) k role →
      wp (uvmallocLoop L r (o * pgsize) newsz xperm n (v * pgsize)) (fun res k' => ∃ role',
        (res = newsz ∧ Growing L r o (pteR ||| pteU ||| xperm) sh k0 role0 as (v + n) k' role' ∧
          Spent role0 r (fun u => o ≤ u ∧ u < v + n) k' role') ∨
        (res = 0 ∧ World L k' role' as ∧ Kept r o k0 role0 as k' role' ∧ Spent role0 r (fun _ => False) k' role' ∧
          k0.failed < k'.failed)) E k := by
  induction n with
  | zero =>
    intro v k role _ h hsp
    exact ⟨role, .inl ⟨rfl, h, hsp⟩⟩
  | succ n ih =>
    intro v k role hov h hsp
    have hlow : v ≤ tfV := h.low.trans (by decide)
    have hR : has (pteR ||| pteU ||| xperm) pteR := by
      rw [show pteR = 2 ^ 1 from rfl, has_two_pow, Nat.testBit_or, Nat.testBit_or, Nat.testBit_two_pow_self]
      rfl
    simp only [uvmallocLoop, wp_bind]
    refine wp_kalloc h.world (fun hk => ?_) fun q rest hk => ?_
    · simp only [wp_bind, wp_pure]
      have hkept : Kept r o k0 role0 as { k with failed := k.failed + 1 } role := by
        refine ⟨h.kept.roles, h.kept.refcnt, h.kept.mem, fun r' s u hs hu hc => ?_, h.kept.notes⟩
        exact (congrFun (congrFun (Kmem.leaf_congr rfl) r') u).trans (h.kept.leaf r' s u hs hu hc)
      have hfresh : ∀ u, o ≤ u → u < v → role0 (pte2pa (({ k with failed := k.failed + 1 } : Kmem).leaf r u)) = .free :=
        h.fresh
      refine wp_post (Growing.undo hr hov hlow (h.world.fail _) hkept hfresh hsp) ?_
      rintro _ k' ⟨role', h1, h2, hsp', h3⟩
      refine ⟨role', .inr ⟨trivial, h1, h2, hsp', ?_⟩⟩
      rw [h3, h.failed]
      exact Nat.lt_succ_self _
    obtain ⟨hf, hnm, hlf⟩ := h.world.fresh (c := pteR ||| pteU ||| xperm) hk (update_self r _ as) (v := v)
      (by simp)
    obtain ⟨hq, hq0⟩ := h.free_start hk
    have hkept := h.kept_fresh hr hov hk
    simp only [zeroPage, record, wp_bind, wp_modify]
    have hdiv : v * pgsize / pgsize = v := Nat.mul_div_cancel _ (by decide)
    rw [hdiv]
    refine wp_post (h.step hr hov hk hx hR) ?_
    rintro res k' ⟨role', ⟨rfl, hn⟩ | ⟨rfl, hg, hsp'⟩⟩
    · have hself : update as r (some { sh with dom := Finset.range v }) r =
          some { sh with dom := Finset.range v } := update_self ..
      have hq' : role' q = .user := by rw [hn.ext.role_eq (by simp), update_self]
      have hnm' : ∀ x, ¬Maps k' (update as r (some { sh with dom := Finset.range v })) q x := by
        rintro x ⟨s, hs, hu, he⟩
        rw [hn.leaf x.1 s x.2 hs] at he
        exact hnm x ⟨s, hs, hu, he⟩
      obtain ⟨hrange, hpos⟩ := hn.world.range_user hq'
      have hd := hn.world.drop hq' (AtMost.of_empty hnm')
      have hlf' : ∀ r' s u, as r' = some s → k'.leaf r' u = (k.fresh q rest r v
          (pteR ||| pteU ||| xperm)).leaf r' u := by
        intro r' s u hs
        by_cases he : r' = r
        · subst he
          exact hn.leaf r' _ u hself
        · exact hn.leaf r' s u (by rwa [update_of_ne he])
      have hroot : ∀ r' s, as r' = some s → role' r' = .table r' [] := by
        intro r' s hs
        by_cases he : r' = r
        · subst he
          exact hn.world.roots r' _ hself
        · exact hn.world.roots r' s (by rwa [update_of_ne he])
      have hkept' : Kept r o k0 role0 as (k'.drop q) (dropRole k' role' q) := by
        refine (hkept.ext hn.ext fun r' s u hs _ _ => hlf' r' s u hs).page hq0 ?_ ?_ ?_ ?_ ?_
        · intro p hp
          rw [dropRole_apply, if_neg fun hc => hp hc.1]
        · intro p hp
          rw [Kmem.drop_refcnt, if_neg hp]
        · exact fun p hp => Kmem.drop_mem hp
        · exact fun r' s u hs => hn.world.leaf_drop hq' (hroot r' s hs) u
        · intro r' u _
          rw [(Kmem.drop_same k' q).1, (Kmem.drop_same k' q).2.1]
          exact ⟨rfl, rfl⟩
      simp only [ne_eq, Int.reduceNeg, Int.neg_eq_zero, one_ne_zero, not_false_eq_true, if_true, wp_bind,
        wp_kfree hrange hpos, wp_pure]
      have hsp' := hsp.unmapped_page h.world hself (fun u hu => mem_range.mpr hu.2) hk (by simp) hn
      refine wp_post (Growing.undo hr hov hlow hd hkept' (fun u hu1 hu2 => ?_) hsp') ?_
      · rw [hn.world.leaf_drop hq' (hroot r _ hr), hlf' r _ u hr, hlf r _ u hself]
        exact h.fresh u hu1 hu2
      · rintro _ k'' ⟨role'', h1, h2, hsp'', h3⟩
        refine ⟨role'', .inr ⟨trivial, h1, h2, hsp'', ?_⟩⟩
        rw [h3, (Kmem.drop_same k' q).2.2, hn.failed, ← h.failed]
        exact Nat.lt_succ_self _
    · simp only [ne_eq, not_true_eq_false, if_false]
      rw [show v * pgsize + pgsize = (v + 1) * pgsize by ring]
      refine wp_post (ih (by omega) hg (hsp' hsp)) fun res k'' h'' => ?_
      rwa [show v + 1 + n = v + (n + 1) by omega] at h''

end Growing

theorem Growing.start {perm} (h : World L k role as) {o} (hr : as r = some { sh with dom := Finset.range o }) :
    Growing L r o perm sh k role as o k role where
  world := by
    rw [← hr, update_eq_self]
    exact h
  kept := .refl ..
  fresh u h1 h2 := by omega
  zero u h1 h2 := by omega
  flags u h1 h2 := by omega
  noted u h1 h2 := by omega
  failed := rfl

theorem uvmalloc_spent {oldsz newsz xperm} (h : World L k role as)
    (hr : as r = some { sh with dom := Finset.range (npages oldsz) }) (hx : pteR ||| pteU ||| xperm < 1024) :
    wp (uvmalloc L r oldsz newsz xperm) (fun res k' => ∃ role',
      (newsz < oldsz ∧ res = oldsz ∧ k' = k ∧ role' = role) ∨
      (oldsz ≤ newsz ∧ res = newsz ∧
        Growing L r (npages oldsz) (pteR ||| pteU ||| xperm) sh k role as (npages newsz) k' role' ∧
        Spent role r (fun u => npages oldsz ≤ u ∧ u < npages newsz) k' role') ∨
      (oldsz ≤ newsz ∧ res = 0 ∧ World L k' role' as ∧ Kept r (npages oldsz) k role as k' role' ∧
        Spent role r (fun _ => False) k' role' ∧ k.failed < k'.failed)) E k := by
  rw [uvmalloc, wp_ite]
  refine ⟨fun hlt => wp_pure.mpr ⟨role, .inl ⟨hlt, rfl, rfl, rfl⟩⟩, fun hge => ?_⟩
  have hle : oldsz ≤ newsz := by omega
  have hn : (pgroundup newsz - pgroundup oldsz) / pgsize = npages newsz - npages oldsz := by
    simp only [npages, pgroundup, pgsize]
    omega
  have hmono := npages_mono hle
  rw [hn, ← npages_mul oldsz]
  refine wp_post (uvmallocLoop_spec hr hx _ le_rfl (.start h hr) (Spent.refl _ _ _ _)) ?_
  rintro res k' ⟨role', ⟨rfl, hg, hsp⟩ | ⟨rfl, hw⟩⟩
  · rw [show npages oldsz + (npages res - npages oldsz) = npages res by omega] at hg hsp
    exact ⟨role', .inr (.inl ⟨hle, rfl, hg, hsp⟩)⟩
  · exact ⟨role', .inr (.inr ⟨hle, rfl, hw⟩)⟩

end Xv6.Vm
