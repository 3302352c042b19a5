import Xv6.Vm.Lemmas.Walk
import Mathlib.Order.Interval.Finset.Nat

/-!
# 写像の追加と削除
-/

namespace Xv6.Vm

open Xv6.Lib Finset

variable {L : Layout} {k k' k'' : Kmem} {role role' role'' : Nat → Role} {as : Nat → Option Shape}
variable {p q r v w perm : Nat} {sh sh' : Shape} {E : String → Prop}

structure Mapped (L : Layout) (as : Nat → Option Shape) (r v w : Nat) (sh' : Shape) (k : Kmem) (role : Nat → Role)
    (k' : Kmem) (role' : Nat → Role) : Prop where
  world : World L k' role' (update as r (some sh'))
  ext : Ext r k k' role role'
  leaf : ∀ r' s u, as r' = some s → u < 2 ^ 26 → k'.leaf r' u = if r' = r ∧ u = v then w else k.leaf r' u
  added : ∀ p, role' p = role p ∨
    role' p = .table r [px 2 (v * pgsize)] ∨ role' p = .table r [px 2 (v * pgsize), px 1 (v * pgsize)]
  present : ∃ q, role' q = .table r [px 2 (v * pgsize), px 1 (v * pgsize)]
  failed : k'.failed = k.failed
  length : k'.freelist.length + k.missing (v * pgsize) 2 r = k.freelist.length

structure NotMapped (L : Layout) (as : Nat → Option Shape) (r v : Nat) (k : Kmem) (role : Nat → Role)
    (k' : Kmem) (role' : Nat → Role) : Prop where
  world : World L k' role' as
  ext : Ext r k k' role role'
  leaf : ∀ r' s u, as r' = some s → k'.leaf r' u = k.leaf r' u
  full : k'.freelist = []
  failed : k'.failed = k.failed + 1
  length : k.freelist.length < k.missing (v * pgsize) 2 r

section

variable (h : World L k role as) (hr : as r = some sh)
include h hr

theorem mappages_spec (hv : v < 2 ^ 26) (h0 : k.leaf r v = 0) (hperm : perm < 1024) (hp : p < physpages)
    (hmap : ∀ k1 role1 q, World L k1 role1 as → Ext r k k1 role role1 →
      (∀ r' s u, as r' = some s → k1.leaf r' u = k.leaf r' u) →
      role1 q = .table r [px 2 (v * pgsize), px 1 (v * pgsize)] → p * 1024 + (perm ||| pteV) < 2 ^ 64 →
      World L (k1.setPte q (px 0 (v * pgsize)) (p * 1024 + (perm ||| pteV))) role1 (update as r (some sh'))) :
    wp (mappages r (v * pgsize) pgsize p perm) (fun res k' => ∃ role',
      (res = -1 ∧ NotMapped L as r v k role k' role') ∨
      (res = 0 ∧ Mapped L as r v (p * 1024 + (perm ||| pteV)) sh' k role k' role')) E k := by
  have hva := page_lt_maxva hv
  have hflags := flags_lt hperm
  have hw : p * 1024 + (perm ||| pteV) < 2 ^ 64 := by
    simp only [physpages, pgsize] at hp
    omega
  have hword : pa2pte p ||| perm ||| pteV = p * 1024 + (perm ||| pteV) := by
    rw [Nat.or_assoc, pa2pte_or hflags]
  refine wp_mappages_page hva (Nat.mul_mod_left _ _) (wp_post (walk_spec h hr hva) ?_)
  rintro res k1 ⟨role1, hw1⟩
  constructor
  · intro hres
    obtain ⟨hf, hfail, hlen⟩ := hw1.none hres
    exact ⟨role1, .inl ⟨rfl, hw1.world, hw1.ext, hw1.leaf, hf, hfail, hlen⟩⟩
  intro q i hres
  obtain ⟨hfail, hq, rfl, hlen⟩ := hw1.some q i hres
  have hq : role1 q = .table r [px 2 (v * pgsize), px 1 (v * pgsize)] := by simpa [down] using hq
  have hpte : k1.pte q (px 0 (v * pgsize)) = 0 := by
    rw [← hw1.world.toTyped.leaf_eq hq, hw1.leaf r sh v hr, h0]
  refine ⟨by rw [hpte, has_zero], role1, .inr ⟨rfl, ?_⟩⟩
  rw [hword]
  refine ⟨hmap k1 role1 q hw1.world hw1.ext hw1.leaf hq hw, ⟨hw1.ext.roles, hw1.ext.refcnt, ?_, hw1.ext.created,
    hw1.ext.touched⟩, ?_, ?_, ⟨q, hq⟩, hfail, hlen⟩
  · intro t ht htab
    have hne : t ≠ q := by
      rintro rfl
      rcases hw1.ext.roles t with he | ⟨hc, _⟩
      · exact htab _ (he ▸ hq)
      · exact ht hc
    rw [Kmem.setPte_mem hne, hw1.ext.mem t ht htab]
  · intro r' s u hs hu
    rw [hw1.world.toTyped.leaf_setLeaf hq hw hv hu (hw1.world.roots r' s hs), hw1.leaf r' s u hs]
  intro t
  rcases hw1.added t with he | ⟨j, hj, he⟩
  · exact .inl he
  · obtain rfl | rfl : j = 0 ∨ j = 1 := by omega
    · exact .inr (.inl (by simpa [down] using he))
    · exact .inr (.inr (by simpa [down] using he))

theorem mapUser_spec (hv : v ∉ sh.dom) (hlow : v < tfV)
    (hperm : perm < 1024) (hR : has perm pteR) (hp : role p = .user)
    (hx : ∀ u ∈ sh.dom, pte2pa (k.leaf r u) ≠ p) (hC : AtMost (Maps k as p) (k.refcnt p - 1))
    (hW : has perm pteW → k.refcnt p = 1)
    (hc : k.touched r v = false ∨ Full (k.created r v) → Within perm (k.created r v)) :
    wp (mappages r (v * pgsize) pgsize p perm) (fun res k' => ∃ role',
      (res = -1 ∧ NotMapped L as r v k role k' role') ∨
      (res = 0 ∧ Mapped L as r v (p * 1024 + (perm ||| pteV)) { sh with dom := insert v sh.dom } k role k' role')) E k := by
  have hflags := flags_lt hperm
  refine mappages_spec h hr (hlow.trans (by decide)) ((h.space r sh hr).empty v hlow hv) hperm
    (h.range p (by simp [hp])).2 fun k1 role1 q h1 hext hleaf hq hw => ?_
  have hpf : role p ≠ .free := by simp [hp]
  refine h1.map hr hq hv hlow hw ?_ ?_ ?_ ?_ ?_ ?_ ?_
  · exact (has_word (i := 0) (by decide)).trans (by simp)
  · exact (has_word (i := 1) (by decide)).trans (by simpa [pteR] using hR)
  · rw [pte2pa_add hflags, hext.role_eq hpf, hp]
  · intro u hu
    rw [pte2pa_add hflags, hleaf r sh u hr]
    exact hx u hu
  · rw [pte2pa_add hflags, hext.refcnt p hpf]
    refine hC.mono ?_ le_rfl
    rintro x ⟨s, hs, hu, he⟩
    rw [hleaf x.1 s x.2 hs] at he
    exact ⟨s, hs, hu, he⟩
  · intro hw2
    rw [pte2pa_add hflags, hext.refcnt p hpf]
    have := (has_word (i := 2) (by decide)).symm.trans hw2
    exact hW (by simpa [pteW] using this)
  rw [hext.created, hext.touched]
  intro ht i hi1 hi4 hi
  rw [has_word (by omega)] at hi
  refine hc ht i hi1 hi4 ?_
  have : ¬i = 0 := by omega
  simpa [this] using hi

theorem World.find_leaf (h0 : k.leaf r v ≠ 0) :
    ∃ q, role q = .table r [px 2 (v * pgsize), px 1 (v * pgsize)] ∧
      k.find (v * pgsize) 2 r = some (q, px 0 (v * pgsize)) ∧ k.pte q (px 0 (v * pgsize)) = k.leaf r v := by
  have hroot := h.roots r sh hr
  cases hf : k.find (v * pgsize) 2 r with
  | none =>
    rw [Kmem.leaf, hf] at h0
    exact absurd rfl h0
  | some x =>
    obtain ⟨q, i⟩ := x
    obtain ⟨hq, rfl⟩ := (h.toTyped.find_iff hroot).mp hf
    exact ⟨q, hq, rfl, (h.toTyped.leaf_eq hq).symm⟩

end

theorem flags_ne_of_readable (h : has w pteR) : pteFlags w ≠ pteV := by
  intro hc
  have := has_pteFlags (w := w) (i := 1) (by decide)
  rw [hc, show (2 : Nat) ^ 1 = pteR from rfl, h] at this
  exact absurd this (by decide)

theorem Kmem.drop_setPte (k : Kmem) {p q i w} (h : p ≠ q) : (k.drop p).setPte q i w = (k.setPte q i w).drop p := by
  rcases Nat.lt_or_ge 1 (k.refcnt p) with h1 | h1
  · rw [Kmem.drop_unref h1, Kmem.drop_unref (k := k.setPte q i w) h1]
    rfl
  · rw [Kmem.drop_push h1, Kmem.drop_push (k := k.setPte q i w) h1]
    simp only [Kmem.push, Kmem.setPte, Kmem.setPage]
    congr 1
    rw [update_of_ne h.symm, update_of_ne h, update_comm h]

structure Unmapped (L : Layout) (as : Nat → Option Shape) (r v n : Nat) (sh : Shape) (k : Kmem) (role : Nat → Role)
    (k' : Kmem) (role' : Nat → Role) : Prop where
  world : World L k' role' (update as r (some { sh with dom := sh.dom \ Finset.Ico v (v + n) }))
  leaf : ∀ r' s u, as r' = some s → u < 2 ^ 26 →
    k'.leaf r' u = if r' = r ∧ v ≤ u ∧ u < v + n then 0 else k.leaf r' u
  refIn : ∀ u, v ≤ u → u < v + n → k'.refcnt (pte2pa (k.leaf r u)) = k.refcnt (pte2pa (k.leaf r u)) - 1
  refOut : ∀ p, (∀ u, v ≤ u → u < v + n → pte2pa (k.leaf r u) ≠ p) → k'.refcnt p = k.refcnt p
  other : ∀ p, role p ≠ .user → role' p = role p
  user : ∀ p, role p = .user → role' p = if k'.refcnt p = 0 then .free else .user
  mem : ∀ p, role' p ≠ .free → (∀ path, role p ≠ .table r path) → k'.mem p = k.mem p
  created : k'.created = k.created
  touched : k'.touched = k.touched
  failed : k'.failed = k.failed

theorem Unmapped.zero (h : World L k role as) (hr : as r = some sh) : Unmapped L as r v 0 sh k role k role where
  world := by
    have : update as r (some { sh with dom := sh.dom \ Finset.Ico v (v + 0) }) = as := by
      rw [Nat.add_zero, Finset.Ico_self, sdiff_empty]
      exact (congrArg (update as r) hr.symm).trans (update_eq_self r as)
    rw [this]
    exact h
  leaf r' s u _ _ := by rw [if_neg (by omega)]
  refIn u h1 h2 := by omega
  refOut _ _ := rfl
  other _ _ := rfl
  user p hp := by
    have := (h.range_user hp).2
    rw [if_neg (by omega), hp]
  mem _ _ _ := rfl
  created := rfl
  touched := rfl
  failed := rfl

/-- 写像を外し、ページの参照を一つ減らす。 -/
theorem World.unmap_drop (h : World L k role as) (hr : as r = some sh) (hv : v ∈ sh.dom)
    (hq : role q = .table r [px 2 (v * pgsize), px 1 (v * pgsize)]) :
    Unmapped L as r v 1 sh k role ((k.drop (pte2pa (k.leaf r v))).setPte q (px 0 (v * pgsize)) 0)
      (dropRole k role (pte2pa (k.leaf r v))) := by
  have hs := h.space r sh hr
  have hlow := hs.low v hv
  have hv26 : v < 2 ^ 26 := hlow.trans (by decide)
  have hp := hs.user v hv
  obtain ⟨_, hpos⟩ := h.range_user hp
  have hpq : pte2pa (k.leaf r v) ≠ q := by
    intro he
    rw [he, hq] at hp
    cases hp
  have hico : Finset.Ico v (v + 1) = {v} := by
    ext u
    simp only [mem_Ico, mem_singleton]
    omega
  have h1 := h.unmap hr hq hv
  have hdom : ∀ u ∈ ({ sh with dom := sh.dom.erase v } : Shape).dom, u = v ∨ u ∈ sh.dom :=
    fun u hu => .inr (mem_of_mem_erase hu)
  have hslack := h.slack_setLeaf (w := 0) hr hq hv26 (by decide) hdom hv (fun hc => absurd hc (by simp))
  have h2 := h1.drop (p := pte2pa (k.leaf r v)) hp hslack
  have hleaf1 := fun r' u (hu : u < 2 ^ 26) (hr' : role r' = .table r' []) =>
    h.toTyped.leaf_setLeaf (w := 0) hq (by decide) hv26 hu hr'
  rw [Kmem.drop_setPte k hpq]
  have hd : dropRole (k.setPte q (px 0 (v * pgsize)) 0) role (pte2pa (k.leaf r v)) =
      dropRole k role (pte2pa (k.leaf r v)) := rfl
  rw [hd] at h2
  constructor
  case world =>
    rw [hico, sdiff_singleton_eq_erase]
    exact h2
  case leaf =>
    intro r' s u hs' hu
    have hroot := h.roots r' s hs'
    rw [h1.leaf_drop hp hroot, hleaf1 r' u hu hroot]
    by_cases hc : r' = r ∧ u = v
    · rw [if_pos hc, if_pos (by omega)]
    · rw [if_neg hc, if_neg (by omega)]
  case refIn =>
    intro u hu1 hu2
    obtain rfl : u = v := by omega
    rw [Kmem.drop_refcnt, if_pos rfl, Kmem.setPte_refcnt]
  case refOut =>
    intro p hp'
    rw [Kmem.drop_refcnt, if_neg (hp' v le_rfl (by omega)).symm, Kmem.setPte_refcnt]
  case other =>
    intro p hp'
    rw [dropRole_apply, if_neg]
    rintro ⟨rfl, _⟩
    exact hp' hp
  case user =>
    intro p hp'
    rw [dropRole_apply, Kmem.drop_refcnt, Kmem.setPte_refcnt, hp']
    by_cases hne : p = pte2pa (k.leaf r v)
    · subst hne
      rw [if_pos rfl]
      rcases Nat.lt_or_ge 1 (k.refcnt (pte2pa (k.leaf r v))) with h3 | h3
      · rw [if_neg (by omega), if_neg (by omega)]
      · rw [if_pos ⟨rfl, h3⟩, if_pos (by omega)]
    · have hpos' := (h.range_user hp').2
      rw [if_neg fun hc => hne hc.1, if_neg hne, if_neg (by omega)]
  case mem =>
    intro p hf htab
    have hne : p ≠ q := fun he => htab _ (he ▸ hq)
    by_cases hpp : p = pte2pa (k.leaf r v)
    · subst hpp
      rw [dropRole_apply] at hf
      have h3 : 1 < k.refcnt (pte2pa (k.leaf r v)) := by
        by_contra hc
        exact hf (if_pos ⟨rfl, by omega⟩)
      rw [Kmem.drop_unref (k := k.setPte q (px 0 (v * pgsize)) 0) h3]
      exact Kmem.setPte_mem hne
    · rw [Kmem.drop_mem hpp, Kmem.setPte_mem hne]
  case created => exact (Kmem.drop_same _ _).1
  case touched => exact (Kmem.drop_same _ _).2.1
  case failed => exact (Kmem.drop_same _ _).2.2

theorem Unmapped.refcnt_le {n} (h : Unmapped L as r v n sh k role k' role') (p : Nat) :
    k'.refcnt p ≤ k.refcnt p := by
  by_cases hc : ∃ u, v ≤ u ∧ u < v + n ∧ pte2pa (k.leaf r u) = p
  · obtain ⟨u, h1, h2, rfl⟩ := hc
    rw [h.refIn u h1 h2]
    omega
  · rw [h.refOut p fun u h1 h2 he => hc ⟨u, h1, h2, he⟩]

theorem Unmapped.cons {n k1 role1 sh1} (h : World L k role as)
    (hr : as r = some sh) (hdom : ∀ u, v ≤ u → u < v + (n + 1) → u ∈ sh.dom)
    (hsh : sh1 = { sh with dom := sh.dom \ Finset.Ico v (v + 1) }) (h1 : Unmapped L as r v 1 sh k role k1 role1)
    (h2 : Unmapped L (update as r (some sh1)) r (v + 1) n sh1 k1 role1 k' role') :
    Unmapped L as r v (n + 1) sh k role k' role' := by
  have hs := h.space r sh hr
  have hlow : ∀ u, v ≤ u → u < v + (n + 1) → u < 2 ^ 26 := fun u hu1 hu2 => hs.dom_lt (hdom u hu1 hu2)
  have hleaf1 : ∀ u, v + 1 ≤ u → u < v + 1 + n → k1.leaf r u = k.leaf r u := by
    intro u hu1 hu2
    rw [h1.leaf r sh u hr (hlow u (by omega) (by omega)), if_neg (by omega)]
  have hinj : ∀ u, v + 1 ≤ u → u < v + 1 + n → pte2pa (k.leaf r u) ≠ pte2pa (k.leaf r v) := by
    intro u hu1 hu2 he
    have := hs.inj u (hdom u (by omega) (by omega)) v (hdom v (by omega) (by omega)) he
    omega
  constructor
  case world =>
    have hd : sh1.dom \ Finset.Ico (v + 1) (v + 1 + n) = sh.dom \ Finset.Ico v (v + (n + 1)) := by
      ext u
      simp only [hsh, mem_sdiff, mem_Ico]
      constructor
      · rintro ⟨⟨hu, hu1⟩, hu2⟩
        exact ⟨hu, by omega⟩
      · rintro ⟨hu, hu1⟩
        exact ⟨⟨hu, by omega⟩, by omega⟩
    have := h2.world
    rw [update_idem, hd, hsh] at this
    exact this
  case leaf =>
    intro r' s u hs' hu
    have hex : ∃ s', update as r (some sh1) r' = some s' := by
      by_cases he : r' = r
      · subst he
        exact ⟨sh1, by simp⟩
      · exact ⟨s, by rwa [update_of_ne he]⟩
    obtain ⟨s', hs''⟩ := hex
    rw [h2.leaf r' s' u hs'' hu, h1.leaf r' s u hs' hu]
    by_cases hc : r' = r ∧ v + 1 ≤ u ∧ u < v + 1 + n
    · rw [if_pos hc, if_pos (by omega)]
    · rw [if_neg hc]
      by_cases hc' : r' = r ∧ v ≤ u ∧ u < v + 1
      · rw [if_pos hc', if_pos (by omega)]
      · rw [if_neg hc', if_neg (by omega)]
  case refIn =>
    intro u hu1 hu2
    by_cases huv : u = v
    · subst huv
      rw [h2.refOut, h1.refIn u le_rfl (by omega)]
      intro t ht1 ht2
      rw [hleaf1 t ht1 ht2]
      exact hinj t ht1 ht2
    have h3 := h2.refIn u (by omega) (by omega)
    rw [hleaf1 u (by omega) (by omega)] at h3
    rw [h3, h1.refOut]
    intro t ht1 ht2
    obtain rfl : t = v := by omega
    exact (hinj u (by omega) (by omega)).symm
  case refOut =>
    intro p hp
    rw [h2.refOut, h1.refOut]
    · intro u hu1 hu2
      exact hp u hu1 (by omega)
    · intro u hu1 hu2
      rw [hleaf1 u hu1 hu2]
      exact hp u (by omega) (by omega)
  case other =>
    intro p hp
    rw [h2.other p (by rwa [h1.other p hp]), h1.other p hp]
  case user =>
    intro p hp
    have hu1 := h1.user p hp
    have hle := h2.refcnt_le p
    by_cases hc : k1.refcnt p = 0
    · rw [if_pos hc] at hu1
      rw [h2.other p (by simp [hu1]), hu1, if_pos (by omega)]
    · rw [if_neg hc] at hu1
      exact h2.user p hu1
  case mem =>
    intro p hf htab
    have hf1 : role1 p ≠ .free := by
      intro hc
      rw [h2.other p (by simp [hc])] at hf
      exact hf hc
    have htab1 : ∀ path, role1 p ≠ .table r path := by
      intro path hc
      by_cases hu : role p = .user
      · have := h1.user p hu
        rw [hc] at this
        split at this <;> cases this
      · rw [h1.other p hu] at hc
        exact htab path hc
    rw [h2.mem p hf htab1, h1.mem p hf1 htab]
  case created => exact h2.created.trans h1.created
  case touched => exact h2.touched.trans h1.touched
  case failed => exact h2.failed.trans h1.failed

theorem uvmunmapLoop_spec (n : Nat) : ∀ {k : Kmem} {role : Nat → Role} {as : Nat → Option Shape} {sh : Shape} {v : Nat},
    World L k role as → as r = some sh → (∀ u, v ≤ u → u < v + n → u ∈ sh.dom) →
      wp (uvmunmapLoop L r true n (v * pgsize)) (fun _ k' => ∃ role', Unmapped L as r v n sh k role k' role') E k := by
  induction n with
  | zero =>
    intro k role as sh v h hr _
    exact ⟨role, .zero h hr⟩
  | succ n ih =>
    intro k role as sh v h hr hdom
    have hv := hdom v le_rfl (by omega)
    have hs := h.space r sh hr
    have hV := hs.valid v hv
    have hva := page_lt_maxva (hs.dom_lt hv)
    obtain ⟨q, hq, hf, hpte⟩ := h.find_leaf hr (ne_zero_of_has hV)
    obtain ⟨hrange, hpos⟩ := h.range_user (hs.user v hv)
    have h1 := h.unmap_drop hr hv hq
    simp only [uvmunmapLoop, wp_bind, wp_walk_false hva, hf, wp_get, hpte, hV, Bool.true_eq_false, if_false,
      if_neg (flags_ne_of_readable (hs.readable v hv)), if_true, wp_kfree hrange hpos, setPte, wp_modify]
    rw [show v * pgsize + pgsize = (v + 1) * pgsize by ring]
    refine wp_post (ih h1.world (update_self r _ as) fun u hu1 hu2 => ?_) ?_
    · simp only [mem_sdiff, mem_Ico]
      exact ⟨hdom u (by omega) (by omega), by omega⟩
    · rintro _ k' ⟨role', h2⟩
      exact ⟨role', .cons h hr hdom rfl h1 h2⟩

theorem uvmunmap_spec {n} (h : World L k role as) (hr : as r = some sh)
    (hdom : ∀ u, v ≤ u → u < v + n → u ∈ sh.dom) :
    wp (uvmunmap L r (v * pgsize) n true) (fun _ k' => ∃ role', Unmapped L as r v n sh k role k' role') E k := by
  rw [uvmunmap, if_neg (by simp)]
  exact uvmunmapLoop_spec n h hr hdom

end Xv6.Vm
