import Xv6.Vm.Lemmas.Map
import Xv6.Vm.Lemmas.Freewalk
import Xv6.Vm.Proc

/-!
# ページ表を作る・返す
-/

namespace Xv6.Vm

open Xv6.Lib

variable {L : Layout} {k k' k'' : Kmem} {role role' role'' : Nat → Role} {as : Nat → Option Shape}
variable {p q r t v w va perm : Nat} {sh sh' : Shape} {E : String → Prop}

section

variable (h : Typed L k role)
include h

theorem Typed.missing_one (hq : role q = .table r [px 2 va]) :
    k.missing va 2 r = k.missing va 1 q := by
  obtain ⟨_, p, hp, hpte⟩ := h.parent q r [] _ hq
  rw [h.root p r hp] at hpte
  rw [Kmem.missing, hpte, if_pos (has_link q), pte2pa_link]

theorem Typed.missing_none (hq : role q = .table r [px 2 va, px 1 va]) :
    k.missing va 2 r = 0 := by
  obtain ⟨_, p, hp, hpte⟩ := h.parent q r [px 2 va] _ hq
  rw [h.missing_one hp, Kmem.missing, hpte, if_pos (has_link q)]
  rfl

theorem Typed.missing_leaf (hq : role q = .table r [px 2 va])
    (hn : ∀ p, role p ≠ .table r [px 2 va, px 1 va]) : k.missing va 2 r = 1 := by
  rw [h.missing_one hq, Kmem.missing, if_neg]
  intro hv
  obtain ⟨c, _, hc⟩ := h.child q r _ _ hq (by simp) (px_lt 1 va) hv
  exact hn c hc

theorem Typed.missing_both (hr : role r = .table r [])
    (hn : ∀ p, role p ≠ .table r [px 2 va]) : k.missing va 2 r = 2 := by
  rw [Kmem.missing, if_neg]
  intro hv
  obtain ⟨c, _, hc⟩ := h.child r r _ _ hr (by simp) (px_lt 2 va) hv
  exact hn c hc

end

theorem Kmem.missing_le (k : Kmem) (va l r : Nat) : k.missing va l r ≤ l := by
  induction l generalizing r with
  | zero => exact le_rfl
  | succ l ih =>
    rw [Kmem.missing]
    split
    · exact (ih _).trans (Nat.le_succ l)
    · exact le_rfl

theorem trampoline_eq : trampoline = trampV * pgsize := rfl

theorem trapframe_eq : trapframe = tfV * pgsize := rfl

section

variable (h : World L k role as) (hr : as r = some sh)
include h hr

theorem World.kend_lt : L.kend < physpages := by
  obtain ⟨h1, h2⟩ := h.range r (by simp [h.roots r sh hr])
  omega

theorem mapTramp_spec (hs : sh.tramp = false) :
    wp (mappages r trampoline pgsize L.trampoline (pteR ||| pteX)) (fun res k' => ∃ role',
      (res = -1 ∧ NotMapped L as r trampV k role k' role') ∨
      (res = 0 ∧ Mapped L as r trampV (L.trampoline * 1024 + 11) { sh with tramp := true } k role k' role')) E k := by
  have hsp := h.space r sh hr
  have h0 : k.leaf r trampV = 0 := by
    rw [hsp.tramp, hs]
    rfl
  rw [trampoline_eq]
  refine mappages_spec h hr (by decide) h0 (by decide) (L.below.trans (h.kend_lt hr)) ?_
  intro k1 role1 q h1 hext hleaf hq hw
  refine h1.setTop hr hq (.inl rfl) hw rfl (by simp [pteR, pteX, pteV]) ?_
  rw [if_neg (by decide), hleaf r sh tfV hr]
  exact hsp.trapframe

theorem mapTrapframe_spec (hs : sh.tf = none) (ht : t < physpages) :
    wp (mappages r trapframe pgsize t (pteR ||| pteW)) (fun res k' => ∃ role',
      (res = -1 ∧ NotMapped L as r tfV k role k' role') ∨
      (res = 0 ∧ Mapped L as r tfV (t * 1024 + 7) { sh with tf := some t } k role k' role')) E k := by
  have hsp := h.space r sh hr
  have h0 : k.leaf r tfV = 0 := by
    rw [hsp.trapframe, hs]
  rw [trapframe_eq]
  refine mappages_spec h hr (by decide) h0 (by decide) ht ?_
  intro k1 role1 q h1 hext hleaf hq hw
  refine h1.setTop hr hq (.inr rfl) hw rfl ?_ (by simp [pteR, pteW, pteV])
  rw [if_neg (by decide), hleaf r sh trampV hr]
  exact hsp.tramp

end

structure Cut (r v : Nat) (k k' : Kmem) (role : Nat → Role) (as : Nat → Option Shape) : Prop where
  leaf : ∀ r' s u, as r' = some s → u < 2 ^ 26 → k'.leaf r' u = if r' = r ∧ u = v then 0 else k.leaf r' u
  mem : ∀ p, (∀ path, role p ≠ .table r path) → k'.mem p = k.mem p
  refcnt : k'.refcnt = k.refcnt
  created : k'.created = k.created
  touched : k'.touched = k.touched
  failed : k'.failed = k.failed

theorem unmapTop_spec (h : World L k role as) (hr : as r = some sh) (hv : v = trampV ∨ v = tfV)
    (hleaf : k.leaf r v = t * 1024 + w) (hbits : has w pteV ∧ has w pteR) (hd : sh'.dom = sh.dom)
    (htramp : (if trampV = v then 0 else k.leaf r trampV) = if sh'.tramp then L.trampoline * 1024 + 11 else 0)
    (htf : (if tfV = v then 0 else k.leaf r tfV) = match sh'.tf with
      | none => 0
      | some t => t * 1024 + 7) :
    wp (uvmunmap L r (v * pgsize) 1 false) (fun _ k' => World L k' role (update as r (some sh')) ∧
      Cut r v k k' role as) E k := by
  have hv26 : v < 2 ^ 26 := by
    rcases hv with rfl | rfl <;> decide
  have hva := page_lt_maxva hv26
  have hV : has (k.leaf r v) pteV := by rw [hleaf, show pteV = 2 ^ 0 from rfl, has_add (by decide)]; exact hbits.1
  have hR : has (k.leaf r v) pteR := by rw [hleaf, show pteR = 2 ^ 1 from rfl, has_add (by decide)]; exact hbits.2
  obtain ⟨q, hq, hf, hpte⟩ := h.find_leaf hr (ne_zero_of_has hV)
  rw [uvmunmap, if_neg (by simp)]
  simp only [uvmunmapLoop, wp_bind, wp_walk_false hva, hf, wp_get, hpte, hV, Bool.true_eq_false, if_false,
    if_neg (flags_ne_of_readable hR), Bool.false_eq_true, setPte, wp_modify, wp_pure]
  refine ⟨h.setTop hr hq hv (by decide) hd htramp htf, fun r' s u hs hu => ?_, fun p htab => ?_, rfl, rfl, rfl, rfl⟩
  · exact h.toTyped.leaf_setLeaf hq (by decide) hv26 hu (h.roots r' s hs)
  · exact Kmem.setPte_mem fun he => htab _ (he ▸ hq)

theorem unmapTramp_spec {D tf} (h : World L k role as) (hr : as r = some ⟨D, true, tf⟩) :
    wp (uvmunmap L r trampoline 1 false) (fun _ k' => World L k' role (update as r (some ⟨D, false, tf⟩)) ∧
      Cut r trampV k k' role as) E k := by
  have hsp := h.space r _ hr
  rw [trampoline_eq]
  refine unmapTop_spec h hr (.inl rfl) hsp.tramp (by decide) rfl (by simp) ?_
  rw [if_neg (by decide)]
  exact hsp.trapframe

theorem unmapTrapframe_spec {D b} (h : World L k role as) (hr : as r = some ⟨D, b, some t⟩) :
    wp (uvmunmap L r trapframe 1 false) (fun _ k' => World L k' role (update as r (some ⟨D, b, none⟩)) ∧
      Cut r tfV k k' role as) E k := by
  have hsp := h.space r _ hr
  rw [trapframe_eq]
  refine unmapTop_spec h hr (.inr rfl) hsp.trapframe (by decide) rfl ?_ (by simp)
  rw [if_neg (by decide)]
  exact hsp.tramp

/-- 空きページの集合、参照の数、使われているページの中身、末端の PTE が変わっていない。 -/
structure Same (k k' : Kmem) (role role' : Nat → Role) (as : Nat → Option Shape) : Prop where
  roles : role' = role
  refcnt : ∀ p, k'.refcnt p = k.refcnt p
  mem : ∀ p, role p ≠ .free → k'.mem p = k.mem p
  leaf : ∀ r' s u, as r' = some s → u < 2 ^ 26 → k'.leaf r' u = k.leaf r' u
  created : k'.created = k.created
  touched : k'.touched = k.touched

theorem World.create (h : World L k role as) {rest} (hk : k.freelist = q :: rest) :
    let k1 := (k.take q rest).setPage q (fill ((k.take q rest).mem q) 0 pgsize)
    World L k1 (update role q (.table q [])) (update as q (some ⟨∅, false, none⟩)) ∧
      Ext q k k1 role (update role q (.table q [])) ∧ ∀ r' s u, as r' = some s → k1.leaf r' u = k.leaf r' u := by
  intro k1
  have hq : role q = .free := (h.free q).mp (by simp [hk])
  have h1 : World L k1 (update role q .held) as :=
    (h.take hk).setPage (p := q) (by simp) (fill ((k.take q rest).mem q) 0 pgsize)
  have hmem : ∀ p, p ≠ q → k1.mem p = k.mem p := by
    intro p hp
    simp [k1, Kmem.setPage, Kmem.take, hp]
  have hz : ∀ j < 512, k1.pte q j = 0 := by
    intro j hj
    refine Kmem.pte_zero (fun b hb => ?_) hj
    simp [k1, Kmem.setPage, fill, hb]
  have h2 := h1.newRoot (update_self ..) hz
  rw [update_idem] at h2
  refine ⟨h2, ⟨fun p => ?_, fun p hp => ?_, fun p hp _ => ?_, rfl, rfl⟩, fun r' s u hs => ?_⟩
  · by_cases he : p = q
    · subst he
      exact .inr ⟨hq, [], by simp⟩
    · exact .inl (update_of_ne he _ _)
  · have hne : p ≠ q := fun he => hp (he ▸ hq)
    simp [k1, Kmem.take, hne]
  · exact hmem p fun he => hp (he ▸ hq)
  · exact h.toTyped.leaf_update h1.toTyped (by simp [hq]) (by simp) hmem (h.roots r' s hs) u

theorem Ext.unroot_eq (h : Ext r k k' role role') (hn : ∀ p path, role p ≠ .table r path) : unroot role' r = role := by
  funext p
  rcases h.roles p with he | ⟨hf, path, hp⟩
  · rw [unroot_other, he]
    intro path
    rw [he]
    exact hn p path
  · rw [unroot_table hp, hf]

/-- 作りかけの表を返すと、元に戻る。 -/
theorem Ext.undo (h : World L k role as) (hn : ∀ p path, role p ≠ .table r path) (he : Ext r k k' role role')
    (hw : World L k' role' (update as r (some ⟨∅, false, none⟩)))
    (hl : ∀ r' s u, as r' = some s → u < 2 ^ 26 → k'.leaf r' u = k.leaf r' u) :
    wp (uvmfree L r 0) (fun _ k'' => World L k'' role as ∧ Same k k'' role role as ∧ k''.failed = k'.failed) E k' := by
  have hself : update as r (some ⟨∅, false, none⟩) r = some ⟨∅, false, none⟩ := update_self ..
  have hnone : as r = none := by
    cases hs : as r with
    | none => rfl
    | some s => exact absurd (h.roots r s hs) (hn r [])
  have has : update (update as r (some ⟨∅, false, none⟩)) r none = as := by
    rw [update_idem, ← hnone, update_eq_self]
  simp only [uvmfree, Nat.lt_irrefl, gt_iff_lt, if_false, wp_bind, wp_pure]
  refine wp_post (freewalk_root hw hself) ?_
  rintro _ k'' ⟨h2, hF⟩
  rw [he.unroot_eq hn, has] at h2
  have htab : ∀ p path, role' p = .table r path → role p = .free := by
    intro p path hp
    rcases he.roles p with heq | ⟨hf, _⟩
    · rw [heq] at hp
      exact absurd hp (hn p path)
    · exact hf
  refine ⟨h2, ⟨rfl, fun p => ?_, fun p hp => ?_, fun r' s u hs hu => ?_, ?_, ?_⟩, hF.failed⟩
  · by_cases hf : role p = .free
    · have h1 := h2.counts p
      have h0 := h.counts p
      rw [hf] at h1 h0
      exact h1.trans h0.symm
    · rw [hF.refOut p fun hc => hc.elim fun path hp => hf (htab p path hp), he.refcnt p hf]
  · have hS : ¬∃ path, role' p = .table r path := fun hc => hc.elim fun path hp' => hp (htab p path hp')
    have hpr : p ≠ r := by
      rintro rfl
      exact hS ⟨[], hw.roots p _ hself⟩
    rw [hF.mem p hS hpr, he.mem p hp (hn p)]
  · have hne : r' ≠ r := by
      rintro rfl
      rw [hnone] at hs
      cases hs
    have hs' : update as r (some ⟨∅, false, none⟩) r' = some s := by rwa [update_of_ne hne]
    rw [hw.leaf_freeRoot hself hF hne hs', hl r' s u hs hu]
  · exact hF.created.trans he.created
  · exact hF.touched.trans he.touched

structure NewSpace (L : Layout) (as : Nat → Option Shape) (t : Nat) (k : Kmem) (role : Nat → Role) (r : Nat) (k' : Kmem)
    (role' : Nat → Role) : Prop where
  was : role r = .free
  world : World L k' role' (update as r (some ⟨∅, true, some t⟩))
  ext : Ext r k k' role role'
  leaf : ∀ r' s u, as r' = some s → u < 2 ^ 26 → k'.leaf r' u = k.leaf r' u
  failed : k'.failed = k.failed
  length : k'.freelist.length + 3 = k.freelist.length
  tables : ∀ p path, role' p = .table r path → path = [] ∨ path = [255] ∨ path = [255, 511]

theorem procPagetable_spec (h : World L k role as) (ht : t < physpages) :
    wp (procPagetable L t) (fun res k' => ∃ role',
      (res = none ∧ World L k' role' as ∧ Same k k' role role' as ∧ k'.failed = k.failed + 1 ∧ k.freelist.length < 3) ∨
      (∃ r, res = some r ∧ NewSpace L as t k role r k' role')) E k := by
  simp only [procPagetable, uvmcreate, wp_bind]
  refine wp_kalloc h (fun hk => ?_) fun r rest hk => ?_
  · refine wp_pure.mpr ⟨role, .inl ⟨rfl, h.fail _, ⟨rfl, fun _ => rfl, fun _ _ => rfl, fun r' s u _ _ => ?_, rfl, rfl⟩,
      rfl, ?_⟩⟩
    · exact congrFun (congrFun (Kmem.leaf_congr rfl) r') u
    · rw [hk]
      decide
  have hr0 : role r = .free := (h.free r).mp (by simp [hk])
  have hn : ∀ p path, role p ≠ .table r path := by
    intro p path hp
    have := h.toTyped.root_role hp
    rw [hr0] at this
    cases this
  have hne : ∀ r' s, as r' = some s → r' ≠ r := by
    rintro r' s hs rfl
    exact hn r' [] (h.roots r' s hs)
  obtain ⟨h1, hext1, hlf1⟩ := h.create hk
  have hself : update as r (some ⟨∅, false, none⟩) r = some ⟨∅, false, none⟩ := update_self ..
  have hold : ∀ r' s, as r' = some s → update as r (some ⟨∅, false, none⟩) r' = some s := by
    intro r' s hs
    rwa [update_of_ne (hne r' s hs)]
  simp only [zeroPage, wp_bind, wp_modify, wp_pure]
  refine wp_post (mapTramp_spec h1 hself rfl) ?_
  rintro res k2 ⟨role2, ⟨rfl, hn2⟩ | ⟨rfl, hm2⟩⟩
  · rw [if_pos (by decide), wp_bind]
    refine wp_post (Ext.undo h hn (hext1.trans hn2.ext) hn2.world fun r' s u hs _ => ?_) ?_
    · rw [hn2.leaf r' s u (hold r' s hs), hlf1 r' s u hs]
    · rintro _ k3 ⟨hw3, hs3, hf3⟩
      refine ⟨role, .inl ⟨rfl, hw3, hs3, hf3.trans hn2.failed, ?_⟩⟩
      have h2 := hn2.length.trans_le (Kmem.missing_le _ _ _ _)
      rw [hk, List.length_cons]
      exact Nat.succ_lt_succ h2
  rw [if_neg (by decide), wp_bind]
  obtain ⟨q2, hq2⟩ := hm2.present
  refine wp_post (mapTrapframe_spec hm2.world (update_self ..) rfl ht) ?_
  rintro res k3 ⟨role3, ⟨rfl, hn3⟩ | ⟨rfl, hm3⟩⟩
  · -- 二つの写像は同じ表に入るので、ここでは表は足りている。
    have h0 : k2.missing (tfV * pgsize) 2 r = 0 := hm2.world.toTyped.missing_none hq2
    exact absurd hn3.length (by omega)
  rw [if_neg (by decide)]
  have hm0 : k2.missing (tfV * pgsize) 2 r = 0 := hm2.world.toTyped.missing_none hq2
  have hnone : ∀ p, update role r (.table r []) p ≠ .table r [px 2 (trampV * pgsize)] := by
    intro p hp
    rcases update_eq hp with ⟨_, ⟨⟩⟩ | ⟨_, hp⟩
    exact hn p _ hp
  have hm1 := h1.toTyped.missing_both (h1.roots r _ hself) hnone
  refine wp_pure.mpr ⟨role3, .inr ⟨r, rfl, hr0, ?_, (hext1.trans hm2.ext).trans hm3.ext, fun r' s u hs hu => ?_,
    hm3.failed.trans hm2.failed, ?_, fun p path hp => ?_⟩⟩
  · have := hm3.world
    rwa [update_idem, update_idem] at this
  · have hs' := hold r' s hs
    rw [hm3.leaf r' s u (by rwa [update_of_ne (hne r' s hs)]) hu, if_neg fun hc => hne r' s hs hc.1,
      hm2.leaf r' s u hs' hu, if_neg fun hc => hne r' s hs hc.1, hlf1 r' s u hs]
  · have h2 := hm2.length
    have h3 := hm3.length
    rw [hm1] at h2
    change k2.freelist.length + 2 = rest.length at h2
    rw [hk, List.length_cons]
    omega
  rcases hm3.added p with he3 | he3 | he3
  · rw [he3] at hp
    rcases hm2.added p with he2 | he2 | he2
    · rw [he2] at hp
      rcases update_eq hp with ⟨_, ⟨⟩⟩ | ⟨_, hp⟩
      exacts [.inl rfl, absurd hp (hn p path)]
    · rw [he2] at hp
      exact .inr (.inl (Role.table.inj hp).2.symm)
    · rw [he2] at hp
      exact .inr (.inr (Role.table.inj hp).2.symm)
  · rw [he3] at hp
    exact .inr (.inl (Role.table.inj hp).2.symm)
  · rw [he3] at hp
    exact .inr (.inr (Role.table.inj hp).2.symm)

structure Gone (L : Layout) (as : Nat → Option Shape) (r : Nat) (sh : Shape) (k : Kmem) (role : Nat → Role) (k' : Kmem)
    (role' : Nat → Role) : Prop where
  world : World L k' role' (update as r none)
  leaf : ∀ r' s u, r' ≠ r → as r' = some s → u < 2 ^ 26 → k'.leaf r' u = k.leaf r' u
  refIn : ∀ u ∈ sh.dom, k'.refcnt (pte2pa (k.leaf r u)) = k.refcnt (pte2pa (k.leaf r u)) - 1
  refOut : ∀ p, (∀ u ∈ sh.dom, pte2pa (k.leaf r u) ≠ p) → (∀ path, role p ≠ .table r path) →
    k'.refcnt p = k.refcnt p
  table : ∀ p path, role p = .table r path → role' p = .free
  user : ∀ p, role p = .user → role' p = if k'.refcnt p = 0 then .free else .user
  other : ∀ p, role p ≠ .user → (∀ path, role p ≠ .table r path) → role' p = role p
  mem : ∀ p, role' p ≠ .free → k'.mem p = k.mem p
  created : k'.created = k.created
  touched : k'.touched = k.touched
  failed : k'.failed = k.failed

theorem uvmfree_spec {sz} (h : World L k role as) (hr : as r = some ⟨Finset.range (npages sz), false, none⟩) :
    wp (uvmfree L r sz) (fun _ k' => ∃ role', Gone L as r ⟨Finset.range (npages sz), false, none⟩ k role k' role') E k := by
  have hun : wp (if sz > 0 then uvmunmap L r 0 (pgroundup sz / pgsize) true else pure ()) (fun _ k1 => ∃ role1,
      Unmapped L as r 0 (npages sz) ⟨Finset.range (npages sz), false, none⟩ k role k1 role1) E k := by
    rw [wp_ite]
    refine ⟨fun _ => ?_, fun hz => ?_⟩
    · have := uvmunmap_spec (E := E) (v := 0) (n := npages sz) h hr fun u _ hu =>
        Finset.mem_range.mpr (by omega)
      rwa [Nat.zero_mul] at this
    · have : npages sz = 0 := by
        simp only [npages, pgroundup, pgsize]
        omega
      rw [this] at hr ⊢
      exact ⟨role, .zero h hr⟩
  simp only [uvmfree, wp_bind]
  refine wp_post hun fun _ k1 ⟨role1, hu⟩ => ?_
  have hempty : Finset.range (npages sz) \ Finset.Ico 0 (0 + npages sz) = ∅ := by
    ext u
    simp only [Finset.mem_sdiff, Finset.mem_range, Finset.mem_Ico, Finset.notMem_empty, iff_false]
    omega
  have hw := hu.world
  simp only [hempty] at hw
  have hself : update as r (some ⟨∅, false, none⟩) r = some ⟨∅, false, none⟩ := update_self ..
  refine wp_post (freewalk_root hw hself) fun _ k2 ⟨h2, hF⟩ => ⟨unroot role1 r, ?_⟩
  rw [update_idem] at h2
  have htab1 : ∀ p path, role1 p = .table r path ↔ role p = .table r path := by
    intro p path
    by_cases hp : role p = .user
    · have := hu.user p hp
      rw [this, hp]
      split <;> simp
    · rw [hu.other p hp]
  have hnot : ∀ p, (∀ path, role p ≠ .table r path) → ¬∃ path, role1 p = .table r path :=
    fun p hp ⟨path, hc⟩ => hp path ((htab1 p path).mp hc)
  have hroot : role r = .table r [] := h.roots r _ hr
  constructor
  case world => exact h2
  case leaf =>
    intro r' s u hne hs hu26
    rw [hw.leaf_freeRoot hself hF hne (by rwa [update_of_ne hne]), hu.leaf r' s u hs hu26,
      if_neg fun hc => hne hc.1]
  case refIn =>
    intro u hmem
    have hrole := (h.space r _ hr).user u hmem
    rw [hF.refOut _ (hnot _ fun path hp => by simp [hrole] at hp), hu.refIn u (Nat.zero_le _)]
    have := Finset.mem_range.mp hmem
    omega
  case refOut =>
    intro p hp hp'
    rw [hF.refOut p (hnot p hp'), hu.refOut p fun u _ hu2 => hp u (Finset.mem_range.mpr (by omega))]
  case table =>
    intro p path hp
    exact unroot_table ((htab1 p path).mpr hp)
  case user =>
    intro p hp
    have hp' : ∀ path, role p ≠ .table r path := by simp [hp]
    rw [unroot_other fun path hc => hp' path ((htab1 p path).mp hc), hF.refOut p (hnot p hp')]
    exact hu.user p hp
  case other =>
    intro p hp hp'
    rw [unroot_other fun path hc => hp' path ((htab1 p path).mp hc), hu.other p hp]
  case mem =>
    intro p hp
    have hp' : ∀ path, role p ≠ .table r path := by
      intro path hc
      exact hp (unroot_table ((htab1 p path).mpr hc))
    rw [unroot_other fun path hc => hp' path ((htab1 p path).mp hc)] at hp
    have hpr : p ≠ r := by
      rintro rfl
      exact hp' [] hroot
    rw [hF.mem p (hnot p hp') hpr, hu.mem p hp hp']
  case created => exact hF.created.trans hu.created
  case touched => exact hF.touched.trans hu.touched
  case failed => exact hF.failed.trans hu.failed

theorem procFreepagetable_spec {sz} (h : World L k role as)
    (hr : as r = some ⟨Finset.range (npages sz), true, some t⟩) :
    wp (procFreepagetable L r sz) (fun _ k' => ∃ role',
      Gone L as r ⟨Finset.range (npages sz), true, some t⟩ k role k' role') E k := by
  simp only [procFreepagetable, wp_bind]
  refine wp_post (unmapTramp_spec h hr) ?_
  rintro _ k1 ⟨h1, c1⟩
  refine wp_post (unmapTrapframe_spec h1 (update_self ..)) ?_
  rintro _ k2 ⟨h2, c2⟩
  rw [update_idem] at h2
  refine wp_post (uvmfree_spec h2 (update_self ..)) ?_
  rintro _ k3 ⟨role3, g⟩
  refine ⟨role3, ?_⟩
  have hsp := h.space r _ hr
  have hleaf : ∀ r' s u, as r' = some s → u < 2 ^ 26 → r' ≠ r ∨ u < tfV → k2.leaf r' u = k.leaf r' u := by
    intro r' s u hs hu hc
    have hex : ∃ s', update as r (some ⟨Finset.range (npages sz), false, some t⟩) r' = some s' := by
      by_cases he : r' = r
      · subst he
        exact ⟨_, update_self ..⟩
      · exact ⟨s, by rwa [update_of_ne he]⟩
    obtain ⟨s', hs'⟩ := hex
    have hlt : tfV < trampV := by decide
    rw [c2.leaf r' s' u hs' hu, if_neg (by omega), c1.leaf r' s u hs hu, if_neg (by omega)]
  have hdom : ∀ u ∈ Finset.range (npages sz), k2.leaf r u = k.leaf r u := fun u hu =>
    hleaf r _ u hr (hsp.dom_lt hu) (.inr (hsp.low u hu))
  constructor
  case world =>
    have := g.world
    rwa [update_idem] at this
  case leaf =>
    intro r' s u hne hs hu
    rw [g.leaf r' s u hne (by rwa [update_of_ne hne]) hu, hleaf r' s u hs hu (.inl hne)]
  case refIn =>
    intro u hu
    have := g.refIn u hu
    rwa [hdom u hu, c2.refcnt, c1.refcnt] at this
  case refOut =>
    intro p hp hp'
    rw [g.refOut p (fun u hu => by rw [hdom u hu]; exact hp u hu) hp', c2.refcnt, c1.refcnt]
  case table => exact g.table
  case user => exact g.user
  case other => exact g.other
  case mem =>
    intro p hp
    have hp' : ∀ path, role p ≠ .table r path := fun path hc => hp (g.table p path hc)
    rw [g.mem p hp, c2.mem p hp', c1.mem p hp']
  case created => rw [g.created, c2.created, c1.created]
  case touched => rw [g.touched, c2.touched, c1.touched]
  case failed => rw [g.failed, c2.failed, c1.failed]

end Xv6.Vm
