import Xv6.Vm.Lemmas.Walk

/-!
# ページ表の解放
-/

namespace Xv6.Vm

open Xv6.Lib List

variable {L : Layout} {k k' k'' : Kmem} {role role' : Nat → Role} {as : Nat → Option Shape}
variable {p q r v d pt : Nat} {path : List Nat} {E : String → Prop}

/-- `pt` を根とし、深さ `d` に収まる表の木。末端の写像はない。 -/
def Tree (L : Layout) (role : Nat → Role) (r : Nat) (k : Kmem) : Nat → List Nat → Nat → Prop
  | 0, _, _ => False
  | d + 1, path, pt => role pt = .table r path ∧ k.refcnt pt = 1 ∧ (L.kend ≤ pt ∧ pt < physpages) ∧
      ∀ i < 512, has (k.pte pt i) pteV → ∃ q, k.pte pt i = q * 1024 + pteV ∧ Tree L role r k d (path ++ [i]) q

def InTree (k : Kmem) : Nat → Nat → Nat → Prop
  | 0, _, _ => False
  | d + 1, pt, p => p = pt ∨ ∃ i < 512, has (k.pte pt i) pteV ∧ InTree k d (pte2pa (k.pte pt i)) p

theorem Tree.role_eq (h : Tree L role r k d path pt) : role pt = .table r path := by
  cases d with
  | zero => exact h.elim
  | succ d => exact h.1

theorem Tree.inTree_role (h : Tree L role r k d path pt) (hp : InTree k d pt p) :
    ∃ rest, role p = .table r (path ++ rest) := by
  induction d generalizing path pt with
  | zero => exact h.elim
  | succ d ih =>
    rcases hp with rfl | ⟨i, hi, hv, hp⟩
    · exact ⟨[], by rw [append_nil]; exact h.1⟩
    · obtain ⟨q, hq, ht⟩ := h.2.2.2 i hi hv
      rw [hq, pte2pa_link] at hp
      obtain ⟨rest, hrest⟩ := ih ht hp
      exact ⟨i :: rest, by rw [hrest, append_assoc, singleton_append]⟩

theorem Tree.congr (hk : ∀ p rest, role p = .table r (path ++ rest) → k'.mem p = k.mem p ∧ k'.refcnt p = k.refcnt p)
    (h : Tree L role r k d path pt) :
    Tree L role r k' d path pt ∧ ∀ p, InTree k' d pt p ↔ InTree k d pt p := by
  induction d generalizing path pt with
  | zero => exact h.elim
  | succ d ih =>
    obtain ⟨hrole, href, hrange, hch⟩ := h
    obtain ⟨hmem, hcnt⟩ := hk pt [] (by rwa [append_nil])
    have hpte : ∀ i, k'.pte pt i = k.pte pt i := Kmem.pte_congr hmem
    have hsub : ∀ i q, Tree L role r k d (path ++ [i]) q →
        Tree L role r k' d (path ++ [i]) q ∧ ∀ p, InTree k' d q p ↔ InTree k d q p := by
      intro i q hq
      refine ih (fun p rest hp => hk p (i :: rest) ?_) hq
      rw [hp, append_assoc, singleton_append]
    refine ⟨⟨hrole, by rw [hcnt, href], hrange, fun i hi hv => ?_⟩, fun p => ?_⟩
    · rw [hpte] at hv ⊢
      obtain ⟨q, hq, ht⟩ := hch i hi hv
      exact ⟨q, hq, (hsub i q ht).1⟩
    · simp only [InTree, hpte]
      refine or_congr Iff.rfl (exists_congr fun i => and_congr_right fun hi => and_congr_right fun hv => ?_)
      obtain ⟨q, hq, ht⟩ := hch i hi hv
      rw [hq, pte2pa_link]
      exact (hsub i q ht).2 p

structure Freed (S : Nat → Prop) (pt : Nat) (k k' : Kmem) : Prop where
  freelist : ∃ F : List Nat, F.Nodup ∧ (∀ p, p ∈ F ↔ S p) ∧ k'.freelist = F ++ k.freelist
  refIn : ∀ p, S p → k'.refcnt p = 0
  refOut : ∀ p, ¬S p → k'.refcnt p = k.refcnt p
  mem : ∀ p, ¬S p → p ≠ pt → k'.mem p = k.mem p
  created : k'.created = k.created
  touched : k'.touched = k.touched
  failed : k'.failed = k.failed

theorem Freed.trans {S S'} (h : Freed S pt k k') (h' : Freed S' pt k' k'')
    (hd : ∀ p, S p → ¬S' p) : Freed (fun p => S p ∨ S' p) pt k k'' where
  freelist := by
    obtain ⟨F, hn, hF, hl⟩ := h.freelist
    obtain ⟨F', hn', hF', hl'⟩ := h'.freelist
    refine ⟨F' ++ F, ?_, fun p => ?_, by rw [hl', hl, append_assoc]⟩
    · refine nodup_append.mpr ⟨hn', hn, fun a ha b hb he => ?_⟩
      subst he
      exact hd a ((hF a).mp hb) ((hF' a).mp ha)
    · rw [mem_append, hF, hF', or_comm]
  refIn p hp := by
    by_cases hs' : S' p
    · exact h'.refIn p hs'
    · rw [h'.refOut p hs', h.refIn p (hp.resolve_right hs')]
  refOut p hp := by
    rw [h'.refOut p fun hc => hp (.inr hc), h.refOut p fun hc => hp (.inl hc)]
  mem p hp hne := by
    rw [h'.mem p (fun hc => hp (.inr hc)) hne, h.mem p (fun hc => hp (.inl hc)) hne]
  created := h'.created.trans h.created
  touched := h'.touched.trans h.touched
  failed := h'.failed.trans h.failed

theorem Freed.none (k : Kmem) (pt : Nat) : Freed (fun _ => False) pt k k where
  freelist := ⟨[], nodup_nil, by simp, by simp⟩
  refIn _ hp := hp.elim
  refOut _ _ := rfl
  mem _ _ _ := rfl
  created := rfl
  touched := rfl
  failed := rfl

theorem Freed.iff {S S'} (h : Freed S pt k k') (hS : ∀ p, S' p ↔ S p) : Freed S' pt k k' := by
  obtain rfl : S' = S := funext fun p => propext (hS p)
  exact h

theorem Freed.push (k : Kmem) (pt : Nat) : Freed (fun p => p = pt) pt k (k.push pt) where
  freelist := ⟨[pt], by simp, by simp, rfl⟩
  refIn p hp := by
    subst hp
    simp [Kmem.push]
  refOut p hp := by simp [Kmem.push, hp]
  mem p hp _ := by simp [Kmem.push, hp]
  created := rfl
  touched := rfl
  failed := rfl

theorem freewalkLoop_spec (hf : ∀ {k : Kmem} {path : List Nat} {pt : Nat}, Tree L role r k d path pt →
      wp (freewalk L d pt) (fun _ k' => Freed (InTree k d pt) pt k k') E k)
    (hrole : role pt = .table r path) (n : Nat) : ∀ {i : Nat} {k : Kmem}, i + n = 512 →
      (∀ j, i ≤ j → j < 512 → has (k.pte pt j) pteV →
        ∃ q, k.pte pt j = q * 1024 + pteV ∧ Tree L role r k d (path ++ [j]) q) →
      wp (freewalkLoop (freewalk L d) pt n i) (fun _ k' => Freed (fun p => ∃ j, i ≤ j ∧ j < 512 ∧
        has (k.pte pt j) pteV ∧ InTree k d (pte2pa (k.pte pt j)) p) pt k k') E k := by
  induction n with
  | zero =>
    intro i k hi _
    refine (Freed.none k pt).iff fun p => iff_false_intro ?_
    rintro ⟨j, hj1, hj2, _⟩
    omega
  | succ n ih =>
    intro i k hi hch
    simp only [freewalkLoop, wp_bind, wp_get, wp_ite]
    refine ⟨fun hv => ?_, fun hv => ⟨fun hv' => ?_, fun hv' => ?_⟩⟩
    · obtain ⟨q, hq, ht⟩ := hch i le_rfl (by omega) hv.1
      have hptq : ∀ rest, role pt ≠ .table r (path ++ [i] ++ rest) := by
        intro rest hc
        rw [hrole] at hc
        obtain ⟨_, hc⟩ := Role.table.inj hc
        have := congrArg List.length hc
        simp at this
      rw [hq, pte2pa_link]
      refine wp_post (hf ht) fun _ k1 h1 => ?_
      simp only [setPte, wp_modify]
      have hS : ¬InTree k d q pt := fun hc => by
        obtain ⟨rest, hrest⟩ := ht.inTree_role hc
        exact hptq rest hrest
      have hqpt : pt ≠ q := by
        rintro rfl
        refine hptq [] ?_
        rw [append_nil]
        exact ht.role_eq
      have h2 : Freed (InTree k d q) pt k (k1.setPte pt i 0) := by
        refine ⟨h1.freelist, h1.refIn, h1.refOut, fun p hp hne => ?_, h1.created, h1.touched, h1.failed⟩
        rw [Kmem.setPte_mem hne]
        refine h1.mem p hp ?_
        rintro rfl
        refine hp ?_
        cases d with
        | zero => exact ht.elim
        | succ d => exact .inl rfl
      have hpte : ∀ j, i < j → (k1.setPte pt i 0).pte pt j = k.pte pt j := by
        intro j hj
        rw [Kmem.setPte_pte (by decide), if_neg (by omega), Kmem.pte_congr (h1.mem pt hS hqpt)]
      -- 残りの段の木は、返したページとも `pt` とも重ならない。
      have hkeep : ∀ j, i < j → ∀ p rest, role p = .table r (path ++ [j] ++ rest) →
          (k1.setPte pt i 0).mem p = k.mem p ∧ (k1.setPte pt i 0).refcnt p = k.refcnt p := by
        intro j hj p rest hp
        have hnot : ¬InTree k d q p := by
          intro hc
          obtain ⟨rest', hp'⟩ := ht.inTree_role hc
          rw [hp] at hp'
          obtain ⟨_, hp'⟩ := Role.table.inj hp'
          simp only [append_assoc, append_cancel_left_eq, singleton_append, List.cons.injEq] at hp'
          omega
        have hne : p ≠ pt := by
          rintro rfl
          rw [hrole] at hp
          obtain ⟨_, hp⟩ := Role.table.inj hp
          have := congrArg List.length hp
          simp at this
        exact ⟨h2.mem p hnot hne, h2.refOut p hnot⟩
      have hrest := ih (i := i + 1) (k := k1.setPte pt i 0) (by omega) (by
        intro j hj1 hj2 hvj
        rw [hpte j (by omega)] at hvj ⊢
        obtain ⟨qj, hqj, htj⟩ := hch j (by omega) hj2 hvj
        exact ⟨qj, hqj, (htj.congr (hkeep j (by omega))).1⟩)
      refine wp_post hrest fun _ k' h3 => ?_
      have hsame : ∀ p, (∃ j, i + 1 ≤ j ∧ j < 512 ∧ has ((k1.setPte pt i 0).pte pt j) pteV ∧
          InTree (k1.setPte pt i 0) d (pte2pa ((k1.setPte pt i 0).pte pt j)) p) ↔
          ∃ j, i + 1 ≤ j ∧ j < 512 ∧ has (k.pte pt j) pteV ∧ InTree k d (pte2pa (k.pte pt j)) p := by
        intro p
        refine exists_congr fun j => and_congr_right fun hj1 => and_congr_right fun hj2 => ?_
        rw [hpte j (by omega)]
        refine and_congr_right fun hvj => ?_
        obtain ⟨qj, hqj, htj⟩ := hch j (by omega) hj2 hvj
        rw [hqj, pte2pa_link]
        exact (htj.congr (hkeep j (by omega))).2 p
      refine (h2.trans (h3.iff fun p => (hsame p).symm) ?_).iff fun p => ?_
      · rintro p hp ⟨j, hj1, hj2, hvj, hpj⟩
        obtain ⟨qj, hqj, htj⟩ := hch j (by omega) hj2 hvj
        rw [hqj, pte2pa_link] at hpj
        obtain ⟨rest', hp'⟩ := htj.inTree_role hpj
        obtain ⟨rest, hp''⟩ := ht.inTree_role hp
        rw [hp''] at hp'
        obtain ⟨_, hp'⟩ := Role.table.inj hp'
        simp only [append_assoc, append_cancel_left_eq, singleton_append, List.cons.injEq] at hp'
        omega
      constructor
      · rintro ⟨j, hj1, hj2, hvj, hpj⟩
        by_cases hji : j = i
        · subst hji
          rw [hq, pte2pa_link] at hpj
          exact .inl hpj
        · exact .inr ⟨j, by omega, hj2, hvj, hpj⟩
      · rintro (hp | ⟨j, hj1, hj2, hvj, hpj⟩)
        · refine ⟨i, le_rfl, by omega, hv.1, ?_⟩
          rwa [hq, pte2pa_link]
        · exact ⟨j, by omega, hj2, hvj, hpj⟩
    · obtain ⟨q, hq, _⟩ := hch i le_rfl (by omega) hv'
      refine absurd ⟨hv', ?_⟩ hv
      rw [hq]
      exact has_link_leaf q
    refine wp_post (ih (by omega) fun j hj1 hj2 => hch j (by omega) hj2) fun _ k' h1 => h1.iff fun p => ?_
    constructor
    · rintro ⟨j, hj1, hj2, hvj, hpj⟩
      refine ⟨j, ?_, hj2, hvj, hpj⟩
      rcases Nat.eq_or_lt_of_le hj1 with rfl | hlt
      · exact absurd hvj hv'
      · exact hlt
    · rintro ⟨j, hj1, hj2, hvj, hpj⟩
      exact ⟨j, by omega, hj2, hvj, hpj⟩

theorem freewalk_spec (d : Nat) : ∀ {k : Kmem} {path : List Nat} {pt : Nat}, Tree L role r k d path pt →
    wp (freewalk L d pt) (fun _ k' => Freed (InTree k d pt) pt k k') E k := by
  induction d with
  | zero =>
    intro k path pt h
    exact h.elim
  | succ d ih =>
    intro k path pt h
    obtain ⟨hrole, href, hrange, hch⟩ := h
    simp only [freewalk, wp_bind]
    refine wp_post (freewalkLoop_spec ih hrole 512 rfl fun j _ hj => hch j hj) fun _ k1 h1 => ?_
    have hnot : ¬∃ j, 0 ≤ j ∧ j < 512 ∧ has (k.pte pt j) pteV ∧ InTree k d (pte2pa (k.pte pt j)) pt := by
      rintro ⟨j, _, hj, hv, hp⟩
      obtain ⟨q, hq, ht⟩ := hch j hj hv
      rw [hq, pte2pa_link] at hp
      obtain ⟨rest, hrest⟩ := ht.inTree_role hp
      rw [hrole] at hrest
      obtain ⟨_, hrest⟩ := Role.table.inj hrest
      have := congrArg List.length hrest
      simp at this
    have href1 : k1.refcnt pt = 1 := by rw [h1.refOut pt hnot, href]
    rw [wp_kfree hrange href1.ge, Kmem.drop_push href1.le]
    refine (h1.trans (Freed.push k1 pt) ?_).iff fun p => ?_
    · rintro p hp rfl
      exact hnot hp
    · simp only [InTree, Nat.zero_le, true_and]
      exact or_comm

section

variable (h : World L k role as) (hr : as r = some ⟨∅, false, none⟩)
include h hr

theorem World.leaf_empty (hv : v < 2 ^ 26) :
    k.leaf r v = 0 := by
  have hs := h.space r _ hr
  by_cases h1 : v < tfV
  · exact hs.empty v h1 (by simp)
  have h1' := hs.tramp
  have h2' := hs.trapframe
  obtain rfl | rfl : v = tfV ∨ v = trampV := by
    simp only [tfV, trampV] at h1 ⊢
    omega
  · exact h2'
  · exact h1'

theorem World.tree (d : Nat) :
    ∀ {path : List Nat} {pt : Nat}, role pt = .table r path → path.length + (d + 1) = 3 →
      Tree L role r k (d + 1) path pt := by
  induction d with
  | zero =>
    intro path pt hp hl
    refine ⟨hp, ?_, h.range pt (by simp [hp]), fun i hi hv => ?_⟩
    · have := h.counts pt
      rwa [hp] at this
    obtain ⟨a, b, rfl⟩ : ∃ a b, path = [a, b] := by
      match path, hl with
      | [a, b], _ => exact ⟨a, b, rfl⟩
    have ha := h.top pt r a [b] hp
    have hb : b < 512 := (h.parent pt r [a] b hp).1
    have hv26 : (a * 512 + b) * 512 + i < 2 ^ 26 := by omega
    have hpx : role pt = .table r [px 2 (((a * 512 + b) * 512 + i) * pgsize), px 1
        (((a * 512 + b) * 512 + i) * pgsize)] := by
      simp only [px_page]
      rw [hp, show ((a * 512 + b) * 512 + i) / 512 ^ 2 % 512 = a by omega,
        show ((a * 512 + b) * 512 + i) / 512 ^ 1 % 512 = b by omega]
    have h0 := h.toTyped.leaf_eq hpx
    rw [h.leaf_empty hr hv26, px_page, show ((a * 512 + b) * 512 + i) / 512 ^ 0 % 512 = i by omega] at h0
    rw [← h0, has_zero] at hv
    cases hv
  | succ d ih =>
    intro path pt hp hl
    refine ⟨hp, ?_, h.range pt (by simp [hp]), fun i hi hv => ?_⟩
    · have := h.counts pt
      rwa [hp] at this
    · obtain ⟨q, hq, hrole⟩ := h.child pt r path i hp (by omega) hi hv
      exact ⟨q, hq, ih hrole (by simp; omega)⟩

/-- 根から辿れる表は、`r` の表の全てである。 -/
theorem World.inTree_iff (p : Nat) :
    InTree k 3 r p ↔ ∃ path, role p = .table r path := by
  constructor
  · intro hp
    obtain ⟨rest, hrest⟩ := (h.tree hr 2 (h.roots r _ hr) rfl).inTree_role hp
    exact ⟨rest, hrest⟩
  have hstep : ∀ {d pt t i}, i < 512 → k.pte pt i = t * 1024 + pteV → InTree k d t p → InTree k (d + 1) pt p := by
    intro d pt t i hi hpte ht
    refine .inr ⟨i, hi, ?_, ?_⟩
    · rw [hpte]
      exact has_link t
    · rwa [hpte, pte2pa_link]
  rintro ⟨path, hp⟩
  have hdepth := h.depth p r path hp
  match path, hp, hdepth with
  | [], hp, _ => exact .inl (h.root p r hp)
  | [a], hp, _ =>
    obtain ⟨ha, t, ht, hpte⟩ := h.parent p r [] a hp
    rw [h.root t r ht] at hpte
    exact hstep ha hpte (.inl rfl)
  | [a, b], hp, _ =>
    obtain ⟨hb, t, ht, hpte⟩ := h.parent p r [a] b hp
    obtain ⟨ha, t', ht', hpte'⟩ := h.parent t r [] a ht
    rw [h.root t' r ht'] at hpte'
    exact hstep ha hpte' (hstep hb hpte (.inl rfl))

end

def unroot (role : Nat → Role) (r p : Nat) : Role :=
  match role p with
  | .table r' path => if r' = r then .free else .table r' path
  | ρ => ρ

theorem unroot_table (hp : role p = .table r path) : unroot role r p = .free := by
  simp [unroot, hp]

theorem unroot_other (hp : ∀ path, role p ≠ .table r path) : unroot role r p = role p := by
  unfold unroot
  split
  case h_1 r' path hrole =>
    rw [if_neg, hrole]
    rintro rfl
    exact hp path hrole
  case h_2 => rfl

section

variable (h : World L k role as) (hr : as r = some ⟨∅, false, none⟩)
include h hr

theorem World.freeRoot (hF : Freed (fun p => ∃ path, role p = .table r path) r k k') :
    World L k' (unroot role r) (update as r none) := by
  have hroot := h.roots r _ hr
  have htab : ∀ p r' path, unroot role r p = .table r' path → r' ≠ r ∧ role p = .table r' path ∧
      ¬∃ path, role p = .table r path := by
    intro p r' path hp
    by_cases hc : ∃ path, role p = .table r path
    · obtain ⟨path', hp'⟩ := hc
      rw [unroot_table hp'] at hp
      cases hp
    · rw [unroot_other fun path' hp' => hc ⟨path', hp'⟩] at hp
      refine ⟨?_, hp, hc⟩
      rintro rfl
      exact hc ⟨path, hp⟩
  have hback : ∀ p r' path, r' ≠ r → role p = .table r' path → unroot role r p = .table r' path := by
    intro p r' path hne hp
    rw [unroot_other, hp]
    intro path' hp'
    rw [hp] at hp'
    exact hne (Role.table.inj hp').1
  have hpte : ∀ p r' path, r' ≠ r → role p = .table r' path → ∀ i, k'.pte p i = k.pte p i := by
    intro p r' path hne hp i
    refine Kmem.pte_congr (hF.mem p ?_ ?_) i
    · rintro ⟨path', hp'⟩
      rw [hp] at hp'
      exact hne (Role.table.inj hp').1
    · rintro rfl
      rw [hroot] at hp
      exact hne (Role.table.inj hp).1.symm
  obtain ⟨F, hnd, hFmem, hlist⟩ := hF.freelist
  have hc : Counted L k' (unroot role r) := by
    constructor
    case free =>
      intro p
      rw [hlist, mem_append, hFmem, h.free]
      by_cases hc : ∃ path, role p = .table r path
      · obtain ⟨path, hp⟩ := hc
        simp [unroot_table hp, hp]
      · rw [unroot_other fun path hp => hc ⟨path, hp⟩]
        simp [hc]
    case nodup =>
      rw [hlist]
      refine nodup_append.mpr ⟨hnd, h.nodup, fun a ha b hb he => ?_⟩
      subst he
      obtain ⟨path, hp⟩ := (hFmem a).mp ha
      rw [h.free, hp] at hb
      cases hb
    case range =>
      intro p hp
      refine h.range p fun hc => hp ?_
      rw [unroot_other fun path hp' => by simp [hc] at hp', hc]
    case counts =>
      intro p
      by_cases hc : ∃ path, role p = .table r path
      · obtain ⟨path, hp⟩ := hc
        rw [unroot_table hp, hF.refIn p ⟨path, hp⟩]
        rfl
      · rw [unroot_other fun path hp => hc ⟨path, hp⟩, hF.refOut p hc]
        exact h.counts p
  have ht : Typed L k' (unroot role r) := by
    refine { hc with depth := ?_, top := ?_, root := ?_, child := ?_, parent := ?_ }
    · intro p r' path hp
      exact h.depth p r' path (htab p r' path hp).2.1
    · intro p r' a path hp
      exact h.top p r' a path (htab p r' _ hp).2.1
    · intro p r' hp
      exact h.root p r' (htab p r' _ hp).2.1
    · intro p r' path i hp hl hi hv
      obtain ⟨hne, hp, _⟩ := htab p r' path hp
      rw [hpte p r' path hne hp] at hv ⊢
      obtain ⟨q, hq, hrole⟩ := h.child p r' path i hp hl hi hv
      exact ⟨q, hq, hback q r' _ hne hrole⟩
    · intro q r' path i hq
      obtain ⟨hne, hq, _⟩ := htab q r' _ hq
      obtain ⟨hi, p, hp, hpt⟩ := h.parent q r' path i hq
      exact ⟨hi, p, hback p r' path hne hp, by rw [hpte p r' path hne hp, hpt]⟩
  have has : ∀ r' s, update as r none r' = some s → r' ≠ r ∧ as r' = some s := by
    intro r' s hs
    rcases update_eq hs with ⟨_, ⟨⟩⟩ | hs
    exact hs
  have hleaf : ∀ r' s u, r' ≠ r → as r' = some s → k'.leaf r' u = k.leaf r' u := by
    intro r' s u hne hs
    refine h.toTyped.leaf_congr ht (h.roots r' s hs) (fun q path => ?_) (fun q a b i hq _ => hpte q r' _ hne hq i) u
    exact ⟨fun hq => hback q r' path hne hq, fun hq => (htab q r' path hq).2.1⟩
  have huser : ∀ p x, Maps k as p x → ¬∃ path, role p = .table r path := by
    rintro p x hx ⟨path, hp⟩
    rw [h.user_of_maps hx] at hp
    cases hp
  have hmaps : ∀ p x, Maps k' (update as r none) p x → Maps k as p x := by
    rintro p x ⟨s, hs, hu, he⟩
    obtain ⟨hne, hs⟩ := has x.1 s hs
    rw [hleaf x.1 s x.2 hne hs] at he
    exact ⟨s, hs, hu, he⟩
  refine { ht with roots := ?_, owned := ?_, space := ?_, count := ?_, writable := ?_ }
  · intro r' s hs
    obtain ⟨hne, hs⟩ := has r' s hs
    exact hback r' r' [] hne (h.roots r' s hs)
  · intro p r' path hp
    obtain ⟨hne, hp, _⟩ := htab p r' path hp
    rw [update_of_ne hne]
    exact h.owned p r' path hp
  · intro r' s hs
    obtain ⟨hne, hs⟩ := has r' s hs
    rw [hF.created, hF.touched]
    have hsp := h.space r' s hs
    refine hsp.congr (fun u _ => hleaf r' s u hne hs) fun u hu => ?_
    rw [unroot_other, hsp.user u hu]
    intro path hp
    exact huser _ (r', u) ⟨s, hs, hu, rfl⟩ ⟨path, hp⟩
  · intro p
    by_cases hex : ∃ x, Maps k as p x
    · obtain ⟨x, hx⟩ := hex
      rw [hF.refOut p (huser p x hx)]
      exact (h.count p).mono (hmaps p) le_rfl
    · exact AtMost.of_empty fun x hx => hex ⟨x, hmaps p x hx⟩
  · intro r' s u hs hu hW
    obtain ⟨hne, hs⟩ := has r' s hs
    rw [hleaf r' s u hne hs] at hW ⊢
    rw [hF.refOut _ (huser _ (r', u) ⟨s, hs, hu, rfl⟩)]
    exact h.writable r' s u hs hu hW

theorem World.leaf_freeRoot
    (hF : Freed (fun p => ∃ path, role p = .table r path) r k k') {r' s} (hne : r' ≠ r)
    (hs : as r' = some s) (u : Nat) : k'.leaf r' u = k.leaf r' u := by
  have hnot : ∀ q path, role q = .table r' path → ∀ path', role q ≠ .table r path' := by
    intro q path hq path' hq'
    rw [hq] at hq'
    exact hne (Role.table.inj hq').1
  refine h.toTyped.leaf_congr (h.freeRoot hr hF).toTyped (h.roots r' s hs) (fun q path => ⟨fun hq => ?_, fun hq => ?_⟩)
    (fun q a b i hq _ => Kmem.pte_congr (hF.mem q ?_ ?_) i) u
  · rw [unroot_other (hnot q path hq), hq]
  · by_cases hc : ∃ path', role q = .table r path'
    · obtain ⟨path', hq'⟩ := hc
      rw [unroot_table hq'] at hq
      cases hq
    · rwa [unroot_other fun path' hq' => hc ⟨path', hq'⟩] at hq
  · rintro ⟨path', hq'⟩
    exact hnot q _ hq path' hq'
  · rintro rfl
    exact hnot q _ hq [] (h.roots q _ hr)

theorem freewalk_root :
    wp (freewalk L 3 r) (fun _ k' => World L k' (unroot role r) (update as r none) ∧
      Freed (fun p => ∃ path, role p = .table r path) r k k') E k := by
  refine wp_post (freewalk_spec 3 (h.tree hr 2 (h.roots r _ hr) rfl)) fun _ k' hF => ?_
  have hF' := hF.iff fun p => (h.inTree_iff hr p).symm
  exact ⟨h.freeRoot hr hF', hF'⟩

end

end Xv6.Vm
