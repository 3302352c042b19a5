import Xv6.Vm.Lemmas.Map
import Xv6.Vm.Copy

/-!
# `cowfault` の仕様
-/

namespace Xv6.Vm

open Xv6.Lib

variable {L : Layout} {k k' k'' : Kmem} {role role' role'' : Nat → Role} {as : Nat → Option Shape}
variable {p q r v w va : Nat} {sh : Shape} {E : String → Prop}

def Kmem.byte (k : Kmem) (r v i : Nat) : UInt8 := k.mem (pte2pa (k.leaf r v)) i

def SeenEq (k k' : Kmem) (r v : Nat) : Prop :=
  has (k'.leaf r v) pteU = has (k.leaf r v) pteU ∧ ∀ i < pgsize, k'.byte r v i = k.byte r v i

/-- `X` でないアドレス空間から見た中身は変わらず、カーネルの持つページは持たれたままである。 -/
structure Frame (X : Nat → Prop) (k k' : Kmem) (role role' : Nat → Role) (as : Nat → Option Shape) : Prop where
  seen : ∀ r s v, ¬X r → as r = some s → v ∈ s.dom → SeenEq k k' r v
  held : ∀ p, role p = .held → role' p = .held
  failed : k.failed ≤ k'.failed

theorem SeenEq.trans (h : SeenEq k k' r v) (h' : SeenEq k' k'' r v) : SeenEq k k'' r v :=
  ⟨h'.1.trans h.1, fun i hi => (h'.2 i hi).trans (h.2 i hi)⟩

theorem Frame.refl (X : Nat → Prop) (k : Kmem) (role : Nat → Role) (as : Nat → Option Shape) :
    Frame X k k role role as where
  seen _ _ _ _ _ _ := ⟨rfl, fun _ _ => rfl⟩
  held _ hp := hp
  failed := le_rfl

theorem Frame.trans {X} (h : Frame X k k' role role' as) (h' : Frame X k' k'' role' role'' as) :
    Frame X k k'' role role'' as where
  seen r s v hX hs hv := (h.seen r s v hX hs hv).trans (h'.seen r s v hX hs hv)
  held p hp := h'.held p (h.held p hp)
  failed := h.failed.trans h'.failed

theorem Frame.mono {X Y} (h : Frame X k k' role role' as) (hXY : ∀ r, X r → Y r) :
    Frame Y k k' role role' as where
  __ := h
  seen r s v hY := h.seen r s v fun hX => hY (hXY r hX)

section

variable (h : World L k role as) (hr : as r = some sh)
include h hr

/-- 末端の表が無ければ PTE は 0 と読み、有れば `walk` が見つける。 -/
theorem World.find_access (va : Nat) :
    k.find va 2 r = none ∧ k.leaf r (va / pgsize) = 0 ∨
      ∃ q, k.find va 2 r = some (q, px 0 va) ∧ k.pte q (px 0 va) = k.leaf r (va / pgsize) ∧
        role q = .table r [px 2 va, px 1 va] := by
  have hf := Typed.find_page k va 2 r
  cases hc : k.find va 2 r with
  | none =>
    refine .inl ⟨rfl, ?_⟩
    rw [Kmem.leaf, hf, hc]
  | some x =>
    obtain ⟨q, i⟩ := x
    obtain ⟨hq, rfl⟩ := (h.toTyped.find_iff (h.roots r sh hr)).mp hc
    refine .inr ⟨q, rfl, ?_, hq⟩
    rw [Kmem.leaf, hf, hc]

theorem wp_walkaddr {Q} :
    wp (walkaddr r va) Q E k ↔ Q ((k.access r va pteU).getD 0) k := by
  by_cases hva : va < maxva
  · have hge : ¬va ≥ maxva := by omega
    simp only [walkaddr, if_neg hge, wp_bind, wp_walk_false hva, Kmem.access]
    rcases h.find_access hr va with ⟨hf, hl⟩ | ⟨q, hf, hpte, _⟩
    · simp [hf, hl, has_zero]
    · simp only [hf, wp_bind, wp_get, hpte, hva, true_and]
      cases hV : has (k.leaf r (va / pgsize)) pteV <;> cases hU : has (k.leaf r (va / pgsize)) pteU <;> simp
  · simp only [walkaddr, if_pos (Nat.le_of_not_lt hva), wp_pure, Kmem.access, hva, false_and, if_false, Option.getD_none]

theorem World.mem_dom (hv : v < 2 ^ 26) (hU : has (k.leaf r v) pteU) :
    v ∈ sh.dom := by
  have hs := h.space r sh hr
  have hbit : ∀ x f, f < 16 → has (x * 1024 + f) pteU = false := by
    intro x f hf
    rw [show pteU = 2 ^ 4 from rfl, has_add (by decide), has_two_pow]
    exact Nat.testBit_lt_two_pow hf
  by_contra hn
  obtain rfl | rfl := hs.top_of_ne_zero hv hn (ne_zero_of_has hU)
  · rw [hs.trapframe] at hU
    split at hU
    · rw [has_zero] at hU
      cases hU
    · rw [hbit _ 7 (by decide)] at hU
      cases hU
  rw [hs.tramp] at hU
  split at hU
  · rw [hbit _ 11 (by decide)] at hU
    cases hU
  · rw [has_zero] at hU
    cases hU

end

def Kmem.cowPage (k : Kmem) (r v q : Nat) (rest : List Nat) : Kmem :=
  ((k.take q rest).blit q 0 ((k.take q rest).mem (pte2pa (k.leaf r v))) 0 pgsize).note r v (k.created r v) true

/-- `cowfault` が仮想ページ `v` を新しいページ `q` に写し直した。 -/
structure Cowed (L : Layout) (as : Nat → Option Shape) (r v q : Nat) (k : Kmem) (role : Nat → Role) (k' : Kmem)
    (role' : Nat → Role) : Prop where
  world : World L k' role' as
  leaf : ∀ r' s u, as r' = some s → u < 2 ^ 26 →
    k'.leaf r' u = if r' = r ∧ u = v then q * 1024 + 31 else k.leaf r' u
  refcnt : k'.refcnt q = 1
  page : ∀ i < pgsize, k'.mem q i = k.byte r v i
  mem : ∀ p, p ≠ q → role' p = .user ∨ role' p = .held → k'.mem p = k.mem p
  held : ∀ p, role p = .held → role' p = .held
  created : k'.created = k.created
  failed : k'.failed = k.failed

/-- 物理ページの側から見た `cowfault`。新しいページ `q` が、仮想ページ `v` の指していたページに代わる。 -/
structure Swapped (r v q : Nat) (k : Kmem) (role : Nat → Role) (k' : Kmem) (role' : Nat → Role) : Prop where
  free : role q = .free
  roles : ∀ p, p ≠ q → p ≠ pte2pa (k.leaf r v) → role' p = role p
  refcnt : ∀ p, p ≠ q → p ≠ pte2pa (k.leaf r v) → k'.refcnt p = k.refcnt p
  mem : ∀ p, p ≠ q → p ≠ pte2pa (k.leaf r v) → (∀ path, role p ≠ .table r path) → k'.mem p = k.mem p
  freed : k.refcnt (pte2pa (k.leaf r v)) ≤ 1 → role' (pte2pa (k.leaf r v)) = .free

theorem World.cowPage (h : World L k role as) (hr : as r = some sh) {rest} (hk : k.freelist = q :: rest) :
    World L (k.cowPage r v q rest) (update role q .user) as := by
  have h1 := (h.take hk).setPage (p := q) (by simp)
    (blit ((k.take q rest).mem q) 0 ((k.take q rest).mem (pte2pa (k.leaf r v))) 0 pgsize)
  have h2 := h1.note (v := v) (c := k.created r v) (t := true) hr fun _ => ⟨rfl, rfl⟩
  have h3 := h2.share (p := q) (update_self q _ role)
  rwa [update_idem] at h3

theorem Kmem.cowPage_mem {rest} (hp : p ≠ q) : (k.cowPage r v q rest).mem p = k.mem p := by
  simp [Kmem.cowPage, Kmem.note, Kmem.blit, Kmem.setPage, Kmem.take, hp]

theorem Kmem.cowPage_page {rest} (hp : pte2pa (k.leaf r v) ≠ q) {i} (hi : i < pgsize) :
    (k.cowPage r v q rest).mem q i = k.byte r v i := by
  simp [Kmem.cowPage, Kmem.note, Kmem.blit, Kmem.setPage, Kmem.take, hp, Lib.blit, hi, Kmem.byte]

section

variable (h : World L k role as) (hr : as r = some sh)
include h hr

theorem World.cow (hv : v ∈ sh.dom) {rest}
    (hk : k.freelist = q :: rest) {t} (ht : role t = .table r [px 2 (v * pgsize), px 1 (v * pgsize)]) :
    ∃ k' role', k' = ((k.cowPage r v q rest).setPte t (px 0 (v * pgsize)) (q * 1024 + 31)).drop (pte2pa (k.leaf r v)) ∧
      Cowed L as r v q k role k' role' ∧ Swapped r v q k role k' role' := by
  have hq : role q = .free := (h.free q).mp (by simp [hk])
  have hs := h.space r sh hr
  have hpu : role (pte2pa (k.leaf r v)) = .user := hs.user v hv
  have hpq : pte2pa (k.leaf r v) ≠ q := by
    intro he
    rw [he, hq] at hpu
    cases hpu
  have htq : t ≠ q := by
    rintro rfl
    rw [hq] at ht
    cases ht
  have h1 := h.cowPage (v := v) hr hk
  have hleaf1 : ∀ r' s u, as r' = some s → (k.cowPage r v q rest).leaf r' u = k.leaf r' u := by
    intro r' s u hr'
    exact h.toTyped.leaf_update h1.toTyped (by simp [hq]) (by simp) (fun _ hp => Kmem.cowPage_mem hp) (h.roots r' s hr') u
  have hqu : update role q .user q = .user := update_self ..
  have hw : q * 1024 + 31 < 2 ^ 64 := h1.toTyped.lt_two_pow (by simp) (by decide)
  have hpa : pte2pa (q * 1024 + 31) = q := pte2pa_add (by decide)
  have hbit : ∀ i < 10, has (q * 1024 + 31) (2 ^ i) = has 31 (2 ^ i) := fun i hi => has_add hi
  have hfree : ∀ x, ¬Maps (k.cowPage r v q rest) as q x := by
    rintro ⟨r', u⟩ ⟨s, hs', hu, he⟩
    rw [hleaf1 r' s u hs'] at he
    have := (h.space r' s hs').user u hu
    rw [he, hq] at this
    cases this
  have hone : (k.cowPage r v q rest).refcnt q = 1 := update_self ..
  have ht1 : update role q .user t = .table r [px 2 (v * pgsize), px 1 (v * pgsize)] := by
    rwa [update_of_ne htq]
  have hlow := hs.low v hv
  have hv26 : v < 2 ^ 26 := hlow.trans (by decide)
  have h2 := h1.remap (w := q * 1024 + 31) hr ht1 hv hw (hbit 0 (by decide)) (hbit 1 (by decide)) (by rw [hpa, hqu])
    (by rwa [hpa]) (by rw [hpa, hone]) (by
      rintro (hc | hc)
      · simp [Kmem.cowPage, Kmem.note] at hc
      · exact fun i h1 h4 _ => hc i h1 h4)
  have hne : v ∈ sh.dom → pte2pa (q * 1024 + 31) ≠ pte2pa ((k.cowPage r v q rest).leaf r v) := by
    rw [hpa, hleaf1 r sh v hr]
    exact fun _ => hpq.symm
  have hslack := h1.slack_setLeaf hr ht1 hv26 hw (fun u hu => .inr hu) hv hne
  rw [← hr, update_eq_self] at h2 hslack
  rw [hleaf1 r sh v hr] at hslack
  have hpu2 : update role q .user (pte2pa (k.leaf r v)) = .user := by
    rwa [update_of_ne hpq]
  have h3 := h2.drop hpu2 hslack
  refine ⟨_, _, rfl, ⟨h3, ?_, ?_, ?_, ?_, ?_, ?_, ?_⟩, hq, ?_, ?_, ?_, ?_⟩
  · intro r' s u hr' hu
    rw [h2.leaf_drop hpu2 (h2.roots r' s hr'), h1.toTyped.leaf_setLeaf ht1 hw hv26 hu (h1.roots r' s hr'),
      hleaf1 r' s u hr']
  · rw [Kmem.drop_refcnt, if_neg hpq.symm]
    exact hone
  · intro i hi
    rw [Kmem.drop_mem hpq.symm, Kmem.setPte_mem htq.symm]
    exact Kmem.cowPage_page hpq hi
  · intro p hp hrole
    rw [dropRole_apply] at hrole
    split at hrole
    · simp at hrole
    rename_i hc
    have hpt : p ≠ t := by
      rintro rfl
      rw [ht1] at hrole
      simp at hrole
    have hsame : ((k.cowPage r v q rest).setPte t (px 0 (v * pgsize)) (q * 1024 + 31)).mem p = k.mem p := by
      rw [Kmem.setPte_mem hpt, Kmem.cowPage_mem hp]
    by_cases he : p = pte2pa (k.leaf r v)
    · rw [Kmem.drop_unref (by omega)]
      exact hsame
    · rw [Kmem.drop_mem he, hsame]
  · intro p hp
    rw [dropRole_apply, if_neg, update_of_ne]
    · exact hp
    · rintro rfl
      rw [hq] at hp
      cases hp
    · rintro ⟨rfl, _⟩
      rw [hpu] at hp
      cases hp
  · rw [(Kmem.drop_same _ _).1]
    funext r' u
    simp only [Kmem.setPte_created, Kmem.cowPage, Kmem.note]
    by_cases hc : r' = r
    · subst hc
      rw [update_self]
      by_cases hu : u = v
      · subst hu
        rw [update_self]
      · rw [update_of_ne hu]
        rfl
    · rw [update_of_ne hc]
      rfl
  · rw [(Kmem.drop_same _ _).2.2]
    rfl
  · intro p hp hold
    rw [dropRole_apply, if_neg fun hc => hold hc.1, update_of_ne hp]
  · intro p hp hold
    rw [Kmem.drop_refcnt, if_neg hold]
    simp [Kmem.cowPage, Kmem.note, Kmem.blit, Kmem.take, hp]
  · intro p hp hold htab
    have hpt : p ≠ t := fun hc => htab _ (hc ▸ ht)
    rw [Kmem.drop_mem hold, Kmem.setPte_mem hpt, Kmem.cowPage_mem hp]
  · intro hle
    have hcnt : ((k.cowPage r v q rest).setPte t (px 0 (v * pgsize)) (q * 1024 + 31)).refcnt (pte2pa (k.leaf r v)) ≤ 1 := by
      simpa [Kmem.cowPage, Kmem.note, Kmem.blit, Kmem.take, hpq] using hle
    rw [dropRole_apply, if_pos ⟨rfl, hcnt⟩]

/-- ページを写しても、どの空間から見える中身も変わらない。 -/
theorem Cowed.seen (hv : v ∈ sh.dom) (hU : has (k.leaf r v) pteU)
    (hc : Cowed L as r v q k role k' role') {r' u s} (hs : as r' = some s) (hu : u ∈ s.dom) :
    SeenEq k k' r' u := by
  have hu26 := h.dom_lt hs hu
  by_cases he : r' = r ∧ u = v
  · obtain ⟨rfl, rfl⟩ := he
    have hl : k'.leaf r' u = q * 1024 + 31 := by rw [hc.leaf r' s u hs hu26, if_pos ⟨rfl, rfl⟩]
    refine ⟨?_, fun i hi => ?_⟩
    · rw [hl, hU]
      exact has_add (i := 4) (by decide)
    · rw [Kmem.byte, hl, pte2pa_add (by decide)]
      exact hc.page i hi
  have hl : k'.leaf r' u = k.leaf r' u := by rw [hc.leaf r' s u hs hu26, if_neg he]
  refine ⟨by rw [hl], fun i _ => ?_⟩
  have hne : pte2pa (k'.leaf r' u) ≠ q := by
    intro hq
    -- `q` を指す写像は `(r, v)` だけである。
    have h1 : Maps k' as q (r', u) := ⟨s, hs, hu, hq⟩
    have h2 : Maps k' as q (r, v) := by
      refine ⟨sh, hr, hv, ?_⟩
      rw [hc.leaf r sh v hr (h.dom_lt hr hv), if_pos ⟨rfl, rfl⟩, pte2pa_add (by decide)]
    have hone := hc.world.count q
    rw [hc.refcnt] at hone
    have := hone.unique h1 h2
    simp only [Prod.mk.injEq] at this
    exact he this
  have hm := hc.mem _ hne (.inl ((hc.world.space r' s hs).user u hu))
  rw [Kmem.byte, Kmem.byte, hm, hl]

theorem cowfault_swap (va : Nat) :
    wp (cowfault L r va) (fun res k' =>
      (res = -1 ∧ (k' = k ∧ k.access r va pteU = none ∨ k' = { k with failed := k.failed + 1 })) ∨
      (res = 0 ∧ va < maxva ∧ has (k.leaf r (va / pgsize)) pteU ∧ va / pgsize ∈ sh.dom ∧
        ∃ q role', Cowed L as r (va / pgsize) q k role k' role' ∧ Swapped r (va / pgsize) q k role k' role')) E k := by
  by_cases hva : va < maxva
  case neg =>
    simp only [cowfault, if_pos (Nat.le_of_not_lt hva)]
    exact .inl ⟨rfl, .inl ⟨rfl, by simp [Kmem.access, hva]⟩⟩
  have hge : ¬va ≥ maxva := by omega
  simp only [cowfault, if_neg hge, wp_bind, wp_walk_false hva]
  rcases h.find_access hr va with ⟨hf, hl⟩ | ⟨t, hf, hpte, ht⟩
  · rw [hf]
    exact .inl ⟨rfl, .inl ⟨rfl, by simp [Kmem.access, hl, has_zero]⟩⟩
  simp only [hf, wp_bind, wp_get, hpte, wp_ite]
  refine ⟨fun hc => .inl ⟨rfl, .inl ⟨rfl, ?_⟩⟩, fun hc => ?_⟩
  · rw [Kmem.access, if_neg]
    rcases hc with hc | hc <;> simp [hc]
  have hU : has (k.leaf r (va / pgsize)) pteU := by simpa using fun hn => hc (.inl hn)
  have hv26 := div_lt_of_lt_maxva hva
  have hmem := h.mem_dom hr hv26 hU
  refine wp_kalloc h (fun _ => .inl ⟨rfl, .inr rfl⟩) fun q rest hk => ?_
  have hpx : ∀ l, px l (va / pgsize * pgsize) = px l va := fun l => px_div l va
  obtain ⟨k', role', hk', hcow⟩ := h.cow hr hmem hk (t := t) (by rw [hpx, hpx]; exact ht)
  rw [hpx] at hk'
  have hpu := (h.space r sh hr).user _ hmem
  have hpq : pte2pa (k.leaf r (va / pgsize)) ≠ q := by
    intro he
    rw [he, (h.free q).mp (by simp [hk])] at hpu
    cases hpu
  have hword : pa2pte q ||| pteU ||| pteV ||| pteW ||| pteX ||| pteR = q * 1024 + 31 := by
    rw [Nat.lor_assoc, Nat.lor_assoc, Nat.lor_assoc, Nat.lor_assoc]
    exact pa2pte_or (f := 31) (by decide)
  simp only [touch, setPte, wp_bind, wp_modify, hword]
  rw [wp_kfree (h.range_user hpu).1]
  · exact .inr ⟨rfl, hva, hU, hmem, q, role', hk' ▸ hcow⟩
  · change 1 ≤ update k.refcnt q 1 _
    rw [update_of_ne hpq]
    exact (h.range_user hpu).2

theorem cowfault_spec (va : Nat) :
    wp (cowfault L r va) (fun res k' =>
      (res = -1 ∧ (k' = k ∧ k.access r va pteU = none ∨ k' = { k with failed := k.failed + 1 })) ∨
      (res = 0 ∧ va < maxva ∧ has (k.leaf r (va / pgsize)) pteU ∧ va / pgsize ∈ sh.dom ∧
        ∃ q role', Cowed L as r (va / pgsize) q k role k' role')) E k := by
  refine wp_post (cowfault_swap h hr va) ?_
  rintro res k' (hfail | ⟨hres, hlt, hU, hmem, q, role', hc, _⟩)
  · exact .inl hfail
  · exact .inr ⟨hres, hlt, hU, hmem, q, role', hc⟩

end

end Xv6.Vm
