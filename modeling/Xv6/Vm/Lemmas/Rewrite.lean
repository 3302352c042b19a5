import Xv6.Vm.Lemmas.Seen

/-!
# ユーザーのバイトの書き換え
-/

namespace Xv6.Vm

open Xv6.Lib

variable {L : Layout} {k k' k'' : Kmem} {role role' role'' role0 : Nat → Role} {as : Nat → Option Shape}
variable {p q r v : Nat} {sh : Shape} {E : String → Prop}

def Kmem.at (k : Kmem) (r a : Nat) : UInt8 := k.byte r (a / pgsize) (a % pgsize)

def Kmem.Covers (k : Kmem) (r va len : Nat) : Prop :=
  ∀ a, va ≤ a → a < va + len → a < maxva ∧ has (k.leaf r (a / pgsize)) pteV ∧ has (k.leaf r (a / pgsize)) pteU

def Mine (k : Kmem) (role : Nat → Role) (r : Nat) (D : Finset Nat) (p : Nat) : Prop :=
  role p = .free ∨ ∃ v ∈ D, pte2pa (k.leaf r v) = p

/-- アドレス空間 `r` のバイトを `val` のとおりに書き換えた。ほかは変わらない。 -/
structure Rewritten (L : Layout) (as : Nat → Option Shape) (r : Nat) (sh : Shape) (val : Nat → Option UInt8)
    (k : Kmem) (role : Nat → Role) (k' : Kmem) (role' : Nat → Role) : Prop where
  world : World L k' role' as
  mine : ∀ p, Mine k' role' r sh.dom p → Mine k role r sh.dom p
  kept : ∀ p, ¬Mine k role r sh.dom p → role' p = role p ∧ k'.refcnt p = k.refcnt p ∧
    ((∀ path, role p ≠ .table r path) → k'.mem p = k.mem p)
  leaf : ∀ r' s u, as r' = some s → u < 2 ^ 26 → r' ≠ r ∨ u ∉ sh.dom → k'.leaf r' u = k.leaf r' u
  seen : ∀ r' s u, as r' = some s → r' ≠ r → u ∈ s.dom → SeenEq k k' r' u
  user : ∀ u ∈ sh.dom, has (k'.leaf r u) pteU = has (k.leaf r u) pteU
  bytes : ∀ u ∈ sh.dom, ∀ i < pgsize, k'.byte r u i = (val (u * pgsize + i)).getD (k.byte r u i)
  spent : ∀ role0, (∀ p, Mine k role r sh.dom p → role0 p = .free) →
    Spent role0 r (· ∈ sh.dom) k role → Spent role0 r (· ∈ sh.dom) k' role'

namespace Rewritten

theorem refl (h : World L k role as) : Rewritten L as r sh (fun _ => none) k role k role where
  world := h
  mine _ hp := hp
  kept _ _ := ⟨rfl, rfl, fun _ => rfl⟩
  leaf _ _ _ _ _ _ := rfl
  seen _ _ _ _ _ _ := ⟨rfl, fun _ _ => rfl⟩
  user _ _ := rfl
  bytes _ _ _ _ := rfl
  spent _ _ hs := hs

theorem fail (h : World L k role as) (n : Nat) :
    Rewritten L as r sh (fun _ => none) k role { k with failed := n } role := by
  have hlf : Kmem.leaf { k with failed := n } = k.leaf := Kmem.leaf_congr rfl
  constructor
  case world => exact h.fail n
  case mine =>
    intro p hp
    rwa [Mine, hlf] at hp
  case kept => exact fun _ _ => ⟨rfl, rfl, fun _ => rfl⟩
  case leaf => exact fun r' s u _ _ _ => congrFun (congrFun hlf r') u
  case seen =>
    refine fun r' s u _ _ _ => ⟨by rw [hlf], fun _ _ => ?_⟩
    rw [Kmem.byte, Kmem.byte, hlf]
  case user => exact fun u _ => by rw [hlf]
  case bytes =>
    intro u _ i _
    rw [Kmem.byte, hlf]
    rfl
  case spent =>
    intro role0 _ hs p hp
    have := hs p hp
    rwa [← hlf] at this

/-- 同じ番地では、後の書き換えが勝つ。 -/
theorem trans {val val'} (h : Rewritten L as r sh val k role k' role')
    (h' : Rewritten L as r sh val' k' role' k'' role'') :
    Rewritten L as r sh (fun a => (val' a).or (val a)) k role k'' role'' where
  world := h'.world
  mine p hp := h.mine p (h'.mine p hp)
  kept p hp := by
    obtain ⟨h1, h2, h3⟩ := h.kept p hp
    obtain ⟨h1', h2', h3'⟩ := h'.kept p fun hc => hp (h.mine p hc)
    exact ⟨h1'.trans h1, h2'.trans h2, fun ht => (h3' (by rwa [h1])).trans (h3 ht)⟩
  leaf r' s u hs hu hc := (h'.leaf r' s u hs hu hc).trans (h.leaf r' s u hs hu hc)
  seen r' s u hs hne hu := (h.seen r' s u hs hne hu).trans (h'.seen r' s u hs hne hu)
  user u hu := (h'.user u hu).trans (h.user u hu)
  bytes u hu i hi := by
    rw [h'.bytes u hu i hi, h.bytes u hu i hi]
    cases val' (u * pgsize + i) <;> rfl
  spent role0 hm hs := h'.spent role0 (fun p hp => hm p (h.mine p hp)) (h.spent role0 hm hs)

theorem congr {val val'} (h : Rewritten L as r sh val k role k' role') (he : ∀ a, val' a = val a) :
    Rewritten L as r sh val' k role k' role' := by
  obtain rfl : val' = val := funext he
  exact h

theorem at_eq {val a} (h : Rewritten L as r sh val k role k' role')
    (ha : a / pgsize ∈ sh.dom) : k'.at r a = (val a).getD (k.at r a) := by
  rw [Kmem.at, h.bytes _ ha _ (Nat.mod_lt _ (by decide)), Nat.div_add_mod', Kmem.at]

theorem access_isSome {val} (h : World L k role as) (hr : as r = some sh)
    (hw : Rewritten L as r sh val k role k' role') (a : Nat) :
    (k'.access r a pteU).isSome = (k.access r a pteU).isSome := by
  have key : ∀ {k1 : Kmem} {role1 : Nat → Role}, World L k1 role1 as →
      ((k1.access r a pteU).isSome ↔ a / pgsize ∈ sh.dom ∧ has (k1.leaf r (a / pgsize)) pteU) := by
    intro k1 role1 h1
    rw [Option.isSome_iff_exists]
    constructor
    · rintro ⟨q, hq⟩
      obtain ⟨hd, _, hU, _⟩ := h1.access_some hr hq
      exact ⟨hd, hU⟩
    · rintro ⟨hd, hU⟩
      have hs := h1.space r sh hr
      have hlt := lt_maxva_of_div (hs.dom_lt hd)
      exact ⟨_, by rw [Kmem.access, if_pos ⟨hlt, hs.valid _ hd, hU, hU⟩]⟩
  rw [Bool.eq_iff_iff, key h, key hw.world]
  refine and_congr_right fun hd => ?_
  rw [hw.user _ hd]

end Rewritten

theorem Kmem.covers_iff {va len} :
    k.Covers r va len ↔ ∀ a, va ≤ a → a < va + len → (k.access r a pteU).isSome := by
  refine forall_congr' fun a => forall_congr' fun _ => forall_congr' fun _ => ?_
  rw [Kmem.access]
  split
  · rename_i hc
    simp [hc]
  · rename_i hc
    simp only [Option.isSome_none, Bool.false_eq_true, iff_false]
    exact fun h => hc ⟨h.1, h.2.1, h.2.2, h.2.2⟩

theorem Rewritten.covers {val} (h : World L k role as) (hr : as r = some sh)
    (hw : Rewritten L as r sh val k role k' role') (va len : Nat) : k'.Covers r va len ↔ k.Covers r va len := by
  rw [Kmem.covers_iff, Kmem.covers_iff]
  refine forall_congr' fun a => forall_congr' fun _ => forall_congr' fun _ => ?_
  rw [hw.access_isSome h hr a]

def written (dstva : Nat) (src : Bytes) (s n : Nat) (a : Nat) : Option UInt8 :=
  if dstva ≤ a ∧ a < dstva + n then some (src (s + (a - dstva))) else none

theorem written_zero (dstva : Nat) (src : Bytes) (s a : Nat) : written dstva src s 0 a = none := by
  rw [written, if_neg (by omega)]

theorem written_append (dstva : Nat) (src : Bytes) (s n m a : Nat) :
    written dstva src s (n + m) a = (written (dstva + n) src (s + n) m a).or (written dstva src s n a) := by
  simp only [written]
  by_cases h1 : dstva + n ≤ a ∧ a < dstva + n + m
  · rw [if_pos (by omega), if_pos h1, Option.some_or]
    congr 2
    omega
  · rw [if_neg h1, Option.none_or]
    by_cases h2 : dstva ≤ a ∧ a < dstva + n
    · rw [if_pos h2, if_pos (by omega)]
    · rw [if_neg h2, if_neg (by omega)]

theorem Cowed.rewritten (h : World L k role as) (hr : as r = some sh) (hv : v ∈ sh.dom) (hU : has (k.leaf r v) pteU)
    (hc : Cowed L as r v q k role k' role') (hs : Swapped r v q k role k' role') {off n} (s : Nat) (src : Bytes)
    (hn : off + n ≤ pgsize) :
    Rewritten L as r sh (written (v * pgsize + off) src s n) k role (k'.blit q off src s n) role' := by
  have hv26 := h.dom_lt hr hv
  have hleafv : k'.leaf r v = q * 1024 + 31 := by rw [hc.leaf r sh v hr hv26, if_pos ⟨rfl, rfl⟩]
  have hpa : pte2pa (k'.leaf r v) = q := by rw [hleafv, pte2pa_add (by decide)]
  have hone : k'.refcnt (pte2pa (k'.leaf r v)) = 1 := by rw [hpa, hc.refcnt]
  obtain ⟨hw, hf, _⟩ := hc.world.store hr hv hone off src s n
  rw [hpa] at hw hf
  have hqu : role' q = .user := by
    have := (hc.world.space r sh hr).user v hv
    rwa [hpa] at this
  -- 書いたページは表でないので、末端の PTE は変わらない。
  have hlf : ∀ r' s' u, as r' = some s' → (k'.blit q off src s n).leaf r' u = k'.leaf r' u := fun r' s' u hs' =>
    hc.world.toTyped.leaf_setPage (by simp [hqu]) _ (hc.world.roots r' s' hs') u
  have hleaf : ∀ r' s' u, as r' = some s' → u < 2 ^ 26 → ¬(r' = r ∧ u = v) →
      (k'.blit q off src s n).leaf r' u = k.leaf r' u := by
    intro r' s' u hs' hu hne
    rw [hlf r' s' u hs', hc.leaf r' s' u hs' hu, if_neg hne]
  have hold := (h.space r sh hr).user v hv
  have hother : ∀ u ∈ sh.dom, u ≠ v → pte2pa (k.leaf r u) ≠ q := by
    intro u hu hne he
    have := (h.space r sh hr).user u hu
    rw [he, hs.free] at this
    cases this
  constructor
  case world => exact hw
  case mine =>
    rintro p (hp | ⟨u, hu, hp⟩)
    · by_cases hpo : p = pte2pa (k.leaf r v)
      · exact .inr ⟨v, hv, hpo.symm⟩
      · by_cases hpq : p = q
        · rw [hpq]
          exact .inl hs.free
        · exact .inl (by rw [← hs.roles p hpq hpo, hp])
    by_cases huv : u = v
    · subst huv
      rw [hlf r sh u hr, hpa] at hp
      exact .inl (hp ▸ hs.free)
    · rw [hleaf r sh u hr (h.dom_lt hr hu) fun hc => huv hc.2] at hp
      exact .inr ⟨u, hu, hp⟩
  case kept =>
    intro p hp
    have hpq : p ≠ q := fun he => hp (.inl (he ▸ hs.free))
    have hpo : p ≠ pte2pa (k.leaf r v) := fun he => hp (.inr ⟨v, hv, he.symm⟩)
    refine ⟨hs.roles p hpq hpo, hs.refcnt p hpq hpo, fun ht => ?_⟩
    rw [Kmem.blit_mem_of_ne hpq, hs.mem p hpq hpo ht]
  case leaf =>
    intro r' s' u hs' hu hne
    refine hleaf r' s' u hs' hu ?_
    rintro ⟨rfl, rfl⟩
    exact hne.elim (fun h => h rfl) fun h => h hv
  case seen =>
    intro r' s' u hs' hne hu
    exact (hc.seen h hr hv hU hs' hu).trans (hf.seen r' s' u hne hs' hu)
  case user =>
    intro u hu
    rw [hlf r sh u hr]
    exact (hc.seen h hr hv hU hr hu).1
  case bytes =>
    intro u hu i hi
    rw [Kmem.byte, hlf r sh u hr]
    by_cases huv : u = v
    · subst huv
      rw [hpa, Kmem.blit_mem_self]
      by_cases hin : off ≤ i ∧ i < off + n
      · rw [blit_in hin.1 hin.2, written, if_pos (by omega), Option.getD_some]
        congr 1
        omega
      · rw [blit_out (by omega), written, if_neg (by omega), Option.getD_none]
        exact hc.page i hi
    have hne : pte2pa (k'.leaf r u) ≠ q := by
      rw [hc.leaf r sh u hr (h.dom_lt hr hu), if_neg fun hc => huv hc.2]
      exact hother u hu huv
    have hout : ¬(v * pgsize + off ≤ u * pgsize + i ∧ u * pgsize + i < v * pgsize + off + n) := by
      simp only [pgsize] at hi hn ⊢
      omega
    rw [Kmem.blit_mem_of_ne hne, written, if_neg hout, Option.getD_none]
    exact (hc.seen h hr hv hU hr hu).2 i hi
  case spent =>
    intro role0 hm hsp p hp
    by_cases hpq : p = q
    · subst hpq
      refine .inr (.inr ⟨v, hv, by rw [hlf r sh v hr, hpa], hc.refcnt⟩)
    rcases hsp p hp with hfree | ⟨path, ht⟩ | ⟨u, hu, rfl, hcnt⟩
    · have hpo : p ≠ pte2pa (k.leaf r v) := by
        rintro rfl
        rw [hold] at hfree
        cases hfree
      exact .inl ((hs.roles p hpq hpo).trans hfree)
    · have hpo : p ≠ pte2pa (k.leaf r v) := by
        rintro rfl
        rw [hold] at ht
        cases ht
      exact .inr (.inl ⟨path, (hs.roles p hpq hpo).trans ht⟩)
    by_cases huv : u = v
    · -- 元のページの参照は一つだけだったので、空きに戻る。
      subst huv
      exact .inl (hs.freed hcnt.le)
    · have hpo : pte2pa (k.leaf r u) ≠ pte2pa (k.leaf r v) := fun he =>
        huv ((h.space r sh hr).inj u hu v hv he)
      refine .inr (.inr ⟨u, hu, ?_, ?_⟩)
      · rw [hleaf r sh u hr (h.dom_lt hr hu) fun hc => huv hc.2]
      · exact (hs.refcnt _ hpq hpo).trans hcnt

theorem copyoutLoop_zero {src fuel a s} : copyoutLoop L r src fuel a s 0 = pure 0 := by cases fuel <;> rfl

theorem copyoutLoop_rewrites (hr : as r = some sh) (src : Bytes) (fuel : Nat) :
    ∀ (dstva s : Nat) {len : Nat} {k : Kmem} {role : Nat → Role}, World L k role as → len ≤ fuel →
      wp (copyoutLoop L r src fuel dstva s len) (fun res k' => ∃ role' m, m ≤ len ∧
        Rewritten L as r sh (written dstva src s m) k role k' role' ∧ k.Covers r dstva m ∧
        (res = 0 ∧ m = len ∧ k'.failed = k.failed ∨
          res = -1 ∧ (k.failed < k'.failed ∨ m < len ∧ k.access r (dstva + m) pteU = none ∧ k'.failed = k.failed))) E k := by
  induction fuel with
  | zero =>
    intro dstva s len k role h hlen
    refine ⟨role, 0, Nat.zero_le _, (Rewritten.refl h).congr (written_zero dstva src s), ?_, .inl ⟨rfl, by omega, rfl⟩⟩
    exact fun a h1 h2 => by omega
  | succ fuel ih =>
    intro dstva s len k role h hlen
    have hstart : Rewritten L as r sh (written dstva src s 0) k role k role :=
      (Rewritten.refl h).congr (written_zero dstva src s)
    have hcov0 : k.Covers r dstva 0 := fun a h1 h2 => by omega
    have hdown : pgrounddown dstva ≤ dstva := Nat.div_mul_le_self _ _
    simp only [copyoutLoop, wp_ite]
    refine ⟨fun h0 => ⟨role, 0, Nat.zero_le _, hstart, hcov0, .inl ⟨rfl, h0.symm, rfl⟩⟩, fun h0 =>
      ⟨fun hgt => ⟨role, 0, Nat.zero_le _, hstart, hcov0, .inr ⟨rfl, .inr ⟨by omega, ?_, rfl⟩⟩⟩, fun _ => ?_⟩⟩
    · rw [Kmem.access, if_neg]
      omega
    rw [wp_bind]
    refine wp_post (cowfault_swap h hr _) fun res k1 hres => ?_
    rcases hres with ⟨rfl, hk1⟩ | ⟨rfl, hlt, hU, hv, q, role1, hc, hsw⟩
    · simp only [show ((-1 : Int) < 0) by decide, if_true, wp_pure]
      rcases hk1 with ⟨rfl, ha⟩ | rfl
      · rw [access_pgrounddown] at ha
        exact ⟨role, 0, Nat.zero_le _, hstart, hcov0, .inr ⟨trivial, .inr ⟨by omega, ha, rfl⟩⟩⟩
      · exact ⟨role, 0, Nat.zero_le _, (Rewritten.fail h _).congr (written_zero dstva src s), hcov0,
          .inr ⟨trivial, .inl (Nat.lt_succ_self _)⟩⟩
    have hacc : k1.access r (pgrounddown dstva) pteU = some q := hc.access hr hlt (i := 4) (by decide)
    have hq0 := hc.world.access_ne_zero hr hacc
    simp only [show ¬((0 : Int) < 0) by decide, if_false, wp_bind]
    rw [wp_walkaddr hc.world hr, hacc]
    simp only [Option.getD_some, if_neg hq0, wp_bind, wp_modify]
    rw [pgrounddown_div] at hv hU hc hsw
    rw [sub_pgrounddown]
    obtain ⟨n, hn⟩ : ∃ n, n = min (pgsize - dstva % pgsize) len := ⟨_, rfl⟩
    rw [← hn]
    have hoff : dstva % pgsize + n ≤ pgsize := by
      have := Nat.mod_lt dstva (show 0 < pgsize by decide)
      omega
    have hstep := hc.rewritten h hr hv hU hsw s src hoff
    rw [Nat.div_add_mod' dstva pgsize] at hstep
    have hpos : 0 < n := by
      have := Nat.mod_lt dstva (show 0 < pgsize by decide)
      omega
    have hcov : k.Covers r dstva n := by
      intro a h1 h2
      have ha : a / pgsize = dstva / pgsize := by
        simp only [pgsize] at h2 hoff ⊢
        omega
      have hsp := h.space r sh hr
      rw [ha]
      exact ⟨lt_maxva_of_div (ha ▸ hsp.dom_lt hv), hsp.valid _ hv, hU⟩
    have hfailed : (k1.blit q (dstva % pgsize) src s n).failed = k.failed := hc.failed
    by_cases hend : n = len
    · -- 最後のページである。
      rw [show len - n = 0 by omega, copyoutLoop_zero]
      exact ⟨role1, n, by omega, hstep, hcov, .inl ⟨rfl, hend, hfailed⟩⟩
    rw [pgrounddown_next hn hend]
    refine wp_post (ih _ _ hstep.world (by omega)) ?_
    rintro res k' ⟨role', m, hm, hrw, hcov', hcase⟩
    have hall : k.Covers r dstva (n + m) := by
      rw [Kmem.covers_iff] at hcov hcov' ⊢
      intro a h1 h2
      by_cases hlo : a < dstva + n
      · exact hcov a h1 hlo
      · rw [← hstep.access_isSome h hr a]
        exact hcov' a (by omega) (by omega)
    refine ⟨role', n + m, by omega, (hstep.trans hrw).congr (written_append dstva src s n m), hall, ?_⟩
    rcases hcase with ⟨rfl, rfl, hf⟩ | ⟨rfl, hf | ⟨hm, hnone, hf⟩⟩
    · exact .inl ⟨rfl, by omega, hf.trans hfailed⟩
    · exact .inr ⟨rfl, .inl (hfailed ▸ hf)⟩
    · refine .inr ⟨rfl, .inr ⟨by omega, ?_, hf.trans hfailed⟩⟩
      have := hstep.access_isSome h hr (dstva + n + m)
      rw [hnone] at this
      rw [← Nat.add_assoc]
      exact Option.isNone_iff_eq_none.mp (by simpa using this.symm)

end Xv6.Vm
