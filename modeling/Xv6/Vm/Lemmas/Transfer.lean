import Xv6.Vm.Lemmas.Cow
import Xv6.Vm.Eager
import Mathlib.Tactic.IntervalCases

/-!
# ユーザー空間との転送の仕様
-/

namespace Xv6.Vm

open Xv6.Lib

variable {L : Layout} {k k' : Kmem} {role role' : Nat → Role} {as : Nat → Option Shape}
variable {q r v va : Nat} {sh : Shape} {E : String → Prop} {u : Eager.Proc} {D : Finset Nat}

/-- ページ表 `r` の仮想ページ `D` の中身が、仕様の機械のプロセス `u` の持つページと等しい。 -/
structure Pages (k : Kmem) (r : Nat) (D : Finset Nat) (u : Eager.Proc) : Prop where
  page : ∀ v ∈ D, ∃ pg, u.page v = some pg ∧ has pg.perm pteU = has (k.leaf r v) pteU ∧ has pg.perm pteR ∧
    ∀ i < pgsize, pg.data i = k.byte r v i
  absent : ∀ v ∉ D, u.page v = none

theorem Pages.congr (h : Pages k r D u) (hs : ∀ v ∈ D, SeenEq k k' r v) : Pages k' r D u where
  page v hv := by
    obtain ⟨pg, h1, h2, h3, h4⟩ := h.page v hv
    refine ⟨pg, h1, h2.trans (hs v hv).1.symm, h3, fun i hi => ?_⟩
    rw [h4 i hi, (hs v hv).2 i hi]
  absent := h.absent

theorem Kmem.blit_mem_self (k : Kmem) (p d : Nat) (src : Bytes) (s n : Nat) :
    (k.blit p d src s n).mem p = Lib.blit (k.mem p) d src s n := update_self ..

theorem Kmem.blit_mem_of_ne {p q d s n src} (h : q ≠ p) :
    (k.blit p d src s n).mem q = k.mem q := update_of_ne h ..

theorem Eager.Proc.write_page_of_ne {w d s n src} (h : w ≠ v) :
    (u.write v d src s n).page w = u.page w := update_of_ne h ..

/-- 共有していないページへの書き込みは、他の空間から見えない。 -/
theorem World.store (h : World L k role as) (hr : as r = some sh) (hv : v ∈ sh.dom)
    (hone : k.refcnt (pte2pa (k.leaf r v)) = 1) (d : Nat) (src : Bytes) (s n : Nat) :
    World L (k.blit (pte2pa (k.leaf r v)) d src s n) role as ∧
      Frame (· = r) k (k.blit (pte2pa (k.leaf r v)) d src s n) role role as ∧
      ∀ u, Pages k r sh.dom u → Pages (k.blit (pte2pa (k.leaf r v)) d src s n) r sh.dom (u.write v d src s n) := by
  have hu := (h.space r sh hr).user v hv
  have hnt : ∀ r' path, role (pte2pa (k.leaf r v)) ≠ .table r' path := by simp [hu]
  have hw := h.setPage hnt (blit (k.mem (pte2pa (k.leaf r v))) d src s n)
  have hleaf : ∀ r' s' w, as r' = some s' → (k.blit (pte2pa (k.leaf r v)) d src s n).leaf r' w = k.leaf r' w :=
    fun r' s' w hs' => h.toTyped.leaf_setPage hnt _ (h.roots r' s' hs') w
  -- 参照が一つなので、他の写像はこのページを指さない。
  have hother : ∀ r' s' w, as r' = some s' → w ∈ s'.dom → (r', w) ≠ (r, v) →
      SeenEq k (k.blit (pte2pa (k.leaf r v)) d src s n) r' w := by
    intro r' s' w hs' hw' hne
    have hp : pte2pa (k.leaf r' w) ≠ pte2pa (k.leaf r v) := by
      intro he
      have hcount := h.count (pte2pa (k.leaf r v))
      rw [hone] at hcount
      exact hne (hcount.unique ⟨s', hs', hw', he⟩ ⟨sh, hr, hv, rfl⟩)
    refine ⟨by rw [hleaf r' s' w hs'], fun i _ => ?_⟩
    rw [Kmem.byte, Kmem.byte, hleaf r' s' w hs', Kmem.blit_mem_of_ne hp]
  refine ⟨hw, ⟨?_, fun _ hp => hp, le_rfl⟩, ?_⟩
  · intro r' s' w hX hs' hw'
    exact hother r' s' w hs' hw' fun he => hX (congrArg Prod.fst he)
  intro u hp
  constructor
  case absent =>
    intro w hw'
    have hne : w ≠ v := fun he => hw' (he ▸ hv)
    rw [Eager.Proc.write_page_of_ne hne]
    exact hp.absent w hw'
  case page =>
    intro w hw'
    by_cases hwv : w = v
    · subst hwv
      obtain ⟨pg, h1, h2, h3, h4⟩ := hp.page w hw'
      refine ⟨{ pg with data := blit pg.data d src s n }, ?_, ?_, h3, fun i hi => ?_⟩
      · simp [Eager.Proc.write, h1]
      · rw [hleaf r sh w hr]
        exact h2
      · rw [Kmem.byte, hleaf r sh w hr, Kmem.blit_mem_self]
        simp only [blit]
        split
        · rfl
        · exact h4 i hi
    obtain ⟨pg, h1, h2, h3, h4⟩ := hp.page w hw'
    have hs := hother r sh w hr hw' (by simp [hwv])
    refine ⟨pg, ?_, h2.trans hs.1.symm, h3, fun i hi => ?_⟩
    · rw [Eager.Proc.write_page_of_ne hwv]
      exact h1
    · rw [h4 i hi, hs.2 i hi]

theorem Pages.access_none (h : World L k role as) (hr : as r = some sh) (hp : Pages k r sh.dom u)
    (ha : k.access r va pteU = none) : u.access va pteU = none := by
  rw [Eager.Proc.access]
  by_cases hv : va / pgsize ∈ sh.dom
  · obtain ⟨pg, h1, h2, _⟩ := hp.page _ hv
    have hs := h.space r sh hr
    have hlow := lt_maxva_of_div (hs.dom_lt hv)
    have hU : has (k.leaf r (va / pgsize)) pteU = false := by
      have hV := hs.valid _ hv
      rw [Kmem.access] at ha
      simpa [hlow, hV] using ha
    simp [h1, h2, hU]
  · simp [hp.absent _ hv]

theorem Eager.Proc.access_none (h : u.access va pteU = none) (f : Nat) : u.access va f = none := by
  rw [Eager.Proc.access, Option.filter_eq_none_iff] at h ⊢
  intro pg hpg hc
  rw [Bool.and_eq_true] at hc
  exact h pg hpg (by simp [hc.1])

theorem World.access_some (h : World L k role as) (hr : as r = some sh) {f}
    (ha : k.access r va f = some q) : va / pgsize ∈ sh.dom ∧ q = pte2pa (k.leaf r (va / pgsize)) ∧
      has (k.leaf r (va / pgsize)) pteU ∧ has (k.leaf r (va / pgsize)) f := by
  rw [Kmem.access] at ha
  split at ha
  case isFalse => cases ha
  case isTrue hc =>
    obtain ⟨hlt, _, hU, hf⟩ := hc
    cases ha
    exact ⟨h.mem_dom hr (div_lt_of_lt_maxva hlt) hU, rfl, hU, hf⟩

theorem Pages.access_some (hp : Pages k r D u) (va : Nat) (hv : va / pgsize ∈ D) (hU : has (k.leaf r (va / pgsize)) pteU) :
    ∃ pg, u.page (va / pgsize) = some pg ∧ u.access va pteU = some pg ∧ u.access va pteR = some pg ∧
      ∀ i < pgsize, pg.data i = k.byte r (va / pgsize) i := by
  obtain ⟨pg, h1, h2, h3, h4⟩ := hp.page _ hv
  rw [hU] at h2
  exact ⟨pg, h1, by simp [Eager.Proc.access, h1, h2], by simp [Eager.Proc.access, h1, h2, h3], h4⟩

theorem World.access_ne_zero (h : World L k role as) (hr : as r = some sh) {f}
    (ha : k.access r va f = some q) : q ≠ 0 := by
  obtain ⟨hv, rfl, _⟩ := h.access_some hr ha
  have hu := (h.space r sh hr).user _ hv
  have hrange := (h.range_user hu).1.1
  have hbase := L.base
  have hk : kernbase = 524288 := by decide
  omega

theorem Cowed.frame (h : World L k role as) (hr : as r = some sh) (hv : v ∈ sh.dom) (hU : has (k.leaf r v) pteU)
    (hc : Cowed L as r v q k role k' role') : Frame (fun _ => False) k k' role role' as where
  seen _ _ _ _ hs hu := hc.seen h hr hv hU hs hu
  held := hc.held
  failed := hc.failed.ge

theorem Cowed.access (hr : as r = some sh) {va} (hlt : va < maxva) {i} (hi : i < 5)
    (hc : Cowed L as r (va / pgsize) q k role k' role') : k'.access r va (2 ^ i) = some q := by
  have hl := hc.leaf r sh _ hr (div_lt_of_lt_maxva hlt)
  rw [if_pos ⟨rfl, rfl⟩] at hl
  have hbit : ∀ j < 10, has (q * 1024 + 31) (2 ^ j) = has 31 (2 ^ j) := fun j hj => has_add hj
  have hi' : has 31 (2 ^ i) := by
    interval_cases i <;> decide
  have h0 : has (q * 1024 + 31) pteV := hbit 0 (by decide)
  have h4 : has (q * 1024 + 31) pteU := hbit 4 (by decide)
  simp only [Kmem.access, hl]
  rw [if_pos ⟨hlt, h0, h4, (hbit i (by omega)).trans hi'⟩, pte2pa_add (by decide)]

theorem pgrounddown_div (va : Nat) : pgrounddown va / pgsize = va / pgsize := by
  simp only [pgrounddown, pgsize]
  omega

theorem sub_pgrounddown (va : Nat) : va - pgrounddown va = va % pgsize := by
  simp only [pgrounddown, pgsize]
  omega

theorem access_pgrounddown (k : Kmem) (r a f : Nat) : k.access r (pgrounddown a) f = k.access r a f := by
  have h1 : pgrounddown a < maxva ↔ a < maxva := by
    simp only [pgrounddown, pgsize, maxva]
    omega
  simp only [Kmem.access, pgrounddown_div, h1]

theorem pgrounddown_next {a n len} (hn : n = min (pgsize - a % pgsize) len) (hne : n ≠ len) :
    pgrounddown a + pgsize = a + n := by
  simp only [pgrounddown, pgsize] at hn ⊢
  omega

theorem copyoutLoop_spec (hr : as r = some sh) (src : Bytes) (fuel : Nat) :
    ∀ {dstva s len : Nat} {k : Kmem} {role : Nat → Role}, World L k role as →
      wp (copyoutLoop L r src fuel dstva s len) (fun res k' => ∃ role', World L k' role' as ∧
        Frame (· = r) k k' role role' as ∧
        ∀ u, Pages k r sh.dom u → k'.failed = k.failed →
          res = (Eager.copyout src fuel dstva s len u).1 ∧
          Pages k' r sh.dom (Eager.copyout src fuel dstva s len u).2) E k := by
  induction fuel with
  | zero =>
    intro dstva s len k role h
    exact ⟨role, h, .refl _ _ _ _, fun u hp _ => ⟨rfl, hp⟩⟩
  | succ fuel ih =>
    intro dstva s len k role h
    simp only [copyoutLoop, wp_ite]
    refine ⟨fun h0 => ⟨role, h, .refl _ _ _ _, fun u hp _ => ?_⟩, fun h0 => ⟨fun hgt => ?_, fun _ => ?_⟩⟩
    · simp only [Eager.copyout, if_pos h0]
      exact ⟨trivial, hp⟩
    · refine ⟨role, h, .refl _ _ _ _, fun u hp _ => ?_⟩
      have hn : k.access r dstva pteU = none := by
        have hge : ¬dstva < maxva := by
          have : pgrounddown dstva ≤ dstva := Nat.div_mul_le_self _ _
          omega
        simp [Kmem.access, hge]
      have hu := hp.access_none h hr hn
      simp only [Eager.copyout, if_neg h0, hu]
      exact ⟨trivial, hp⟩
    rw [wp_bind]
    refine wp_post (cowfault_spec h hr _) fun res k1 hres => ?_
    rcases hres with ⟨rfl, hk1⟩ | ⟨rfl, hlt, hU, hv, q, role1, hc⟩
    · -- 失敗したときは、届かないページであったか、割り当てが失敗したかである。
      simp only [show ((-1 : Int) < 0) by decide, if_true, wp_pure]
      rcases hk1 with ⟨rfl, ha⟩ | rfl
      · refine ⟨role, h, .refl _ _ _ _, fun u hp _ => ?_⟩
        rw [access_pgrounddown] at ha
        have hu := hp.access_none h hr ha
        simp only [Eager.copyout, if_neg h0, hu]
        exact ⟨trivial, hp⟩
      have hlf : Kmem.leaf { k with failed := k.failed + 1 } = k.leaf := Kmem.leaf_congr rfl
      refine ⟨role, h.fail _, ⟨fun _ _ _ _ _ _ => ⟨?_, fun _ _ => ?_⟩, fun _ hp => hp, Nat.le_succ _⟩,
        fun u _ hf => ?_⟩
      · rw [hlf]
      · rw [Kmem.byte, Kmem.byte, hlf]
      · simp at hf
    have h1 := hc.world
    have hacc := hc.access hr hlt (i := 4) (by decide)
    have hq0 := h1.access_ne_zero hr hacc
    simp only [show ¬((0 : Int) < 0) by decide, if_false, wp_bind]
    rw [wp_walkaddr h1 hr, show pteU = 2 ^ 4 from rfl, hacc]
    simp only [Option.getD_some, if_neg hq0, wp_bind, wp_modify]
    obtain ⟨_, hqe, _⟩ := h1.access_some hr hacc
    rw [pgrounddown_div] at hv hqe hU hc
    have hone : k1.refcnt (pte2pa (k1.leaf r (dstva / pgsize))) = 1 := hqe ▸ hc.refcnt
    obtain ⟨h2, hf2, hp2⟩ := h1.store hr hv hone (dstva % pgsize) src s (min (pgsize - dstva % pgsize) len)
    rw [sub_pgrounddown, hqe]
    refine wp_post (ih h2) fun res' k' hres' => ?_
    obtain ⟨role', h', hf', hp'⟩ := hres'
    have hframe := ((hc.frame h hr hv hU).mono fun _ hF => hF.elim).trans hf2
    refine ⟨role', h', hframe.trans hf', fun u hp hfail => ?_⟩
    have hp1 : Pages k1 r sh.dom u := hp.congr fun w hw => hc.seen h hr hv hU hr hw
    obtain ⟨pg, _, hpa, _⟩ := hp.access_some dstva hv hU
    have hfail2 : k'.failed = k1.failed := hfail.trans hc.failed.symm
    simp only [Eager.copyout, if_neg h0, hpa]
    exact hp' _ (hp2 u hp1) hfail2

section

variable (h : World L k role as) (hr : as r = some sh)
include h hr

theorem copyout_spec (dstva : Nat) (src : Bytes) (len : Nat) :
    wp (copyout L r dstva src len) (fun res k' => ∃ role', World L k' role' as ∧
      Frame (· = r) k k' role role' as ∧
      ∀ u, Pages k r sh.dom u → k'.failed = k.failed →
        res = (Eager.copyout src len dstva 0 len u).1 ∧
        Pages k' r sh.dom (Eager.copyout src len dstva 0 len u).2) E k :=
  copyoutLoop_spec hr src len h

theorem copyinLoop_spec (fuel : Nat) :
    ∀ {dst : Bytes} {d srcva len : Nat}, wp (copyinLoop r fuel dst d srcva len) (fun res k' => k' = k ∧
      ∀ u, Pages k r sh.dom u → res.1 = (Eager.copyin u fuel dst d srcva len).1 ∧
        res.2 = (Eager.copyin u fuel dst d srcva len).2) E k := by
  induction fuel with
  | zero =>
    intro dst d srcva len
    exact ⟨rfl, fun u _ => ⟨rfl, rfl⟩⟩
  | succ fuel ih =>
    intro dst d srcva len
    simp only [copyinLoop, wp_ite]
    refine ⟨fun h0 => ⟨rfl, fun u _ => ?_⟩, fun h0 => ?_⟩
    · simp [Eager.copyin, if_pos h0]
    rw [wp_bind, wp_walkaddr h hr, access_pgrounddown]
    cases ha : k.access r srcva pteU with
    | none =>
      simp only [Option.getD_none, if_true, wp_pure]
      refine ⟨trivial, fun u hp => ?_⟩
      have hu := hp.access_none h hr ha
      simp only [Eager.copyin, if_neg h0, hu]
      exact ⟨trivial, trivial⟩
    | some q =>
      obtain ⟨hv, hq, hU, _⟩ := h.access_some hr ha
      simp only [Option.getD_some, if_neg (h.access_ne_zero hr ha), wp_bind, wp_get, sub_pgrounddown]
      refine wp_post ih fun res k' hres => ⟨hres.1, fun u hp => ?_⟩
      obtain ⟨pg, _, hpa, _, hdata⟩ := hp.access_some srcva hv hU
      simp only [Eager.copyin, if_neg h0, hpa]
      have hblit : blit dst d (k.mem q) (srcva % pgsize) (min (pgsize - srcva % pgsize) len) =
          blit dst d pg.data (srcva % pgsize) (min (pgsize - srcva % pgsize) len) := by
        funext i
        simp only [blit]
        split
        · rw [hdata _ (by omega), hq]
          rfl
        · rfl
      rw [← hblit]
      exact hres.2 u hp

theorem copyin_spec (dst : Bytes) (srcva len : Nat) :
    wp (copyin r dst srcva len) (fun res k' => k' = k ∧
      ∀ u, Pages k r sh.dom u → res = Eager.copyin u len dst 0 srcva len) E k :=
  wp_post (copyinLoop_spec h hr len) fun _ _ hres => ⟨hres.1, fun u hp => Prod.ext (hres.2 u hp).1 (hres.2 u hp).2⟩

end

end Xv6.Vm
