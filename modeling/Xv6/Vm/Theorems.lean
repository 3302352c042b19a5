import Xv6.Vm.Lemmas.Refine

/-!
# コピーオンライトの定理
-/

namespace Xv6.Vm

open Xv6.Lib Finset

variable {L : Layout} {s s' : Kernel} {p : Fin nproc} {role : Nat → Role} {as : Nat → Option Shape}
variable {own : Fin nproc → Option Own}

/-! ## 到達できる状態 -/

theorem reachable_run (ops : List Op) (h : Reachable L s) : wp (run L ops) (fun _ s' => Reachable L s')
    (fun _ => True) s := by
  induction ops generalizing s with
  | nil => exact wp_pure.mpr h
  | cons op ops ih =>
    simp only [run, wp_bind]
    exact wp_of_ok fun _ s1 hs => ih (.step op h hs)

def exampleLayout : Layout := ⟨kernbase + 64, kernbase + 8, by decide, by decide⟩

def exampleBoot (n : Nat) : Kernel where
  k := { mem := fun _ _ => 0, refcnt := fun _ => 0, freelist := List.range' (kernbase + 64) n, failed := 0,
         created := fun _ _ => 0, touched := fun _ _ => false }
  proc := fun _ => .empty
  nextpid := 1
  initproc := none
  pipes := []

theorem exampleBoot_boot {n} (h7 : 7 ≤ n) (hn : n ≤ 32704) : Boot exampleLayout (exampleBoot n) where
  range p hp := by
    have hk : kernbase = 524288 := by decide
    have hp' : physpages = 557056 := by decide
    simp only [exampleBoot, List.mem_range', exampleLayout] at hp ⊢
    omega
  nodup := List.nodup_range'
  refcnt _ _ := rfl
  proc _ := rfl
  pipes := rfl
  enough := by simpa [exampleBoot] using h7

theorem example_reachable {n} (h7 : 7 ≤ n) (hn : n ≤ 32704) (ops : List Op) :
    wp (do userinit exampleLayout; run exampleLayout ops) (fun _ s => Reachable exampleLayout s) (fun _ => True)
      (exampleBoot n) := by
  rw [wp_bind]
  exact wp_of_ok fun _ s1 hs => reachable_run ops (.boot (exampleBoot_boot h7 hn) hs)

theorem example_exists {n} (h7 : 7 ≤ n) (hn : n ≤ 32704) (ops : List Op) (c : Kernel → Bool)
    (hc : (match (do userinit exampleLayout; run exampleLayout ops : PM Unit) (exampleBoot n) with
      | .ok x => c x.2
      | .error _ => false) = true) : ∃ s, Reachable exampleLayout s ∧ c s = true := by
  have hr := example_reachable h7 hn ops
  unfold wp at hr
  split at hc
  · rename_i x hx
    rw [hx] at hr
    exact ⟨x.2, hr, hc⟩
  · cases hc

def exampleProc : Fin nproc := ⟨0, by decide⟩

/-! ## 参照の数 -/

def Kernel.MapsUser (s : Kernel) (q : Nat) (x : Fin nproc × Nat) : Prop :=
  ∃ r, (s.proc x.1).pagetable = some r ∧ x.2 < npages (s.proc x.1).sz ∧ has (s.k.leaf r x.2) pteV ∧
    pte2pa (s.k.leaf r x.2) = q

theorem Inv.root_owned (h : Inv L s role as own) {r} (hr : (s.proc p).pagetable = some r) :
    ∃ o, own p = some o ∧ o.root = r ∧ (s.proc p).trapframe = some o.tf ∧ (s.proc p).sz = o.sz ∧
      as r = some o.shape := by
  cases ho : own p with
  | none =>
    rw [h.of_none ho] at hr
    cases hr
  | some o =>
    obtain ⟨_, hpt, htf, hsz⟩ := h.of_some ho
    rw [hpt] at hr
    cases hr
    exact ⟨o, rfl, rfl, htf, hsz, h.space p o ho⟩

theorem Inv.count_le (h : Inv L s role as own) (q : Nat) : AtMost (s.MapsUser q) (s.k.refcnt q) := by
  classical
  intro S hS
  -- 欄の違いはページ表の違いなので、欄と仮想ページの組は、ページ表と仮想ページの組に単射で移る。
  let f : Fin nproc × Nat → Nat × Nat := fun x => ((s.proc x.1).pagetable.getD 0, x.2)
  have hinj : Set.InjOn f S := by
    intro x hx y hy he
    obtain ⟨r, hr, _⟩ := hS x hx
    obtain ⟨r', hr', _⟩ := hS y hy
    obtain ⟨o, ho, rfl, _⟩ := h.root_owned hr
    obtain ⟨o', ho', rfl, _⟩ := h.root_owned hr'
    simp only [f, hr, hr', Option.getD_some, Prod.mk.injEq] at he
    exact Prod.ext (h.root_inj _ _ o o' ho ho' he.1) he.2
  rw [← card_image_of_injOn hinj]
  refine h.world.count q _ fun x hx => ?_
  obtain ⟨y, hy, rfl⟩ := mem_image.mp hx
  obtain ⟨r, hr, hlt, _, hq⟩ := hS y hy
  obtain ⟨o, _, rfl, _, hsz, hsp⟩ := h.root_owned hr
  refine ⟨o.shape, ?_, mem_range.mpr (hsz ▸ hlt), ?_⟩
  · simpa only [f, hr, Option.getD_some] using hsp
  · simpa only [f, hr, Option.getD_some] using hq

theorem Inv.leaf_role (h : Inv L s role as own) {r v} (hr : (s.proc p).pagetable = some r) (hv : v < 2 ^ 26)
    (hV : has (s.k.leaf r v) pteV) :
    (v < npages (s.proc p).sz ∧ role (pte2pa (s.k.leaf r v)) = .user) ∨
      (role (pte2pa (s.k.leaf r v)) = .held ∧ (s.proc p).trapframe = some (pte2pa (s.k.leaf r v))) ∨
      (has (s.k.leaf r v) pteW = false ∧ pte2pa (s.k.leaf r v) = L.trampoline) := by
  obtain ⟨o, ho, rfl, htf, hsz, hsp⟩ := h.root_owned hr
  have hs := h.world.space o.root _ hsp
  by_cases hd : v ∈ o.shape.dom
  · exact .inl ⟨hsz ▸ mem_range.mp hd, hs.user v hd⟩
  obtain rfl | rfl := hs.top_of_ne_zero hv hd (ne_zero_of_has hV)
  · have hl : s.k.leaf o.root tfV = o.tf * 1024 + 7 := hs.trapframe
    rw [hl, pte2pa_add (by decide)]
    exact .inr (.inl ⟨h.held p o ho, htf⟩)
  · have hl : s.k.leaf o.root trampV = L.trampoline * 1024 + 11 := hs.tramp
    rw [hl, pte2pa_add (by decide)]
    exact .inr (.inr ⟨has_add (i := 2) (by decide), rfl⟩)

/-- 参照の数は写像の数以上で、書けるページの参照は一つである。空きページは写っておらず、表、trapframe、パイプのいずれでも
ない。 -/
theorem page_reference_safety (h : Reachable L s) :
    (∀ q, AtMost (s.MapsUser q) (s.k.refcnt q)) ∧
    (∀ p r v, (s.proc p).pagetable = some r → v < 2 ^ 26 → has (s.k.leaf r v) pteV → has (s.k.leaf r v) pteW →
      s.k.refcnt (pte2pa (s.k.leaf r v)) = 1) ∧
    ∀ q ∈ s.k.freelist,
      (∀ p r v, (s.proc p).pagetable = some r → v < 2 ^ 26 → has (s.k.leaf r v) pteV → pte2pa (s.k.leaf r v) ≠ q) ∧
      (∀ p r, (s.proc p).pagetable = some r → ¬TablePage s.k r q) ∧
      (∀ p, (s.proc p).trapframe ≠ some q) ∧ q ∉ s.pipes := by
  obtain ⟨role, as, own, hi⟩ := h.inv
  refine ⟨hi.count_le, fun p r v hr hv hV hW => ?_, fun q hq => ⟨fun p r v hr hv hV he => ?_, fun p r hr ht => ?_,
    fun p htf => ?_, fun hpipe => ?_⟩⟩
  · rcases hi.leaf_role hr hv hV with ⟨hlt, _⟩ | ⟨hheld, _⟩ | ⟨hnW, _⟩
    · obtain ⟨o, _, rfl, _, hsz, hsp⟩ := hi.root_owned hr
      exact hi.world.writable o.root _ v hsp (mem_range.mpr (hsz ▸ hlt)) hW
    · have := hi.world.counts (pte2pa (s.k.leaf r v))
      rwa [hheld] at this
    · rw [hnW] at hW
      cases hW
  all_goals have hfree := (hi.world.free q).mp hq
  · rcases hi.leaf_role hr hv hV with ⟨_, hu⟩ | ⟨hheld, _⟩ | ⟨_, htr⟩
    · rw [he, hfree] at hu
      cases hu
    · rw [he, hfree] at hheld
      cases hheld
    · have hrange := hi.world.range q (by simp [hfree])
      have := L.below
      omega
  · obtain ⟨o, _, rfl, _, _, hsp⟩ := hi.root_owned hr
    obtain ⟨path, hp⟩ := hi.world.tablePage hsp ht
    rw [hfree] at hp
    cases hp
  · cases ho : own p with
    | none =>
      rw [hi.of_none ho] at htf
      cases htf
    | some o =>
      rw [(hi.of_some ho).2.2.1] at htf
      cases htf
      have := hi.held p o ho
      rw [hfree] at this
      cases this
  · have := hi.pipe q hpipe
    rw [hfree] at this
    cases this

theorem page_reference_safety_fork : ∃ s q, Reachable exampleLayout s ∧ s.k.refcnt q = 2 ∧ AtMost (s.MapsUser q) 2 := by
  obtain ⟨s, hr, hc⟩ := example_exists (n := 40) (by decide) (by decide) [.user (.fork exampleProc)]
    (fun s => s.k.refcnt (kernbase + 68) = 2) (by decide +kernel)
  have hc : s.k.refcnt (kernbase + 68) = 2 := of_decide_eq_true hc
  have hcount := (page_reference_safety hr).1 (kernbase + 68)
  rw [hc] at hcount
  exact ⟨s, _, hr, hc, hcount⟩

theorem Inv.leaf_page (h : Inv L s role as own) {r v} (hr : (s.proc p).pagetable = some r) (hv : v < 2 ^ 26)
    (hV : has (s.k.leaf r v) pteV) : v < npages (s.proc p).sz ∨ v = trampV ∨ v = tfV := by
  obtain ⟨o, _, rfl, _, hsz, hsp⟩ := h.root_owned hr
  by_cases hd : v ∈ o.shape.dom
  · exact .inl (hsz ▸ mem_range.mp hd)
  exact .inr ((h.world.space o.root _ hsp).top_of_ne_zero hv hd (ne_zero_of_has hV)).symm

/-- プロセスのページ表には `sz` までのすべてのページと trampoline と trapframe だけが写っている。どの操作も、`init` が終わるときのほかは止まらない。 -/
theorem address_space_shape :
    (∀ s, Boot L s → ∃ s', userinit L s = .ok ((), s')) ∧
    ∀ s, Reachable L s →
      (∀ p r, (s.proc p).pagetable = some r →
        (∀ v < npages (s.proc p).sz, has (s.k.leaf r v) pteV ∧ has (s.k.leaf r v) (pteR ||| pteW ||| pteX)) ∧
        (∀ v, v = trampV ∨ v = tfV → npages (s.proc p).sz ≤ v ∧ has (s.k.leaf r v) pteV) ∧
        ∀ q i, TablePage s.k r q → i < 512 → has (s.k.pte q i) pteV → has (s.k.pte q i) (pteR ||| pteW ||| pteX) →
          ∃ v < 2 ^ 26, s.k.find (v * pgsize) 2 r = some (q, i) ∧
            (v < npages (s.proc p).sz ∨ v = trampV ∨ v = tfV)) ∧
      (∀ op e, step L op s = .error e → e = "init exiting") ∧
      ∀ p r, (s.proc p).pagetable = some r →
        ∃ k', procFreepagetable L r (s.proc p).sz s.k = .ok ((), k') ∧
          ∀ q, TablePage s.k r q → s.k.freelist.count q = 0 ∧ k'.freelist.count q = 1 := by
  refine ⟨fun s hb => ?_, fun s h => ?_⟩
  · obtain ⟨_, s', hok, _⟩ := wp_exists (userinit_spec hb)
    exact ⟨s', hok⟩
  obtain ⟨role, as, own, hi⟩ := h.inv
  refine ⟨fun p r hr => ?_, fun op e he => ?_, fun p r hr => ?_⟩
  · obtain ⟨o, _, rfl, _, hsz, hsp⟩ := hi.root_owned hr
    have hs := hi.world.space o.root _ hsp
    refine ⟨fun v hv => ?_, fun v hv => ?_, fun q i hq hI hV hX => ?_⟩
    · have hd : v ∈ o.shape.dom := mem_range.mpr (hsz ▸ hv)
      refine ⟨hs.valid v hd, ?_⟩
      have hR := hs.readable v hd
      by_contra hc
      have h0 : s.k.leaf o.root v &&& (pteR ||| pteW ||| pteX) = 0 := by simpa [has] using hc
      have hsub : pteR = (pteR ||| pteW ||| pteX) &&& pteR := by decide
      rw [has, hsub, ← Nat.and_assoc, h0, Nat.zero_and] at hR
      cases hR
    · have hcard := hi.world.card_dom_le hsp
      rw [Own.shape, card_range, ← hsz] at hcard
      have hbit : ∀ x f, has (x * 1024 + f) pteV = has f pteV := fun x f => has_add (i := 0) (by decide)
      rcases hv with rfl | rfl
      · have hl : s.k.leaf o.root trampV = L.trampoline * 1024 + 11 := hs.tramp
        rw [hl, hbit]
        exact ⟨hcard.trans (by decide), by decide⟩
      · have hl : s.k.leaf o.root tfV = o.tf * 1024 + 7 := hs.trapframe
        rw [hl, hbit]
        exact ⟨hcard.trans (by decide), by decide⟩
    · obtain ⟨v, hv, hf, hl⟩ := hi.world.leaf_of_tablePage hsp hq hI hV hX
      exact ⟨v, hv, hf, hi.leaf_page hr hv (hl ▸ hV)⟩
  · have hexit : InitExit e := wp_error (step_spec hi op) he
    exact hexit
  obtain ⟨o, _, rfl, _, hsz, hsp⟩ := hi.root_owned hr
  rw [hsz]
  obtain ⟨_, k', hok, role', hg⟩ := wp_exists (procFreepagetable_spec hi.world hsp)
  refine ⟨k', hok, fun q hq => ?_⟩
  obtain ⟨path, hp⟩ := hi.world.tablePage hsp hq
  have hfree := (hg.world.free q).mpr (hg.table q path hp)
  refine ⟨List.count_eq_zero.mpr fun hc => ?_, List.count_eq_one_of_mem hg.world.nodup hfree⟩
  rw [(hi.world.free q).mp hc] at hp
  cases hp

theorem address_space_shape_init : ∃ s k', Reachable exampleLayout s ∧
    procFreepagetable exampleLayout (kernbase + 65) pgsize s.k = .ok ((), k') ∧
    k'.freelist.count (kernbase + 65) = 1 := by
  obtain ⟨s, hr, hc⟩ := example_exists (n := 7) (by decide) (by decide) []
    (fun s => decide ((s.proc exampleProc).pagetable = some (kernbase + 65) ∧ (s.proc exampleProc).sz = pgsize))
    (by decide +kernel)
  obtain ⟨hpt, hsz⟩ := of_decide_eq_true hc
  obtain ⟨k', hok, hq⟩ := ((address_space_shape (L := exampleLayout)).2 s hr).2.2 exampleProc _ hpt
  rw [hsz] at hok
  exact ⟨s, k', hr, hok, (hq _ .root).2⟩

/-! ## 失敗した `fork` -/

/-- 空きページの集合、参照の数、プロセス `p` のページ表のすべての PTE が変わっていない。 -/
structure Atomic (s s' : Kernel) (p : Fin nproc) : Prop where
  free : ∀ q, q ∈ s'.k.freelist ↔ q ∈ s.k.freelist
  refcnt : ∀ q, q ∉ s'.k.freelist → s'.k.refcnt q = s.k.refcnt q
  pte : ∀ r q i, (s.proc p).pagetable = some r → TablePage s.k r q → i < 512 → s'.k.pte q i = s.k.pte q i

theorem Same.atomic (h : Inv L s role as own) (hw : World L s'.k role as) (hs : Same s.k s'.k role role as) :
    Atomic s s' p where
  free q := by rw [hw.free, h.world.free]
  refcnt q _ := hs.refcnt q
  pte r q i hr hq _ := by
    obtain ⟨o, _, rfl, _, _, hsp⟩ := h.root_owned hr
    obtain ⟨path, hp⟩ := h.world.tablePage hsp hq
    exact Kmem.pte_congr (hs.mem q (by simp [hp])) i

theorem ForkFailed.not_atomic {o i role'} (h : Inv L s role as own) (ho : own p = some o)
    (hf : ForkFailed L as role s o i role' s') : ¬Atomic s s' p := by
  intro ha
  have hu := (h.world.space o.root _ (h.space p o ho)).user i (mem_range.mpr hf.lt)
  have hnf : pte2pa (s.k.leaf o.root i) ∉ s'.k.freelist := by
    rw [hf.world.free, hf.roles _ (by simp [hu]), hu]
    simp
  have := ha.refcnt _ hnf
  rw [hf.refcnt] at this
  omega

/-- `fork` は必ず終わり、-1 を返したときに何も変えないのは、空いた欄がないか、空きページが `allocproc` に足りないか、すべ
てのページを写すのに足りるときに限る。 -/
theorem fork_failure_atomic_iff (h : Reachable L s) (hp : (s.proc p).state = .runnable) :
    ∃ r s', fork L p s = .ok (r, s') ∧
      ((r = -1 → Atomic s s' p) ↔ (findUnused s.proc = none ∨ s.k.freelist.length < 4 ∨
        4 + need (npages (s.proc p).sz) ≤ s.k.freelist.length)) := by
  obtain ⟨role, as, own, hi⟩ := h.inv
  obtain ⟨o, ho⟩ := hi.some_of_runnable (p := p) (by simp [hp])
  rw [(hi.of_some ho).2.2.2]
  obtain ⟨r, s', hok, hpost⟩ := wp_exists (fork_spec hi ho)
  refine ⟨r, s', hok, ?_⟩
  rcases hpost with ⟨rfl, hfu, rfl⟩ | ⟨rfl, hlen, hw, hs, _⟩ | ⟨rfl, hfu, hge, hlt, i, role', hf⟩ |
    ⟨np, r, t, role', rfl, _, hge, _⟩
  · exact ⟨fun _ => .inl hfu, fun _ _ => ⟨fun _ => Iff.rfl, fun _ _ => rfl, fun _ _ _ _ _ _ => rfl⟩⟩
  · exact ⟨fun _ => .inr (.inl hlen), fun _ _ => hs.atomic hi hw⟩
  · refine ⟨fun ha => absurd (ha rfl) (hf.not_atomic hi ho), ?_⟩
    rintro (hc | hc | hc)
    · exact absurd hc hfu
    · omega
    · omega
  · exact ⟨fun _ => .inr (.inr hge), fun _ hc => by omega⟩

theorem fork_failure_atomic_noPages : ∃ s r s', Reachable exampleLayout s ∧ fork exampleLayout exampleProc s = .ok (r, s') ∧
    (r = -1 → Atomic s s' exampleProc) := by
  obtain ⟨s, hr, hc⟩ := example_exists (n := 7) (by decide) (by decide) []
    (fun s => decide ((s.proc exampleProc).state = .runnable ∧ s.k.freelist.length = 0)) (by decide +kernel)
  obtain ⟨hrun, hlen⟩ := of_decide_eq_true hc
  obtain ⟨r, s', hok, hiff⟩ := fork_failure_atomic_iff hr hrun
  exact ⟨s, r, s', hr, hok, hiff.mpr (.inr (.inl (by omega)))⟩

/-- 表のページだけが足りないとき、`fork` は -1 を返し、親のページの参照が一つ多いまま残る。 -/
theorem fork_failure_leaks_page : ∃ s s' q, Reachable exampleLayout s ∧
    fork exampleLayout exampleProc s = .ok (-1, s') ∧ q ∉ s'.k.freelist ∧ s'.k.refcnt q = s.k.refcnt q + 1 := by
  obtain ⟨s, hr, hc⟩ := example_exists (n := 11) (by decide) (by decide) []
    (fun s => decide ((s.proc exampleProc).state = .runnable ∧ s.k.freelist.length = 4 ∧
      (s.proc exampleProc).sz = pgsize ∧ findUnused s.proc ≠ none)) (by decide +kernel)
  obtain ⟨hrun, hlen, hsz, hfu⟩ := of_decide_eq_true hc
  obtain ⟨role, as, own, hi⟩ := hr.inv
  obtain ⟨o, ho⟩ := hi.some_of_runnable (p := exampleProc) (by simp [hrun])
  have hneed : need (npages o.sz) = 2 := by
    rw [← (hi.of_some ho).2.2.2, hsz]
    decide
  obtain ⟨r, s', hok, hpost⟩ := wp_exists (fork_spec hi ho)
  rcases hpost with ⟨_, hc, _⟩ | ⟨_, hc, _⟩ | ⟨rfl, _, _, _, i, role', hf⟩ | ⟨np, r, t, role', rfl, _, hc, _⟩
  · exact absurd hc hfu
  · omega
  · have hu := (hi.world.space o.root _ (hi.space _ o ho)).user i (mem_range.mpr hf.lt)
    refine ⟨s, s', pte2pa (s.k.leaf o.root i), hr, hok, ?_, hf.refcnt⟩
    rw [hf.world.free, hf.roles _ (by simp [hu]), hu]
    simp
  · omega

/-- `cowfault` が写し直していないページと、すべての許可で作られたページの許可は、作られたときの許可を超えない。写し直した
後に収まるのは、それがすべての許可であるときに限る。 -/
theorem page_permissions_within_created (h : Reachable L s) :
    (∀ p r v, (s.proc p).pagetable = some r → v < npages (s.proc p).sz →
      s.k.touched r v = false ∨ Full (s.k.created r v) → Within (s.k.leaf r v) (s.k.created r v)) ∧
    ∀ p r va k', (s.proc p).pagetable = some r → cowfault L r va s.k = .ok (0, k') →
      (Within (k'.leaf r (va / pgsize)) (k'.created r (va / pgsize)) ↔ Full (s.k.created r (va / pgsize))) := by
  obtain ⟨role, as, own, hi⟩ := h.inv
  refine ⟨fun p r v hr hv ht => ?_, fun p r va k' hr hok => ?_⟩
  · obtain ⟨o, _, rfl, _, hsz, hsp⟩ := hi.root_owned hr
    exact (hi.world.space o.root _ hsp).within v (mem_range.mpr (hsz ▸ hv)) ht
  obtain ⟨o, _, rfl, _, _, hsp⟩ := hi.root_owned hr
  have hpost := wp_ok (cowfault_spec (E := fun _ => True) hi.world hsp va) hok
  rcases hpost with ⟨hc, _⟩ | ⟨_, hlt, _, _, q, role', hc⟩
  · cases hc
  have hl := hc.leaf o.root _ _ hsp (div_lt_of_lt_maxva hlt)
  rw [if_pos ⟨rfl, rfl⟩] at hl
  rw [hl, hc.created]
  have hall : ∀ i, 1 ≤ i → i ≤ 4 → has (q * 1024 + 31) (2 ^ i) := by
    intro i h1 h4
    rw [has_add (by omega)]
    interval_cases i <;> decide
  exact ⟨fun hw i h1 h4 => hw i h1 h4 (hall i h1 h4), fun hf i h1 h4 _ => hf i h1 h4⟩

theorem page_permissions_within_created_init : ∃ s r, Reachable exampleLayout s ∧
    (s.proc exampleProc).pagetable = some r ∧ Within (s.k.leaf r 0) (s.k.created r 0) := by
  obtain ⟨s, hr, hc⟩ := example_exists (n := 7) (by decide) (by decide) []
    (fun s => decide ((s.proc exampleProc).pagetable = some (kernbase + 65) ∧ (s.proc exampleProc).sz = pgsize ∧
      s.k.touched (kernbase + 65) 0 = false)) (by decide +kernel)
  obtain ⟨hpt, hsz, ht⟩ := of_decide_eq_true hc
  refine ⟨s, _, hr, hpt, (page_permissions_within_created hr).1 _ _ 0 hpt ?_ (.inl ht)⟩
  rw [hsz]
  decide

/-- `sbrk` で作ったページに `copyout` で書くと、そのページは実行できるようになる。 -/
theorem copyout_makes_heap_executable : ∃ s r, Reachable exampleLayout s ∧ (s.proc exampleProc).pagetable = some r ∧
    1 < npages (s.proc exampleProc).sz ∧ s.k.created r 1 = pteR ||| pteU ||| pteW ∧ has (s.k.leaf r 1) pteX := by
  obtain ⟨s, hr, hc⟩ := example_exists (n := 20) (by decide) (by decide)
    [.user (.sbrk exampleProc 4096), .user (.copyout exampleProc 4096 [7])]
    (fun s => decide ((s.proc exampleProc).pagetable = some (kernbase + 65) ∧ 1 < npages (s.proc exampleProc).sz ∧
      s.k.created (kernbase + 65) 1 = pteR ||| pteU ||| pteW ∧ has (s.k.leaf (kernbase + 65) 1) pteX)) (by decide +kernel)
  obtain ⟨hpt, hsz, hcr, hx⟩ := of_decide_eq_true hc
  exact ⟨s, _, hr, hpt, hsz, hcr, hx⟩

/-! ## すぐに複製する `fork` との一致 -/

/-- カーネルの状態をそのまま読み取った、仕様の機械の状態。 -/
def Kernel.view (s : Kernel) : Eager.Sys where
  proc p :=
    if (s.proc p).state = .unused then none
    else some
      { pid := (s.proc p).pid
        sz := (s.proc p).sz
        alive := decide ((s.proc p).state = .runnable)
        page := fun v =>
          if v < npages (s.proc p).sz then
            some ⟨pteFlags (s.k.leaf ((s.proc p).pagetable.getD 0) v),
              s.k.mem (pte2pa (s.k.leaf ((s.proc p).pagetable.getD 0) v))⟩
          else none }
  nextpid := s.nextpid

theorem Inv.agree_view (h : Inv L s role as own) : Agree s s.view where
  nextpid := rfl
  unused p := by simp [Kernel.view]
  used p u hu := by
    simp only [Kernel.view] at hu
    split at hu
    · cases hu
    rename_i hst
    cases hu
    obtain ⟨o, ho⟩ := h.some_of_runnable hst
    obtain ⟨_, hpt, _, hsz⟩ := h.of_some ho
    have hs := h.world.space o.root _ (h.space p o ho)
    refine ⟨rfl, rfl, rfl, fun v hv => ?_, fun v hv => ?_⟩
    · have hlt := mem_range.mp hv
      simp only [if_pos hlt]
      refine ⟨_, rfl, has_pteFlags (i := 4) (by decide), ?_, fun _ _ => rfl⟩
      rw [hpt, Option.getD_some]
      exact (has_pteFlags (i := 1) (by decide)).trans (hs.readable v (mem_range.mpr (hsz ▸ hlt)))
    · exact if_neg fun hc => hv (mem_range.mpr hc)

/-- どの操作の列も、`init` を終わらせるか割り当てが失敗しない限り、仕様の機械と同じ結果を返す。あるプロセスの書き込みと
`copyout` は、他のプロセスの読み出すバイトを変えない。 -/
theorem cow_fork_refines_eager_fork {a : Eager.Sys} (h : Reachable L s) (ha : Agree s a) (ops : List UserOp)
    (hall : Eager.AllAllowed ops a) :
    ((∃ outs s', userRun L ops s = .ok (outs, s') ∧
        (s'.k.failed = s.k.failed → outs = (Eager.run ops a).1 ∧ Agree s' (Eager.run ops a).2)) ∨
      userRun L ops s = .error "init exiting") ∧
    ∀ p op out s', ((∃ va b, op = .store p va b) ∨ ∃ va src, op = .copyout p va src) →
      userStep L op s = .ok (out, s') → Isolated s s' p := by
  obtain ⟨role, as, own, hi⟩ := h.inv
  refine ⟨?_, fun p op out s' hop hok => ?_⟩
  case refine_2 =>
    have hiso := wp_ok (userStep_isolated hi hop) hok
    exact hiso
  have hrun := userRun_spec (L := L) ops hi
  cases hok : userRun L ops s with
  | ok x =>
    obtain ⟨outs, s'⟩ := x
    exact .inl ⟨outs, s', rfl, (wp_ok hrun hok).2 a ha hall⟩
  | error e =>
    have he : InitExit e := wp_error hrun hok
    exact .inr (congrArg Except.error he)

def exampleInit (n : Nat) : Kernel :=
  match userinit exampleLayout (exampleBoot n) with
  | .ok x => x.2
  | .error _ => exampleBoot n

theorem exampleInit_reachable {n} (h7 : 7 ≤ n) (hn : n ≤ 32704) : Reachable exampleLayout (exampleInit n) := by
  have hb := exampleBoot_boot h7 hn
  obtain ⟨_, s, hok, _⟩ := wp_exists (userinit_spec hb)
  rw [exampleInit, hok]
  exact .boot hb hok

def exampleOps : List UserOp :=
  [.store exampleProc 100 7, .fork exampleProc, .load ⟨1, by decide⟩ 100]

theorem cow_fork_refines_eager_fork_childLoad :
    (Eager.run exampleOps (exampleInit 40).view).1 = [.ret 0, .ret 4, .byte 7] := by
  have hr := exampleInit_reachable (n := 40) (by decide) (by decide)
  obtain ⟨role, as, own, hi⟩ := hr.inv
  have hrun : (match userRun exampleLayout exampleOps (exampleInit 40) with
      | .ok x => decide (x.1 = [.ret 0, .ret 4, .byte 7] ∧ x.2.k.failed = (exampleInit 40).k.failed)
      | .error _ => false) = true := by decide +kernel
  have hall : Eager.AllAllowed exampleOps (exampleInit 40).view := by decide +kernel
  rcases (cow_fork_refines_eager_fork hr hi.agree_view exampleOps hall).1 with ⟨outs, s', hok, heq⟩ | he
  · rw [hok] at hrun
    obtain ⟨ho, hf⟩ := of_decide_eq_true hrun
    rw [← (heq hf).1]
    exact ho
  · rw [he] at hrun
    cases hrun

end Xv6.Vm
