import Xv6.Vm.Theorems

/-!
# 伸び縮みの結果
-/

namespace Xv6.Vm

open Xv6.Lib

variable {L : Layout} {s s' : Kernel} {p : Fin nproc} {role role' : Nat → Role} {as : Nat → Option Shape}
variable {own : Fin nproc → Option Own} {o : Own} {k' : Kmem} {r v : Nat}

/-- どのプロセスの写像も中身も参照の数も変わらない。新しく使われたページは `p` のページ表 `r` の表だけで、
`proc_freepagetable` がそれを返す。 -/
structure Undone (L : Layout) (s : Kernel) (p : Fin nproc) (r : Nat) (k' : Kmem) : Prop where
  leaf : ∀ p' r' v, (s.proc p').pagetable = some r' → v < 2 ^ 26 → k'.leaf r' v = s.k.leaf r' v
  mem : ∀ p' r' v, (s.proc p').pagetable = some r' → v < 2 ^ 26 → has (s.k.leaf r' v) pteV →
    k'.mem (pte2pa (s.k.leaf r' v)) = s.k.mem (pte2pa (s.k.leaf r' v))
  refcnt : ∀ q, k'.refcnt q = s.k.refcnt q ∨ q ∈ s.k.freelist ∧ TablePage k' r q
  free : ∀ q, (q ∈ k'.freelist → q ∈ s.k.freelist) ∧ (q ∈ s.k.freelist → q ∈ k'.freelist ∨ TablePage k' r q)
  returned : ∃ k'', procFreepagetable L r (s.proc p).sz k' = .ok ((), k'') ∧ ∀ q, TablePage k' r q → q ∈ k''.freelist

theorem Inv.leaf_used (h : Inv L s role as own) (hr : (s.proc p).pagetable = some r) (hv : v < 2 ^ 26)
    (hV : has (s.k.leaf r v) pteV) :
    role (pte2pa (s.k.leaf r v)) ≠ .free ∧ ∀ r' path, role (pte2pa (s.k.leaf r v)) ≠ .table r' path := by
  rcases h.leaf_role hr hv hV with ⟨_, hu⟩ | ⟨hh, _⟩ | ⟨_, ht⟩
  · simp [hu]
  · simp [hh]
  have hother : role (pte2pa (s.k.leaf r v)) = .other := by
    by_contra hne
    have hrange := (h.world.range _ hne).1
    have := L.below
    omega
  simp [hother]

theorem Inv.undone (h : Inv L s role as own) (ho : own p = some o) (hw : World L k' role' as)
    (hk : Kept o.root (npages o.sz) s.k role as k' role') (hs : Spent role o.root (fun _ => False) k' role') :
    Undone L s p o.root k' := by
  have hsp := h.space p o ho
  have hnew : ∀ q, role q = .free → role' q = .free ∨ TablePage k' o.root q := by
    intro q hq
    rcases hs q hq with hf | ⟨path, ht⟩ | ⟨_, hc, _⟩
    · exact .inl hf
    · exact .inr (hw.tablePage_of_role ht)
    · exact hc.elim
  constructor
  case leaf =>
    intro p' r' v hr' hv
    obtain ⟨o', _, rfl, _, _, hsp'⟩ := h.root_owned hr'
    by_cases hc : o'.root ≠ o.root ∨ v < npages o.sz ∨ tfV ≤ v
    · exact hk.leaf _ _ v hsp' hv hc
    -- 伸ばそうとした範囲には、前も後も写像がない。
    have he : o'.root = o.root := by
      by_contra hne
      exact hc (.inl hne)
    have hout : v ∉ o.shape.dom := fun hd => hc (.inr (.inl (Finset.mem_range.mp hd)))
    have hlow : v < tfV := by omega
    rw [he, (hw.space _ _ hsp).empty v hlow hout, (h.world.space _ _ hsp).empty v hlow hout]
  case mem =>
    intro p' r' v hr' hv hV
    obtain ⟨hfree, htab⟩ := h.leaf_used hr' hv hV
    exact hk.mem _ hfree (htab _)
  case refcnt =>
    intro q
    by_cases hq : role q = .free
    · rcases hnew q hq with hf | ht
      · have h0 := h.world.counts q
        have h1 := hw.counts q
        rw [hq] at h0
        rw [hf] at h1
        exact .inl (Eq.trans h1 (Eq.symm h0))
      · exact .inr ⟨(h.world.free q).mpr hq, ht⟩
    · exact .inl (hk.refcnt q hq)
  case free =>
    intro q
    refine ⟨fun hq => ?_, fun hq => ?_⟩
    · by_contra hne
      have hrole : role q ≠ .free := fun hc => hne ((h.world.free q).mpr hc)
      have hq' := (hw.free q).mp hq
      rw [hk.roles q hrole] at hq'
      exact hrole hq'
    · rcases hnew q ((h.world.free q).mp hq) with hf | ht
      · exact .inl ((hw.free q).mpr hf)
      · exact .inr ht
  case returned =>
    rw [(h.of_some ho).2.2.2]
    obtain ⟨_, k'', hok, role'', hg⟩ := wp_exists (procFreepagetable_spec hw hsp)
    refine ⟨k'', hok, fun q hq => ?_⟩
    obtain ⟨path, ht⟩ := hw.tablePage hsp hq
    exact (hg.world.free q).mpr (hg.table q path ht)

/-- どこで空きページが尽きても、失敗した `uvmalloc` と `growproc` は何も変えない。 -/
theorem failed_growth_undone (h : Reachable L s) (hr : (s.proc p).pagetable = some r) :
    (∀ newsz xperm, (s.proc p).sz < newsz → pteR ||| pteU ||| xperm < 1024 →
      ∃ res k', uvmalloc L r (s.proc p).sz newsz xperm s.k = .ok (res, k') ∧ (res = 0 → Undone L s p r k')) ∧
    ∀ n : Int, ∃ res s', growproc L p n s = .ok (res, s') ∧
      (res ≠ 0 → s' = { s with k := s'.k } ∧ Undone L s p r s'.k) := by
  obtain ⟨role, as, own, hi⟩ := h.inv
  obtain ⟨o, ho, rfl, _, hsz, hsp⟩ := hi.root_owned hr
  rw [hsz]
  refine ⟨fun newsz xperm hlt hx => ?_, fun n => ?_⟩
  · have hsp' : as o.root = some { o.shape with dom := Finset.range (npages o.sz) } := hsp
    obtain ⟨res, k', hok, role', hpost⟩ := wp_exists (uvmalloc_spent hi.world hsp' hx)
    refine ⟨res, k', hok, fun h0 => ?_⟩
    rcases hpost with ⟨hlt', _⟩ | ⟨_, hres, _⟩ | ⟨_, _, hw, hk, hs, _⟩
    · omega
    · omega
    · exact hi.undone ho hw hk hs
  · obtain ⟨res, s', hok, role', hstep⟩ := wp_exists (growproc_step hi ho n)
    refine ⟨res, s', hok, fun hne => ?_⟩
    cases hstep with
    | failed hn hw hk hs hf => exact ⟨rfl, hi.undone ho hw hk hs⟩
    | grown | shrunk | same => exact absurd rfl hne

theorem failed_growth_undone_noPages : ∃ s k', Reachable exampleLayout s ∧
    uvmalloc exampleLayout (kernbase + 65) pgsize (3 * pgsize) pteW s.k = .ok (0, k') ∧
    Undone exampleLayout s exampleProc (kernbase + 65) k' := by
  obtain ⟨s, hr, hc⟩ := example_exists (n := 8) (by decide) (by decide) []
    (fun s => decide ((s.proc exampleProc).pagetable = some (kernbase + 65) ∧ (s.proc exampleProc).sz = pgsize ∧
      (uvmalloc exampleLayout (kernbase + 65) pgsize (3 * pgsize) pteW s.k).toOption.map (·.1) = some 0))
    (by decide +kernel)
  obtain ⟨hpt, hsz, hres⟩ := of_decide_eq_true hc
  obtain ⟨res, k', hok, hu⟩ := (failed_growth_undone hr hpt).1 (3 * pgsize) pteW (by rw [hsz]; decide) (by decide)
  rw [hsz] at hok
  rw [hok] at hres
  obtain rfl : res = 0 := by simpa [Except.toOption] using hres
  exact ⟨s, k', hr, hok, hu rfl⟩

/-! ## 伸び縮みの正しさ -/

/-- 大きさが `sz` から `sz'` になった。小さい方より前のバイトは変わらず、増えたページは 0 で埋まり、減ったページの参照は
一つ減る。 -/
structure Resized (s s' : Kernel) (r sz sz' : Nat) : Prop where
  keep : ∀ a < min sz sz', s'.k.byte r (a / pgsize) (a % pgsize) = s.k.byte r (a / pgsize) (a % pgsize)
  zero : ∀ v, npages sz ≤ v → v < npages sz' → has (s'.k.leaf r v) pteV ∧ has (s'.k.leaf r v) pteU ∧
    ∀ i < pgsize, s'.k.byte r v i = 0
  unmapped : ∀ v, npages sz' ≤ v → v < tfV → s'.k.leaf r v = 0
  released : ∀ v, npages sz' ≤ v → v < npages sz →
    s'.k.refcnt (pte2pa (s.k.leaf r v)) = s.k.refcnt (pte2pa (s.k.leaf r v)) - 1 ∧
      (s.k.refcnt (pte2pa (s.k.leaf r v)) = 1 → pte2pa (s.k.leaf r v) ∈ s'.k.freelist)

section

variable (h : Inv L s role as own) (ho : own p = some o)
include h ho

theorem Growing.resized {n} {s'}
    (hg : Growing L o.root (npages o.sz) (pteR ||| pteU ||| pteW) o.shape s.k role as (npages (o.sz + n)) s'.k role') :
    Resized s s' o.root o.sz (o.sz + n) := by
  have hsp := h.space p o ho
  have hself : update as o.root (some { o.shape with dom := Finset.range (npages (o.sz + n)) }) o.root =
      some { o.shape with dom := Finset.range (npages (o.sz + n)) } := update_self ..
  have hs' := hg.world.space _ _ hself
  constructor
  case keep =>
    intro a ha
    have hv := page_lt_npages (show a < o.sz by omega)
    exact (hg.kept.seen h.world hsp (Finset.mem_range.mpr hv) (.inr hv)).2 _ (Nat.mod_lt _ (by decide))
  case zero =>
    intro v h1 h2
    refine ⟨hs'.valid v (Finset.mem_range.mpr h2), ?_, hg.zero v h1 h2⟩
    rw [show pteU = 2 ^ 4 from rfl, ← has_pteFlags (by decide), hg.flags v h1 h2]
    decide
  case unmapped =>
    intro v h1 h2
    exact hs'.empty v h2 (by simpa using h1)
  case released =>
    intro v h1 h2
    have := npages_mono (show o.sz ≤ o.sz + n by omega)
    omega

theorem Unmapped.resized {n} {s'} (hn : n ≤ o.sz)
    (hu : Unmapped L as o.root (npages n) (npages o.sz - npages n) o.shape s.k role s'.k role') :
    Resized s s' o.root o.sz n := by
  have hsp := h.space p o ho
  have hs := h.world.space _ _ hsp
  have hmono := npages_mono hn
  constructor
  case keep =>
    intro a ha
    have hv := page_lt_npages (show a < n by omega)
    exact (hu.seen h.world hsp (Finset.mem_range.mpr (by omega)) hsp (.inr (by omega))).2 _ (Nat.mod_lt _ (by decide))
  case zero =>
    intro v h1 h2
    omega
  case unmapped =>
    intro v h1 h2
    rw [hu.leaf _ _ v hsp (h2.trans (by decide))]
    split
    · rfl
    · exact hs.empty v h2 fun hd => by
        have := Finset.mem_range.mp hd
        omega
  case released =>
    intro v h1 h2
    have href := hu.refIn v h1 (by omega)
    refine ⟨href, fun h1 => ?_⟩
    have hrole := hu.user _ (hs.user v (Finset.mem_range.mpr h2))
    rw [href, h1] at hrole
    exact (hu.world.free _).mpr hrole

theorem Resized.refl : Resized s s o.root o.sz o.sz where
  keep _ _ := rfl
  zero v h1 h2 := by omega
  unmapped v h1 h2 := (h.world.space _ _ (h.space p o ho)).empty v h2 fun hd => by
    have := Finset.mem_range.mp hd
    omega
  released v h1 h2 := by omega

end

/-- `growproc(n)` が 0 を返せば大きさはちょうど `n` だけ変わる、ということが成り立つのは、`n` が大きさより深く負でないときに限る。 -/
theorem growproc_exact_iff (h : Reachable L s) (hr : (s.proc p).pagetable = some r) (n : Int) :
    ∃ res s', growproc L p n s = .ok (res, s') ∧
      ((res = 0 → ((s'.proc p).sz : Int) = (s.proc p).sz + n ∧ Resized s s' r (s.proc p).sz (s'.proc p).sz) ↔
        0 ≤ ((s.proc p).sz : Int) + n) := by
  obtain ⟨role, as, own, hi⟩ := h.inv
  obtain ⟨o, ho, rfl, _, hsz, hsp⟩ := hi.root_owned hr
  rw [hsz]
  obtain ⟨res, s', hok, role', hstep⟩ := wp_exists (growproc_step hi ho n)
  refine ⟨res, s', hok, fun hexact => ?_, fun hn h0 => ?_⟩
  · -- 縮めるときは必ず 0 を返す。
    cases hstep with
    | failed hpos | grown hpos | same hn0 => omega
    | shrunk hneg =>
      have := (hexact rfl).1
      omega
  cases hstep with
  | failed => cases h0
  | grown hpos hg =>
    simp only [Kernel.setProc, update_self]
    exact ⟨by omega, hg.resized hi ho⟩
  | @shrunk k' _ newsz hneg hnew hu =>
    have hlt := hi.sz_lt ho
    have hle : newsz ≤ o.sz := by omega
    simp only [Kernel.setProc, update_self, Nat.min_eq_right hle]
    exact ⟨by omega, hu.resized hi ho hle⟩
  | same hn0 =>
    rw [hsz]
    exact ⟨by omega, .refl hi ho⟩

theorem growproc_exact_iff_shrink : ∃ s s', Reachable exampleLayout s ∧
    growproc exampleLayout exampleProc (-1) s = .ok (0, s') ∧ (s'.proc exampleProc).sz = 4095 := by
  obtain ⟨s, hr, hc⟩ := example_exists (n := 8) (by decide) (by decide) []
    (fun s => decide ((s.proc exampleProc).pagetable = some (kernbase + 65) ∧ (s.proc exampleProc).sz = pgsize ∧
      (growproc exampleLayout exampleProc (-1) s).toOption.map (·.1) = some 0)) (by decide +kernel)
  obtain ⟨hpt, hsz, hres⟩ := of_decide_eq_true hc
  obtain ⟨res, s', hok, hiff⟩ := growproc_exact_iff hr hpt (-1)
  rw [hok] at hres
  obtain rfl : res = 0 := by simpa [Except.toOption] using hres
  have hsz' := (hiff.mpr (by rw [hsz]; decide) rfl).1
  rw [hsz] at hsz'
  exact ⟨s, s', hr, hok, by simp only [pgsize] at hsz'; omega⟩

/-- 大きさより深く負の `n` では、和が 2^64 を法として折り返し、`growproc` は何もせずに 0 を返す。 -/
theorem growproc_wraps : ∃ s s', Reachable exampleLayout s ∧ (s.proc exampleProc).sz = 4096 ∧
    growproc exampleLayout exampleProc (-4097) s = .ok (0, s') ∧
    ((s'.proc exampleProc).sz : Int) ≠ (s.proc exampleProc).sz + (-4097) := by
  obtain ⟨s, hr, hc⟩ := example_exists (n := 8) (by decide) (by decide) []
    (fun s => decide ((s.proc exampleProc).sz = 4096 ∧
      (growproc exampleLayout exampleProc (-4097) s).toOption.map (fun x => (x.1, (x.2.proc exampleProc).sz)) =
        some (0, 4096))) (by decide +kernel)
  obtain ⟨hsz, hres⟩ := of_decide_eq_true hc
  cases hok : growproc exampleLayout exampleProc (-4097) s with
  | error e =>
    rw [hok] at hres
    cases hres
  | ok x =>
    rw [hok] at hres
    obtain ⟨h1, h2⟩ : x.1 = 0 ∧ (x.2.proc exampleProc).sz = 4096 := by simpa [Except.toOption] using hres
    refine ⟨s, x.2, hr, hsz, ?_, ?_⟩
    · rw [← h1, hok]
    · rw [h2, hsz]
      decide

end Xv6.Vm
