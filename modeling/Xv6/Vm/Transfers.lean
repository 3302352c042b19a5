import Xv6.Vm.Theorems
import Xv6.Vm.Lemmas.Str

/-!
# 転送の正確さ

`copyout`、`copyin`、`copyinstr` が成功する条件と、成功したときに変わるものを述べる。
-/

namespace Xv6.Vm

open Xv6.Lib

variable {L : Layout} {k k' : Kmem} {role role' : Nat → Role} {as : Nat → Option Shape} {r : Nat} {sh : Shape}
variable {s : Kernel} {p : Fin nproc} {own : Fin nproc → Option Own}

/-! ## `copyout` と `copyin` -/

/-- ページ表 `r` の番地 `a` に見えるもの。ユーザーに許されるかどうかと、そのバイトである。 -/
def Kmem.see (k : Kmem) (r a : Nat) : Option (Bool × UInt8) :=
  if a < maxva ∧ has (k.leaf r (a / pgsize)) pteV then some (has (k.leaf r (a / pgsize)) pteU, k.at r a) else none

/-- すべてのページ表が正しい形をしていて、trapframe はカーネルの持つページである。 -/
structure WellFormed (L : Layout) (k : Kmem) (role : Nat → Role) (as : Nat → Option Shape) : Prop
    extends World L k role as where
  held : ∀ r sh t, as r = some sh → sh.tf = some t → role t = .held

theorem Inv.wellFormed (h : Inv L s role as own) : WellFormed L s.k role as where
  toWorld := h.world
  held r sh t hr ht := by
    obtain ⟨p, o, ho, rfl⟩ := h.owner r sh hr
    have hsp := h.space p o ho
    rw [hr] at hsp
    cases hsp
    cases ht
    exact h.held p o ho

theorem WellFormed.top_kept (h : WellFormed L k role as) (hr : as r = some sh) {r' u sh'}
    (hr' : as r' = some sh') (hu : u < 2 ^ 26) (hd : u ∉ sh'.dom) (hV : has (k.leaf r' u) pteV) :
    ¬Mine k role r sh.dom (pte2pa (k.leaf r' u)) ∧ ∀ path, role (pte2pa (k.leaf r' u)) ≠ .table r path := by
  have hs := h.space r' sh' hr'
  have hrole : role (pte2pa (k.leaf r' u)) = .held ∨ role (pte2pa (k.leaf r' u)) = .other := by
    obtain rfl | rfl := hs.top_of_ne_zero hu hd (ne_zero_of_has hV)
    · cases ht : sh'.tf with
      | none =>
        have hl := hs.trapframe
        rw [ht] at hl
        rw [hl, has_zero] at hV
        cases hV
      | some t =>
        have hl := hs.trapframe
        rw [ht] at hl
        rw [hl, pte2pa_add (by decide)]
        exact .inl (h.held r' sh' t hr' ht)
    have hl := hs.tramp
    split at hl
    · rw [hl, pte2pa_add (by decide)]
      refine .inr ?_
      by_contra hne
      have hrange := (h.range _ hne).1
      have := L.below
      omega
    · rw [hl, has_zero] at hV
      cases hV
  have hmine : ¬Mine k role r sh.dom (pte2pa (k.leaf r' u)) := by
    rintro (hf | ⟨v, hv, he⟩)
    · simp [hf] at hrole
    · have huser := (h.space r sh hr).user v hv
      rw [he] at huser
      simp [huser] at hrole
  exact ⟨hmine, fun path hc => by simp [hc] at hrole⟩

theorem Rewritten.see {val} (h : WellFormed L k role as) (hr : as r = some sh)
    (hw : Rewritten L as r sh val k role k' role') {r' a sh'} (hr' : as r' = some sh')
    (ha : r' ≠ r ∨ val a = none) : k'.see r' a = k.see r' a := by
  rw [Kmem.see, Kmem.see]
  by_cases hlt : a < maxva
  case neg => rw [if_neg fun hc => hlt hc.1, if_neg fun hc => hlt hc.1]
  have hu := div_lt_of_lt_maxva hlt
  have hmod := Nat.mod_lt a (show 0 < pgsize by decide)
  by_cases hd : a / pgsize ∈ sh'.dom
  · have hV := (h.space r' sh' hr').valid _ hd
    have hV' := (hw.world.space r' sh' hr').valid _ hd
    have hsame : has (k'.leaf r' (a / pgsize)) pteU = has (k.leaf r' (a / pgsize)) pteU ∧ k'.at r' a = k.at r' a := by
      by_cases he : r' = r
      · subst he
        rw [hr] at hr'
        cases hr'
        have hval : val (a / pgsize * pgsize + a % pgsize) = none := by
          rw [Nat.div_add_mod']
          exact ha.resolve_left (by simp)
        refine ⟨hw.user _ hd, ?_⟩
        rw [Kmem.at, hw.bytes _ hd _ hmod, hval]
        rfl
      · have := hw.seen r' sh' _ hr' he hd
        exact ⟨this.1, this.2 _ hmod⟩
    rw [if_pos ⟨hlt, hV'⟩, if_pos ⟨hlt, hV⟩, hsame.1, hsame.2]
  have hleaf : k'.leaf r' (a / pgsize) = k.leaf r' (a / pgsize) := by
    refine hw.leaf r' sh' _ hr' hu ?_
    by_cases he : r' = r
    · subst he
      rw [hr] at hr'
      cases hr'
      exact .inr hd
    · exact .inl he
  rw [hleaf]
  by_cases hV : has (k.leaf r' (a / pgsize)) pteV
  · obtain ⟨hm, ht⟩ := h.top_kept hr hr' hu hd hV
    rw [Kmem.at, Kmem.at, Kmem.byte, Kmem.byte, hleaf, (hw.kept _ hm).2.2 ht]
  · rw [if_neg fun hc => hV hc.2, if_neg fun hc => hV hc.2]

theorem copyin_exact (hz : k.NoZero r) (dst : Bytes) (srcva len : Nat) :
    ∃ res dst', copyin r dst srcva len k = .ok ((res, dst'), k) ∧ (res = 0 ↔ k.Covers r srcva len) ∧
      (res = 0 → dst' = blit dst 0 (k.at r) srcva len) := by
  obtain ⟨⟨res, dst'⟩, k', hok, rfl, hres⟩ :=
    wp_exists (copyinLoop_exact hz len dst 0 srcva (Nat.le_refl len))
  refine ⟨res, dst', hok, ?_⟩
  rcases hres with ⟨h1, h2, h3⟩ | ⟨h1, h2⟩
  · exact ⟨⟨fun _ => h2, fun _ => h1⟩, fun _ => h3⟩
  · have hne : res ≠ 0 := fun h0 => by
      rw [show res = -1 from h1] at h0
      cases h0
    exact ⟨⟨fun h0 => (hne h0).elim, fun hc => (h2 hc).elim⟩, fun h0 => (hne h0).elim⟩

/-- 範囲のすべてのページに届くときに限り、`copyout` と `copyin` は成功する。書いたバイトは `copyin` で読み戻せ、ほかのバ
イトは変わらない。どの番地でもカーネルは止まらない。 -/
theorem copyout_copyin_exact (h : WellFormed L k role as) (hr : as r = some sh) (va len : Nat) (src : Bytes) :
    (∃ res k', copyout L r va src len k = .ok (res, k') ∧
      (k'.failed = k.failed → (res = 0 ↔ k.Covers r va len)) ∧
      (res = 0 →
        (∀ dst, copyin r dst va len k' = .ok ((0, blit dst 0 src 0 len), k')) ∧
        (∀ a, ¬(va ≤ a ∧ a < va + len) → k'.see r a = k.see r a) ∧
        ∀ r' sh' a, r' ≠ r → as r' = some sh' → k'.see r' a = k.see r' a)) ∧
    ∀ dst, ∃ res dst', copyin r dst va len k = .ok ((res, dst'), k) ∧ (res = 0 ↔ k.Covers r va len) := by
  refine ⟨?_, fun dst => ?_⟩
  case refine_2 =>
    obtain ⟨res, dst', hok, hiff, _⟩ := copyin_exact (h.noZero hr) dst va len
    exact ⟨res, dst', hok, hiff⟩
  obtain ⟨res, k', hok, role', m, hm, hw, hcov, hcase⟩ :=
    wp_exists (copyoutLoop_rewrites hr src len va 0 h.toWorld (Nat.le_refl len))
  refine ⟨res, k', hok, fun hf => ?_, fun h0 => ?_⟩
  · rcases hcase with ⟨rfl, rfl, _⟩ | ⟨rfl, hlt | ⟨hlt, hnone, _⟩⟩
    · exact ⟨fun _ => hcov, fun _ => rfl⟩
    · omega
    · exact ⟨nofun, fun hc => (Kmem.not_covers hnone hlt hc).elim⟩
  rcases hcase with ⟨rfl, rfl, _⟩ | ⟨rfl, _⟩
  case inr => cases h0
  refine ⟨fun dst => ?_, fun a ha => ?_, fun r' sh' a hne hr' => hw.see h hr hr' (.inl hne)⟩
  · obtain ⟨res, dst', hin, hiff, hdst⟩ := copyin_exact (hw.world.noZero hr) dst va m
    have h0 : res = 0 := hiff.mpr ((hw.covers h.toWorld hr va m).mpr hcov)
    rw [hin, h0, hdst h0]
    -- 範囲のバイトは、書いた `src` である。
    have hbytes : ∀ x < m, k'.at r (va + x) = src (0 + x) := by
      intro x hx
      obtain ⟨q, hq⟩ := Option.isSome_iff_exists.mp (Kmem.covers_iff.mp hcov (va + x) (by omega) (by omega))
      rw [hw.at_eq (h.access_some hr hq).1, written, if_pos (by omega), Option.getD_some, Nat.add_sub_cancel_left]
    rw [blit_shift hbytes]
  · exact hw.see h hr hr (.inr (by rw [written, if_neg ha]))

theorem copyout_copyin_exact_boundary : ∃ s res k', Reachable exampleLayout s ∧
    copyout exampleLayout (kernbase + 65) 4090 (fun _ => 7) 12 s.k = .ok (res, k') ∧
    (k'.failed = s.k.failed → (res = 0 ↔ s.k.Covers (kernbase + 65) 4090 12)) := by
  obtain ⟨s, hr, hc⟩ := example_exists (n := 20) (by decide) (by decide) []
    (fun s => decide ((s.proc exampleProc).pagetable = some (kernbase + 65))) (by decide +kernel)
  obtain ⟨role, as, own, hi⟩ := hr.inv
  obtain ⟨o, _, ho, _, _, hsp⟩ := hi.root_owned (of_decide_eq_true hc)
  obtain ⟨⟨res, k', hok, hiff, _⟩, _⟩ := copyout_copyin_exact hi.wellFormed hsp 4090 12 fun _ => 7
  exact ⟨s, res, k', hr, hok, hiff⟩

theorem Reachable.noZero (h : Reachable L s) (p : Fin nproc) (hr : (s.proc p).pagetable = some r) : s.k.NoZero r := by
  obtain ⟨role, as, own, hi⟩ := h.inv
  obtain ⟨o, _, rfl, _, _, hsp⟩ := hi.root_owned hr
  exact hi.world.noZero hsp

/-- `copyinstr` は、`max` バイトのうちに NUL で終わる文字列が読めるときに限り成功し、それをちょうど写す。`fetchstr` と `argstr` はその長さを返す。 -/
theorem copyinstr_exact :
    (∀ k r, Kmem.NoZero k r → ∀ dst srcva max, ∃ res dst',
      copyinstr r dst srcva max k = .ok ((res, dst'), k) ∧ Copyinstr k r srcva max dst res dst') ∧
    (∀ s p r, Kmem.NoZero s.k r → (s.proc p).pagetable = some r →
      (∀ addr buf max, ∃ res buf', fetchstr p addr buf max s = .ok ((res, buf'), s) ∧
        Fetchstr s.k r addr max buf res buf') ∧
      ∀ n < 6, ∀ buf max, ∃ res buf', argstr p n buf max s = .ok ((res, buf'), s) ∧
        Fetchstr s.k r (s.k.pte ((s.proc p).trapframe.getD 0) (14 + n)) max buf res buf') ∧
    ∀ s p r, Reachable L s → (s.proc p).pagetable = some r → Kmem.NoZero s.k r := by
  refine ⟨fun k r hz dst srcva max => ?_, fun s p r hz hr => ?_, fun s p r h hr => h.noZero p hr⟩
  · obtain ⟨⟨res, dst'⟩, k', hok, rfl, hc⟩ := wp_exists (copyinstr_spec hz dst srcva max)
    exact ⟨res, dst', hok, hc⟩
  have hget : (s.proc p).pagetable.getD 0 = r := by rw [hr, Option.getD_some]
  rw [← hget] at hz ⊢
  refine ⟨fun addr buf max => ?_, fun n hn buf max => ?_⟩
  · obtain ⟨⟨res, buf'⟩, s', hok, rfl, hc⟩ := wp_exists (fetchstr_spec hz addr buf max)
    exact ⟨res, buf', hok, hc⟩
  have harg : wp (argstr p n buf max) (fun res s' => s' = s ∧
      Fetchstr s.k ((s.proc p).pagetable.getD 0) (s.k.pte ((s.proc p).trapframe.getD 0) (14 + n)) max buf
        res.1 res.2) (fun _ => False) s := by
    rw [argstr, wp_bind]
    refine wp_post (argraw_spec hn) ?_
    intro a s' ha
    rw [ha.1, ha.2]
    exact fetchstr_spec hz _ buf max
  obtain ⟨⟨res, buf'⟩, s', hok, rfl, hc⟩ := wp_exists harg
  exact ⟨res, buf', hok, hc⟩

theorem copyinstr_exact_init : ∃ s r buf, Reachable exampleLayout s ∧ (s.proc exampleProc).pagetable = some r ∧
    fetchstr exampleProc 36 (fun _ => 0) maxpath s = .ok ((5, buf), s) ∧
    Fetchstr s.k r 36 maxpath (fun _ => 0) 5 buf := by
  obtain ⟨s, hr, hc⟩ := example_exists (n := 8) (by decide) (by decide) []
    (fun s => decide ((s.proc exampleProc).pagetable = some (kernbase + 65) ∧
      (fetchstr exampleProc 36 (fun _ => 0) maxpath s).toOption.map (·.1.1) = some 5)) (by decide +kernel)
  obtain ⟨hpt, hres⟩ := of_decide_eq_true hc
  obtain ⟨_, hstr, hz⟩ := copyinstr_exact (L := exampleLayout)
  obtain ⟨res, buf, hok, hf⟩ := (hstr s exampleProc _ (hz s exampleProc _ hr hpt) hpt).1 36 (fun _ => 0) maxpath
  rw [hok] at hres
  obtain rfl : res = 5 := by simpa [Except.toOption] using hres
  exact ⟨s, _, buf, hr, hpt, hok, hf⟩

end Xv6.Vm
