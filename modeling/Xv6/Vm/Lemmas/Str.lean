import Xv6.Vm.Syscall
import Xv6.Vm.Lemmas.Proc

/-!
# 文字列と整数の取り出し
-/

namespace Xv6.Vm

open Xv6.Lib

variable {L : Layout} {k : Kmem} {role : Nat → Role} {as : Nat → Option Shape} {r : Nat} {sh : Shape}
variable {s : Kernel} {p : Fin nproc} {E : String → Prop}

def Kmem.NoZero (k : Kmem) (r : Nat) : Prop :=
  ∀ v < 2 ^ 26, has (k.leaf r v) pteV → has (k.leaf r v) pteU → pte2pa (k.leaf r v) ≠ 0

/-- 番地 `a` から、長さ `j` の NUL で終わる文字列が読める。 -/
structure IsString (k : Kmem) (r a j : Nat) : Prop where
  nul : k.at r (a + j) = 0
  text : ∀ i < j, k.at r (a + i) ≠ 0
  covers : k.Covers r a (j + 1)

theorem World.noZero (h : World L k role as) (hr : as r = some sh) : k.NoZero r := by
  intro v hv hV hU
  have hlt := page_lt_maxva hv
  have hdiv : v * pgsize / pgsize = v := Nat.mul_div_cancel _ (by decide)
  have hacc : k.access r (v * pgsize) pteU = some (pte2pa (k.leaf r v)) := by
    rw [Kmem.access, hdiv, if_pos ⟨hlt, hV, hU, hU⟩]
  exact h.access_ne_zero hr hacc

theorem wp_walkaddr_any {va Q} :
    wp (walkaddr r va) Q E k ↔ Q ((k.access r va pteU).getD 0) k := by
  by_cases hva : va < maxva
  case neg =>
    simp only [walkaddr, if_pos (Nat.le_of_not_lt hva), wp_pure, Kmem.access]
    rw [if_neg fun hc => hva hc.1]
    rfl
  have hge : ¬va ≥ maxva := by omega
  have hfind : k.find (va / pgsize * pgsize) 2 r = k.find va 2 r := Typed.find_page ..
  simp only [walkaddr, if_neg hge, wp_bind, wp_walk_false hva, Kmem.access]
  cases hf : k.find va 2 r with
  | none =>
    have hleaf : k.leaf r (va / pgsize) = 0 := by rw [Kmem.leaf, hfind, hf]
    simp [hleaf, has_zero]
  | some x =>
    obtain ⟨q, i⟩ := x
    have hleaf : k.leaf r (va / pgsize) = k.pte q i := by rw [Kmem.leaf, hfind, hf]
    simp only [wp_bind, wp_get, wp_ite, wp_pure, hleaf, hva, true_and]
    cases hV : has (k.pte q i) pteV <;> cases hU : has (k.pte q i) pteU <;> simp

theorem Kmem.NoZero.access (hz : k.NoZero r) {a q} (ha : k.access r a pteU = some q) :
    q ≠ 0 ∧ q = pte2pa (k.leaf r (a / pgsize)) := by
  rw [Kmem.access] at ha
  split at ha
  case isFalse => cases ha
  case isTrue hc =>
    cases ha
    refine ⟨hz _ ?_ hc.2.1 hc.2.2.1, rfl⟩
    have := hc.1
    simp only [maxva, pgsize] at this ⊢
    omega

/-- 一ページの中なら、先頭が読めれば全て読める。 -/
theorem Kmem.covers_page {a n q} (ha : k.access r a pteU = some q) (hn : a % pgsize + n ≤ pgsize) :
    k.Covers r a n := by
  rw [Kmem.covers_iff]
  intro b h1 h2
  have hb : b / pgsize = a / pgsize := by
    simp only [pgsize] at h2 hn ⊢
    omega
  have hlt : b < maxva ↔ a < maxva := by
    simp only [pgsize, maxva] at hb ⊢
    omega
  have : k.access r b pteU = k.access r a pteU := by simp only [Kmem.access, hb, hlt]
  rw [this, ha]
  rfl

theorem Kmem.covers_append {a n m} : k.Covers r a (n + m) ↔ k.Covers r a n ∧ k.Covers r (a + n) m := by
  refine ⟨fun h => ⟨fun b h1 h2 => h b h1 (by omega), fun b h1 h2 => h b (by omega) (by omega)⟩, fun h b h1 h2 => ?_⟩
  by_cases hb : b < a + n
  · exact h.1 b h1 hb
  · exact h.2 b (by omega) (by omega)

theorem Kmem.not_covers {a m n} (h : k.access r (a + m) pteU = none) (hm : m < n) : ¬k.Covers r a n := by
  rw [Kmem.covers_iff]
  intro hc
  have := hc (a + m) (by omega) (by omega)
  rw [h] at this
  cases this

theorem Kmem.at_page {a x} (hx : a % pgsize + x < pgsize) :
    k.at r (a + x) = k.mem (pte2pa (k.leaf r (a / pgsize))) (a % pgsize + x) := by
  have h1 : (a + x) / pgsize = a / pgsize := by
    simp only [pgsize] at hx ⊢
    omega
  have h2 : (a + x) % pgsize = a % pgsize + x := by
    simp only [pgsize] at hx ⊢
    omega
  rw [Kmem.at, Kmem.byte, h1, h2]

theorem copyinLoop_zero {fuel dst d a} : copyinLoop r fuel dst d a 0 = pure (0, dst) := by cases fuel <;> rfl

theorem copyinstrLoop_zero {fuel dst d a} : copyinstrLoop r fuel dst d a 0 = pure (-1, dst) := by cases fuel <;> rfl

theorem copyinLoop_exact (hz : k.NoZero r) (fuel : Nat) : ∀ (dst : Bytes) (d srcva : Nat) {len : Nat}, len ≤ fuel →
    wp (copyinLoop r fuel dst d srcva len) (fun res k' => k' = k ∧
      (res.1 = 0 ∧ k.Covers r srcva len ∧ res.2 = blit dst d (k.at r) srcva len ∨
        res.1 = -1 ∧ ¬k.Covers r srcva len)) E k := by
  induction fuel with
  | zero =>
    intro dst d srcva len hlen
    obtain rfl : len = 0 := by omega
    exact ⟨rfl, .inl ⟨rfl, fun a h1 h2 => by omega, (blit_zero ..).symm⟩⟩
  | succ fuel ih =>
    intro dst d srcva len hlen
    simp only [copyinLoop, wp_ite]
    refine ⟨fun h0 => ?_, fun h0 => ?_⟩
    · subst h0
      exact ⟨rfl, .inl ⟨rfl, fun a h1 h2 => by omega, (blit_zero ..).symm⟩⟩
    rw [wp_bind, wp_walkaddr_any, access_pgrounddown]
    cases ha : k.access r srcva pteU with
    | none =>
      simp only [Option.getD_none, if_true, wp_pure]
      exact ⟨trivial, .inr ⟨trivial, Kmem.not_covers (m := 0) ha (by omega)⟩⟩
    | some q =>
      obtain ⟨hq0, hq⟩ := hz.access ha
      simp only [Option.getD_some, if_neg hq0, wp_bind, wp_get, sub_pgrounddown]
      have hmod := Nat.mod_lt srcva (show 0 < pgsize by decide)
      obtain ⟨n, hn⟩ : ∃ n, n = min (pgsize - srcva % pgsize) len := ⟨_, rfl⟩
      rw [← hn]
      have hcov := Kmem.covers_page ha (n := n) (by omega)
      by_cases hend : n = len
      · -- 最後のページである。
        rw [show len - n = 0 by omega, copyinLoop_zero]
        refine ⟨rfl, .inl ⟨rfl, hend ▸ hcov, ?_⟩⟩
        have hlen' : n = len := by omega
        rw [hlen'] at hn ⊢
        exact blit_shift fun x hx => by rw [Kmem.at_page (by omega), hq]
      rw [pgrounddown_next hn hend]
      refine wp_post (ih _ _ _ (by omega)) ?_
      rintro res k' ⟨rfl, hres⟩
      have hsplit : k'.Covers r srcva len ↔ k'.Covers r (srcva + n) (len - n) := by
        have := Kmem.covers_append (k := k') (r := r) (a := srcva) (n := n) (m := len - n)
        rw [show n + (len - n) = len by omega] at this
        rw [this, and_iff_right hcov]
      refine ⟨rfl, ?_⟩
      rw [hsplit]
      refine hres.imp_left ?_
      rintro ⟨h1, h2, h3⟩
      refine ⟨h1, h2, h3.trans ?_⟩
      exact blit_append (by omega) fun x hx => by rw [Kmem.at_page (by omega), hq]

theorem copyinstrPage_spec (page : Bytes) (n : Nat) : ∀ (i : Nat) (dst : Bytes) (d : Nat),
    (∃ j < n, page (i + j) = 0 ∧ (∀ l < j, page (i + l) ≠ 0) ∧
      copyinstrPage page n i dst d = (true, blit dst d page i (j + 1), d + j)) ∨
    (∀ l < n, page (i + l) ≠ 0) ∧ copyinstrPage page n i dst d = (false, blit dst d page i n, d + n) := by
  induction n with
  | zero =>
    intro i dst d
    exact .inr ⟨fun l hl => by omega, by simp [copyinstrPage]⟩
  | succ n ih =>
    intro i dst d
    by_cases h0 : page i = 0
    · refine .inl ⟨0, by omega, h0, fun l hl => by omega, ?_⟩
      simp only [copyinstrPage, if_pos h0, Nat.add_zero, Nat.zero_add, Prod.mk.injEq, true_and, and_true]
      funext x
      by_cases hx : x = d
      · subst hx
        rw [update_self, blit_in le_rfl (by omega), Nat.sub_self, Nat.add_zero, h0]
      · rw [update_of_ne hx, blit_out (by omega)]
    -- 先頭の一バイトを写し、残りを帰納法の仮定で写す。
    have hblit : ∀ m, blit (update dst d (page i)) (d + 1) page (i + 1) m = blit dst d page i (m + 1) := by
      intro m
      have happ : blit (blit dst d page i 1) (d + 1) page (i + 1) (m + 1 - 1) = blit dst d page i (m + 1) :=
        blit_append (by omega) fun x _ => rfl
      have hone : blit dst d page i 1 = update dst d (page i) := by
        funext x
        by_cases hx : x = d
        · subst hx
          rw [update_self, blit_in le_rfl (by omega), Nat.sub_self, Nat.add_zero]
        · rw [update_of_ne hx, blit_out (by omega)]
      rw [← happ, hone, Nat.add_sub_cancel]
    simp only [copyinstrPage, if_neg h0]
    have hstep : ∀ l, i + 1 + l = i + (l + 1) := fun l => by omega
    have hshift : ∀ {m : Nat}, (∀ l < m, page (i + 1 + l) ≠ 0) → ∀ l < m + 1, page (i + l) ≠ 0 := by
      intro m hm l hl
      cases l with
      | zero => exact h0
      | succ l =>
        rw [← hstep]
        exact hm l (by omega)
    rcases ih (i + 1) (update dst d (page i)) (d + 1) with ⟨j, hj, hnul, hne, he⟩ | ⟨hne, he⟩
    · refine .inl ⟨j + 1, by omega, by rw [← hstep]; exact hnul, hshift hne, ?_⟩
      rw [he, hblit]
      exact Prod.ext rfl (Prod.ext rfl (by simp only; omega))
    · refine .inr ⟨hshift hne, ?_⟩
      rw [he, hblit]
      exact Prod.ext rfl (Prod.ext rfl (by simp only; omega))

theorem copyinstrLoop_exact (hz : k.NoZero r) (fuel : Nat) : ∀ {dst : Bytes} {d srcva max : Nat}, max ≤ fuel →
    wp (copyinstrLoop r fuel dst d srcva max) (fun res k' => k' = k ∧
      ((∃ j < max, IsString k r srcva j ∧ res = (0, blit dst d (k.at r) srcva (j + 1))) ∨
        ∃ m ≤ max, (∀ i < m, k.at r (srcva + i) ≠ 0) ∧ (m = max ∨ k.access r (srcva + m) pteU = none) ∧
          res = (-1, blit dst d (k.at r) srcva m))) E k := by
  induction fuel with
  | zero =>
    intro dst d srcva max hmax
    exact ⟨rfl, .inr ⟨0, by omega, fun i hi => by omega, .inl (by omega), by rw [blit_zero]⟩⟩
  | succ fuel ih =>
    intro dst d srcva max hmax
    simp only [copyinstrLoop, wp_ite]
    refine ⟨fun h0 => ⟨rfl, .inr ⟨0, by omega, fun i hi => by omega, .inl h0.symm, by rw [blit_zero]⟩⟩, fun h0 => ?_⟩
    rw [wp_bind, wp_walkaddr_any, access_pgrounddown]
    cases ha : k.access r srcva pteU with
    | none =>
      simp only [Option.getD_none, if_true, wp_pure]
      exact ⟨trivial, .inr ⟨0, by omega, fun i hi => by omega, .inr ha, by rw [blit_zero]⟩⟩
    | some q =>
      obtain ⟨hq0, hq⟩ := hz.access ha
      simp only [Option.getD_some, if_neg hq0, wp_bind, wp_get, sub_pgrounddown]
      have hmod := Nat.mod_lt srcva (show 0 < pgsize by decide)
      obtain ⟨n, hn⟩ : ∃ n, n = min (pgsize - srcva % pgsize) max := ⟨_, rfl⟩
      rw [← hn]
      have hat : ∀ x < n, k.mem q (srcva % pgsize + x) = k.at r (srcva + x) := fun x hx => by
        rw [Kmem.at_page (by omega), hq]
      have hblit : ∀ m ≤ n, blit dst d (k.mem q) (srcva % pgsize) m = blit dst d (k.at r) srcva m := by
        intro m hm
        exact blit_shift fun x hx => hat x (by omega)
      have hcov : ∀ m ≤ n, k.Covers r srcva m := fun m hm => Kmem.covers_page ha (by omega)
      rcases copyinstrPage_spec (k.mem q) n (srcva % pgsize) dst d with
        ⟨j, hj, hnul, hne, he⟩ | ⟨hne, he⟩
      · rw [he]
        refine ⟨rfl, .inl ⟨j, by omega, ⟨by rw [← hat j hj, hnul], fun i hi => ?_, hcov _ (by omega)⟩, ?_⟩⟩
        · rw [← hat i (by omega)]
          exact hne i hi
        · rw [hblit _ (by omega)]
      rw [he, hblit n le_rfl]
      simp only
      have htext : ∀ i < n, k.at r (srcva + i) ≠ 0 := fun i hi => by
        rw [← hat i hi]
        exact hne i hi
      by_cases hend : n = max
      · -- `max` バイトを写し終えた。
        rw [show max - n = 0 by omega, copyinstrLoop_zero]
        exact ⟨rfl, .inr ⟨n, by omega, htext, .inl hend, rfl⟩⟩
      rw [pgrounddown_next hn hend]
      refine wp_post (ih (by omega)) ?_
      rintro res k' ⟨rfl, hres⟩
      have happ : ∀ m, blit (blit dst d (k'.at r) srcva n) (d + n) (k'.at r) (srcva + n) m =
          blit dst d (k'.at r) srcva (n + m) := by
        intro m
        have happ : blit (blit dst d (k'.at r) srcva n) (d + n) (k'.at r) (srcva + n) (n + m - n) =
            blit dst d (k'.at r) srcva (n + m) := blit_append (by omega) fun x _ => rfl
        rwa [Nat.add_sub_cancel_left] at happ
      have hall : ∀ m, (∀ i < m, k'.at r (srcva + n + i) ≠ 0) → ∀ i < n + m, k'.at r (srcva + i) ≠ 0 := by
        intro m hm i hi
        by_cases hlo : i < n
        · exact htext i hlo
        · have := hm (i - n) (by omega)
          rwa [show srcva + n + (i - n) = srcva + i by omega] at this
      refine ⟨rfl, ?_⟩
      rcases hres with ⟨j, hj, hstr, rfl⟩ | ⟨m, hm, htxt, hstop, rfl⟩
      · refine .inl ⟨n + j, by omega, ⟨?_, hall j hstr.text, ?_⟩, by rw [happ, Nat.add_assoc]⟩
        · rw [← Nat.add_assoc]
          exact hstr.nul
        · rw [Nat.add_assoc]
          exact Kmem.covers_append.mpr ⟨hcov n le_rfl, hstr.covers⟩
      · refine .inr ⟨n + m, by omega, hall m htxt, ?_, by rw [happ]⟩
        rw [← Nat.add_assoc]
        exact hstop.imp_left fun hc => by omega

theorem IsString.unique {a i j} (hi : IsString k r a i) (hj : IsString k r a j) : i = j := by
  rcases Nat.lt_trichotomy i j with hlt | heq | hgt
  · exact absurd hi.nul (hj.text i hlt)
  · exact heq
  · exact absurd hj.nul (hi.text j hgt)

structure Copyinstr (k : Kmem) (r srcva max : Nat) (dst : Bytes) (res : Int) (dst' : Bytes) : Prop where
  ok : res = 0 ↔ ∃ j < max, IsString k r srcva j
  fail : res = 0 ∨ res = -1
  copied : ∀ j < max, IsString k r srcva j → dst' = blit dst 0 (k.at r) srcva (j + 1)
  bounded : ∀ i, max ≤ i → dst' i = dst i

theorem copyinstr_spec (hz : k.NoZero r) (dst : Bytes) (srcva max : Nat) :
    wp (copyinstr r dst srcva max) (fun res k' => k' = k ∧ Copyinstr k r srcva max dst res.1 res.2) E k := by
  refine wp_post (copyinstrLoop_exact hz max le_rfl) ?_
  rintro res k' ⟨rfl, ⟨j, hj, hstr, rfl⟩ | ⟨m, hm, htext, hstop, rfl⟩⟩
  · refine ⟨rfl, ⟨fun _ => ⟨j, hj, hstr⟩, fun _ => rfl⟩, .inl rfl, fun i _ hi => ?_, fun i hi => blit_out (by omega)⟩
    rw [hi.unique hstr]
  -- 止まった所より前に NUL はなく、後の NUL までは届かない。
  have hnone : ∀ j < max, ¬IsString k' r srcva j := by
    intro j hj hstr
    rcases hstop with rfl | hacc
    · exact htext j hj hstr.nul
    · have hmj : m ≤ j := by
        by_contra hlt
        exact htext j (by omega) hstr.nul
      exact Kmem.not_covers hacc (by omega) hstr.covers
  refine ⟨rfl, ⟨nofun, fun ⟨j, hj, hstr⟩ => (hnone j hj hstr).elim⟩, .inr rfl,
    fun j hj hstr => (hnone j hj hstr).elim, fun i hi => blit_out (by omega)⟩

theorem strlen_eq {b j} (hnul : b j = 0) (htext : ∀ i < j, b i ≠ 0) (fuel : Nat) :
    ∀ {n : Nat}, n ≤ j → j < n + fuel → strlen b fuel n = j := by
  induction fuel with
  | zero =>
    intro n h1 h2
    omega
  | succ fuel ih =>
    intro n h1 h2
    rw [strlen]
    by_cases hn : n = j
    · subst hn
      rw [if_pos hnul]
    · rw [if_neg (htext n (by omega)), ih (by omega) (by omega)]

structure Fetchstr (k : Kmem) (r addr max : Nat) (buf : Bytes) (res : Int) (buf' : Bytes) : Prop where
  fail : res = -1 ↔ ¬∃ j < max, IsString k r addr j
  len : ∀ j < max, IsString k r addr j → res = j ∧ buf' j = 0 ∧ ∀ i < j, buf' i ≠ 0 ∧ buf' i = k.at r (addr + i)
  bounded : ∀ i, max ≤ i → buf' i = buf i

theorem fetchstr_spec (hz : s.k.NoZero ((s.proc p).pagetable.getD 0)) (addr : Nat) (buf : Bytes) (max : Nat) :
    wp (fetchstr p addr buf max) (fun res s' => s' = s ∧
      Fetchstr s.k ((s.proc p).pagetable.getD 0) addr max buf res.1 res.2) E s := by
  obtain ⟨r, hr⟩ : ∃ r, r = (s.proc p).pagetable.getD 0 := ⟨_, rfl⟩
  rw [← hr] at hz ⊢
  simp only [fetchstr, wp_bind, wp_get, wp_liftK, ← hr]
  refine wp_post (copyinstr_spec hz buf addr max) ?_
  rintro ⟨res, buf'⟩ k' ⟨rfl, hc⟩
  rcases hc.fail with hres | hres
  · have hres : res = 0 := hres
    subst hres
    obtain ⟨j, hj, hstr⟩ := hc.ok.mp rfl
    have hbuf := hc.copied j hj hstr
    have hb : ∀ i ≤ j, buf' i = s.k.at r (addr + i) := by
      intro i hi
      rw [show buf' = _ from hbuf, blit_in (by omega) (by omega), Nat.sub_zero]
    have hnul : buf' j = 0 := by rw [hb j le_rfl, hstr.nul]
    have htext : ∀ i < j, buf' i ≠ 0 := fun i hi => by
      rw [hb i (by omega)]
      exact hstr.text i hi
    have hlen : strlen buf' max 0 = j := strlen_eq hnul htext max (Nat.zero_le _) (by omega)
    simp only [show ¬((0 : Int) < 0) by decide, if_false, hlen]
    refine ⟨rfl, ⟨fun h => absurd h (show ((j : Nat) : Int) ≠ -1 by omega),
      fun h => (h ⟨j, hj, hstr⟩).elim⟩, fun i hi hstr' => ?_, hc.bounded⟩
    obtain rfl := hstr'.unique hstr
    exact ⟨rfl, hnul, fun l hl => ⟨htext l hl, hb l (by omega)⟩⟩
  have hres : res = -1 := hres
  subst hres
  simp only [show ((-1 : Int) < 0) by decide, if_true, wp_pure]
  have hno : ¬∃ j < max, IsString s.k r addr j := fun h => by
    have := hc.ok.mpr h
    cases this
  exact ⟨trivial, ⟨fun _ => hno, fun _ => rfl⟩, fun j hj hstr => (hno ⟨j, hj, hstr⟩).elim, hc.bounded⟩

theorem argraw_spec {n} (hn : n < 6) :
    wp (argraw p n) (fun a s' => a = s.k.pte ((s.proc p).trapframe.getD 0) (14 + n) ∧ s' = s) E s := by
  simp only [argraw, wp_bind, wp_get, if_pos hn]
  exact ⟨rfl, rfl⟩

end Xv6.Vm
