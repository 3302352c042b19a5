import Xv6.Vm.Lemmas.Table
import Xv6.Lib.AtMost

/-!
# アドレス空間
-/

namespace Xv6.Vm

open Xv6.Lib Finset

def trampV : Nat := 2 ^ 26 - 1

def tfV : Nat := 2 ^ 26 - 2

/-- アドレス空間の形。`dom` は写像のあるユーザーのページ、`tf` は trapframe のページである。 -/
structure Shape where
  dom : Finset Nat
  tramp : Bool
  tf : Option Nat

def Within (w c : Nat) : Prop := ∀ i, 1 ≤ i → i ≤ 4 → has w (2 ^ i) → has c (2 ^ i)

def Full (c : Nat) : Prop := ∀ i, 1 ≤ i → i ≤ 4 → has c (2 ^ i)

/-- 末端の PTE が `lf` であるアドレス空間が、形 `sh` のとおりである。 -/
structure Space (L : Layout) (lf : Nat → Nat) (role : Nat → Role) (created : Nat → Nat)
    (touched : Nat → Bool) (sh : Shape) : Prop where
  low : ∀ v ∈ sh.dom, v < tfV
  valid : ∀ v ∈ sh.dom, has (lf v) pteV
  readable : ∀ v ∈ sh.dom, has (lf v) pteR
  user : ∀ v ∈ sh.dom, role (pte2pa (lf v)) = .user
  inj : ∀ v ∈ sh.dom, ∀ w ∈ sh.dom, pte2pa (lf v) = pte2pa (lf w) → v = w
  empty : ∀ v < tfV, v ∉ sh.dom → lf v = 0
  tramp : lf trampV = if sh.tramp then L.trampoline * 1024 + 11 else 0
  trapframe : lf tfV = match sh.tf with
    | none => 0
    | some t => t * 1024 + 7
  within : ∀ v ∈ sh.dom, touched v = false ∨ Full (created v) → Within (lf v) (created v)

def Maps (k : Kmem) (as : Nat → Option Shape) (p : Nat) (x : Nat × Nat) : Prop :=
  ∃ sh, as x.1 = some sh ∧ x.2 ∈ sh.dom ∧ pte2pa (k.leaf x.1 x.2) = p

/-- すべてのページ表とページについての不変条件。 -/
structure World (L : Layout) (k : Kmem) (role : Nat → Role) (as : Nat → Option Shape) : Prop
    extends Typed L k role where
  roots : ∀ r sh, as r = some sh → role r = .table r []
  owned : ∀ p r path, role p = .table r path → (as r).isSome
  space : ∀ r sh, as r = some sh → Space L (k.leaf r) role (k.created r) (k.touched r) sh
  count : ∀ p, AtMost (Maps k as p) (k.refcnt p)
  writable : ∀ r sh v, as r = some sh → v ∈ sh.dom → has (k.leaf r v) pteW →
    k.refcnt (pte2pa (k.leaf r v)) = 1

theorem div_lt_of_lt_maxva {va} (h : va < maxva) : va / pgsize < 2 ^ 26 := by
  simp only [maxva, pgsize] at h ⊢
  omega

theorem lt_maxva_of_div {va} (h : va / pgsize < 2 ^ 26) : va < maxva := by
  simp only [maxva, pgsize] at h ⊢
  omega

section Write

variable {L : Layout} {lf : Nat → Nat} {role : Nat → Role} {c : Nat → Nat} {t : Nat → Bool} {sh : Shape} {v w : Nat}

theorem page_lt_maxva (h : v < 2 ^ 26) : v * pgsize < maxva := Nat.mul_lt_mul_of_pos_right h (by decide)

section

variable (h : Space L lf role c t sh)
include h

theorem Space.dom_lt (hv : v ∈ sh.dom) : v < 2 ^ 26 := (h.low v hv).trans (by decide)

theorem Space.top_of_ne_zero (hv : v < 2 ^ 26) (hd : v ∉ sh.dom) (hz : lf v ≠ 0) :
    v = tfV ∨ v = trampV := by
  rcases Nat.lt_or_ge v tfV with hlt | hge
  · exact absurd (h.empty v hlt hd) hz
  · simp only [tfV, trampV] at hge ⊢
    omega

theorem Space.congr {lf' role'} (hl : ∀ v < 2 ^ 26, lf' v = lf v)
    (hr : ∀ v ∈ sh.dom, role' (pte2pa (lf v)) = .user) : Space L lf' role' c t sh := by
  have hd : ∀ v ∈ sh.dom, lf' v = lf v := fun v hv => hl v (h.dom_lt hv)
  constructor
  case low => exact h.low
  case valid =>
    intro v hv
    rw [hd v hv]
    exact h.valid v hv
  case readable =>
    intro v hv
    rw [hd v hv]
    exact h.readable v hv
  case user =>
    intro v hv
    rw [hd v hv]
    exact hr v hv
  case inj =>
    intro v hv w hw he
    rw [hd v hv, hd w hw] at he
    exact h.inj v hv w hw he
  case empty =>
    intro v hv hn
    rw [hl v (hv.trans (by decide))]
    exact h.empty v hv hn
  case tramp =>
    rw [hl trampV (by decide)]
    exact h.tramp
  case trapframe =>
    rw [hl tfV (by decide)]
    exact h.trapframe
  case within =>
    intro v hv ht
    rw [hd v hv]
    exact h.within v hv ht

theorem Space.setOther {sh' : Shape} (hd : sh'.dom = sh.dom) (hv : v ∉ sh.dom)
    (hlow : tfV ≤ v)
    (htramp : (if trampV = v then w else lf trampV) = if sh'.tramp then L.trampoline * 1024 + 11 else 0)
    (htf : (if tfV = v then w else lf tfV) = match sh'.tf with
      | none => 0
      | some t => t * 1024 + 7) :
    Space L (fun u => if u = v then w else lf u) role c t sh' := by
  have hne : ∀ u ∈ sh.dom, u ≠ v := fun u hu he => hv (he ▸ hu)
  constructor
  case tramp => exact htramp
  case trapframe => exact htf
  case low =>
    rw [hd]
    exact h.low
  case inj =>
    rw [hd]
    intro u hu u' hu' he
    simp only [if_neg (hne u hu), if_neg (hne u' hu')] at he
    exact h.inj u hu u' hu' he
  case empty =>
    rw [hd]
    intro u hu hn
    rw [if_neg (by omega)]
    exact h.empty u hu hn
  all_goals
    rw [hd]
    intro u hu
    simp only [if_neg (hne u hu)]
  · exact h.valid u hu
  · exact h.readable u hu
  · exact h.user u hu
  · exact h.within u hu

theorem Space.insert (hv : v ∉ sh.dom) (hlow : v < tfV) (hV : has w pteV) (hR : has w pteR)
    (hu : role (pte2pa w) = .user) (hinj : ∀ u ∈ sh.dom, pte2pa (lf u) ≠ pte2pa w)
    (hc : t v = false ∨ Full (c v) → Within w (c v)) :
    Space L (fun u => if u = v then w else lf u) role c t { sh with dom := insert v sh.dom } := by
  have hne : ∀ u ∈ sh.dom, u ≠ v := fun u hu he => hv (he ▸ hu)
  have h1 : trampV ≠ v := by
    rintro rfl
    exact absurd hlow (by decide)
  have h2 : tfV ≠ v := by omega
  constructor
  case tramp => simpa only [if_neg h1] using h.tramp
  case trapframe => simpa only [if_neg h2] using h.trapframe
  case low =>
    simp only [forall_mem_insert]
    exact ⟨hlow, h.low⟩
  case inj =>
    simp only [forall_mem_insert, if_true]
    refine ⟨⟨fun _ => trivial, fun u hu he => ?_⟩, fun u hu => ⟨fun he => ?_, fun u' hu' he => ?_⟩⟩
    · rw [if_neg (hne u hu)] at he
      exact absurd he.symm (hinj u hu)
    · rw [if_neg (hne u hu)] at he
      exact absurd he (hinj u hu)
    · rw [if_neg (hne u hu), if_neg (hne u' hu')] at he
      exact h.inj u hu u' hu' he
  case empty =>
    simp only [mem_insert, not_or]
    intro u hu hn
    rw [if_neg hn.1]
    exact h.empty u hu hn.2
  all_goals
    simp only [forall_mem_insert, if_true]
    refine ⟨by assumption, fun u hu => ?_⟩
    rw [if_neg (hne u hu)]
  · exact h.valid u hu
  · exact h.readable u hu
  · exact h.user u hu
  · exact h.within u hu

theorem Space.erase (hlow : v < tfV) :
    Space L (fun u => if u = v then 0 else lf u) role c t { sh with dom := sh.dom.erase v } := by
  have h1 : trampV ≠ v := by
    rintro rfl
    exact absurd hlow (by decide)
  have h2 : tfV ≠ v := by omega
  constructor
  case tramp => simpa only [if_neg h1] using h.tramp
  case trapframe => simpa only [if_neg h2] using h.trapframe
  case empty =>
    simp only [mem_erase, not_and]
    intro u hu hn
    by_cases he : u = v
    · rw [if_pos he]
    · rw [if_neg he]
      exact h.empty u hu (hn he)
  case low =>
    intro u hu
    exact h.low u (mem_of_mem_erase hu)
  case inj =>
    intro u hu u' hu' he
    simp only [if_neg (ne_of_mem_erase hu), if_neg (ne_of_mem_erase hu')] at he
    exact h.inj u (mem_of_mem_erase hu) u' (mem_of_mem_erase hu') he
  all_goals
    intro u hu
    simp only [if_neg (ne_of_mem_erase hu)]
    have hu := mem_of_mem_erase hu
  · exact h.valid u hu
  · exact h.readable u hu
  · exact h.user u hu
  · exact h.within u hu

theorem Space.replace (hv : v ∈ sh.dom) (hV : has w pteV) (hR : has w pteR)
    (hu : role (pte2pa w) = .user) (hinj : ∀ u ∈ sh.dom, u ≠ v → pte2pa (lf u) ≠ pte2pa w)
    (hc : t v = false ∨ Full (c v) → Within w (c v)) :
    Space L (fun u => if u = v then w else lf u) role c t sh := by
  have h' := (h.erase (h.low v hv)).insert (v := v) (w := w) (by simp) (h.low v hv) hV hR hu (by
    intro u hu
    rw [mem_erase] at hu
    simpa only [if_neg hu.1] using hinj u hu.2 hu.1) hc
  simp only [insert_erase hv] at h'
  refine h'.congr (fun u _ => ?_) h'.user
  by_cases he : u = v <;> simp [he]

end

end Write

namespace World

variable {L : Layout} {k k' : Kmem} {role role' : Nat → Role} {as : Nat → Option Shape} {p q r v : Nat} {sh : Shape}

section

variable (h : World L k role as)
include h

theorem dom_lt (hr : as r = some sh) (hv : v ∈ sh.dom) : v < 2 ^ 26 := (h.space r sh hr).dom_lt hv

theorem user_of_maps {x} (hx : Maps k as p x) : role p = .user := by
  obtain ⟨sh, has, hv, rfl⟩ := hx
  exact (h.space _ sh has).user _ hv

/-- 末端の写像が同じなら、不変条件も移る。 -/
theorem of_leaf (ht : Typed L k' role') (hroots : ∀ r sh, as r = some sh → role' r = .table r [])
    (howned : ∀ p r path, role' p = .table r path → (as r).isSome)
    (hlf : ∀ r sh v, as r = some sh → v < 2 ^ 26 → k'.leaf r v = k.leaf r v)
    (huser : ∀ p x, Maps k as p x → role' p = .user)
    (hcount : ∀ p x, Maps k as p x → AtMost (Maps k as p) (k'.refcnt p))
    (hwr : ∀ r sh v, as r = some sh → v ∈ sh.dom → has (k.leaf r v) pteW →
      k'.refcnt (pte2pa (k.leaf r v)) = 1)
    (hc : k'.created = k.created) (hto : k'.touched = k.touched) : World L k' role' as := by
  have hd : ∀ r sh v, as r = some sh → v ∈ sh.dom → k'.leaf r v = k.leaf r v := fun r sh v hr hv =>
    hlf r sh v hr (h.dom_lt hr hv)
  have hmaps : ∀ p x, Maps k' as p x → Maps k as p x := by
    rintro p x ⟨sh, hr, hv, he⟩
    rw [hd _ sh _ hr hv] at he
    exact ⟨sh, hr, hv, he⟩
  refine { ht with roots := hroots, owned := howned, space := ?_, count := ?_, writable := ?_ }
  · intro r sh hr
    rw [hc, hto]
    refine (h.space r sh hr).congr (fun v hv => hlf r sh v hr hv) fun v hv => ?_
    exact huser _ (r, v) ⟨sh, hr, hv, rfl⟩
  · intro p
    by_cases hex : ∃ x, Maps k as p x
    · obtain ⟨x, hx⟩ := hex
      exact (hcount p x hx).mono (hmaps p) le_rfl
    · exact AtMost.of_empty fun x hx => hex ⟨x, hmaps p x hx⟩
  · intro r sh v hr hv hw
    rw [hd r sh v hr hv] at hw ⊢
    exact hwr r sh v hr hv hw

theorem frame (ht : Typed L k' role') (htab : ∀ p r path, role' p = .table r path ↔ role p = .table r path)
    (hlf : ∀ r sh v, as r = some sh → v < 2 ^ 26 → k'.leaf r v = k.leaf r v)
    (huser : ∀ p x, Maps k as p x → role' p = .user ∧ k'.refcnt p = k.refcnt p)
    (hc : k'.created = k.created) (hto : k'.touched = k.touched) : World L k' role' as := by
  refine h.of_leaf ht (fun r sh hr => (htab r r []).mpr (h.roots r sh hr))
    (fun p r path hp => h.owned p r path ((htab p r path).mp hp)) hlf (fun p x hx => (huser p x hx).1) ?_ ?_ hc hto
  · intro p x hx
    rw [(huser p x hx).2]
    exact h.count p
  · intro r sh v hr hv hw
    rw [(huser _ (r, v) ⟨sh, hr, hv, rfl⟩).2]
    exact h.writable r sh v hr hv hw

theorem retype {ρ} (ht : Typed L k' (update role p ρ))
    (hp : ∀ r path, role p ≠ .table r path) (hρ : ∀ r path, ρ ≠ .table r path)
    (hm : ∀ p', p' ≠ p → k'.mem p' = k.mem p')
    (huser : ∀ p' x, Maps k as p' x → p' ≠ p ∧ k'.refcnt p' = k.refcnt p')
    (hc : k'.created = k.created) (hto : k'.touched = k.touched) :
    World L k' (update role p ρ) as := by
  refine h.frame ht (fun p' r path => ?_) (fun r sh v hr _ => ?_) (fun p' x hx => ?_) hc hto
  · by_cases he : p' = p
    · subst he
      simp [hp, hρ]
    · rw [update_of_ne he]
  · exact h.toTyped.leaf_update ht hp hρ hm (h.roots r sh hr) v
  · obtain ⟨hne, hr⟩ := huser p' x hx
    rw [update_of_ne hne]
    exact ⟨h.user_of_maps hx, hr⟩

theorem take {rest} (hk : k.freelist = q :: rest) :
    World L (k.take q rest) (update role q .held) as := by
  have hq : role q = .free := (h.free q).mp (by simp [hk])
  refine h.retype (h.toTyped.take hk) (by simp [hq]) (by simp) ?_ ?_ rfl rfl
  · intro p' hp'
    simp [Kmem.take, hp']
  · intro p' x hx
    have hne : p' ≠ q := by
      rintro rfl
      simp [h.user_of_maps hx] at hq
    exact ⟨hne, by simp [Kmem.take, hne]⟩

theorem setPage (hp : ∀ r path, role p ≠ .table r path) (d : Bytes) :
    World L (k.setPage p d) role as := by
  refine h.frame (h.toTyped.setPage hp d) (fun _ _ _ => Iff.rfl) (fun r sh v hr _ => ?_) ?_ rfl rfl
  · exact h.toTyped.leaf_setPage hp d (h.roots r sh hr) v
  · intro p' x hx
    exact ⟨h.user_of_maps hx, rfl⟩

theorem push (hp : role p = .held ∨ role p = .user) (hx : ∀ x, ¬Maps k as p x) :
    World L (k.push p) (update role p .free) as := by
  refine h.retype (h.toTyped.push hp.symm) ?_ (by simp) ?_ ?_ rfl rfl
  · rcases hp with hp | hp <;> simp [hp]
  · intro p' hp'
    simp [Kmem.push, hp']
  · intro p' x hx'
    have hne : p' ≠ p := by
      rintro rfl
      exact hx x hx'
    exact ⟨hne, by simp [Kmem.push, hne]⟩

theorem held_not_maps (hp : role p = .held) (x : Nat × Nat) : ¬Maps k as p x := by
  intro hx
  simp [h.user_of_maps hx] at hp

theorem share (hp : role p = .held) : World L k (update role p .user) as := by
  have h1 : Role.user.Counts (k.refcnt p) := by
    have := h.counts p
    rw [hp] at this
    simp only [Role.Counts] at this ⊢
    omega
  have ht := h.toTyped.setRef (.inl rfl) (.inr hp) h1
  rw [update_eq_self] at ht
  refine h.retype ht (by simp [hp]) (by simp) (fun _ _ => rfl) ?_ rfl rfl
  intro p' x hx
  refine ⟨?_, rfl⟩
  rintro rfl
  exact h.held_not_maps hp x hx

/-- 共有できるのは、書ける写像の無いページだけである。 -/
theorem refUp (hp : role p = .user)
    (hw : ∀ r sh v, as r = some sh → v ∈ sh.dom → pte2pa (k.leaf r v) = p → has (k.leaf r v) pteW = false) :
    World L { k with refcnt := update k.refcnt p (k.refcnt p + 1) } role as := by
  have ht := h.toTyped.setRef (n := k.refcnt p + 1) (.inl rfl) (.inl hp) (show Role.user.Counts _ by simp [Role.Counts])
  rw [← hp, update_eq_self] at ht
  refine h.of_leaf ht h.roots h.owned (fun _ _ _ _ _ => rfl) (fun _ _ hx => h.user_of_maps hx) ?_ ?_ rfl rfl
  · intro p' x _
    refine (h.count p').mono (fun _ hx => hx) ?_
    by_cases he : p' = p
    · subst he
      simp
    · simp [he]
  intro r sh v hr hv hW
  have hne : pte2pa (k.leaf r v) ≠ p := by
    intro he
    rw [hw r sh v hr hv he] at hW
    cases hW
  simpa [hne] using h.writable r sh v hr hv hW

theorem unref (hp : role p = .user) (hn : AtMost (Maps k as p) (k.refcnt p - 1))
    (h2 : 2 ≤ k.refcnt p) : World L (k.unref p) role as := by
  have ht := h.toTyped.setRef (n := k.refcnt p - 1) (.inl rfl) (.inl hp)
    (show Role.user.Counts _ by simp only [Role.Counts]; omega)
  rw [← hp, update_eq_self] at ht
  refine h.of_leaf ht h.roots h.owned (fun _ _ _ _ _ => rfl) (fun _ _ hx => h.user_of_maps hx) ?_ ?_ rfl rfl
  · intro p' x _
    by_cases he : p' = p
    · subst he
      simpa [Kmem.unref] using hn
    · simpa [Kmem.unref, he] using h.count p'
  intro r sh v hr hv hW
  have h1 := h.writable r sh v hr hv hW
  have hne : pte2pa (k.leaf r v) ≠ p := by
    rintro he
    rw [he] at h1
    omega
  simpa [Kmem.unref, hne] using h1

end

section SetLeaf

variable {w : Nat} {sh' : Shape}

section

variable (h : World L k role as) (hr : as r = some sh) (hq : role q = .table r [px 2 (v * pgsize), px 1 (v * pgsize)])
include h hr hq

theorem maps_setLeaf (hv : v < 2 ^ 26) (hw : w < 2 ^ 64) (hdom : ∀ u ∈ sh'.dom, u = v ∨ u ∈ sh.dom) {x}
    (hx : Maps (k.setPte q (px 0 (v * pgsize)) w) (update as r (some sh')) p x) :
    (x = (r, v) ∧ v ∈ sh'.dom ∧ pte2pa w = p) ∨ (x ≠ (r, v) ∧ Maps k as p x) := by
  obtain ⟨r', u⟩ := x
  obtain ⟨s, hs, hu, he⟩ := hx
  rcases update_eq hs with ⟨rfl, ⟨⟩⟩ | ⟨hr', hs⟩
  · have hu26 : u < 2 ^ 26 := by
      rcases hdom u hu with rfl | hu
      · exact hv
      · exact h.dom_lt hr hu
    rw [h.toTyped.leaf_setLeaf hq hw hv hu26 (h.roots _ sh hr)] at he
    by_cases huv : u = v
    · subst huv
      rw [if_pos ⟨rfl, rfl⟩] at he
      exact .inl ⟨rfl, hu, he⟩
    · rw [if_neg fun hc => huv hc.2] at he
      exact .inr ⟨by simp [huv], sh, hr, (hdom u hu).resolve_left huv, he⟩
  · have hu26 : u < 2 ^ 26 := h.dom_lt hs hu
    rw [h.toTyped.leaf_setLeaf hq hw hv hu26 (h.roots _ s hs), if_neg fun hc => hr' hc.1] at he
    exact .inr ⟨by simp [hr'], s, hs, hu, he⟩

theorem setLeaf (hv : v < 2 ^ 26) (hw : w < 2 ^ 64) (hdom : ∀ u ∈ sh'.dom, u = v ∨ u ∈ sh.dom)
    (hS : Space L (fun u => if u = v then w else k.leaf r u) role (k.created r) (k.touched r) sh')
    (hC : v ∈ sh'.dom → 1 ≤ k.refcnt (pte2pa w) ∧
      AtMost (fun x => x ≠ (r, v) ∧ Maps k as (pte2pa w) x) (k.refcnt (pte2pa w) - 1))
    (hW : v ∈ sh'.dom → has w pteW → k.refcnt (pte2pa w) = 1) :
    World L (k.setPte q (px 0 (v * pgsize)) w) role (update as r (some sh')) := by
  have ht := h.toTyped.setLeaf (i := px 0 (v * pgsize)) hq rfl hw
  have hleaf : ∀ r' v', role r' = .table r' [] → v' < 2 ^ 26 → (k.setPte q (px 0 (v * pgsize)) w).leaf r' v' =
      if r' = r ∧ v' = v then w else k.leaf r' v' := fun r' v' hr' hv' => h.toTyped.leaf_setLeaf hq hw hv hv' hr'
  have hroot : ∀ r' s, update as r (some sh') r' = some s → role r' = .table r' [] := by
    intro r' s hs
    rcases update_eq hs with ⟨rfl, _⟩ | ⟨_, hs⟩
    exacts [h.roots _ sh hr, h.roots r' s hs]
  refine { ht with roots := hroot, owned := ?_, space := ?_, count := ?_, writable := ?_ }
  · intro p r' path hp
    by_cases he : r' = r
    · subst he
      simp
    · rw [update_of_ne he]
      exact h.owned p r' path hp
  · intro r' s hs
    have hr' := hroot r' s hs
    rcases update_eq hs with ⟨rfl, ⟨⟩⟩ | ⟨he, hs⟩
    · refine hS.congr (fun u hu => ?_) hS.user
      rw [hleaf r' u hr' hu]
      simp
    · have hsp := h.space r' s hs
      refine hsp.congr (fun u hu => ?_) hsp.user
      rw [hleaf r' u hr' hu, if_neg fun hc => he hc.1]
  · intro p
    by_cases hp : v ∈ sh'.dom ∧ pte2pa w = p
    · obtain ⟨hmem, rfl⟩ := hp
      obtain ⟨h1, h2⟩ := hC hmem
      have := h2.add (Q := Maps (k.setPte q (px 0 (v * pgsize)) w) (update as r (some sh')) (pte2pa w))
        (a := (r, v)) fun x hx => by
          rcases h.maps_setLeaf hr hq hv hw hdom hx with ⟨he, _⟩ | hx
          · exact .inr he
          · exact .inl hx
      rwa [Nat.sub_add_cancel h1] at this
    · refine (h.count p).mono (fun x hx => ?_) le_rfl
      rcases h.maps_setLeaf hr hq hv hw hdom hx with ⟨_, hx⟩ | ⟨_, hx⟩
      · exact absurd hx hp
      · exact hx
  intro r' s u hs hu hW'
  have hr' := hroot r' s hs
  rcases update_eq hs with ⟨rfl, ⟨⟩⟩ | ⟨he, hs⟩
  · by_cases huv : u = v
    · subst huv
      rw [hleaf r' u hr' hv, if_pos ⟨rfl, rfl⟩] at hW' ⊢
      exact hW hu hW'
    · have hu := (hdom u hu).resolve_left huv
      rw [hleaf r' u hr' (h.dom_lt hr hu), if_neg fun hc => huv hc.2] at hW' ⊢
      exact h.writable r' sh u hr hu hW'
  · rw [hleaf r' u hr' (h.dom_lt hs hu), if_neg fun hc => he hc.1] at hW' ⊢
    exact h.writable r' s u hs hu hW'

/-- 写像を外したページは、参照の数に一つ余りができる。 -/
theorem slack_setLeaf (hv : v < 2 ^ 26) (hw : w < 2 ^ 64)
    (hdom : ∀ u ∈ sh'.dom, u = v ∨ u ∈ sh.dom) (hmem : v ∈ sh.dom)
    (hne : v ∈ sh'.dom → pte2pa w ≠ pte2pa (k.leaf r v)) :
    AtMost (Maps (k.setPte q (px 0 (v * pgsize)) w) (update as r (some sh')) (pte2pa (k.leaf r v)))
      (k.refcnt (pte2pa (k.leaf r v)) - 1) := by
  have hold : Maps k as (pte2pa (k.leaf r v)) (r, v) := ⟨sh, hr, hmem, rfl⟩
  have hpos := (h.count (pte2pa (k.leaf r v))).pos hold
  have hcount := h.count (pte2pa (k.leaf r v))
  rw [← Nat.sub_add_cancel hpos] at hcount
  refine hcount.remove hold fun x hx => ?_
  rcases h.maps_setLeaf hr hq hv hw hdom hx with ⟨_, h1, h2⟩ | ⟨h1, h2⟩
  · exact absurd h2 (hne h1)
  · exact ⟨h2, h1⟩

theorem map (hv : v ∉ sh.dom) (hlow : v < tfV)
    (hw : w < 2 ^ 64) (hV : has w pteV) (hR : has w pteR) (hu : role (pte2pa w) = .user)
    (hx : ∀ u ∈ sh.dom, pte2pa (k.leaf r u) ≠ pte2pa w)
    (hC : AtMost (Maps k as (pte2pa w)) (k.refcnt (pte2pa w) - 1)) (hW : has w pteW → k.refcnt (pte2pa w) = 1)
    (hc : k.touched r v = false ∨ Full (k.created r v) → Within w (k.created r v)) :
    World L (k.setPte q (px 0 (v * pgsize)) w) role
      (update as r (some { sh with dom := insert v sh.dom })) := by
  have hpos : 1 ≤ k.refcnt (pte2pa w) := by
    have := h.counts (pte2pa w)
    rwa [hu] at this
  refine h.setLeaf hr hq (hlow.trans (by decide)) hw (fun u hu => mem_insert.mp hu) ?_ ?_ fun _ => hW
  · exact (h.space r sh hr).insert hv hlow hV hR hu hx hc
  · exact fun _ => ⟨hpos, hC.mono (fun _ hx => hx.2) le_rfl⟩

theorem unmap (hv : v ∈ sh.dom) :
    World L (k.setPte q (px 0 (v * pgsize)) 0) role
      (update as r (some { sh with dom := sh.dom.erase v })) := by
  have hlow := (h.space r sh hr).low v hv
  refine h.setLeaf hr hq (hlow.trans (by decide)) (by decide) ?_ ((h.space r sh hr).erase hlow) ?_ ?_
  · exact fun u hu => .inr (mem_of_mem_erase hu)
  · exact fun hc => absurd hc (by simp)
  · exact fun hc => absurd hc (by simp)

theorem remap (hv : v ∈ sh.dom)
    (hw : w < 2 ^ 64) (hV : has w pteV) (hR : has w pteR) (hu : role (pte2pa w) = .user)
    (hx : ∀ x, ¬Maps k as (pte2pa w) x) (hW : k.refcnt (pte2pa w) = 1)
    (hc : k.touched r v = false ∨ Full (k.created r v) → Within w (k.created r v)) :
    World L (k.setPte q (px 0 (v * pgsize)) w) role (update as r (some sh)) := by
  have hlow := (h.space r sh hr).low v hv
  refine h.setLeaf hr hq (hlow.trans (by decide)) hw (fun u hu => .inr hu) ?_ ?_ fun _ _ => hW
  · refine (h.space r sh hr).replace hv hV hR hu (fun u hu _ he => ?_) hc
    exact hx (r, u) ⟨sh, hr, hu, he⟩
  · exact fun _ => ⟨hW.ge, AtMost.of_empty fun x hx' => hx x hx'.2⟩

theorem weaken (hv : v ∈ sh.dom)
    (hw : w < 2 ^ 64) (hV : has w pteV) (hR : has w pteR) (hpa : pte2pa w = pte2pa (k.leaf r v))
    (hsub : Within w (k.leaf r v)) :
    World L (k.setPte q (px 0 (v * pgsize)) w) role (update as r (some sh)) := by
  have hs := h.space r sh hr
  have hlow := hs.low v hv
  have hold : Maps k as (pte2pa w) (r, v) := ⟨sh, hr, hv, hpa.symm⟩
  refine h.setLeaf hr hq (hlow.trans (by decide)) hw (fun u hu => .inr hu) ?_ ?_ ?_
  · refine hs.replace hv hV hR (hpa ▸ hs.user v hv) (fun u hu hne he => ?_) fun ht => ?_
    · exact hne (hs.inj u hu v hv (he.trans hpa))
    · intro i h1 h4 hi
      exact hs.within v hv ht i h1 h4 (hsub i h1 h4 hi)
  · intro _
    have hpos := (h.count (pte2pa w)).pos hold
    have hcount := h.count (pte2pa w)
    rw [← Nat.sub_add_cancel hpos] at hcount
    exact ⟨hpos, hcount.remove hold fun x hx => hx.symm⟩
  · intro _ hW
    rw [hpa]
    exact h.writable r sh v hr hv (hsub 2 (by decide) (by decide) hW)

theorem setTop (hv : v = trampV ∨ v = tfV) (hw : w < 2 ^ 64) (hd : sh'.dom = sh.dom)
    (htramp : (if trampV = v then w else k.leaf r trampV) = if sh'.tramp then L.trampoline * 1024 + 11 else 0)
    (htf : (if tfV = v then w else k.leaf r tfV) = match sh'.tf with
      | none => 0
      | some t => t * 1024 + 7) :
    World L (k.setPte q (px 0 (v * pgsize)) w) role (update as r (some sh')) := by
  have hge : tfV ≤ v := by
    rcases hv with rfl | rfl <;> decide
  have hn : v ∉ sh.dom := fun hc => absurd ((h.space r sh hr).low v hc) (by omega)
  refine h.setLeaf hr hq ?_ hw (fun u hu => .inr (hd ▸ hu)) ?_ ?_ ?_
  · rcases hv with rfl | rfl <;> decide
  · exact (h.space r sh hr).setOther hd hn hge htramp htf
  · exact fun hc => absurd hc (hd ▸ hn)
  · exact fun hc => absurd hc (hd ▸ hn)

end

end SetLeaf

section

variable (h : World L k role as)
include h

theorem link {path i} (hp : role p = .table r path)
    (hl : path.length < 2) (hi : i < 512) (htop : path = [] → i < 256) (hv : has (k.pte p i) pteV = false)
    (hq : role q = .held) (hz : ∀ j < 512, k.pte q j = 0) :
    World L (k.setPte p i (q * 1024 + pteV)) (update role q (.table r (path ++ [i]))) as := by
  have ht := h.toTyped.link hp hl hi htop hv hq hz
  have hlf : ∀ r' s, as r' = some s → ∀ u, (k.setPte p i (q * 1024 + pteV)).leaf r' u = k.leaf r' u :=
    fun r' s hs u => h.toTyped.leaf_link hp hl hi htop hv hq hz (h.roots r' s hs) u
  have hne : ∀ t, role t ≠ .held → update role q (.table r (path ++ [i])) t = role t := by
    intro t hheld
    refine update_of_ne ?_ _ _
    rintro rfl
    exact hheld hq
  refine h.of_leaf ht ?_ ?_ (fun r' s u hs _ => hlf r' s hs u) ?_ (fun p' _ _ => h.count p') h.writable rfl rfl
  · intro r' s hs
    rw [hne r' (by simp [h.roots r' s hs])]
    exact h.roots r' s hs
  · intro p' r' path' hp'
    rcases update_eq hp' with ⟨_, ⟨⟩⟩ | ⟨_, hp'⟩
    exacts [h.owned p _ path hp, h.owned p' r' path' hp']
  · intro p' x hx
    rw [hne p' (by simp [h.user_of_maps hx])]
    exact h.user_of_maps hx

theorem newRoot (hq : role q = .held) (hz : ∀ j < 512, k.pte q j = 0) :
    World L k (update role q (.table q [])) (update as q (some ⟨∅, false, none⟩)) := by
  have ht := h.toTyped.newRoot hq hz
  have hleaf := h.toTyped.leaf_newRoot hq hz
  have hne : ∀ t, role t ≠ .held → update role q (.table q []) t = role t := by
    intro t hheld
    refine update_of_ne ?_ _ _
    rintro rfl
    exact hheld hq
  refine { ht with roots := ?_, owned := ?_, space := ?_, count := ?_, writable := ?_ }
  · intro r s hs
    rcases update_eq hs with ⟨rfl, _⟩ | ⟨he, hs⟩
    · rw [update_self]
    · rw [hne r (by simp [h.roots r s hs])]
      exact h.roots r s hs
  · intro p' r' path' hp'
    by_cases he : r' = q
    · subst he
      simp
    rw [update_of_ne he]
    rcases update_eq hp' with ⟨_, ⟨⟩⟩ | ⟨_, hp'⟩
    exacts [absurd rfl he, h.owned p' r' path' hp']
  · intro r s hs
    rcases update_eq hs with ⟨rfl, ⟨⟩⟩ | ⟨he, hs⟩
    · constructor <;> simp [hleaf]
    · refine (h.space r s hs).congr (fun _ _ => rfl) fun u hu => ?_
      have hu' := (h.space r s hs).user u hu
      rw [hne _ (by simp [hu'])]
      exact hu'
  · intro p'
    refine (h.count p').mono (fun x hx => ?_) le_rfl
    obtain ⟨s, hs, hu, hpa⟩ := hx
    rcases update_eq hs with ⟨_, ⟨⟩⟩ | ⟨_, hs⟩
    · simp at hu
    · exact ⟨s, hs, hu, hpa⟩
  · intro r s u hs hu hW
    rcases update_eq hs with ⟨_, ⟨⟩⟩ | ⟨_, hs⟩
    · simp at hu
    · exact h.writable r s u hs hu hW

theorem note (hr : as r = some sh) {c t}
    (hv : v ∈ sh.dom → c = k.created r v ∧ t = true) : World L (k.note r v c t) role as := by
  have hlf : (k.note r v c t).leaf = k.leaf := Kmem.leaf_congr rfl
  have ht : Typed L (k.note r v c t) role := h.toTyped.of_mem rfl rfl fun _ _ _ _ _ _ _ => rfl
  refine { ht with roots := h.roots, owned := h.owned, space := ?_, count := ?_, writable := ?_ }
  · intro r' s hs
    have hsp := h.space r' s hs
    rw [hlf]
    refine { hsp with within := ?_ }
    intro u hu
    by_cases hc : r' = r ∧ u = v
    · obtain ⟨rfl, rfl⟩ := hc
      rw [hr] at hs
      cases hs
      obtain ⟨rfl, rfl⟩ := hv hu
      simp only [Kmem.note, update_self, Bool.true_eq_false, false_or]
      exact fun hf => hsp.within u hu (.inr hf)
    have h1 : (k.note r v c t).created r' u = k.created r' u ∧ (k.note r v c t).touched r' u = k.touched r' u := by
      by_cases he : r' = r
      · subst he
        have hne : u ≠ v := fun huv => hc ⟨rfl, huv⟩
        simp [Kmem.note, hne]
      · simp [Kmem.note, he]
    rw [h1.1, h1.2]
    exact hsp.within u hu
  · intro p'
    refine (h.count p').mono (fun x hx => ?_) le_rfl
    obtain ⟨s, hs, hu, hpa⟩ := hx
    rw [hlf] at hpa
    exact ⟨s, hs, hu, hpa⟩
  · intro r' s u hs hu hW
    rw [hlf] at hW ⊢
    exact h.writable r' s u hs hu hW

theorem readable_of_valid (hr : as r = some sh) (hv : v < 2 ^ 26) (hV : has (k.leaf r v) pteV) :
    has (k.leaf r v) pteR := by
  have hs := h.space r sh hr
  have hbit : ∀ x f, has (x * 1024 + f) pteR = has f pteR := fun x f => has_add (i := 1) (by decide)
  by_cases hd : v ∈ sh.dom
  · exact hs.readable v hd
  obtain rfl | rfl := hs.top_of_ne_zero hv hd (ne_zero_of_has hV)
  · rw [hs.trapframe] at hV ⊢
    split
    · rename_i htf
      simp only [htf, has_zero] at hV
      cases hV
    · rw [hbit]
      decide
  rw [hs.tramp] at hV ⊢
  split at hV
  · rename_i htr
    rw [if_pos htr, hbit]
    decide
  · rw [has_zero] at hV
    cases hV

theorem slot {path i} (hp : role p = .table r path) (hl : 2 ≤ path.length) (hi : i < 512) :
    ∃ v < 2 ^ 26, role p = .table r [px 2 (v * pgsize), px 1 (v * pgsize)] ∧ px 0 (v * pgsize) = i := by
  have hlen := h.depth p r path hp
  obtain ⟨a, b, rfl⟩ : ∃ a b, path = [a, b] := by
    match path, hl, hlen with
    | [a, b], _, _ => exact ⟨a, b, rfl⟩
  have ha := h.top p r a [b] hp
  have hb := (h.parent p r [a] b hp).1
  have hpx : px 2 ((a * 262144 + b * 512 + i) * pgsize) = a ∧ px 1 ((a * 262144 + b * 512 + i) * pgsize) = b ∧
      px 0 ((a * 262144 + b * 512 + i) * pgsize) = i := by
    rw [px_page, px_page, px_page]
    omega
  refine ⟨a * 262144 + b * 512 + i, by omega, ?_, hpx.2.2⟩
  rw [hpx.1, hpx.2.1]
  exact hp

theorem tablePage (hr : as r = some sh) (hq : TablePage k r q) :
    ∃ path, role q = .table r path := by
  induction hq with
  | root => exact ⟨[], h.roots r sh hr⟩
  | @child p i _ hi hv hx ih =>
    obtain ⟨path, hp⟩ := ih
    rcases Nat.lt_or_ge path.length 2 with hl | hl
    · obtain ⟨q, he, hq⟩ := h.child p r path i hp hl hi hv
      rw [he, pte2pa_link]
      exact ⟨_, hq⟩
    -- 末端の表の PTE は下りていく条件を満たさない。
    exfalso
    obtain ⟨v, hv26, hrole, hpx⟩ := h.slot hp hl hi
    have hleaf : k.leaf r v = k.pte p i := by rw [h.toTyped.leaf_eq hrole, hpx]
    rw [← hleaf] at hv hx
    have hR := h.readable_of_valid hr hv26 hv
    simp only [has, bne_eq_false_iff_eq, bne_iff_ne, ne_eq] at hx hR
    apply hR
    have hsub : pteR = (pteR ||| pteW ||| pteX) &&& pteR := by decide
    rw [hsub, ← Nat.and_assoc, hx, Nat.zero_and]

theorem tablePage_of_role {path} (hq : role q = .table r path) : TablePage k r q := by
  induction path using List.reverseRecOn generalizing q with
  | nil =>
    rw [h.root q r hq]
    exact .root
  | append_singleton path i ih =>
    obtain ⟨hi, p, hp, hpte⟩ := h.parent q r path i hq
    have hV : has (k.pte p i) pteV := by rw [hpte]; exact has_link q
    have hchild := TablePage.child (ih hp) hi hV (by rw [hpte, has_link_leaf])
    rwa [hpte, pte2pa_link] at hchild

theorem leaf_of_tablePage (hr : as r = some sh) (hq : TablePage k r q) {i} (hi : i < 512)
    (hV : has (k.pte q i) pteV) (hX : has (k.pte q i) (pteR ||| pteW ||| pteX)) :
    ∃ v < 2 ^ 26, k.find (v * pgsize) 2 r = some (q, i) ∧ k.leaf r v = k.pte q i := by
  obtain ⟨path, hp⟩ := h.tablePage hr hq
  rcases Nat.lt_or_ge path.length 2 with hl | hl
  · obtain ⟨q', he, _⟩ := h.child q r path i hp hl hi hV
    rw [he, has_link_leaf] at hX
    cases hX
  · obtain ⟨v, hv26, hrole, hpx⟩ := h.slot hp hl hi
    refine ⟨v, hv26, (h.toTyped.find_iff (h.roots r sh hr)).mpr ⟨hrole, hpx.symm⟩, ?_⟩
    rw [h.toTyped.leaf_eq hrole, hpx]

end

end World

end Xv6.Vm
