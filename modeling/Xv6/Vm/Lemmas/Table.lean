import Xv6.Vm.Lemmas.Sv39

/-!
# ページの役割とページ表の形
-/

namespace Xv6.Vm

open Xv6.Lib

/-- `table r path` は、根 `r` から添字の列 `path` でたどり着く表、`user` はユーザーのページ、`held` はカーネルが一つだけ
持つページ、`other` は割り当ての対象でないページである。 -/
inductive Role where
  | free
  | table (r : Nat) (path : List Nat)
  | user
  | held
  | other
  deriving DecidableEq

/-- 根 `r` からその表までの添字の列。 -/
def Role.path (r : Nat) : Role → Option (List Nat)
  | .table s l => if s = r then some l else none
  | _ => none

theorem Role.path_eq {ρ : Role} {r l} : ρ.path r = some l ↔ ρ = .table r l := by
  cases ρ <;> simp [Role.path]

def Role.Counts : Role → Nat → Prop
  | .free, n => n = 0
  | .table _ _, n => n = 1
  | .user, n => 1 ≤ n
  | .held, n => n = 1
  | .other, _ => True

/-- 役割が、空きリストと参照の数と合っている。 -/
structure Counted (L : Layout) (k : Kmem) (role : Nat → Role) : Prop where
  free : ∀ p, p ∈ k.freelist ↔ role p = .free
  nodup : k.freelist.Nodup
  range : ∀ p, role p ≠ .other → L.kend ≤ p ∧ p < physpages
  counts : ∀ p, (role p).Counts (k.refcnt p)

/-- さらに、表の中身が役割のとおりにつながっている。 -/
structure Typed (L : Layout) (k : Kmem) (role : Nat → Role) : Prop extends Counted L k role where
  depth : ∀ p r path, role p = .table r path → path.length ≤ 2
  top : ∀ p r a path, role p = .table r (a :: path) → a < 256
  root : ∀ p r, role p = .table r [] → p = r
  child : ∀ p r path i, role p = .table r path → path.length < 2 → i < 512 → has (k.pte p i) pteV →
    ∃ q, k.pte p i = q * 1024 + pteV ∧ role q = .table r (path ++ [i])
  parent : ∀ q r path i, role q = .table r (path ++ [i]) →
    i < 512 ∧ ∃ p, role p = .table r path ∧ k.pte p i = q * 1024 + pteV

theorem Counted.retype {L k k' role p} (h : Counted L k role) {ρ}
    (hfree : p ∈ k'.freelist ↔ ρ = .free) (hnd : k'.freelist.Nodup)
    (hmem : ∀ p', p' ≠ p → (p' ∈ k'.freelist ↔ p' ∈ k.freelist))
    (hr : ∀ p', p' ≠ p → k'.refcnt p' = k.refcnt p') (hρ : ρ.Counts (k'.refcnt p))
    (hrange : role p ≠ .other) : Counted L k' (update role p ρ) where
  free p' := by
    by_cases he : p' = p
    · subst he
      rw [update_self]
      exact hfree
    · rw [update_of_ne he, hmem p' he]
      exact h.free p'
  nodup := hnd
  range p' hp' := by
    by_cases he : p' = p
    · subst he
      exact h.range p' hrange
    · rw [update_of_ne he] at hp'
      exact h.range p' hp'
  counts p' := by
    by_cases he : p' = p
    · subst he
      rw [update_self]
      exact hρ
    · rw [update_of_ne he, hr p' he]
      exact h.counts p'

theorem Counted.table {L k k' role q r path}
    (h : Counted L k role) (hq : role q = .held) (hf : k'.freelist = k.freelist) (hc : k'.refcnt = k.refcnt) :
    Counted L k' (update role q (.table r path)) := by
  refine h.retype ?_ ?_ ?_ ?_ ?_ (by simp [hq])
  · rw [hf, h.free, hq]
    simp
  · rw [hf]
    exact h.nodup
  · intro p' _
    rw [hf]
  · intro p' _
    rw [hc]
  · have := h.counts q
    rw [hq] at this
    rw [hc]
    exact this

namespace Typed

variable {L : Layout} {k k' : Kmem} {role : Nat → Role} {p q r i va : Nat} {path : List Nat}

theorem root_role (h : Typed L k role) (hp : role p = .table r path) : role r = .table r [] := by
  induction path using List.reverseRecOn generalizing p with
  | nil =>
    have := h.root p r hp
    rwa [this] at hp
  | append_singleton path i ih =>
    obtain ⟨_, t, ht, _⟩ := h.parent p r path i hp
    exact ih ht

/-- 根 `r` の表だけを見れば、木をなすページ表である。 -/
theorem sv39 (h : Typed L k role) (hr : role r = .table r []) : Sv39 k r fun p => (role p).path r where
  top := Role.path_eq.mpr hr
  root p hp := h.root p r (Role.path_eq.mp hp)
  depth p l hp := h.depth p r l (Role.path_eq.mp hp)
  child p l i hp hl hi hv := by
    obtain ⟨q, hq, hrole⟩ := h.child p r l i (Role.path_eq.mp hp) hl hi hv
    rw [hq, pte2pa_link]
    exact Role.path_eq.mpr hrole
  parent q l i hq := by
    obtain ⟨hi, p, hp, hpte⟩ := h.parent q r l i (Role.path_eq.mp hq)
    refine ⟨hi, p, Role.path_eq.mpr hp, ?_⟩
    rw [hpte, pte2pa_link]
    exact ⟨has_link q, rfl⟩

theorem unique (h : Typed L k role) {p p'} (hp : role p = .table r path) (hp' : role p' = .table r path) : p = p' :=
  (h.sv39 (h.root_role hp)).unique (Role.path_eq.mpr hp) (Role.path_eq.mpr hp')

theorem find_iff (h : Typed L k role) (hr : role r = .table r []) :
    k.find va 2 r = some (q, i) ↔ role q = .table r [px 2 va, px 1 va] ∧ i = px 0 va := by
  rw [(h.sv39 hr).find_iff, Role.path_eq]

theorem leaf_eq (h : Typed L k role) {v} (hq : role q = .table r [px 2 (v * pgsize), px 1 (v * pgsize)]) :
    k.leaf r v = k.pte q (px 0 (v * pgsize)) :=
  (h.sv39 (h.root_role hq)).leaf_eq (Role.path_eq.mpr hq)

theorem leaf_none (h : Typed L k role) (hr : role r = .table r []) {v}
    (hq : ∀ q, role q ≠ .table r [px 2 (v * pgsize), px 1 (v * pgsize)]) : k.leaf r v = 0 :=
  (h.sv39 hr).leaf_none fun q hc => hq q (Role.path_eq.mp hc)

theorem find_page (k : Kmem) (va l : Nat) (r : Nat) : k.find (va / pgsize * pgsize) l r = k.find va l r := by
  induction l generalizing r with
  | zero => simp only [Kmem.find, px_div]
  | succ l ih => simp only [Kmem.find, px_div, ih]

theorem ne_of_held (hp : role p = .table r path) (hq : role q = .held) : p ≠ q := by
  rintro rfl
  simp [hq] at hp

theorem table_kept (hp : role p = .table r path) (hq : role q = .held) (ρ : Role) : update role q ρ p = .table r path := by
  rwa [update_of_ne (ne_of_held hp hq)]

section

variable (h : Typed L k role)
include h

theorem of_mem (hf : k'.freelist = k.freelist) (hc : k'.refcnt = k.refcnt)
    (hm : ∀ p r path i, role p = .table r path → path.length < 2 → i < 512 → k'.pte p i = k.pte p i) :
    Typed L k' role where
  __ := h
  free := by rw [hf]; exact h.free
  nodup := by rw [hf]; exact h.nodup
  counts := by rw [hc]; exact h.counts
  child p r path i hp hl hi hv := by
    rw [hm p r path i hp hl hi] at hv ⊢
    exact h.child p r path i hp hl hi hv
  parent q r path i hq := by
    obtain ⟨hi, p, hp, hpte⟩ := h.parent q r path i hq
    have hl : (path ++ [i]).length ≤ 2 := h.depth q r _ hq
    rw [List.length_append, List.length_singleton] at hl
    refine ⟨hi, p, hp, ?_⟩
    rw [hm p r path i hp (by omega) hi, hpte]

theorem setPage (hp : ∀ r path, role p ≠ .table r path) (d : Bytes) :
    Typed L (k.setPage p d) role := by
  refine h.of_mem rfl rfl fun p' r path i hp' _ _ => Kmem.pte_congr ?_ i
  have : p' ≠ p := fun he => hp r path (he ▸ hp')
  simp [Kmem.setPage, this]

theorem setLeaf (hq : role q = .table r path) (hl : path.length = 2) {w}
    (hw : w < 2 ^ 64) : Typed L (k.setPte q i w) role := by
  refine h.of_mem rfl rfl fun p' r' path' j hp' hl' _ => ?_
  have hne : p' ≠ q := by
    rintro rfl
    rw [hq] at hp'
    cases hp'
    omega
  rw [Kmem.setPte_pte hw, if_neg fun he => hne he.1]

theorem retype {ρ} (hc : Counted L k' (update role p ρ))
    (hp : ∀ r path, role p ≠ .table r path) (hne : ∀ r path, ρ ≠ .table r path)
    (hm : ∀ p', p' ≠ p → k'.mem p' = k.mem p') : Typed L k' (update role p ρ) := by
  have htab : ∀ p' r path, update role p ρ p' = .table r path → p' ≠ p ∧ role p' = .table r path := by
    intro p' r path hp'
    by_cases he : p' = p
    · subst he
      rw [update_self] at hp'
      exact absurd hp' (hne r path)
    · rw [update_of_ne he] at hp'
      exact ⟨he, hp'⟩
  have hback : ∀ p' r path, role p' = .table r path → update role p ρ p' = .table r path := by
    intro p' r path hp'
    have he : p' ≠ p := fun he => hp r path (he ▸ hp')
    rwa [update_of_ne he]
  refine { hc with depth := ?_, top := ?_, root := ?_, child := ?_, parent := ?_ }
  · intro p' r path hp'
    exact h.depth p' r path (htab p' r path hp').2
  · intro p' r a path hp'
    exact h.top p' r a path (htab p' r _ hp').2
  · intro p' r hp'
    exact h.root p' r (htab p' r [] hp').2
  · intro p' r path i hp' hl hi hv
    obtain ⟨he, hp'⟩ := htab p' r path hp'
    rw [Kmem.pte_congr (hm p' he)] at hv ⊢
    obtain ⟨q, hq, hrole⟩ := h.child p' r path i hp' hl hi hv
    exact ⟨q, hq, hback q r _ hrole⟩
  · intro q r path i hq
    obtain ⟨hi, p', hp', hpte⟩ := h.parent q r path i (htab q r _ hq).2
    have he : p' ≠ p := fun he => hp r path (he ▸ hp')
    refine ⟨hi, p', hback p' r path hp', ?_⟩
    rw [Kmem.pte_congr (hm p' he), hpte]

theorem take {rest} (hk : k.freelist = q :: rest) :
    Typed L (k.take q rest) (update role q .held) := by
  have hq : role q = .free := (h.free q).mp (by simp [hk])
  have hnd := h.nodup
  rw [hk, List.nodup_cons] at hnd
  refine h.retype (h.toCounted.retype ?_ hnd.2 ?_ ?_ ?_ (by simp [hq])) (by simp [hq]) (by simp) ?_
  · simpa [Kmem.take] using hnd.1
  · intro p' hp'
    simp [Kmem.take, hk, hp']
  · intro p' hp'
    simp [Kmem.take, hp']
  · simp [Role.Counts, Kmem.take]
  · intro p' hp'
    simp [Kmem.take, hp']

theorem push (hp : role p = .user ∨ role p = .held) :
    Typed L (k.push p) (update role p .free) := by
  have hfree : p ∉ k.freelist := by
    rw [h.free]
    rcases hp with hp | hp <;> simp [hp]
  refine h.retype (h.toCounted.retype ?_ ?_ ?_ ?_ ?_ ?_) ?_ (by simp) ?_
  · simp [Kmem.push]
  · simpa [Kmem.push] using ⟨hfree, h.nodup⟩
  · intro p' hp'
    simp [Kmem.push, hp']
  · intro p' hp'
    simp [Kmem.push, hp']
  · simp [Role.Counts, Kmem.push]
  · rcases hp with hp | hp <;> simp [hp]
  · rcases hp with hp | hp <;> simp [hp]
  · intro p' hp'
    simp [Kmem.push, hp']

theorem setRef {n ρ} (hρ : ρ = .user ∨ ρ = .held) (hp : role p = .user ∨ role p = .held) (hn : ρ.Counts n) :
    Typed L { k with refcnt := update k.refcnt p n } (update role p ρ) := by
  have hfree : p ∉ k.freelist := by
    rw [h.free]
    rcases hp with hp | hp <;> simp [hp]
  refine h.retype (h.toCounted.retype ?_ h.nodup ?_ ?_ ?_ ?_) ?_ ?_ fun _ _ => rfl
  · rcases hρ with rfl | rfl <;> simpa using hfree
  · intro p' _
    rfl
  · intro p' hp'
    simp [hp']
  · simpa using hn
  · rcases hp with hp | hp <;> simp [hp]
  · rcases hp with hp | hp <;> simp [hp]
  · rcases hρ with rfl | rfl <;> simp

theorem lt_two_pow (hp : role p ≠ .other) {f} (hf : f < 1024) :
    p * 1024 + f < 2 ^ 64 := by
  have := (h.range p hp).2
  simp only [physpages, pgsize] at this
  omega

/-- 空いた欄に、空の表を下げる。 -/
theorem link (hp : role p = .table r path) (hl : path.length < 2) (hi : i < 512)
    (htop : path = [] → i < 256) (hv : has (k.pte p i) pteV = false) (hq : role q = .held) (hz : ∀ j < 512, k.pte q j = 0) :
    Typed L (k.setPte p i (q * 1024 + pteV)) (update role q (.table r (path ++ [i]))) := by
  have hw : q * 1024 + pteV < 2 ^ 64 := h.lt_two_pow (by simp [hq]) (by decide)
  have hpq := ne_of_held hp hq
  have hnew : ∀ t, role t ≠ .table r (path ++ [i]) := by
    intro t ht
    obtain ⟨_, p', hp', hpte⟩ := h.parent t r path i ht
    rw [h.unique hp' hp] at hpte
    rw [hpte, has_link] at hv
    cases hv
  refine { h.toCounted.table hq rfl rfl with depth := ?_, top := ?_, root := ?_, child := ?_, parent := ?_ }
  · intro t r' path' ht
    rcases update_eq ht with ⟨_, ⟨⟩⟩ | ⟨_, ht⟩
    · simp; omega
    · exact h.depth t r' path' ht
  · intro t r' a path' ht
    rcases update_eq ht with ⟨_, hrole⟩ | ⟨_, ht⟩
    · obtain ⟨rfl, hpath⟩ := Role.table.inj hrole
      cases path with
      | nil =>
        obtain ⟨rfl, _⟩ := List.cons.inj hpath
        exact htop rfl
      | cons b path =>
        obtain ⟨rfl, _⟩ := List.cons.inj hpath
        exact h.top p _ b path hp
    · exact h.top t r' a path' ht
  · intro t r' ht
    rcases update_eq ht with ⟨_, hrole⟩ | ⟨_, ht⟩
    · simp at hrole
    · exact h.root t r' ht
  · intro t r' path' j ht hl' hj hv'
    rw [Kmem.setPte_pte hw] at hv' ⊢
    rcases update_eq ht with ⟨rfl, _⟩ | ⟨_, ht'⟩
    · rw [if_neg fun hc => hpq hc.1.symm, hz j hj, has_zero] at hv'
      cases hv'
    by_cases hc : t = p ∧ j = i
    · obtain ⟨rfl, rfl⟩ := hc
      rw [hp] at ht'
      cases ht'
      exact ⟨q, by simp, by simp⟩
    rw [if_neg hc] at hv' ⊢
    obtain ⟨c, hpte, hc'⟩ := h.child t r' path' j ht' hl' hj hv'
    exact ⟨c, hpte, table_kept hc' hq _⟩
  intro t r' path' j ht
  rcases update_eq ht with ⟨rfl, hrole⟩ | ⟨_, ht'⟩
  · obtain ⟨rfl, hpath⟩ := Role.table.inj hrole
    obtain ⟨rfl, rfl⟩ := List.append_inj' hpath rfl |>.imp_right List.singleton_inj.mp
    refine ⟨hi, p, table_kept hp hq _, ?_⟩
    rw [Kmem.setPte_pte hw]
    simp
  obtain ⟨hj, p', hp', hpte⟩ := h.parent t r' path' j ht'
  have hc : ¬(p' = p ∧ j = i) := by
    rintro ⟨rfl, rfl⟩
    rw [hp] at hp'
    obtain ⟨rfl, rfl⟩ := Role.table.inj hp'
    exact hnew t ht'
  exact ⟨hj, p', table_kept hp' hq _, by rw [Kmem.setPte_pte hw, if_neg hc, hpte]⟩

theorem newRoot (hq : role q = .held) (hz : ∀ j < 512, k.pte q j = 0) :
    Typed L k (update role q (.table q [])) := by
  refine { h.toCounted.table hq rfl rfl with depth := ?_, top := ?_, root := ?_, child := ?_, parent := ?_ }
  · intro t r' path' ht
    rcases update_eq ht with ⟨_, ⟨⟩⟩ | ⟨_, ht⟩
    · simp
    · exact h.depth t r' path' ht
  · intro t r' a path' ht
    rcases update_eq ht with ⟨_, hrole⟩ | ⟨_, ht⟩
    · cases hrole
    · exact h.top t r' a path' ht
  · intro t r' ht
    rcases update_eq ht with ⟨rfl, ⟨⟩⟩ | ⟨_, ht⟩
    · rfl
    · exact h.root t r' ht
  · intro t r' path' j ht hl' hj hv'
    rcases update_eq ht with ⟨rfl, _⟩ | ⟨_, ht⟩
    · rw [hz j hj, has_zero] at hv'
      cases hv'
    obtain ⟨c, hpte, hc'⟩ := h.child t r' path' j ht hl' hj hv'
    exact ⟨c, hpte, table_kept hc' hq _⟩
  intro t r' path' j ht
  rcases update_eq ht with ⟨_, hrole⟩ | ⟨_, ht⟩
  · simp at hrole
  obtain ⟨hj, p', hp', hpte⟩ := h.parent t r' path' j ht
  exact ⟨hj, p', table_kept hp' hq _, hpte⟩

theorem leaf_congr {role'} (h' : Typed L k' role') (hr : role r = .table r [])
    (ht : ∀ q path, role q = .table r path ↔ role' q = .table r path)
    (hm : ∀ q a b i, role q = .table r [a, b] → i < 512 → k'.pte q i = k.pte q i) (v : Nat) :
    k'.leaf r v = k.leaf r v := by
  have hpath : (fun p => (role' p).path r) = fun p => (role p).path r := by
    funext p
    refine Option.ext fun l => ?_
    rw [Role.path_eq, Role.path_eq, ht]
  refine (h.sv39 hr).leaf_congr (hpath ▸ h'.sv39 ((ht r _).mp hr)) (fun q a b i hq => hm q a b i ?_) v
  exact Role.path_eq.mp hq

theorem leaf_update {ρ} (h' : Typed L k' (update role p ρ))
    (hp : ∀ r path, role p ≠ .table r path) (hne : ∀ r path, ρ ≠ .table r path)
    (hm : ∀ p', p' ≠ p → k'.mem p' = k.mem p') (hr : role r = .table r []) (v : Nat) :
    k'.leaf r v = k.leaf r v := by
  refine h.leaf_congr h' hr (fun q path => ?_) (fun q a b i hq _ => Kmem.pte_congr (hm q ?_) i) v
  · by_cases he : q = p
    · subst he
      simp [hp, hne]
    · rw [update_of_ne he]
  · exact fun he => hp r _ (he ▸ hq)

theorem leaf_setPage (hp : ∀ r path, role p ≠ .table r path) (d : Bytes)
    (hr : role r = .table r []) (v : Nat) : (k.setPage p d).leaf r v = k.leaf r v := by
  refine h.leaf_congr (h.setPage hp d) hr (fun _ _ => Iff.rfl) (fun q a b i hq _ => Kmem.pte_congr ?_ i) v
  have : q ≠ p := fun he => hp r _ (he ▸ hq)
  simp [Kmem.setPage, this]

theorem leaf_setLeaf {v w r' v'} (hq : role q = .table r [px 2 (v * pgsize), px 1 (v * pgsize)])
    (hw : w < 2 ^ 64) (hv : v < 2 ^ 26) (hv' : v' < 2 ^ 26) (hr' : role r' = .table r' []) :
    (k.setPte q (px 0 (v * pgsize)) w).leaf r' v' = if r' = r ∧ v' = v then w else k.leaf r' v' := by
  by_cases hrr : r' = r
  · subst hrr
    rw [((h.sv39 hr').setLeaf (Role.path_eq.mpr hq) hw hv).2 v' hv']
    simp
  rw [if_neg fun hc => hrr hc.1]
  refine h.leaf_congr (h.setLeaf hq rfl hw) hr' (fun _ _ => Iff.rfl) (fun t a b i ht _ => ?_) v'
  rw [Kmem.setPte_pte hw, if_neg]
  rintro ⟨rfl, _⟩
  rw [hq] at ht
  cases ht
  exact hrr rfl

theorem leaf_link (hp : role p = .table r path) (hl : path.length < 2) (hi : i < 512)
    (htop : path = [] → i < 256) (hv : has (k.pte p i) pteV = false) (hq : role q = .held) (hz : ∀ j < 512,
        k.pte q j = 0) {r'}
    (hr' : role r' = .table r' []) (v : Nat) : (k.setPte p i (q * 1024 + pteV)).leaf r' v = k.leaf r' v := by
  have hw : q * 1024 + pteV < 2 ^ 64 := h.lt_two_pow (by simp [hq]) (by decide)
  have hpq := ne_of_held hp hq
  by_cases hrr : r' = r
  · subst hrr
    have hnone : (role q).path r' = none := by simp [hq, Role.path]
    refine ((h.sv39 hr').link (Role.path_eq.mpr hp) hl hi hv hnone (fun j hj => ?_)
      fun t j _ => Kmem.setPte_pte hw t j).2 v
    rw [Kmem.setPte_pte hw, if_neg fun hc => hpq hc.1.symm, hz j hj]
  refine h.leaf_congr (h.link hp hl hi htop hv hq hz) hr' (fun t l => ⟨fun ht => table_kept ht hq _, fun ht => ?_⟩)
    (fun t a b j ht _ => ?_) v
  · rcases update_eq ht with ⟨_, ⟨⟩⟩ | ⟨_, ht⟩
    · exact absurd rfl hrr
    · exact ht
  · rw [Kmem.setPte_pte hw, if_neg]
    rintro ⟨rfl, _⟩
    rw [hp] at ht
    cases ht
    exact hrr rfl

theorem leaf_newRoot (hq : role q = .held) (hz : ∀ j < 512, k.pte q j = 0) (v : Nat) :
    k.leaf q v = 0 := by
  have h' := h.newRoot hq hz
  refine h'.leaf_none (by simp) fun t ht => ?_
  obtain ⟨_, t', ht', hpte⟩ := h'.parent t q [px 2 (v * pgsize)] _ ht
  obtain ⟨_, t'', ht'', hpte'⟩ := h'.parent t' q [] _ ht'
  rw [h'.root t'' q ht'', hz _ (px_lt _ _)] at hpte'
  simp [pteV] at hpte'

end

end Typed

end Xv6.Vm
