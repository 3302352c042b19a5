import Xv6.Vm.Lemmas.Grow
import Xv6.Vm.Lemmas.Root

/-!
# `uvmcopy`
-/

namespace Xv6.Vm

open Xv6.Lib Finset

variable {L : Layout} {k k' k0 : Kmem} {role role' role0 : Nat → Role} {as : Nat → Option Shape}
variable {p q r v w old new : Nat} {sh shO : Shape} {E : String → Prop}

theorem within_clear (w : Nat) : Within (clear w pteW) w := by
  intro i _ _ hi
  rw [show pteW = 2 ^ 2 from rfl, has_clear] at hi
  exact (Bool.and_eq_true _ _ ▸ hi).1

theorem within_flags {c} (h : Within w c) : Within (pteFlags w) c := by
  intro i h1 h4 hi
  rw [has_pteFlags (by omega)] at hi
  exact h i h1 h4 hi

theorem has_clearW (w : Nat) : has (clear w pteW) pteV = has w pteV ∧ has (clear w pteW) pteR = has w pteR ∧
    has (clear w pteW) pteU = has w pteU ∧ has (clear w pteW) pteW = false := by
  refine ⟨?_, ?_, ?_, ?_⟩
  · exact (has_clear (i := 2) (j := 0)).trans (by simp [pteV])
  · exact (has_clear (i := 2) (j := 1)).trans (by simp [pteR])
  · exact (has_clear (i := 2) (j := 4)).trans (by simp [pteU])
  · exact (has_clear (i := 2) (j := 2)).trans (by simp)

theorem pte2pa_clearW (w : Nat) : pte2pa (clear w pteW) = pte2pa w := clear_div (i := 2) (by decide)

def Kmem.lend (k : Kmem) (q i w : Nat) : Kmem :=
  { k.setPte q i (clear w pteW) with
    refcnt := update k.refcnt (pte2pa w) (k.refcnt (pte2pa w) + 1) }

/-- 書けなくしてから貸すので、共有するページに書ける写像は無い。 -/
theorem World.lend (h : World L k role as) (hr : as r = some sh) (hv : v ∈ sh.dom)
    (hq : role q = .table r [px 2 (v * pgsize), px 1 (v * pgsize)]) :
    World L (k.lend q (px 0 (v * pgsize)) (k.leaf r v)) role as ∧
      AtMost (Maps (k.lend q (px 0 (v * pgsize)) (k.leaf r v)) as (pte2pa (k.leaf r v)))
        ((k.lend q (px 0 (v * pgsize)) (k.leaf r v)).refcnt (pte2pa (k.leaf r v)) - 1) ∧
      ∀ r' s u, as r' = some s → u < 2 ^ 26 → (k.lend q (px 0 (v * pgsize)) (k.leaf r v)).leaf r' u =
        if r' = r ∧ u = v then clear (k.leaf r v) pteW else k.leaf r' u := by
  have hs := h.space r sh hr
  have hv26 := hs.dom_lt hv
  have hw : clear (k.leaf r v) pteW < 2 ^ 64 := by
    rw [h.toTyped.leaf_eq hq]
    exact clear_lt (Kmem.pte_lt _ _ _)
  obtain ⟨hcV, hcR, _, hcW⟩ := has_clearW (k.leaf r v)
  have h1 := h.weaken hr hq hv hw (hcV.trans (hs.valid v hv)) (hcR.trans (hs.readable v hv)) (pte2pa_clearW _)
      (within_clear _)
  rw [← hr, update_eq_self] at h1
  have hleaf : ∀ r' s u, as r' = some s → u < 2 ^ 26 →
      (k.setPte q (px 0 (v * pgsize)) (clear (k.leaf r v) pteW)).leaf r' u =
        if r' = r ∧ u = v then clear (k.leaf r v) pteW else k.leaf r' u :=
    fun r' s u hs' hu => h.toTyped.leaf_setLeaf hq hw hv26 hu (h.roots r' s hs')
  have hself : (k.setPte q (px 0 (v * pgsize)) (clear (k.leaf r v) pteW)).leaf r v = clear (k.leaf r v) pteW := by
    rw [hleaf r sh v hr hv26, if_pos ⟨rfl, rfl⟩]
  -- 書ける写像は一つしかなく、それは今落としたものである。
  have h2 := h1.refUp (p := pte2pa (k.leaf r v)) (hs.user v hv) fun r' s u hs' hu he => by
    by_contra hc
    have hW : has ((k.setPte q (px 0 (v * pgsize)) (clear (k.leaf r v) pteW)).leaf r' u) pteW := by simpa using hc
    have hone := h1.writable r' s u hs' hu hW
    have hcnt := h1.count (pte2pa (k.leaf r v))
    rw [he] at hone
    rw [hone] at hcnt
    have heq := hcnt.unique (a := (r', u)) (b := (r, v)) ⟨s, hs', hu, he⟩ ⟨sh, hr, hv, by rw [hself, pte2pa_clearW]⟩
    cases heq
    rw [hself, hcW] at hW
    cases hW
  refine ⟨h2, ?_, fun r' s u hs' hu => ?_⟩
  · have hcnt := h1.count (pte2pa (k.leaf r v))
    simp only [Kmem.lend, update_self, Nat.add_sub_cancel]
    refine hcnt.mono ?_ le_rfl
    rintro x ⟨s, hs', hu, he⟩
    exact ⟨s, hs', hu, he⟩
  · rw [← hleaf r' s u hs' hu]
    exact congrFun (congrFun (Kmem.leaf_congr rfl) r') u

def need (v : Nat) : Nat := (if v = 0 then 0 else 1) + (v + 511) / 512

structure Copying (L : Layout) (old new : Nat) (sh : Shape) (k0 : Kmem) (role0 : Nat → Role)
    (as : Nat → Option Shape) (v : Nat) (k : Kmem) (role : Nat → Role) : Prop where
  world : World L k role (update as new (some { sh with dom := Finset.range v }))
  roles : ∀ p, role p = role0 p ∨ (role0 p = .free ∧ ∃ path, role p = .table new path)
  refIn : ∀ u < v, k.refcnt (pte2pa (k0.leaf old u)) = k0.refcnt (pte2pa (k0.leaf old u)) + 1
  refOut : ∀ p, role0 p ≠ .free → (∀ u < v, pte2pa (k0.leaf old u) ≠ p) → k.refcnt p = k0.refcnt p
  mem : ∀ p, role0 p ≠ .free → (∀ path, role0 p ≠ .table old path) → (∀ path, role0 p ≠ .table new path) →
    k.mem p = k0.mem p
  leafOld : ∀ u < 2 ^ 26, k.leaf old u = if u < v then clear (k0.leaf old u) pteW else k0.leaf old u
  leafNew : ∀ u < v, k.leaf new u = clear (k0.leaf old u) pteW
  leaf : ∀ r' s u, r' ≠ old → r' ≠ new → as r' = some s → u < 2 ^ 26 → k.leaf r' u = k0.leaf r' u
  notes : ∀ r', r' ≠ new → k.created r' = k0.created r' ∧ k.touched r' = k0.touched r'
  noted : ∀ u < v, k.created new u = k0.created old u ∧ k.touched new u = k0.touched old u
  tab1 : (∃ p, role p = .table new [0]) ↔ 0 < v
  tab2 : ∀ j, (∃ p, role p = .table new [0, j]) ↔ j * 512 < v
  failed : k.failed = k0.failed
  length : k.freelist.length + need v = k0.freelist.length

section Copying

variable {shO : Shape}

theorem old_shape (hne : old ≠ new) (hO : as old = some shO) (sh : Shape) (v : Nat) :
    update as new (some { sh with dom := Finset.range v }) old = some shO := by
  rwa [update_of_ne hne]

theorem new_shape (as : Nat → Option Shape) (new : Nat) (sh : Shape) (v : Nat) :
    update as new (some { sh with dom := Finset.range v }) new = some { sh with dom := Finset.range v } := update_self ..

theorem px_low (hv : v ≤ 32768) : px 2 (v * pgsize) = 0 ∧ px 1 (v * pgsize) = v / 512 := by
  rw [px_page, px_page]
  omega

theorem missing_need (ht : Typed L k role) (hroot : role new = .table new []) (hlt : v ≤ 32768)
    (tab1 : (∃ p, role p = .table new [0]) ↔ 0 < v) (tab2 : ∀ j, (∃ p, role p = .table new [0, j]) ↔ j * 512 < v) :
    need v + k.missing (v * pgsize) 2 new = need (v + 1) := by
  obtain ⟨hpx2, hpx1⟩ := px_low hlt
  by_cases h0 : v = 0
  · have hno : ∀ p, role p ≠ .table new [px 2 (v * pgsize)] := by
      intro p hp
      rw [hpx2] at hp
      have := tab1.mp ⟨p, hp⟩
      omega
    rw [ht.missing_both hroot hno]
    simp [need, h0]
  obtain ⟨p1, hp1⟩ := tab1.mpr (by omega)
  by_cases hmod : v % 512 = 0
  · have hno : ∀ p, role p ≠ .table new [px 2 (v * pgsize), px 1 (v * pgsize)] := by
      intro p hp
      rw [hpx2, hpx1] at hp
      have := (tab2 _).mp ⟨p, hp⟩
      omega
    rw [ht.missing_leaf (by rw [hpx2]; exact hp1) hno]
    simp only [need, if_neg h0, if_neg (Nat.succ_ne_zero v)]
    omega
  · obtain ⟨p2, hp2⟩ := (tab2 (v / 512)).mpr (by omega)
    rw [ht.missing_none (by rw [hpx2, hpx1]; exact hp2)]
    simp only [need, if_neg h0, if_neg (Nat.succ_ne_zero v)]
    omega

/-- 次のページの前半。親の許可を落とし、参照を増やし、記録を写す。 -/
structure Lent (L : Layout) (old new : Nat) (sh : Shape) (k0 : Kmem) (role0 : Nat → Role)
    (as : Nat → Option Shape) (v : Nat) (k : Kmem) (role : Nat → Role) (k1 : Kmem) : Prop where
  world : World L k1 role (update as new (some { sh with dom := Finset.range v }))
  slack : AtMost (Maps k1 (update as new (some { sh with dom := Finset.range v })) (pte2pa (k0.leaf old v)))
    (k1.refcnt (pte2pa (k0.leaf old v)) - 1)
  refcnt : ∀ p, k1.refcnt p = if p = pte2pa (k0.leaf old v) then k.refcnt p + 1 else k.refcnt p
  mem : ∀ p, (∀ path, role p ≠ .table old path) → k1.mem p = k.mem p
  leaf : ∀ r' s u, update as new (some { sh with dom := Finset.range v }) r' = some s → u < 2 ^ 26 →
    k1.leaf r' u = if r' = old ∧ u = v then clear (k0.leaf old v) pteW else k.leaf r' u
  created : ∀ r' u, k1.created r' u = if r' = new ∧ u = v then k.created old v else k.created r' u
  touched : ∀ r' u, k1.touched r' u = if r' = new ∧ u = v then k.touched old v else k.touched r' u
  freelist : k1.freelist = k.freelist
  failed : k1.failed = k.failed

theorem note_apply {α} (f : Nat → Nat → α) (r v : Nat) (c : α) (r' u : Nat) :
    update f r (update (f r) v c) r' u = if r' = r ∧ u = v then c else f r' u := by
  by_cases hr : r' = r <;> by_cases hu : u = v <;> simp [hr, hu]

theorem Copying.lent (hne : old ≠ new) (hO : as old = some shO) (hv : v ∈ shO.dom)
    (h : Copying L old new sh k0 role0 as v k role)
    (hq : role q = .table old [px 2 (v * pgsize), px 1 (v * pgsize)]) :
    Lent L old new sh k0 role0 as v k role
      ((k.lend q (px 0 (v * pgsize)) (k0.leaf old v)).note new v (k.created old v) (k.touched old v)) := by
  have hO' := old_shape hne hO sh v
  have hN := new_shape as new sh v
  have hold : k.leaf old v = k0.leaf old v := by
    rw [h.leafOld v (h.world.dom_lt hO' hv), if_neg (Nat.lt_irrefl v)]
  obtain ⟨h1, hslack, hleaf⟩ := h.world.lend hO' hv hq
  rw [hold] at h1 hslack hleaf
  have hnl : ∀ r' u, ((k.lend q (px 0 (v * pgsize)) (k0.leaf old v)).note new v (k.created old v)
      (k.touched old v)).leaf r' u =
      (k.lend q (px 0 (v * pgsize)) (k0.leaf old v)).leaf r' u := fun r' u =>
    congrFun (congrFun (Kmem.leaf_congr rfl) r') u
  constructor
  case world => exact h1.note hN fun hc => absurd hc (by simp)
  case slack =>
    refine hslack.mono ?_ le_rfl
    rintro x ⟨s, hs, hu, he⟩
    rw [hnl] at he
    exact ⟨s, hs, hu, he⟩
  case refcnt =>
    intro p
    simp only [Kmem.note, Kmem.lend, update_apply]
    split
    · rename_i he
      rw [he]
    · rfl
  case mem =>
    intro p hp
    exact Kmem.setPte_mem fun he => hp _ (he ▸ hq)
  case leaf =>
    intro r' s u hs hu
    rw [hnl, hleaf r' s u hs hu]
  case created => exact fun _ _ => note_apply ..
  case touched => exact fun _ _ => note_apply ..
  case freelist => rfl
  case failed => rfl

theorem Copying.role_eq (h : Copying L old new sh k0 role0 as v k role) (hp : role0 p ≠ .free) : role p = role0 p :=
  (h.roles p).resolve_right fun hc => hp hc.1

theorem Copying.start_user (h : Copying L old new sh k0 role0 as v k role) (hp : role p = .user) : role0 p = .user := by
  rcases h.roles p with he | ⟨_, path, hc⟩
  · rwa [← he]
  · rw [hp] at hc
    cases hc

section Next

variable {k1 : Kmem} (h : Copying L old new sh k0 role0 as v k role)

include h in
theorem Copying.next_roles (he : Ext new k1 k' role role') (p : Nat) :
    role' p = role0 p ∨ (role0 p = .free ∧ ∃ path, role' p = .table new path) := by
  rcases he.roles p with he | ⟨hf, path, hp⟩
  · rw [he]
    exact h.roles p
  · refine .inr ⟨?_, path, hp⟩
    rcases h.roles p with he | ⟨hf0, _⟩
    · rw [← he, hf]
    · exact hf0

variable (hl : Lent L old new sh k0 role0 as v k role k1)
include h hl

theorem Copying.next_refcnt (he : Ext new k1 k' role role') (hp : role0 p ≠ .free) :
    k'.refcnt p = if p = pte2pa (k0.leaf old v) then k.refcnt p + 1 else k.refcnt p :=
  (he.refcnt p (by rwa [h.role_eq hp])).trans (hl.refcnt p)

theorem Copying.next_mem (he : Ext new k1 k' role role') (hp : role0 p ≠ .free) (hpo : ∀ path, role0 p ≠ .table old path)
    (hpn : ∀ path, role0 p ≠ .table new path) : k'.mem p = k0.mem p := by
  have heq := h.role_eq hp
  rw [he.mem p (by rwa [heq]) (by rwa [heq]), hl.mem p (by rwa [heq]), h.mem p hp hpo hpn]

theorem Copying.next_notes {r'} (he : Ext new k1 k' role role') (hr : r' ≠ new) :
    k'.created r' = k0.created r' ∧ k'.touched r' = k0.touched r' := by
  rw [he.created, he.touched]
  refine ⟨funext fun u => ?_, funext fun u => ?_⟩
  · rw [hl.created, if_neg fun hc => hr hc.1, (h.notes r' hr).1]
  · rw [hl.touched, if_neg fun hc => hr hc.1, (h.notes r' hr).2]

theorem Copying.lent_old {u} (hne : old ≠ new) (hO : as old = some shO) (hu : u < 2 ^ 26) :
    k1.leaf old u = if u < v + 1 then clear (k0.leaf old u) pteW else k0.leaf old u := by
  rw [hl.leaf old _ u (old_shape hne hO sh v) hu]
  by_cases huv : u = v
  · subst huv
    rw [if_pos ⟨rfl, rfl⟩, if_pos (Nat.lt_succ_self u)]
  · rw [if_neg fun hc => huv hc.2, h.leafOld u hu]
    by_cases hlt : u < v
    · rw [if_pos hlt, if_pos (by omega)]
    · rw [if_neg hlt, if_neg (by omega)]

theorem Copying.lent_leaf {r' s u} (hro : r' ≠ old) (hrn : r' ≠ new) (hs : as r' = some s) (hu : u < 2 ^ 26) :
    k1.leaf r' u = k0.leaf r' u := by
  rw [hl.leaf r' s u (by rwa [update_of_ne hrn]) hu, if_neg fun hc => hro hc.1, h.leaf r' s u hro hrn hs hu]

end Next

theorem Copying.succ {k1} (hne : old ≠ new) (hO : as old = some shO) (hv26 : v < 2 ^ 26) (hcard : v ≤ 32768)
    (huser : role (pte2pa (k0.leaf old v)) = .user) (hinj : ∀ u < v, pte2pa (k0.leaf old u) ≠ pte2pa (k0.leaf old v))
    (h : Copying L old new sh k0 role0 as v k role) (hl : Lent L old new sh k0 role0 as v k role k1)
    (hm : Mapped L (update as new (some { sh with dom := Finset.range v })) new v
      (clear (k0.leaf old v) pteW) { sh with dom := insert v (Finset.range v) } k1 role k' role') :
    Copying L old new sh k0 role0 as (v + 1) k' role' := by
  have hO' := old_shape hne hO sh v
  have hN := new_shape as new sh v
  have huser0 := h.start_user huser
  obtain ⟨hpx2, hpx1⟩ := px_low hcard
  obtain ⟨q, hq⟩ := hm.present
  rw [hpx2, hpx1] at hq
  constructor
  case world =>
    have := hm.world
    rwa [update_idem, ← range_add_one] at this
  case roles => exact h.next_roles hm.ext
  case refIn =>
    intro u hu
    by_cases huv : u = v
    · subst huv
      rw [h.next_refcnt hl hm.ext (by simp [huser0]), if_pos rfl, h.refOut _ (by simp [huser0]) hinj]
    have hlt : u < v := by omega
    have hu := (h.world.space new _ hN).user u (mem_range.mpr hlt)
    rw [h.leafNew u hlt, pte2pa_clearW] at hu
    rw [h.next_refcnt hl hm.ext (by simp [h.start_user hu]), if_neg (hinj u hlt), h.refIn u hlt]
  case refOut =>
    intro p hp hnot
    rw [h.next_refcnt hl hm.ext hp, if_neg (hnot v (Nat.lt_succ_self v)).symm,
      h.refOut p hp fun u hu => hnot u (Nat.lt_succ_of_lt hu)]
  case mem => exact fun p hp => h.next_mem hl hm.ext hp
  case leafOld =>
    intro u hu
    rw [hm.leaf old _ u hO' hu, if_neg fun hc => hne hc.1, h.lent_old hl hne hO hu]
  case leafNew =>
    intro u hu
    by_cases huv : u = v
    · subst huv
      rw [hm.leaf new _ u hN hv26, if_pos ⟨rfl, rfl⟩]
    · have hlt : u < v := by omega
      rw [hm.leaf new _ u hN (by omega), if_neg fun hc => huv hc.2, hl.leaf new _ u hN (by omega),
        if_neg fun hc => hne hc.1.symm, h.leafNew u hlt]
  case leaf =>
    intro r' s u hro hrn hs hu
    rw [hm.leaf r' s u (by rwa [update_of_ne hrn]) hu, if_neg fun hc => hrn hc.1, h.lent_leaf hl hro hrn hs hu]
  case notes => exact fun r' hr => h.next_notes hl hm.ext hr
  case noted =>
    intro u hu
    rw [hm.ext.created, hm.ext.touched, hl.created, hl.touched]
    by_cases huv : u = v
    · subst huv
      rw [if_pos ⟨rfl, rfl⟩, if_pos ⟨rfl, rfl⟩, (h.notes old hne).1, (h.notes old hne).2]
      exact ⟨rfl, rfl⟩
    · rw [if_neg fun hc => huv hc.2, if_neg fun hc => huv hc.2]
      exact h.noted u (by omega)
  case tab1 =>
    refine ⟨fun _ => Nat.succ_pos v, fun _ => ?_⟩
    obtain ⟨_, p, hp, _⟩ := hm.world.parent q new [0] _ hq
    exact ⟨p, hp⟩
  case tab2 =>
    intro j
    constructor
    · rintro ⟨p, hp⟩
      rcases hm.added p with he | he | he
      · rw [he] at hp
        have := (h.tab2 j).mp ⟨p, hp⟩
        omega
      · rw [he] at hp
        simp at hp
      · rw [he, hpx2, hpx1] at hp
        simp only [Role.table.injEq, List.cons.injEq, and_true, true_and] at hp
        omega
    intro hj
    by_cases hjv : j * 512 < v
    · obtain ⟨p, hp⟩ := (h.tab2 j).mpr hjv
      exact ⟨p, by rw [hm.ext.role_eq (by simp [hp]), hp]⟩
    · obtain rfl : j = v / 512 := by omega
      exact ⟨q, hq⟩
  case failed => exact hm.failed.trans (hl.failed.trans h.failed)
  case length =>
    have hneed := missing_need hl.world.toTyped (hl.world.roots new _ hN) hcard h.tab1 h.tab2
    have h1 := hm.length
    have h2 := h.length
    rw [hl.freelist] at h1
    omega

theorem Copying.map {k1} (hne : old ≠ new) (hO : as old = some shO) (hv : v ∈ shO.dom)
    (hsub : ∀ u < v, u ∈ shO.dom) (h : Copying L old new sh k0 role0 as v k role)
    (hl : Lent L old new sh k0 role0 as v k role k1) :
    wp (mappages new (v * pgsize) pgsize (pte2pa (k0.leaf old v)) (pteFlags (clear (k0.leaf old v) pteW)))
      (fun res k' => ∃ role',
        (res = -1 ∧ k0.freelist.length < need (v + 1) ∧
          NotMapped L (update as new (some { sh with dom := Finset.range v })) new v k1 role k' role') ∨
        (res = 0 ∧ Copying L old new sh k0 role0 as (v + 1) k' role')) E k1 := by
  have hO' := old_shape hne hO sh v
  have hN := new_shape as new sh v
  have hsp := hl.world.space old shO hO'
  have hlow := hsp.low v hv
  have hv26 := hsp.dom_lt hv
  have hu26 : ∀ u < v, u < 2 ^ 26 := fun u hu => hu.trans hv26
  have hold : k1.leaf old v = clear (k0.leaf old v) pteW := by
    rw [hl.leaf old _ v hO' hv26, if_pos ⟨rfl, rfl⟩]
  have holdlt : ∀ u < v, k1.leaf old u = clear (k0.leaf old u) pteW := by
    intro u hu
    rw [hl.leaf old _ u hO' (hu26 u hu), if_neg (by omega), h.leafOld u (hu26 u hu), if_pos hu]
  have hnewlt : ∀ u < v, k1.leaf new u = clear (k0.leaf old u) pteW := by
    intro u hu
    rw [hl.leaf new _ u hN (hu26 u hu), if_neg fun hc => hne hc.1.symm, h.leafNew u hu]
  have hinj : ∀ u < v, pte2pa (k0.leaf old u) ≠ pte2pa (k0.leaf old v) := by
    intro u hu he
    have := hsp.inj u (hsub u hu) v hv (by rw [holdlt u hu, hold, pte2pa_clearW, pte2pa_clearW, he])
    omega
  have huser : role (pte2pa (k0.leaf old v)) = .user := by
    have := hsp.user v hv
    rwa [hold, pte2pa_clearW] at this
  have huser0 := h.start_user huser
  obtain ⟨hcV, hcR, _, hcW⟩ := has_clearW (k0.leaf old v)
  have hV : has (clear (k0.leaf old v) pteW) pteV := by
    have := hsp.valid v hv
    rwa [hold] at this
  have hR : has (clear (k0.leaf old v) pteW) pteR := by
    have := hsp.readable v hv
    rwa [hold] at this
  have hcard : v ≤ 32768 := by
    have := h.world.card_dom_le hN
    rwa [card_range] at this
  have hneed := missing_need hl.world.toTyped (hl.world.roots new _ hN) hcard h.tab1 h.tab2
  have hlen := h.length
  refine wp_post (mapUser_spec hl.world hN (by simp) hlow (pteFlags_lt _) ((has_pteFlags (i := 1) (by decide)).trans hR)
    huser ?_ hl.slack ?_ ?_) ?_
  · intro u hu
    have hu := mem_range.mp hu
    rw [hnewlt u hu, pte2pa_clearW]
    exact hinj u hu
  · intro hc
    have hc' := (has_pteFlags (i := 2) (by decide)).symm.trans hc
    exact absurd (hcW.symm.trans hc') (by decide)
  · rw [hl.created, hl.touched, if_pos ⟨rfl, rfl⟩, if_pos ⟨rfl, rfl⟩]
    intro ht
    refine within_flags ?_
    have := hsp.within v hv
    rw [hold, hl.created, hl.touched, if_neg fun hc => hne hc.1, if_neg fun hc => hne hc.1] at this
    exact this ht
  rintro res k' ⟨role', ⟨rfl, hn⟩ | ⟨rfl, hm⟩⟩
  · refine ⟨role', .inl ⟨rfl, ?_, hn⟩⟩
    have := hn.length
    rw [hl.freelist] at this
    omega
  · refine ⟨role', .inr ⟨rfl, h.succ hne hO hv26 hcard huser hinj hl ?_⟩⟩
    rwa [← pte2pa_clearW (k0.leaf old v), word_flags hV] at hm

/-- `i` ページ目で表が足りなくなった状態。そのページの参照は増えたまま、親の許可は落ちたままである。 -/
structure CopyFailed (L : Layout) (old new : Nat) (k0 : Kmem) (role0 : Nat → Role) (as : Nat → Option Shape) (i : Nat)
    (k : Kmem) (role : Nat → Role) : Prop where
  world : World L k role as
  roles : ∀ p, role p = role0 p ∨ (role0 p = .free ∧ ∃ path, role p = .table new path)
  refIn : k.refcnt (pte2pa (k0.leaf old i)) = k0.refcnt (pte2pa (k0.leaf old i)) + 1
  refOut : ∀ p, role0 p ≠ .free → pte2pa (k0.leaf old i) ≠ p → k.refcnt p = k0.refcnt p
  mem : ∀ p, role0 p ≠ .free → (∀ path, role0 p ≠ .table old path) → (∀ path, role0 p ≠ .table new path) →
    k.mem p = k0.mem p
  leafOld : ∀ u < 2 ^ 26, k.leaf old u = if u ≤ i then clear (k0.leaf old u) pteW else k0.leaf old u
  leaf : ∀ r' s u, r' ≠ old → r' ≠ new → as r' = some s → u < 2 ^ 26 → k.leaf r' u = k0.leaf r' u
  notes : ∀ r', r' ≠ new → k.created r' = k0.created r' ∧ k.touched r' = k0.touched r'
  failed : k.failed = k0.failed + 1

/-- 写像に失敗すれば、そこまでの子の写像を外す。 -/
theorem Copying.undo {k1} (hne : old ≠ new) (hO : as old = some shO) (hN0 : as new = some { sh with dom := ∅ })
    (hv : v ∈ shO.dom) (hsub : ∀ u < v, u ∈ shO.dom) (h0 : World L k0 role0 as)
    (h : Copying L old new sh k0 role0 as v k role) (hl : Lent L old new sh k0 role0 as v k role k1)
    (hn : NotMapped L (update as new (some { sh with dom := Finset.range v })) new v k1 role k' role') :
    wp (uvmunmap L new 0 v true) (fun _ k'' => ∃ role'', CopyFailed L old new k0 role0 as v k'' role'') E k' := by
  have hO' := old_shape hne hO sh v
  have hN := new_shape as new sh v
  have hsp0 := h0.space old shO hO
  have hinj : ∀ u < v, pte2pa (k0.leaf old u) ≠ pte2pa (k0.leaf old v) := by
    intro u hu he
    have := hsp0.inj u (hsub u hu) v hv he
    omega
  have hu26 : ∀ u ≤ v, u < 2 ^ 26 := fun u hu => hu.trans_lt (hsp0.dom_lt hv)
  have hroleEq : ∀ p, role0 p ≠ .free → role' p = role0 p := by
    intro p hp
    rw [hn.ext.role_eq (by rwa [h.role_eq hp]), h.role_eq hp]
  have hnew : ∀ u < v, k'.leaf new u = clear (k0.leaf old u) pteW := by
    intro u hu
    rw [hn.leaf new _ u hN, hl.leaf new _ u hN (hu26 u hu.le), if_neg fun hc => hne hc.1.symm, h.leafNew u hu]
  have huser0 : ∀ u ≤ v, role0 (pte2pa (k0.leaf old u)) = .user := by
    intro u hu
    rcases Nat.eq_or_lt_of_le hu with rfl | hlt
    · exact hsp0.user u hv
    · exact hsp0.user u (hsub u hlt)
  have hun := uvmunmap_spec (E := E) (v := 0) (n := v) hn.world hN fun u _ hu => mem_range.mpr (by omega)
  rw [Nat.zero_mul] at hun
  refine wp_post hun fun _ k'' ⟨role'', hu⟩ => ⟨role'', ?_⟩
  have hd : Finset.range v \ Finset.Ico 0 (0 + v) = ∅ := by
    ext u
    simp only [mem_sdiff, mem_range, mem_Ico, notMem_empty, iff_false]
    omega
  have hrefLt : ∀ u < v, k''.refcnt (pte2pa (k0.leaf old u)) = k0.refcnt (pte2pa (k0.leaf old u)) := by
    intro u hlt
    have h1 := hu.refIn u (Nat.zero_le _) (by omega)
    rw [hnew u hlt, pte2pa_clearW] at h1
    rw [h1, h.next_refcnt hl hn.ext (by simp [huser0 u hlt.le]), if_neg (hinj u hlt), h.refIn u hlt, Nat.add_sub_cancel]
  have hrefOut : ∀ p, role0 p ≠ .free → (∀ u < v, pte2pa (k0.leaf old u) ≠ p) → k''.refcnt p =
      if p = pte2pa (k0.leaf old v) then k.refcnt p + 1 else k.refcnt p := by
    intro p hp hnot
    rw [hu.refOut p fun u _ hlt => by rw [hnew u (by omega), pte2pa_clearW]; exact hnot u (by omega),
      h.next_refcnt hl hn.ext hp]
  have hrefIn : k''.refcnt (pte2pa (k0.leaf old v)) = k0.refcnt (pte2pa (k0.leaf old v)) + 1 := by
    have hp : role0 (pte2pa (k0.leaf old v)) ≠ .free := by simp [huser0 v (Nat.le_refl v)]
    rw [hrefOut _ hp hinj, if_pos rfl, h.refOut _ hp hinj]
  have hrefNe : ∀ p, role0 p ≠ .free → pte2pa (k0.leaf old v) ≠ p → k''.refcnt p = k0.refcnt p := by
    intro p hp hpv
    by_cases hex : ∃ u < v, pte2pa (k0.leaf old u) = p
    · obtain ⟨u, hlt, rfl⟩ := hex
      exact hrefLt u hlt
    · have hnot : ∀ u < v, pte2pa (k0.leaf old u) ≠ p := fun u hlt he => hex ⟨u, hlt, he⟩
      rw [hrefOut p hp hnot, if_neg hpv.symm, h.refOut p hp hnot]
  have hrole'' : ∀ p, role'' p = role' p := by
    intro p
    by_cases hp : role' p = .user
    · have hp0 : role0 p = .user := by
        rcases hn.ext.roles p with he | ⟨_, path, hc⟩
        · exact h.start_user (he ▸ hp)
        · rw [hp] at hc
          cases hc
      have hpos := (h0.range_user hp0).2
      have hge : k0.refcnt p ≤ k''.refcnt p := by
        by_cases hpv : pte2pa (k0.leaf old v) = p
        · subst hpv
          omega
        · rw [hrefNe p (by simp [hp0]) hpv]
      rw [hu.user p hp, if_neg (by omega), hp]
    · exact hu.other p hp
  constructor
  case world =>
    have := hu.world
    simp only [update_idem, hd] at this
    rwa [← hN0, update_eq_self] at this
  case roles =>
    intro p
    rw [hrole'']
    exact h.next_roles hn.ext p
  case refIn => exact hrefIn
  case refOut => exact hrefNe
  case mem =>
    intro p hp hpo hpn
    rw [hu.mem p (by rw [hrole'', hroleEq p hp]; exact hp) (by rw [hroleEq p hp]; exact hpn), h.next_mem hl hn.ext hp hpo hpn]
  case leafOld =>
    intro u hlt
    rw [hu.leaf old _ u hO' hlt, if_neg fun hc => hne hc.1, hn.leaf old _ u hO', h.lent_old hl hne hO hlt]
    simp only [Nat.lt_succ_iff]
  case leaf =>
    intro r' s u hro hrn hs hlt
    have hs' : update as new (some { sh with dom := Finset.range v }) r' = some s := by
      rwa [update_of_ne hrn]
    rw [hu.leaf r' s u hs' hlt, if_neg fun hc => hrn hc.1, hn.leaf r' s u hs', h.lent_leaf hl hro hrn hs hlt]
  case notes =>
    intro r' hr
    rw [hu.created, hu.touched]
    exact h.next_notes hl hn.ext hr
  case failed => rw [hu.failed, hn.failed, hl.failed, h.failed]

theorem uvmcopyLoop_spec (hne : old ≠ new) (hO : as old = some shO) (hN0 : as new = some { sh with dom := ∅ })
    (h0 : World L k0 role0 as) (n : Nat) : ∀ {v : Nat} {k : Kmem} {role : Nat → Role},
      (∀ u < v + n, u ∈ shO.dom) → Copying L old new sh k0 role0 as v k role →
      wp (uvmcopyLoop L old new n (v * pgsize)) (fun res k' => ∃ role',
        (res = 0 ∧ Copying L old new sh k0 role0 as (v + n) k' role') ∨
        (res = -1 ∧ k0.freelist.length < need (v + n) ∧ ∃ i < v + n,
          CopyFailed L old new k0 role0 as i k' role')) E k := by
  induction n with
  | zero =>
    intro v k role _ h
    exact ⟨role, .inl ⟨rfl, h⟩⟩
  | succ n ih =>
    intro v k role hdom h
    have hv := hdom v (by omega)
    have hO' := old_shape hne hO sh v
    have hsp := h.world.space old shO hO'
    have hv26 := hsp.dom_lt hv
    have hV := hsp.valid v hv
    have hva := page_lt_maxva hv26
    have hold : k.leaf old v = k0.leaf old v := by
      rw [h.leafOld v hv26, if_neg (Nat.lt_irrefl v)]
    obtain ⟨q, hq, hf, hpte⟩ := h.world.find_leaf hO' (ne_zero_of_has hV)
    have huser := hsp.user v hv
    rw [hold] at hpte hV huser
    obtain ⟨hrange, hpos⟩ := h.world.range_user huser
    have hl := h.lent hne hO hv hq
    have hinc : ¬(pte2pa (k0.leaf old v) > physpages ∨
        (k.setPte q (px 0 (v * pgsize)) (clear (k0.leaf old v) pteW)).refcnt (pte2pa (k0.leaf old v)) < 1) := by
      rw [Kmem.setPte_refcnt]
      omega
    have hdiv : v * pgsize / pgsize = v := Nat.mul_div_cancel _ (by decide)
    simp only [uvmcopyLoop, wp_bind, wp_walk_false hva, hf, wp_get, hpte, hV, Bool.true_eq_false, if_false, setPte,
      wp_modify, increse, if_neg hinc, wp_set, inherit, hdiv]
    refine wp_post (h.map hne hO hv (fun u hu => hdom u (by omega)) hl) ?_
    rintro res k' ⟨role', ⟨rfl, hlen, hn⟩ | ⟨rfl, hc⟩⟩
    · rw [if_pos (by decide), wp_bind]
      refine wp_post (h.undo hne hO hN0 hv (fun u hu => hdom u (by omega)) h0 hl hn) ?_
      rintro _ k'' ⟨role'', hfail⟩
      refine wp_pure.mpr ⟨role'', .inr ⟨rfl, ?_, v, by omega, hfail⟩⟩
      refine hlen.trans_le ?_
      simp only [need, if_neg (Nat.succ_ne_zero v), show v + (n + 1) ≠ 0 by omega, if_false]
      omega
    · rw [if_neg (by decide), show v * pgsize + pgsize = (v + 1) * pgsize by ring]
      have := ih (v := v + 1) (fun u hu => hdom u (by omega)) hc
      rwa [show v + 1 + n = v + (n + 1) by omega] at this

end Copying

theorem Copying.start (h : World L k role as) (hN : as new = some { sh with dom := ∅ })
    (htab : ∀ p path, role p = .table new path → path = [] ∨ path = [255] ∨ path = [255, 511]) :
    Copying L old new sh k role as 0 k role where
  world := by
    rw [range_zero, ← hN, update_eq_self]
    exact h
  roles _ := .inl rfl
  refIn u hu := absurd hu (Nat.not_lt_zero u)
  refOut _ _ _ := rfl
  mem _ _ _ _ := rfl
  leafOld u _ := by rw [if_neg (Nat.not_lt_zero u)]
  leafNew u hu := absurd hu (Nat.not_lt_zero u)
  leaf _ _ _ _ _ _ _ := rfl
  notes _ _ := ⟨rfl, rfl⟩
  noted u hu := absurd hu (Nat.not_lt_zero u)
  tab1 := by
    refine ⟨fun ⟨p, hp⟩ => ?_, fun hc => absurd hc (Nat.lt_irrefl 0)⟩
    rcases htab p _ hp with hc | hc | hc <;> simp at hc
  tab2 j := by
    refine ⟨fun ⟨p, hp⟩ => ?_, fun hc => absurd hc (Nat.not_lt_zero _)⟩
    rcases htab p _ hp with hc | hc | hc <;> simp at hc
  failed := rfl
  length := rfl

theorem uvmcopy_spec {sz} (hne : old ≠ new) (h : World L k role as) (hO : as old = some shO)
    (hN : as new = some { sh with dom := ∅ }) (hdom : ∀ u < npages sz, u ∈ shO.dom)
    (htab : ∀ p path, role p = .table new path → path = [] ∨ path = [255] ∨ path = [255, 511]) :
    wp (uvmcopy L old new sz) (fun res k' => ∃ role',
      (res = 0 ∧ Copying L old new sh k role as (npages sz) k' role') ∨
      (res = -1 ∧ k.freelist.length < need (npages sz) ∧ ∃ i < npages sz,
          CopyFailed L old new k role as i k' role')) E k := by
  have := uvmcopyLoop_spec (E := E) hne hO hN h (npages sz) (v := 0) (by simpa using hdom) (.start h hN htab)
  rwa [Nat.zero_mul, Nat.zero_add] at this

end Xv6.Vm
