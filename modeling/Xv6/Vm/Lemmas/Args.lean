import Xv6.Vm.Lemmas.Str
import Xv6.Vm.Lemmas.Step

/-!
# `sys_exec` の引数のページ
-/

namespace Xv6.Vm

open Xv6.Lib

variable {L : Layout} {k k0 k' : Kmem} {role role0 role' : Nat → Role} {as : Nat → Option Shape}
variable {s : Kernel} {p : Fin nproc} {q r : Nat} {qs : List Nat} {sh : Shape} {E : String → Prop}

/-- 初めの状態 `k0` から、空いていたページ `qs` だけをカーネルが取った状態。 -/
structure Holding (L : Layout) (as : Nat → Option Shape) (k0 : Kmem) (role0 : Nat → Role) (qs : List Nat) (k : Kmem)
    (role : Nat → Role) : Prop where
  world : World L k role as
  nodup : qs.Nodup
  held : ∀ q ∈ qs, role q = .held
  was : ∀ q ∈ qs, role0 q = .free
  roles : ∀ p, p ∉ qs → role p = role0 p
  refcnt : ∀ p, role0 p ≠ .free → k.refcnt p = k0.refcnt p
  mem : ∀ p, role0 p ≠ .free → k.mem p = k0.mem p
  leaf : ∀ r s u, as r = some s → u < 2 ^ 26 → k.leaf r u = k0.leaf r u

namespace Holding

theorem refl (h : World L k role as) : Holding L as k role [] k role where
  world := h
  nodup := List.nodup_nil
  held := by simp
  was := by simp
  roles _ _ := rfl
  refcnt _ _ := rfl
  mem _ _ := rfl
  leaf _ _ _ _ _ := rfl

theorem of_held (h : World L k role as) (hn : qs.Nodup) (hh : ∀ q ∈ qs, role q = .held) :
    Holding L as k (fun p => if p ∈ qs then .free else role p) qs k role where
  world := h
  nodup := hn
  held := hh
  was _ hq := if_pos hq
  roles _ hp := (if_neg hp).symm
  refcnt _ _ := rfl
  mem _ _ := rfl
  leaf _ _ _ _ _ := rfl

section

variable (h : Holding L as k0 role0 qs k role)
include h

theorem not_mem {p} (hp : role0 p ≠ .free) : p ∉ qs := fun hq => hp (h.was p hq)

theorem held_start {p} (hp : role0 p = .held) : role p = .held :=
  (h.roles p (h.not_mem (by simp [hp]))).trans hp

theorem fail (n : Nat) : Holding L as k0 role0 qs { k with failed := n } role :=
  { h with
    world := h.world.fail n
    leaf := fun r s u hs hu => by
      rw [show Kmem.leaf { k with failed := n } = k.leaf from Kmem.leaf_congr rfl]
      exact h.leaf r s u hs hu }

theorem take {rest} (hk : k.freelist = q :: rest) :
    Holding L as k0 role0 (qs ++ [q]) (k.take q rest) (update role q .held) := by
  have hfree : role q = .free := (h.world.free q).mp (by simp [hk])
  have hnot : q ∉ qs := by
    intro hq
    have := h.held q hq
    rw [hfree] at this
    cases this
  have hwas : role0 q = .free := (h.roles q hnot).symm.trans hfree
  have hmem : ∀ p, p ≠ q → (k.take q rest).mem p = k.mem p := fun p hp => update_of_ne hp ..
  have hne : ∀ p, p ∉ qs ++ [q] → p ∉ qs ∧ p ≠ q := by simp
  constructor
  case world => exact h.world.take hk
  case nodup => exact h.nodup.append (List.nodup_singleton q) (by simpa using hnot)
  case held =>
    intro p hp
    by_cases he : p = q
    · rw [he, update_self]
    · rw [update_of_ne he]
      exact h.held p (by simpa [he] using hp)
  case was =>
    intro p hp
    by_cases he : p = q
    · rw [he, hwas]
    · exact h.was p (by simpa [he] using hp)
  case roles =>
    intro p hp
    rw [update_of_ne (hne p hp).2, h.roles p (hne p hp).1]
  case refcnt =>
    intro p hp
    have hne : p ≠ q := fun he => hp (he ▸ hwas)
    rw [← h.refcnt p hp]
    exact update_of_ne hne ..
  case mem =>
    intro p hp
    rw [hmem p fun he => hp (he ▸ hwas), h.mem p hp]
  case leaf =>
    intro r s u hs hu
    rw [h.world.toTyped.leaf_update (h.world.toTyped.take hk) (by simp [hfree]) (by simp) hmem (h.world.roots r s hs) u,
      h.leaf r s u hs hu]

theorem setPage (hq : q ∈ qs) (d : Bytes) :
    Holding L as k0 role0 qs (k.setPage q d) role := by
  have hnt : ∀ r path, role q ≠ .table r path := by simp [h.held q hq]
  refine { h with world := h.world.setPage hnt d, mem := fun p hp => ?_, leaf := fun r s u hs hu => ?_ }
  · have hne : p ≠ q := fun he => hp (he ▸ h.was q hq)
    rw [← h.mem p hp]
    exact update_of_ne hne ..
  · rw [h.world.toTyped.leaf_setPage hnt d (h.world.roots r s hs) u, h.leaf r s u hs hu]

theorem restored (hw : World L k' role' as) (hr : Restored k role as k' role') :
    Holding L as k0 role0 qs k' role' where
  __ := h
  world := hw
  held q hq := (hr.roles q).trans (h.held q hq)
  roles p hp := (hr.roles p).trans (h.roles p hp)
  refcnt p hp := (hr.refcnt p).trans (h.refcnt p hp)
  mem p hp := (hr.mem p (by rwa [h.roles p (h.not_mem hp)])).trans (h.mem p hp)
  leaf r s u hs hu := (hr.leaf r s u hs hu).trans (h.leaf r s u hs hu)

end

theorem push (h : Holding L as k0 role0 (q :: qs) k role) :
    Holding L as k0 role0 qs (k.drop q) (update role q .free) ∧ 1 ≤ k.refcnt q := by
  have hq := h.held q List.mem_cons_self
  obtain ⟨hnot, hnd⟩ := List.nodup_cons.mp h.nodup
  obtain ⟨hd, hw⟩ := h.world.drop_held hq
  have hone : k.refcnt q = 1 := by
    have := h.world.counts q
    rwa [hq] at this
  have hwas := h.was q List.mem_cons_self
  have hmem : ∀ p, p ≠ q → (k.push q).mem p = k.mem p := fun p hp => update_of_ne hp ..
  rw [hd]
  refine ⟨?_, hone.ge⟩
  constructor
  case world => exact hw
  case nodup => exact hnd
  case held =>
    intro p hp
    have hne : p ≠ q := fun he => hnot (he ▸ hp)
    rw [update_of_ne hne]
    exact h.held p (List.mem_cons_of_mem q hp)
  case was => exact fun p hp => h.was p (List.mem_cons_of_mem q hp)
  case roles =>
    intro p hp
    by_cases he : p = q
    · rw [he, update_self, hwas]
    · rw [update_of_ne he, h.roles p (by simp [he, hp])]
  case refcnt =>
    intro p hp
    have hne : p ≠ q := fun he => hp (he ▸ hwas)
    rw [← h.refcnt p hp]
    exact update_of_ne hne ..
  case mem =>
    intro p hp
    rw [hmem p fun he => hp (he ▸ hwas), h.mem p hp]
  case leaf =>
    intro r s u hs hu
    rw [h.world.toTyped.leaf_update hw.toTyped (by simp [hq]) (by simp) hmem (h.world.roots r s hs) u,
      h.leaf r s u hs hu]

/-- 取ったページを全て返せば、始める前と同じである。 -/
theorem done (h0 : World L k0 role0 as) (h : Holding L as k0 role0 [] k role) : Restored k0 role0 as k role where
  __ := h
  roles p := h.roles p List.not_mem_nil
  refcnt p := by
    by_cases hp : role0 p = .free
    · have h1 := h.world.counts p
      have h2 := h0.counts p
      rw [h.roles p List.not_mem_nil, hp] at h1
      rw [hp] at h2
      exact h1.trans h2.symm
    · exact h.refcnt p hp

end Holding

theorem fetchaddr_spec (hz : s.k.NoZero ((s.proc p).pagetable.getD 0)) (addr : Nat) :
    wp (fetchaddr p addr) (fun _ s' => s' = s) E s := by
  simp only [fetchaddr, wp_bind, wp_get, wp_ite]
  refine ⟨fun _ => wp_pure.mpr rfl, fun _ => ?_⟩
  rw [wp_liftK]
  refine wp_post (copyinLoop_exact hz 8 _ _ _ (Nat.le_refl 8)) ?_
  rintro ⟨res, ip⟩ k' ⟨rfl, _⟩
  exact ⟨fun _ => wp_pure.mpr rfl, fun _ => wp_pure.mpr rfl⟩

theorem fetchArgs_spec {uargv} (hr : as r = some sh) (hpt : (s.proc p).pagetable = some r) (fuel : Nat) :
    ∀ {i : Nat} {argv : List Nat} {k : Kmem} {role : Nat → Role}, Holding L as k0 role0 argv k role →
      wp (fetchArgs p uargv fuel i argv) (fun res s' => ∃ k' role', s' = { s with k := k' } ∧
        Holding L as k0 role0 res.2 k' role') E { s with k } := by
  induction fuel with
  | zero => exact fun h => wp_pure.mpr ⟨_, _, rfl, h⟩
  | succ fuel ih =>
    intro i argv k role h
    have hz : ∀ {k' : Kmem} {role' : Nat → Role}, World L k' role' as →
        k'.NoZero (({ s with k := k' } : Kernel).proc p |>.pagetable.getD 0) := by
      intro k' role' hw
      rw [show ({ s with k := k' } : Kernel).proc p = s.proc p from rfl, hpt]
      exact hw.noZero hr
    simp only [fetchArgs, wp_bind]
    refine wp_post (fetchaddr_spec (s := { s with k := k }) (hz h.world) _) ?_
    rintro (_ | uarg) _ rfl
    · exact wp_pure.mpr ⟨k, role, rfl, h⟩
    simp only [wp_ite]
    refine ⟨fun _ => wp_pure.mpr ⟨k, role, rfl, h⟩, fun _ => ?_⟩
    simp only [wp_bind, wp_liftK]
    refine wp_kalloc h.world (fun _ => ?_) fun q rest hk => ?_
    · exact wp_pure.mpr ⟨_, role, rfl, h.fail _⟩
    have h1 := h.take hk
    simp only [wp_bind, wp_get]
    refine wp_post (fetchstr_spec (s := { s with k := k.take q rest }) (hz h1.world) _ _ _) ?_
    rintro ⟨n, buf⟩ _ ⟨rfl, _⟩
    have h2 := h1.setPage (show q ∈ argv ++ [q] by simp) buf
    simp only [wp_liftK, wp_modify, wp_ite]
    exact ⟨fun _ => wp_pure.mpr ⟨_, _, rfl, h2⟩, fun _ => ih h2⟩

theorem freeArgs_spec (qs : List Nat) : ∀ {k : Kmem} {role : Nat → Role}, Holding L as k0 role0 qs k role →
    wp (freeArgs L qs) (fun _ s' => ∃ k' role', s' = { s with k := k' } ∧ Holding L as k0 role0 [] k' role') E
      { s with k } := by
  induction qs with
  | nil => exact fun h => wp_pure.mpr ⟨_, _, rfl, h⟩
  | cons q qs ih =>
    intro k role h
    have hrange := h.world.range q (by simp [h.held q List.mem_cons_self])
    obtain ⟨h1, hpos⟩ := h.push
    simp only [freeArgs, wp_bind, wp_liftK]
    rw [wp_kfree hrange hpos]
    exact ih h1

end Xv6.Vm
