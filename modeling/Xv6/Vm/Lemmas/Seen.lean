import Xv6.Vm.Lemmas.Fork
import Xv6.Vm.Lemmas.Transfer

/-!
# プロセスから見た中身を変えない操作
-/

namespace Xv6.Vm

open Xv6.Lib Finset

variable {L : Layout} {k k' : Kmem} {role role' : Nat → Role} {as : Nat → Option Shape}
variable {r t v o n : Nat} {sh : Shape} {u : Eager.Proc}

theorem SeenEq.of_leaf (hl : k'.leaf r v = k.leaf r v)
    (hm : k'.mem (pte2pa (k.leaf r v)) = k.mem (pte2pa (k.leaf r v))) : SeenEq k k' r v :=
  ⟨by rw [hl], fun i _ => by rw [Kmem.byte, Kmem.byte, hl, hm]⟩

theorem NewSpace.frame (h : World L k role as) (hn : NewSpace L as t k role r k' role') :
    Frame (fun _ => False) k k' role role' as where
  seen r' s v _ hr hv := by
    have hu := (h.space r' s hr).user v hv
    exact .of_leaf (hn.leaf r' s v hr (h.dom_lt hr hv)) (hn.ext.mem _ (by simp [hu]) (by simp [hu]))
  held p hp := (hn.ext.role_eq (by simp [hp])).trans hp
  failed := hn.failed.ge

theorem Gone.frame (h : World L k role as) (hg : Gone L as r sh k role k' role') : Frame (· = r) k k' role role' as where
  seen r' s v hX hr hv := by
    have hl := hg.leaf r' s v hX hr (h.dom_lt hr hv)
    have hu := (hg.world.space r' s (by rwa [update_of_ne hX])).user v hv
    rw [hl] at hu
    exact .of_leaf hl (hg.mem _ (by simp [hu]))
  held p hp := (hg.other p (by simp [hp]) (by simp [hp])).trans hp
  failed := hg.failed.ge

theorem Frame.restrict {X as'} (h : Frame X k k' role role' as')
    (hsub : ∀ r s, as r = some s → as' r = some s) : Frame X k k' role role' as where
  __ := h
  seen r s v hX hr := h.seen r s v hX (hsub r s hr)

theorem World.frame_take (h : World L k role as) {rest} (hk : k.freelist = t :: rest) :
    Frame (fun _ => False) k (k.take t rest) role (update role t .held) as := by
  have ht : role t = .free := (h.free t).mp (by simp [hk])
  have hm : ∀ p, p ≠ t → (k.take t rest).mem p = k.mem p := fun p hp => update_of_ne hp ..
  refine ⟨fun r s v _ hr hv => ?_, fun p hp => ?_, le_rfl⟩
  · have hl := h.toTyped.leaf_update (h.toTyped.take hk) (by simp [ht]) (by simp) hm (h.roots r s hr) v
    refine .of_leaf hl (hm _ ?_)
    intro he
    have hu := (h.space r s hr).user v hv
    rw [he, ht] at hu
    cases hu
  · rw [update_of_ne]
    · exact hp
    · rintro rfl
      rw [ht] at hp
      cases hp

theorem World.setHeld (h : World L k role as) {p} (hp : role p = .held) (d : Bytes) :
    World L (k.setPage p d) role as ∧ Frame (fun _ => False) k (k.setPage p d) role role as := by
  have hnt : ∀ r path, role p ≠ .table r path := by simp [hp]
  refine ⟨h.setPage hnt d, fun r s v _ hr hv => ?_, fun _ hp => hp, le_rfl⟩
  refine .of_leaf (h.toTyped.leaf_setPage hnt d (h.roots r s hr) v) (update_of_ne ?_ ..)
  intro he
  have hu := (h.space r s hr).user v hv
  rw [he, hp] at hu
  cases hu

theorem Kept.seen (h : World L k role as) (hk : Kept r o k role as k' role') {r' s}
    (hr : as r' = some s) (hv : v ∈ s.dom) (hX : r' ≠ r ∨ v < o) : SeenEq k k' r' v := by
  have hu := (h.space r' s hr).user v hv
  refine .of_leaf (hk.leaf r' s v hr (h.dom_lt hr hv) ?_) (hk.mem _ (by simp [hu]) (by simp [hu]))
  exact hX.imp_right .inl

theorem Kept.held (hk : Kept r o k role as k' role') {p} (hp : role p = .held) : role' p = .held :=
  (hk.roles p (by simp [hp])).trans hp

section

variable (h : World L k role as)
include h

theorem Kept.frame (hk : Kept r o k role as k' role') (hf : k.failed ≤ k'.failed) :
    Frame (· = r) k k' role role' as where
  seen _ _ _ hX hr hv := hk.seen h hr hv (.inl hX)
  held _ hp := hk.held hp
  failed := hf

theorem Unmapped.seen (hu : Unmapped L as r v n sh k role k' role') {r' w s} (hr : as r' = some s) (hw : w ∈ s.dom) (hsh : as r = some sh) (hX : r' ≠ r ∨ ¬(v ≤ w ∧ w < v + n)) :
    SeenEq k k' r' w := by
  have hl := hu.leaf r' s w hr (h.dom_lt hr hw)
  rw [if_neg (by omega)] at hl
  have hrole := (h.space r' s hr).user w hw
  have hin : ∃ s', update as r (some { sh with dom := sh.dom \ Finset.Ico v (v + n) }) r' = some s' ∧
      w ∈ s'.dom := by
    by_cases he : r' = r
    · subst he
      rw [hsh] at hr
      cases hr
      refine ⟨_, update_self .., ?_⟩
      simp only [mem_sdiff, mem_Ico]
      exact ⟨hw, by omega⟩
    · exact ⟨s, by rwa [update_of_ne he], hw⟩
  obtain ⟨s', hs', hw'⟩ := hin
  have hrole' := (hu.world.space r' s' hs').user w hw'
  rw [hl] at hrole'
  exact .of_leaf hl (hu.mem _ (by simp [hrole']) (by simp [hrole]))

theorem Unmapped.frame (hr : as r = some sh) (hu : Unmapped L as r v n sh k role k' role') :
    Frame (· = r) k k' role role' as where
  seen _ _ _ hX hr' hw := hu.seen h hr' hw hr (.inl hX)
  held p hp := (hu.other p (by simp [hp])).trans hp
  failed := hu.failed.ge

theorem Growing.pages {sz} (hr : as r = some { sh with dom := Finset.range (npages u.sz) })
    (hg : Growing L r (npages u.sz) (pteR ||| pteU ||| pteW) sh k role as (npages sz) k' role')
    (hp : Pages k r (Finset.range (npages u.sz)) u) :
    Pages k' r (Finset.range (npages sz)) (u.resize sz) where
  page v hv := by
    have hv := mem_range.mp hv
    by_cases ho : v < npages u.sz
    · have hmem : v ∈ Finset.range (npages u.sz) := mem_range.mpr ho
      obtain ⟨pg, h1, h2, h3, h4⟩ := hp.page v hmem
      have hs := hg.kept.seen h hr hmem (.inr ho)
      refine ⟨pg, ?_, h2.trans hs.1.symm, h3, fun i hi => (h4 i hi).trans (hs.2 i hi).symm⟩
      simp [Eager.Proc.resize, hv, ho, h1]
    · refine ⟨Eager.zeroed, ?_, ?_, by decide, fun i hi => ?_⟩
      · simp [Eager.Proc.resize, hv, ho]
      · rw [pte_eq_add (k'.leaf r v), hg.flags v (by omega) hv]
        exact (has_user_perm pteW _).symm
      · exact (hg.zero v (by omega) hv i hi).symm
  absent v hv := by
    have hv : ¬v < npages sz := fun hc => hv (mem_range.mpr hc)
    simp [Eager.Proc.resize, hv]

theorem Unmapped.pages {sz}
    (hr : as r = some { sh with dom := Finset.range (npages u.sz) }) (hle : npages sz ≤ npages u.sz)
    (hu : Unmapped L as r (npages sz) (npages u.sz - npages sz) { sh with dom := Finset.range (npages u.sz) } k role
      k' role')
    (hp : Pages k r (Finset.range (npages u.sz)) u) : Pages k' r (Finset.range (npages sz)) (u.resize sz) where
  page v hv := by
    have hv := mem_range.mp hv
    have ho : v < npages u.sz := by omega
    have hmem : v ∈ Finset.range (npages u.sz) := mem_range.mpr ho
    obtain ⟨pg, h1, h2, h3, h4⟩ := hp.page v hmem
    have hs := hu.seen h hr hmem hr (.inr (by omega))
    refine ⟨pg, ?_, h2.trans hs.1.symm, h3, fun i hi => (h4 i hi).trans (hs.2 i hi).symm⟩
    simp [Eager.Proc.resize, hv, ho, h1]
  absent v hv := by
    have hv : ¬v < npages sz := fun hc => hv (mem_range.mpr hc)
    simp [Eager.Proc.resize, hv]

end

section Copy

variable {old new i : Nat} {shO : Shape}

theorem SeenEq.clearW (hl : k'.leaf r v = clear (k.leaf r v) pteW)
    (hm : k'.mem (pte2pa (k.leaf r v)) = k.mem (pte2pa (k.leaf r v))) : SeenEq k k' r v := by
  refine ⟨?_, fun i _ => ?_⟩
  · rw [hl, show pteW = 2 ^ 2 from rfl, show pteU = 2 ^ 4 from rfl, has_clear]
    simp
  · rw [Kmem.byte, Kmem.byte, hl, pte2pa_clearW, hm]

/-- 書けなくするだけなら、見える中身は変わらない。 -/
theorem Frame.of_clearW (h : World L k role as)
    (hl : ∀ r s w, as r = some s → w ∈ s.dom → k'.leaf r w = clear (k.leaf r w) pteW ∨ k'.leaf r w = k.leaf r w)
    (hm : ∀ p, role p = .user → k'.mem p = k.mem p) (hr : ∀ p, role p = .held → role' p = .held)
    (hf : k.failed ≤ k'.failed) : Frame (fun _ => False) k k' role role' as where
  seen r s w _ hr hw := by
    have hmem := hm _ ((h.space r s hr).user w hw)
    rcases hl r s w hr hw with hc | hc
    · exact .clearW hc hmem
    · exact .of_leaf hc hmem
  held := hr
  failed := hf

theorem Frame.of_copy {old new c} [DecidablePred c] (h : World L k role as)
    (hN : as new = some { sh with dom := ∅ })
    (hold : ∀ w < 2 ^ 26, k'.leaf old w = if c w then clear (k.leaf old w) pteW else k.leaf old w)
    (hleaf : ∀ r s w, r ≠ old → r ≠ new → as r = some s → w < 2 ^ 26 → k'.leaf r w = k.leaf r w)
    (hmem : ∀ p, role p ≠ .free → (∀ path, role p ≠ .table old path) → (∀ path, role p ≠ .table new path) →
        k'.mem p = k.mem p)
    (hroles : ∀ p, role' p = role p ∨ (role p = .free ∧ ∃ path, role' p = .table new path)) (hf : k.failed ≤ k'.failed) :
    Frame (fun _ => False) k k' role role' as := by
  refine .of_clearW h (fun r s w hr hw => ?_) (fun p hp => ?_) (fun p hp => ?_) hf
  · by_cases hro : r = old
    · subst hro
      have hl := hold w (h.dom_lt hr hw)
      split at hl
      · exact .inl hl
      · exact .inr hl
    have hrn : r ≠ new := by
      rintro rfl
      rw [hN] at hr
      cases hr
      exact absurd hw (notMem_empty w)
    exact .inr (hleaf r s w hro hrn hr (h.dom_lt hr hw))
  · exact hmem p (by simp [hp]) (by simp [hp]) (by simp [hp])
  · exact (hroles p).elim (·.trans hp) fun hf => by simp [hp] at hf

theorem Copying.frame (h : World L k role as) (hN : as new = some { sh with dom := ∅ })
    (hc : Copying L old new sh k role as v k' role') : Frame (fun _ => False) k k' role role' as :=
  .of_copy h hN hc.leafOld hc.leaf hc.mem hc.roles hc.failed.ge

theorem Copying.pages (h : World L k role as) (hO : as old = some shO) (hsub : ∀ w < v, w ∈ shO.dom)
    (hc : Copying L old new sh k role as v k' role') (hp : Pages k old (Finset.range v) u) :
    Pages k' new (Finset.range v) u where
  page w hw := by
    have hlt := mem_range.mp hw
    obtain ⟨pg, h1, h2, h3, h4⟩ := hp.page w hw
    have hl := hc.leafNew w hlt
    have hu := (h.space old shO hO).user w (hsub w hlt)
    have hm := hc.mem (pte2pa (k.leaf old w)) (by simp [hu]) (by simp [hu]) (by simp [hu])
    refine ⟨pg, h1, ?_, h3, fun i hi => ?_⟩
    · rw [hl, h2, show pteW = 2 ^ 2 from rfl, show pteU = 2 ^ 4 from rfl, has_clear]
      simp
    · rw [h4 i hi, Kmem.byte, Kmem.byte, hl, pte2pa_clearW, hm]
  absent := hp.absent

end Copy

end Xv6.Vm
