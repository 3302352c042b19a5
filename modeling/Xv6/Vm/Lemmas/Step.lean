import Xv6.Vm.Lemmas.Proc

/-!
# 操作と不変条件
-/

namespace Xv6.Vm

open Xv6.Lib Finset

variable {L : Layout} {k' : Kmem} {role role' : Nat → Role} {as as' : Nat → Option Shape}
variable {s : Kernel} {p : Fin nproc} {own : Fin nproc → Option Own} {o : Own} {E : String → Prop}

section

variable (h : Inv L s role as own)
include h

theorem Inv.frame (hw : World L k' role' as) (hh : ∀ q, role q = .held → role' q = .held) :
    Inv L { s with k := k' } role' as own :=
  { h.toOwned.frame hw hh with slot := h.slot }

theorem Inv.set {x q} (hw : Owned L k' role' as' (update own p x) s.pipes) (hq : Slot x q) (n : Nat) :
    Inv L { s with k := k', proc := update s.proc p q, nextpid := n } role' as' (update own p x) := by
  refine { hw with slot := fun p' => ?_ }
  by_cases he : p' = p
  · subst he
    simpa using hq
  · simpa [he] using h.slot p'

theorem Inv.resize (ho : own p = some o) {sz}
    (hw : World L k' role' (update as o.root (some { o with sz }.shape)))
    (hh : ∀ q, role q = .held → role' q = .held) :
    Inv L { s with k := k', proc := update s.proc p { s.proc p with sz } } role'
      (update as o.root (some { o with sz }.shape)) (update own p (some { o with sz })) := by
  obtain ⟨hst, hpt, htf, _⟩ := h.of_some ho
  have hslot : Slot (some { o with sz }) { s.proc p with sz } := ⟨hst, hpt, htf, rfl⟩
  refine h.set (n := s.nextpid) (h.toOwned.set hw ?_ ?_ ?_ fun q hq _ => hh q hq) hslot
  · intro r hr _
    exact update_of_ne (hr o ho).symm ..
  · intro o' ho' hx
    rw [ho] at ho'
    cases ho'
    exact absurd rfl (hx { o with sz } rfl)
  · rintro o' ⟨⟩
    refine ⟨update_self .., hh _ (h.held p o ho), fun hp => ?_, fun p' o' hne ho' => ⟨fun he => ?_, fun he => ?_⟩⟩
    · exact h.pipe_ne o.tf hp p o ho rfl
    · exact hne (h.root_inj p' p o' o ho' ho he)
    · exact hne (h.tf_inj p' p o' o ho' ho he)

theorem Inv.sz_lt (ho : own p = some o) : o.sz < 2 ^ 28 := by
  have hc := h.world.card_dom_le (h.space p o ho)
  simp only [Own.shape, card_range, npages, pgroundup, pgsize] at hc
  omega

end

structure Grown (role : Nat → Role) (as : Nat → Option Shape) (s : Kernel) (p : Fin nproc) (o : Own) (n : Int)
    (role' : Nat → Role) (s' : Kernel) : Prop where
  frame : Frame (· = o.root) s.k s'.k role role' as
  eq : s' = { s with k := s'.k, proc := update s.proc p { s.proc p with sz := (s'.proc p).sz } }
  pages : ∀ u : Eager.Proc, u.sz = o.sz → Pages s.k o.root (Finset.range (npages o.sz)) u →
    (u.sbrk n).sz = (s'.proc p).sz ∧ Pages s'.k o.root (Finset.range (npages (s'.proc p).sz)) (u.sbrk n)

inductive GrowStep (L : Layout) (as : Nat → Option Shape) (role : Nat → Role) (s : Kernel) (p : Fin nproc) (o : Own)
    (n : Int) : Int → (Nat → Role) → Kernel → Prop
  | failed {k' : Kmem} {role' : Nat → Role} (hn : 0 < n) (hw : World L k' role' as)
      (hk : Kept o.root (npages o.sz) s.k role as k' role') (hs : Spent role o.root (fun _ => False) k' role')
      (hf : s.k.failed < k'.failed) : GrowStep L as role s p o n (-1) role' { s with k := k' }
  | grown {k' : Kmem} {role' : Nat → Role} (hn : 0 < n)
      (hg : Growing L o.root (npages o.sz) (pteR ||| pteU ||| pteW) o.shape s.k role as (npages (o.sz + n.toNat)) k' role') :
      GrowStep L as role s p o n 0 role' ({ s with k := k' }.setProc p fun q => { q with sz := o.sz + n.toNat })
  | shrunk {k' role' newsz} (hn : n < 0) (hnew : ((o.sz + n) % 2 ^ 64).toNat = newsz)
      (hu : Unmapped L as o.root (npages newsz) (npages o.sz - npages newsz) o.shape s.k role k' role') :
      GrowStep L as role s p o n 0 role' ({ s with k := k' }.setProc p fun q => { q with sz := min o.sz newsz })
  | same (hn : n = 0) : GrowStep L as role s p o n 0 role s

theorem growproc_step (h : Inv L s role as own) (ho : own p = some o) (n : Int) :
    wp (growproc L p n) (fun res s' => ∃ role', GrowStep L as role s p o n res role' s') E s := by
  obtain ⟨_, hpt, _, hsz⟩ := h.of_some ho
  have hsp := h.space p o ho
  simp only [growproc, wp_bind, wp_get, hpt, hsz, Option.getD_some]
  rw [wp_ite, wp_ite]
  refine ⟨fun hpos => ?_, fun hnp => ⟨fun hneg => ?_, fun hn0 => ?_⟩⟩
  · rw [wp_bind, wp_liftK]
    have hr : as o.root = some { o.shape with dom := Finset.range (npages o.sz) } := hsp
    refine wp_post (uvmalloc_spent h.world hr (by decide)) ?_
    rintro sz k' ⟨role', ⟨hlt, _⟩ | ⟨hle, rfl, hg, _⟩ | ⟨_, rfl, hw, hk, hs, hf⟩⟩
    · omega
    · rw [if_neg (by omega), wp_bind, wp_setProc]
      exact wp_pure.mpr ⟨role', .grown hpos hg⟩
    · rw [if_pos rfl]
      exact wp_pure.mpr ⟨role', .failed hpos hw hk hs hf⟩
  · rw [wp_bind, wp_liftK]
    have hdom : ∀ u, npages ((o.sz + n) % 2 ^ 64).toNat ≤ u → u < npages o.sz → u ∈ o.shape.dom := fun u _ hu =>
      mem_range.mpr hu
    refine wp_post (uvmdealloc_spec h.world hsp hdom) ?_
    rintro sz k' ⟨rfl, role', hun⟩
    rw [wp_bind, wp_setProc]
    exact wp_pure.mpr ⟨role', .shrunk hneg rfl hun⟩
  · exact wp_pure.mpr ⟨role, .same (by omega)⟩

theorem range_sdiff_pages (sz newsz : Nat) :
    Finset.range (npages sz) \ Finset.Ico (npages newsz) (npages newsz + (npages sz - npages newsz)) =
      Finset.range (npages (min sz newsz)) := by
  have hmin : npages (min sz newsz) = min (npages sz) (npages newsz) := by
    simp only [npages, pgroundup, pgsize]
    omega
  ext v
  simp only [mem_sdiff, mem_range, mem_Ico, hmin]
  omega

section

variable (h : Inv L s role as own)
include h

theorem growproc_spec (ho : own p = some o) (n : Int) :
    wp (growproc L p n) (fun res s' => ∃ role' as' own', Inv L s' role' as' own' ∧
      (res = -1 ∧ s.k.failed < s'.k.failed ∨ res = 0 ∧ Grown role as s p o n role' s')) E s := by
  obtain ⟨_, _, _, hsz⟩ := h.of_some ho
  have hsp := h.space p o ho
  refine wp_post (growproc_step h ho n) ?_
  rintro res s' ⟨role', hstep⟩
  cases hstep with
  | failed hn hw hk hs hf => exact ⟨role', as, own, h.frame hw fun q hq => hk.held hq, .inl ⟨rfl, hf⟩⟩
  | @grown k' _ hpos hg =>
    have hr : as o.root = some { o.shape with dom := Finset.range (npages o.sz) } := hsp
    have hw : World L k' role' (update as o.root (some { o with sz := o.sz + n.toNat }.shape)) := hg.world
    have hheld : ∀ q, role q = .held → role' q = .held := fun q hq => hg.kept.held hq
    refine ⟨role', _, _, h.resize ho hw hheld, .inr ⟨rfl, hg.kept.frame h.world hg.failed.ge, ?_, ?_⟩⟩
    · simp [Kernel.setProc]
    intro u hu hp
    have hsb : u.sbrk n = u.resize (o.sz + n.toNat) := by rw [Eager.Proc.sbrk, if_pos hpos, hu]
    simp only [Kernel.setProc, update_self, hsb]
    refine ⟨rfl, ?_⟩
    rw [← hu] at hg hp hr ⊢
    exact hg.pages h.world hr hp
  | @shrunk k' _ newsz hneg hnew hun =>
    have hw : World L k' role' (update as o.root (some { o with sz := min o.sz newsz }.shape)) := by
      have := hun.world
      simp only [Own.shape] at this ⊢
      rwa [range_sdiff_pages] at this
    have hfr := hun.frame h.world hsp
    refine ⟨role', _, _, h.resize ho hw hfr.held, .inr ⟨rfl, hfr, ?_, ?_⟩⟩
    · simp [Kernel.setProc]
    intro u hu hp
    simp only [Kernel.setProc, update_self]
    by_cases hlt : newsz < o.sz
    · have hsb : u.sbrk n = u.resize newsz := by
        rw [Eager.Proc.sbrk, if_neg (by omega), hu, hnew, if_pos hlt]
      rw [hsb, Nat.min_eq_right hlt.le]
      refine ⟨rfl, ?_⟩
      rw [← hu] at hp
      have hr : as o.root = some { o.shape with dom := Finset.range (npages u.sz) } := by
        rw [hu]
        exact hsp
      have hun' : Unmapped L as o.root (npages newsz) (npages u.sz - npages newsz)
          { o.shape with dom := Finset.range (npages u.sz) } s.k role k' role' := by
        rw [hu]
        exact hun
      exact hun'.pages h.world hr (npages_mono (by omega)) hp
    have hsb : u.sbrk n = u := by
      rw [Eager.Proc.sbrk, if_neg (by omega), hu, hnew, if_neg hlt]
    rw [hsb, Nat.min_eq_left (by omega)]
    refine ⟨hu, hp.congr fun v hv => hun.seen h.world hsp hv hsp (.inr ?_)⟩
    have hv := mem_range.mp hv
    have := npages_mono (show o.sz ≤ newsz by omega)
    omega
  | same hn =>
    subst hn
    refine ⟨role, as, own, h, .inr ⟨rfl, .refl _ _ _ _, ?_, fun u hu hp => ?_⟩⟩
    · simp
    have hlt := h.sz_lt ho
    have hsb : u.sbrk 0 = u := by
      have he : ((u.sz : Int) + 0) % 2 ^ 64 = u.sz := by omega
      rw [Eager.Proc.sbrk, if_neg (by decide), he]
      simp
    rw [hsb, hsz]
    exact ⟨hu, hp⟩

theorem freeproc_inv (ho : own p = some o) :
    wp (freeproc L p) (fun _ s' => ∃ role' as' own', Inv L s' role' as' own' ∧
      Frame (· = o.root) s.k s'.k (update role o.tf .free) role' as ∧
      s' = { s with k := s'.k, proc := update s.proc p .empty }) E s := by
  obtain ⟨_, hpt, htf, hsz⟩ := h.of_some ho
  have htf' := h.held p o ho
  refine wp_post (freeproc_spec h.world htf' (h.space p o ho) htf hpt hsz) ?_
  rintro _ s' ⟨k', role', rfl, hg⟩
  have hpush := h.world.push (.inl htf') (h.world.held_not_maps htf')
  have hgf := hg.frame hpush
  have hleaf : ∀ r' s' u, as r' = some s' → (s.k.push o.tf).leaf r' u = s.k.leaf r' u := by
    intro r' s' u hs'
    refine h.world.toTyped.leaf_update hpush.toTyped (by simp [htf']) (by simp) ?_ (h.world.roots r' s' hs') u
    intro q hq
    exact update_of_ne hq ..
  have hframe : Frame (· = o.root) s.k k' (update role o.tf .free) role' as := by
    refine ⟨fun r' s' v hX hs' hv => ?_, hgf.held, hgf.failed⟩
    refine SeenEq.trans (.of_leaf (hleaf r' s' v hs') (update_of_ne ?_ ..)) (hgf.seen r' s' v hX hs' hv)
    intro he
    have hu := (h.world.space r' s' hs').user v hv
    rw [he, htf'] at hu
    cases hu
  refine ⟨role', _, _, h.set (x := none) (n := s.nextpid) (h.toOwned.set hg.world ?_ ?_ ?_ ?_) rfl, hframe, rfl⟩
  · intro r hr _
    exact update_of_ne (hr o ho).symm ..
  · intro o' ho' _
    rw [ho] at ho'
    cases ho'
    exact update_self ..
  · rintro o' ⟨⟩
  · intro q hq hne
    have hq' : update role o.tf .free q = .held := by
      rw [update_of_ne (hne o ho).symm]
      exact hq
    exact hgf.held q hq'

theorem pipealloc_spec :
    wp pipealloc (fun _ s' => ∃ role' as' own', Inv L s' role' as' own') E s := by
  simp only [pipealloc, wp_bind, wp_liftK]
  refine wp_kalloc h.world (fun _ => ?_) fun q rest hk => ?_
  · exact wp_pure.mpr ⟨role, as, own, h.frame (h.world.fail _) fun _ hq => hq⟩
  simp only [wp_bind, wp_modify]
  have hq0 : role q = .free := (h.world.free q).mp (by simp [hk])
  have hne : ∀ t, role t = .held → t ≠ q := by
    rintro t ht rfl
    rw [hq0] at ht
    cases ht
  have hh : ∀ t, role t = .held → update role q .held t = .held := by
    intro t ht
    rw [update_of_ne (hne t ht)]
    exact ht
  have h1 := h.toOwned.frame (h.world.take hk) hh
  refine wp_pure.mpr ⟨_, as, own, { h1 with pipe := ?_, pipe_ne := ?_, nodup := ?_, slot := h.slot }⟩
  · intro t ht
    rcases List.mem_cons.mp ht with rfl | ht
    · exact update_self ..
    · exact h1.pipe t ht
  · intro t ht p o ho
    rcases List.mem_cons.mp ht with rfl | ht
    · exact hne _ (h.held p o ho)
    · exact h1.pipe_ne t ht p o ho
  · exact List.nodup_cons.mpr ⟨fun hq => hne q (h.pipe q hq) rfl, h1.nodup⟩

theorem pipeclose_spec (q : Nat) :
    wp (pipeclose L q) (fun _ s' => ∃ role' as' own', Inv L s' role' as' own') E s := by
  simp only [pipeclose, wp_bind, wp_get]
  rw [wp_ite]
  refine ⟨fun hq => ?_, fun _ => wp_pure.mpr ⟨role, as, own, h⟩⟩
  have hqh := h.pipe q hq
  have hone : s.k.refcnt q = 1 := by
    have := h.world.counts q
    rwa [hqh] at this
  simp only [wp_bind, wp_set, wp_liftK]
  rw [wp_kfree (h.world.range q (by simp [hqh])) hone.ge]
  obtain ⟨hd, hw⟩ := h.world.drop_held hqh
  rw [hd]
  have hmem : ∀ t, t ∈ s.pipes.erase q → t ∈ s.pipes ∧ t ≠ q := by
    intro t ht
    have := (h.nodup.mem_erase_iff).mp ht
    exact ⟨this.2, this.1⟩
  have hh : ∀ t, role t = .held → t ≠ q → update role q .free t = .held := by
    intro t ht hne
    rw [update_of_ne hne]
    exact ht
  refine wp_pure.mpr ⟨update role q .free, as, own, ?_⟩
  refine { h with world := hw, held := ?_, pipe := ?_, pipe_ne := ?_, nodup := h.nodup.erase q, slot := h.slot }
  · exact fun p o ho => hh _ (h.held p o ho) (h.pipe_ne q hq p o ho)
  · exact fun t ht => hh t (h.pipe t (hmem t ht).1) (hmem t ht).2
  · exact fun t ht => h.pipe_ne t (hmem t ht).1

end

def Loadable (L : Layout) (t : Nat) (file : Option File) (k : Kmem) : Prop :=
  ∃ f, file = some f ∧ f.readi 0 64 = 64 ∧ f.elfhdr.magic = elfMagic ∧ Loads L t f k

/-- `exec` の結果。失敗すれば何も変わらず、成功すれば新しいアドレス空間に引数のスタックがある。 -/
inductive ExecStep (L : Layout) (s : Kernel) (role : Nat → Role) (as : Nat → Option Shape) (p : Fin nproc) (o : Own)
    (file : Option File) (argv : List (List UInt8)) : Int → Kernel → (Nat → Role) → Prop
  | failed {k' : Kmem} {role' : Nat → Role} (hw : World L k' role' as) (hr : Restored s.k role as k' role')
      (hf : s.k.failed ≤ k'.failed)
      (hfit : (∀ a ∈ argv, a.length < pgsize) → argv.length < maxarg → Loadable L o.tf file s.k →
        s.k.failed < k'.failed ∨ ¬Fits argv) :
      ExecStep L s role as p o file argv (-1) { s with k := k' } role'
  | started {s' role' as' own' r sz sp}
      (hi : Inv L s' role' as' own') (hh : ∀ q, role q = .held → role' q = .held) (hf : s.k.failed ≤ s'.k.failed)
      (hp : s'.proc p = { s.proc p with pagetable := some r, sz })
      (hst : (∀ a ∈ argv, a.length < pgsize) → argv.length < maxarg →
        Stacked s'.k r sz argv sp ∧ s'.k.pte o.tf 15 = sp ∧ s'.k.pte o.tf 6 = sp) :
      ExecStep L s role as p o file argv argv.length s' role'

theorem exec_step (h : Inv L s role as own) (ho : own p = some o) (file : Option File) (argv : List (List UInt8)) :
    wp (exec L p file argv) (fun res s' => ∃ role', ExecStep L s role as p o file argv res s' role') E s := by
  obtain ⟨hst, hpt, htf, hsz⟩ := h.of_some ho
  have hsp := h.space p o ho
  have htf' := h.held p o ho
  -- 読み込みを始める前の失敗。
  have hsame : (Loadable L o.tf file s.k → False) → ∃ role', ExecStep L s role as p o file argv (-1) s role' := fun hno =>
    ⟨role, .failed h.world (.refl ..) le_rfl fun _ _ hl => (hno hl).elim⟩
  cases file with
  | none =>
    refine wp_pure.mpr (hsame ?_)
    rintro ⟨f, hf, _⟩
    cases hf
  | some f =>
    simp only [exec]
    rw [wp_ite, wp_ite]
    refine ⟨fun hlen => wp_pure.mpr (hsame ?_), fun hlen => ⟨fun hmagic => wp_pure.mpr (hsame ?_), fun hmagic => ?_⟩⟩
    · rintro ⟨_, ⟨⟩, hl, _⟩
      exact hlen hl
    · rintro ⟨_, ⟨⟩, _, hm, _⟩
      exact hmagic hm
    simp only [wp_bind, wp_get, htf, hpt, hsz, Option.getD_some, wp_liftK]
    refine wp_post (execImage_spec h.world (h.world.range o.tf (by simp [htf'])).2 f argv) ?_
    rintro res k1 ⟨role1, hf1, ⟨rfl, hw, hres, hfit⟩ | ⟨r, sz, sp, rfl, himg, hstack⟩⟩
    · refine wp_pure.mpr ⟨role1, .failed hw hres hf1 fun h1 h2 hl => ?_⟩
      obtain ⟨_, ⟨⟩, _, _, hl⟩ := hl
      exact hfit h1 h2 hl
    simp only [wp_bind, wp_liftK, setPte, wp_modify, wp_setProc, Kernel.setProc]
    have ht1 := himg.held o.tf htf'
    obtain ⟨hw2, hs2⟩ := himg.world.setHeld ht1 (putLE (k1.mem o.tf) (8 * 15) 8 sp)
    obtain ⟨hw3, hs3⟩ := hw2.setHeld ht1 (putLE ((k1.setPte o.tf 15 sp).mem o.tf) (8 * 3) 8 f.elfhdr.entry)
    obtain ⟨hw4, hs4⟩ := hw3.setHeld ht1
      (putLE (((k1.setPte o.tf 15 sp).setPte o.tf 3 f.elfhdr.entry).mem o.tf) (8 * 6) 8 sp)
    have hne := himg.ne_root hsp
    refine wp_post (procFreepagetable_spec hw4 (himg.other hsp sz)) ?_
    rintro _ k5 ⟨role5, hg⟩
    have hs5 := hg.frame hw4
    have hheld : ∀ q, role q = .held → role5 q = .held := fun q hq => hs5.held q (himg.held q hq)
    have hslot : Slot (some ⟨r, o.tf, sz⟩) { s.proc p with pagetable := some r, sz } := ⟨hst, rfl, htf, rfl⟩
    obtain ⟨as5, has5⟩ : ∃ as5, as5 = update
      (update as r (some ⟨Finset.range (npages sz), true, some o.tf⟩)) o.root none := ⟨_, rfl⟩
    have howned : Owned L k5 role5 as5 (update own p (some ⟨r, o.tf, sz⟩)) s.pipes := by
      subst has5
      refine h.toOwned.set hg.world ?_ ?_ ?_ fun q hq _ => hheld q hq
      · intro r' hr' hx
        rw [update_of_ne (hr' o ho).symm, update_of_ne (hx _ rfl).symm]
      · intro o' ho' _
        rw [ho] at ho'
        cases ho'
        exact update_self ..
      rintro o' ⟨⟩
      refine ⟨?_, hheld _ htf', fun hp => ?_, fun p' o' hp' ho' => ⟨fun he => ?_, fun he => ?_⟩⟩
      · rw [update_of_ne hne.symm, update_self]
        rfl
      · exact h.pipe_ne o.tf hp p o ho rfl
      · have := h.space p' o' ho'
        rw [show o'.root = r from he, himg.none] at this
        cases this
      · exact hp' (h.tf_inj p' p o' o ho' ho he)
    have hstk : (∀ a ∈ argv, a.length < pgsize) → argv.length < maxarg →
        Stacked k5 r sz argv sp ∧ k5.pte o.tf 15 = sp ∧ k5.pte o.tf 6 = sp := by
      intro hshort hmax
      have hstk := hstack hshort hmax
      have hlt : sp < 2 ^ 64 := by
        have h1 := hstk.sp_eq
        have h2 := hstk.low
        simp only [maxva] at h2
        omega
      have hentry : f.elfhdr.entry < 2 ^ 64 := getLE_lt f.data 24 8
      have hmem : ∀ i, k5.pte o.tf i =
          (((k1.setPte o.tf 15 sp).setPte o.tf 3 f.elfhdr.entry).setPte o.tf 6 sp).pte o.tf i := fun i => by
        rw [Kmem.pte, hg.mem o.tf (by simp [hheld o.tf htf']), Kmem.pte]
      refine ⟨hstk.congr fun u hu => ?_, ?_, ?_⟩
      · have hself := Draft.self as r sz o.tf
        have hu' : u ∈ Finset.range (npages sz) := mem_range.mpr hu
        exact (((hs2.seen r _ u id hself hu').trans (hs3.seen r _ u id hself hu')).trans
          (hs4.seen r _ u id hself hu')).trans (hs5.seen r _ u hne.symm hself hu')
      · rw [hmem, Kmem.setPte_pte hlt, if_neg (by simp), Kmem.setPte_pte hentry, if_neg (by simp),
          Kmem.setPte_pte hlt, if_pos ⟨rfl, rfl⟩]
      · rw [hmem, Kmem.setPte_pte hlt, if_pos ⟨rfl, rfl⟩]
    exact wp_pure.mpr ⟨role5, .started (h.set (n := s.nextpid) howned hslot) hheld (hf1.trans hs5.failed)
      (update_self ..) hstk⟩

theorem exec_spec (h : Inv L s role as own) (ho : own p = some o) (file : Option File) (argv : List (List UInt8)) :
    wp (exec L p file argv) (fun _ s' => ∃ role' as' own', Inv L s' role' as' own') E s := by
  refine wp_post (exec_step h ho file argv) ?_
  rintro _ s' ⟨role', hstep⟩
  cases hstep with
  | failed hw hr _ _ => exact ⟨role', as, own, h.frame hw fun q hq => (hr.roles q).trans hq⟩
  | started hi => exact ⟨role', _, _, hi⟩

def bootRole (s : Kernel) (p : Nat) : Role := if p ∈ s.k.freelist then .free else .other

theorem Boot.world (h : Boot L s) : World L s.k (bootRole s) fun _ => none := by
  have hcase : ∀ p, bootRole s p = .free ∨ bootRole s p = .other := by
    intro p
    simp only [bootRole]
    split
    · exact .inl rfl
    · exact .inr rfl
  have hfree : ∀ p, p ∈ s.k.freelist ↔ bootRole s p = .free := by
    intro p
    simp only [bootRole]
    split <;> simp_all
  have htab : ∀ p r path, bootRole s p ≠ .table r path := by
    intro p r path hp
    rcases hcase p with hc | hc <;> simp [hc] at hp
  constructor
  case toTyped =>
    constructor
    case toCounted =>
      refine ⟨hfree, h.nodup, fun p hp => h.range p ((hfree p).mpr ((hcase p).resolve_right hp)), fun p => ?_⟩
      rcases hcase p with hc | hc
      · rw [hc]
        exact h.refcnt p ((hfree p).mpr hc)
      · rw [hc]
        trivial
    case depth => exact fun p r path hp => absurd hp (htab p r path)
    case top => exact fun p r a path hp => absurd hp (htab p r _)
    case root => exact fun p r hp => absurd hp (htab p r _)
    case child => exact fun p r path i hp => absurd hp (htab p r path)
    case parent => exact fun q r path i hq => absurd hq (htab q r _)
  case roots => exact fun r sh hr => absurd hr (by simp)
  case owned => exact fun p r path hp => absurd hp (htab p r path)
  case space => exact fun r sh hr => absurd hr (by simp)
  case count =>
    intro p
    refine AtMost.of_empty fun x hx => ?_
    obtain ⟨sh, hs, _⟩ := hx
    cases hs
  case writable => exact fun r sh v hr => absurd hr (by simp)

theorem Boot.inv (h : Boot L s) : Inv L s (bootRole s) (fun _ => none) fun _ => none where
  world := h.world
  space _ _ ho := by cases ho
  held _ _ ho := by cases ho
  owner _ _ hr := by cases hr
  root_inj _ _ _ _ ho := by cases ho
  tf_inj _ _ _ _ ho := by cases ho
  pipe q hq := by simp [h.pipes] at hq
  pipe_ne q hq := by simp [h.pipes] at hq
  nodup := by simp [h.pipes]
  slot := h.proc

theorem uvmfirst_spec {k r t src} (h : World L k role as)
    (hr : as r = some ⟨∅, true, some t⟩) (hsrc : src.length < pgsize) (hlen : 3 ≤ k.freelist.length) :
    wp (uvmfirst r src) (fun _ k' => ∃ role',
      World L k' role' (update as r (some ⟨Finset.range 1, true, some t⟩)) ∧
      ∀ q, role q = .held → role' q = .held) E k := by
  rw [uvmfirst, if_neg (by omega), wp_bind]
  refine wp_kalloc h (fun hk => ?_) fun m rest hk => ?_
  · rw [hk] at hlen
    exact absurd hlen (by decide)
  simp only [zeroPage, record, wp_bind, wp_modify]
  have hm0 : role m = .free := (h.free m).mp (by simp [hk])
  obtain ⟨hf, hnm, _⟩ := h.fresh (v := 0) (c := pteW ||| pteR ||| pteX ||| pteU) hk hr (notMem_empty 0)
  have hone : (k.fresh m rest r 0 (pteW ||| pteR ||| pteX ||| pteU)).refcnt m = 1 := update_self ..
  have hperm : pteW ||| pteR ||| pteX ||| pteU < 1024 := by decide
  have hmap := mapUser_spec (E := E) (p := m) hf hr (notMem_empty 0) (by decide) hperm (by decide)
    (update_self ..) (fun u hu => absurd hu (notMem_empty u)) (AtMost.of_empty hnm) (fun _ => hone)
    (fun _ i h1 h4 hi => by simpa [Kmem.fresh, Kmem.note] using hi)
  rw [Nat.zero_mul] at hmap
  refine wp_post hmap ?_
  rintro res k2 ⟨role2, ⟨rfl, hn⟩ | ⟨rfl, hm⟩⟩
  · -- 表は二つで足りる。
    have h1 := hn.length.trans_le (Kmem.missing_le _ _ _ _)
    change rest.length < 2 at h1
    rw [hk, List.length_cons] at hlen
    omega
  have hmf : update role m .user m = .user := update_self ..
  have hmu : role2 m = .user := by rw [hm.ext.role_eq (by rw [hmf]; decide), hmf]
  refine ⟨role2, hm.world.setPage (p := m) (by simp [hmu]) _, fun q hq => ?_⟩
  have hne : q ≠ m := by
    rintro rfl
    rw [hm0] at hq
    cases hq
  have hq1 : update role m .user q = .held := by
    rw [update_of_ne hne]
    exact hq
  rw [hm.ext.role_eq (by simp [hq1]), hq1]

theorem userinit_spec (h : Boot L s) :
    wp (userinit L) (fun _ s' => ∃ role' as' own', Inv L s' role' as' own') E s := by
  have hi := h.inv
  have hlen := h.enough
  simp only [userinit, wp_bind]
  refine wp_post (allocproc_spec hi.world fun p _ => h.proc p) ?_
  rintro res s1 (⟨rfl, hfu, _⟩ | ⟨rfl, hlt, _⟩ | ⟨p, t, r, rest, role1, rfl, _, hn⟩)
  · have := List.find?_eq_none.mp hfu ⟨0, by decide⟩ (List.mem_finRange _)
    simp [h.proc] at this
  · omega
  simp only [wp_bind, wp_get, wp_set, wp_liftK, hn.proc_self, Option.getD_some]
  have hr : update (fun _ => none) r (some ⟨∅, true, some t⟩) r = some (⟨∅, true, some t⟩ : Shape) :=
    update_self ..
  have hlen1 : 3 ≤ s1.k.freelist.length := by
    have h1 := hn.space.length
    change s1.k.freelist.length + 3 = rest.length at h1
    rw [hn.head, List.length_cons] at hlen
    omega
  refine wp_post (uvmfirst_spec hn.space.world hr (by decide) hlen1) ?_
  rintro _ k2 ⟨role2, hw2, hh2⟩
  rw [update_idem] at hw2
  have ht2 := hh2 t hn.held
  simp only [wp_setProc, setPte, wp_modify, Kernel.setProc]
  obtain ⟨hw3, _⟩ := hw2.setHeld ht2 (putLE (k2.mem t) (8 * 3) 8 0)
  obtain ⟨hw4, _⟩ := hw3.setHeld ht2 (putLE ((k2.setPte t 3 0).mem t) (8 * 6) 8 pgsize)
  have hslot : Slot (some ⟨r, t, pgsize⟩) ⟨.runnable, s.nextpid + 1, pgsize, some r, some t⟩ :=
    ⟨.inl rfl, rfl, rfl, rfl⟩
  have howned : Owned L ((k2.setPte t 3 0).setPte t 6 pgsize) role2
      (update (fun _ => none) r (some (Own.mk r t pgsize).shape))
      (update (fun _ => none) p (some ⟨r, t, pgsize⟩)) s.pipes := by
    have hone : npages pgsize = 1 := by decide
    have hshape : (Own.mk r t pgsize).shape = ⟨Finset.range 1, true, some t⟩ := by rw [Own.shape, hone]
    rw [← hshape] at hw4
    refine hi.toOwned.set (p := p) hw4 (fun r' _ hx => update_of_ne (hx _ rfl).symm ..) ?_ ?_ ?_
    · intro o ho
      cases ho
    · rintro o ⟨⟩
      refine ⟨update_self .., ht2, by simp [h.pipes], fun p' o' _ ho' => ?_⟩
      cases ho'
    · intro q hq
      simp only [bootRole] at hq
      split at hq <;> cases hq
  have hinv := hi.set howned hslot (s.nextpid + 2)
  rw [hn.eq]
  simp only [update_self, update_idem]
  exact ⟨role2, _, _, { hinv with slot := hinv.slot }⟩

end Xv6.Vm
