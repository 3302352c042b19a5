import Xv6.Vm.Lemmas.Exec

/-!
# プロセスの表の不変条件
-/

namespace Xv6.Vm

open Xv6.Lib

variable {L : Layout} {k k' : Kmem} {role role' : Nat → Role} {as as' : Nat → Option Shape}
variable {s : Kernel} {p : Fin nproc} {r t : Nat} {E : String → Prop}

theorem wp_liftK {α : Type} {x : KM α} {Q : α → Kernel → Prop} :
    wp (liftK x) Q E s ↔ wp x (fun a k => Q a { s with k }) E s.k := by
  unfold wp liftK
  cases x s.k <;> rfl

theorem wp_setProc {f Q} :
    wp (setProc p f) Q E s ↔ Q () (s.setProc p f) := Iff.rfl

/-- プロセスの表の一つの欄が持つページ表、trapframe、大きさ。 -/
structure Own where
  root : Nat
  tf : Nat
  sz : Nat

def Own.shape (o : Own) : Shape := ⟨Finset.range (npages o.sz), true, some o.tf⟩

/-- どのアドレス空間も一つの欄が持ち、trapframe とパイプのページは互いに異なる。 -/
structure Owned (L : Layout) (k : Kmem) (role : Nat → Role) (as : Nat → Option Shape) (own : Fin nproc → Option Own)
    (pipes : List Nat) : Prop where
  world : World L k role as
  space : ∀ p o, own p = some o → as o.root = some o.shape
  held : ∀ p o, own p = some o → role o.tf = .held
  owner : ∀ r sh, as r = some sh → ∃ p o, own p = some o ∧ o.root = r
  root_inj : ∀ p p' o o', own p = some o → own p' = some o' → o.root = o'.root → p = p'
  tf_inj : ∀ p p' o o', own p = some o → own p' = some o' → o.tf = o'.tf → p = p'
  pipe : ∀ q ∈ pipes, role q = .held
  pipe_ne : ∀ q ∈ pipes, ∀ p o, own p = some o → o.tf ≠ q
  nodup : pipes.Nodup

def Slot : Option Own → Proc → Prop
  | none, q => q = ⟨.unused, 0, 0, none, none⟩
  | some o, q => (q.state = .runnable ∨ q.state = .zombie) ∧ q.pagetable = some o.root ∧ q.trapframe = some o.tf ∧
      q.sz = o.sz

structure Inv (L : Layout) (s : Kernel) (role : Nat → Role) (as : Nat → Option Shape) (own : Fin nproc → Option Own) : Prop
    extends Owned L s.k role as own s.pipes where
  slot : ∀ p, Slot (own p) (s.proc p)

variable {own : Fin nproc → Option Own} {pipes : List Nat} {o : Own}

theorem Owned.frame (h : Owned L k role as own pipes) (hw : World L k' role' as)
    (hh : ∀ q, role q = .held → role' q = .held) : Owned L k' role' as own pipes :=
  { h with
    world := hw
    held := fun p o ho => hh _ (h.held p o ho)
    pipe := fun q hq => hh _ (h.pipe q hq) }

theorem Owned.set (h : Owned L k role as own pipes) {x} (hw : World L k' role' as')
    (has : ∀ r, (∀ o, own p = some o → o.root ≠ r) → (∀ o, x = some o → o.root ≠ r) → as' r = as r)
    (hgone : ∀ o, own p = some o → (∀ o', x = some o' → o'.root ≠ o.root) → as' o.root = none)
    (hnew : ∀ o, x = some o → as' o.root = some o.shape ∧ role' o.tf = .held ∧ o.tf ∉ pipes ∧
      ∀ p' o', p' ≠ p → own p' = some o' → o'.root ≠ o.root ∧ o'.tf ≠ o.tf)
    (hheld : ∀ q, role q = .held → (∀ o, own p = some o → o.tf ≠ q) → role' q = .held) :
    Owned L k' role' as' (update own p x) pipes := by
  have hold : ∀ p' o', p' ≠ p → own p' = some o' → ∀ o, own p = some o → o.root ≠ o'.root ∧ o.tf ≠ o'.tf := by
    intro p' o' hne ho' o ho
    exact ⟨fun he => hne (h.root_inj p p' o o' ho ho' he).symm, fun he => hne (h.tf_inj p p' o o' ho ho' he).symm⟩
  constructor
  case world => exact hw
  case space =>
    intro p' o' ho'
    rcases update_eq ho' with ⟨rfl, hx⟩ | ⟨hne, ho'⟩
    · exact (hnew o' hx).1
    · rw [has o'.root (fun o ho => (hold p' o' hne ho' o ho).1) fun o hx he => ((hnew o hx).2.2.2 p' o' hne ho').1 he.symm]
      exact h.space p' o' ho'
  case held =>
    intro p' o' ho'
    rcases update_eq ho' with ⟨rfl, hx⟩ | ⟨hne, ho'⟩
    · exact (hnew o' hx).2.1
    · exact hheld _ (h.held p' o' ho') fun o ho => (hold p' o' hne ho' o ho).2
  case owner =>
    intro r sh hr
    by_cases hx : ∃ o, x = some o ∧ o.root = r
    · obtain ⟨o, hx, he⟩ := hx
      exact ⟨p, o, by rw [update_self, hx], he⟩
    have hx' : ∀ o, x = some o → o.root ≠ r := fun o ho he => hx ⟨o, ho, he⟩
    have hp : ∀ o, own p = some o → o.root ≠ r := by
      rintro o ho rfl
      rw [hgone o ho hx'] at hr
      cases hr
    rw [has r hp hx'] at hr
    obtain ⟨p', o', ho', rfl⟩ := h.owner r sh hr
    refine ⟨p', o', ?_, rfl⟩
    rw [update_of_ne]
    · exact ho'
    · rintro rfl
      exact hp o' ho' rfl
  case root_inj =>
    intro p1 p2 o1 o2 h1 h2 he
    rcases update_eq h1 with ⟨he1, hx1⟩ | ⟨hne1, ho1⟩ <;> rcases update_eq h2 with ⟨he2, hx2⟩ | ⟨hne2, ho2⟩
    · rw [he1, he2]
    · exact absurd he.symm ((hnew o1 hx1).2.2.2 p2 o2 hne2 ho2).1
    · exact absurd he ((hnew o2 hx2).2.2.2 p1 o1 hne1 ho1).1
    · exact h.root_inj p1 p2 o1 o2 ho1 ho2 he
  case tf_inj =>
    intro p1 p2 o1 o2 h1 h2 he
    rcases update_eq h1 with ⟨he1, hx1⟩ | ⟨hne1, ho1⟩ <;> rcases update_eq h2 with ⟨he2, hx2⟩ | ⟨hne2, ho2⟩
    · rw [he1, he2]
    · exact absurd he.symm ((hnew o1 hx1).2.2.2 p2 o2 hne2 ho2).2
    · exact absurd he ((hnew o2 hx2).2.2.2 p1 o1 hne1 ho1).2
    · exact h.tf_inj p1 p2 o1 o2 ho1 ho2 he
  case pipe =>
    intro q hq
    exact hheld q (h.pipe q hq) fun o ho => h.pipe_ne q hq p o ho
  case pipe_ne =>
    intro q hq p' o' ho'
    rcases update_eq ho' with ⟨rfl, hx⟩ | ⟨_, ho'⟩
    · rintro rfl
      exact (hnew o' hx).2.2.1 hq
    · exact h.pipe_ne q hq p' o' ho'
  case nodup => exact h.nodup

section

variable (h : Inv L s role as own)
include h

theorem Inv.of_some (ho : own p = some o) :
    ((s.proc p).state = .runnable ∨ (s.proc p).state = .zombie) ∧ (s.proc p).pagetable = some o.root ∧
      (s.proc p).trapframe = some o.tf ∧ (s.proc p).sz = o.sz := by
  have := h.slot p
  rwa [ho] at this

theorem Inv.of_none (ho : own p = none) : s.proc p = ⟨.unused, 0, 0, none, none⟩ := by
  have := h.slot p
  rwa [ho] at this

theorem Inv.none_iff : own p = none ↔ (s.proc p).state = .unused := by
  cases ho : own p with
  | none => simp [h.of_none ho]
  | some o =>
    have := (h.of_some ho).1
    constructor
    · intro hc
      cases hc
    · intro hc
      rw [hc] at this
      rcases this with hc | hc <;> cases hc

theorem Inv.some_of_runnable (hs : (s.proc p).state ≠ .unused) : ∃ o, own p = some o := by
  cases ho : own p with
  | none => exact absurd (h.none_iff.mp ho) hs
  | some o => exact ⟨o, rfl⟩

end

def Proc.empty : Proc := ⟨.unused, 0, 0, none, none⟩

theorem freeproc_spec {sz : Nat} (h : World L s.k role as) (ht : role t = .held)
    (hr : as r = some ⟨Finset.range (npages sz), true, some t⟩) (htf : (s.proc p).trapframe = some t)
    (hpt : (s.proc p).pagetable = some r) (hsz : (s.proc p).sz = sz) :
    wp (freeproc L p) (fun _ s' => ∃ k' role', s' = { s with k := k', proc := update s.proc p .empty } ∧
      Gone L as r ⟨Finset.range (npages sz), true, some t⟩ (s.k.push t) (update role t .free) k' role') E s := by
  simp only [freeproc, wp_bind, wp_get, htf, hpt, hsz, wp_liftK]
  have hrange := h.range t (by simp [ht])
  have hone : s.k.refcnt t = 1 := by
    have := h.counts t
    rwa [ht] at this
  rw [wp_kfree hrange hone.ge]
  obtain ⟨hd, hw⟩ := h.drop_held ht
  rw [hd]
  refine wp_post (procFreepagetable_spec hw hr) ?_
  rintro _ k' ⟨role', hg⟩
  rw [wp_setProc]
  exact ⟨k', role', rfl, hg⟩

structure NewProc (L : Layout) (as : Nat → Option Shape) (role : Nat → Role) (s : Kernel) (p : Fin nproc) (t r : Nat)
    (rest : List Nat) (role' : Nat → Role) (s' : Kernel) : Prop where
  slot : findUnused s.proc = some p
  head : s.k.freelist = t :: rest
  space : NewSpace L as t (s.k.take t rest) (update role t .held) r s'.k role'
  eq : s' = { s with
    k := s'.k
    proc := update s.proc p ⟨.used, s.nextpid + 1, 0, some r, some t⟩
    nextpid := s.nextpid + 2 }

theorem Same.push (h : World L k role as) {rest} (hk : k.freelist = t :: rest)
    (hw : World L k' role' as) (hs : Same (k.take t rest) k' (update role t .held) role' as) :
    World L (k'.push t) role as ∧ Same k (k'.push t) role role as := by
  have ht0 : role t = .free := (h.free t).mp (by simp [hk])
  have hrole : update role' t .free = role := by
    rw [hs.roles, update_idem, ← ht0, update_eq_self]
  have ht : role' t = .held := by rw [hs.roles, update_self]
  have hp := hw.push (.inl ht) (hw.held_not_maps ht)
  rw [hrole] at hp
  have hne : ∀ q, role q ≠ .free → q ≠ t := by
    rintro q hq rfl
    exact hq ht0
  refine ⟨hp, ⟨rfl, fun q => ?_, fun q hq => ?_, fun r' s u hs' hu => ?_, hs.created, hs.touched⟩⟩
  · by_cases hq : q = t
    · subst hq
      have h0 := h.counts q
      rw [ht0] at h0
      exact (update_self ..).trans h0.symm
    · have h1 := hs.refcnt q
      simp only [Kmem.take, update_of_ne hq] at h1
      simpa only [Kmem.push, update_of_ne hq] using h1
  · have h1 := hs.mem q (by rwa [update_of_ne (hne q hq)])
    simp only [Kmem.take, update_of_ne (hne q hq)] at h1
    simpa only [Kmem.push, update_of_ne (hne q hq)] using h1
  have h1 : (k'.push t).leaf r' u = k'.leaf r' u := by
    refine hw.toTyped.leaf_update (hw.toTyped.push (.inr ht)) (by simp [ht]) (by simp) ?_ (hw.roots r' s hs') u
    intro q hq
    simp [Kmem.push, hq]
  have h2 : (k.take t rest).leaf r' u = k.leaf r' u := by
    refine h.toTyped.leaf_update (h.toTyped.take hk) (by simp [ht0]) (by simp) ?_ (h.roots r' s hs') u
    intro q hq
    simp [Kmem.take, hq]
  rw [h1, hs.leaf r' s u hs' hu, h2]

theorem allocproc_spec (h : World L s.k role as) (hempty : ∀ p, (s.proc p).state = .unused → s.proc p = .empty) :
    wp (allocproc L) (fun res s' =>
      (res = none ∧ findUnused s.proc = none ∧ s' = s) ∨
      (res = none ∧ s.k.freelist.length < 4 ∧ World L s'.k role as ∧ Same s.k s'.k role role as ∧
        s'.k.failed = s.k.failed + 1 ∧ s' = { s with k := s'.k, nextpid := s.nextpid + 2 }) ∨
      (∃ p t r rest role', res = some p ∧ 4 ≤ s.k.freelist.length ∧ NewProc L as role s p t r rest role' s')) E s := by
  simp only [allocproc, wp_bind, wp_get]
  cases hfu : findUnused s.proc with
  | none => exact wp_pure.mpr (.inl ⟨rfl, rfl, rfl⟩)
  | some p =>
    have hst : (s.proc p).state = .unused := by simpa using List.find?_some hfu
    have hpe := hempty p hst
    have hreset : update s.proc p .empty = s.proc := by rw [← hpe, update_eq_self]
    simp only [wp_bind, wp_set, wp_setProc, wp_liftK, Kernel.setProc]
    refine wp_kalloc h (fun hk => ?_) fun t rest hk => ?_
    · -- 最初の割り当てから失敗した。
      simp only [wp_bind, wp_setProc, Kernel.setProc, freeproc, wp_get, update_self, update_idem,
        hpe, Proc.empty, wp_pure]
      refine .inr (.inl ⟨trivial, ?_, h.fail _, ?_, trivial, ?_⟩)
      · rw [hk]
        decide
      · exact ⟨rfl, fun _ => rfl, fun _ _ => rfl,
          fun r' _ u _ _ => congrFun (congrFun (Kmem.leaf_congr rfl) r') u, rfl, rfl⟩
      · exact congrArg (Kernel.mk _ · _ _ _) hreset
    simp only [wp_bind, wp_setProc, Kernel.setProc, wp_liftK, update_self, update_idem, hpe,
      Proc.empty]
    have ht0 : role t = .free := (h.free t).mp (by simp [hk])
    have h1 := h.take hk
    have htr : t < physpages := (h.range t (by simp [ht0])).2
    refine wp_post (procPagetable_spec h1 htr) ?_
    rintro res k2 ⟨role2, ⟨rfl, h2, hs2, hf2, hlen⟩ | ⟨r, rfl, hn⟩⟩
    · have ht2 : role2 t = .held := by rw [hs2.roles, update_self]
      have hone : k2.refcnt t = 1 := by
        have := h2.counts t
        rwa [ht2] at this
      obtain ⟨h3, hs3⟩ := Same.push h hk h2 hs2
      simp only [wp_bind, wp_setProc, Kernel.setProc, freeproc, wp_get, update_self, update_idem,
        wp_liftK]
      rw [wp_kfree (h2.range t (by simp [ht2])) hone.ge, (h2.drop_held ht2).1, wp_pure]
      simp only [update_idem]
      refine wp_pure.mpr (.inr (.inl ⟨rfl, ?_, h3, hs3, hf2, ?_⟩))
      · rw [hk, List.length_cons]
        exact Nat.succ_lt_succ hlen
      · exact congrArg (Kernel.mk _ · _ _ _) hreset
    simp only [wp_bind, wp_setProc, Kernel.setProc, update_self, update_idem]
    refine wp_pure.mpr (.inr (.inr ⟨p, t, r, rest, role2, rfl, ?_, hfu, hk, hn, rfl⟩))
    have := hn.length
    rw [hk, List.length_cons]
    change k2.freelist.length + 3 = rest.length at this
    omega

/-- 空きページがなくなり、`fork` が -1 を返した状態。`i` ページ目の参照は一つ多いままである。 -/
structure ForkFailed (L : Layout) (as : Nat → Option Shape) (role : Nat → Role) (s : Kernel) (o : Own) (i : Nat)
    (role' : Nat → Role) (s' : Kernel) : Prop where
  lt : i < npages o.sz
  world : World L s'.k role' as
  roles : ∀ q, role q ≠ .free → role' q = role q
  refcnt : s'.k.refcnt (pte2pa (s.k.leaf o.root i)) = s.k.refcnt (pte2pa (s.k.leaf o.root i)) + 1
  failed : s'.k.failed = s.k.failed + 1
  eq : s' = { s with k := s'.k, nextpid := s.nextpid + 2 }

structure Forked (L : Layout) (as : Nat → Option Shape) (role : Nat → Role) (own : Fin nproc → Option Own) (s : Kernel)
    (o : Own) (np : Fin nproc) (r t : Nat) (role' : Nat → Role) (s' : Kernel) : Prop where
  owned : Owned L s'.k role' (update as r (some (Own.mk r t o.sz).shape))
    (update own np (some ⟨r, t, o.sz⟩)) s.pipes
  frame : Frame (fun _ => False) s.k s'.k role role' as
  pages : ∀ u, Pages s.k o.root (Finset.range (npages o.sz)) u → Pages s'.k r (Finset.range (npages o.sz)) u
  eq : s' = { s with
    k := s'.k
    proc := update s.proc np ⟨.runnable, s.nextpid + 1, o.sz, some r, some t⟩
    nextpid := s.nextpid + 2 }

section Fork

variable {np : Fin nproc} {rest : List Nat} {s1 : Kernel}

theorem NewProc.ne (h : Inv L s role as own) (ho : own p = some o) (hn : NewProc L as role s np t r rest role' s1) :
    p ≠ np := by
  rintro rfl
  have hst : (s.proc p).state = .unused := by simpa using List.find?_some hn.slot
  rw [h.none_iff.mpr hst] at ho
  cases ho

theorem NewProc.proc_self (hn : NewProc L as role s np t r rest role' s1) :
    s1.proc np = ⟨.used, s.nextpid + 1, 0, some r, some t⟩ := by
  rw [hn.eq]
  exact update_self ..

theorem NewProc.proc_of_ne (hn : NewProc L as role s np t r rest role' s1) (hne : p ≠ np) : s1.proc p = s.proc p := by
  rw [hn.eq]
  exact update_of_ne hne ..

theorem NewProc.root_none (h : World L s.k role as) (hn : NewProc L as role s np t r rest role' s1) : as r = none := by
  by_contra hc
  obtain ⟨sh, hs⟩ := Option.ne_none_iff_exists'.mp hc
  have hr := (h.take hn.head).roots r sh hs
  rw [hn.space.was] at hr
  cases hr

theorem NewProc.held (hn : NewProc L as role s np t r rest role' s1) : role' t = .held := by
  rw [hn.space.ext.role_eq] <;> simp

theorem NewProc.tf_free (h : World L s.k role as) (hn : NewProc L as role s np t r rest role' s1) : role t = .free :=
  (h.free t).mp (by simp [hn.head])

section

variable (h : Inv L s role as own) (ho : own p = some o) (hn : NewProc L as role s np t r rest role' s1)
include h ho hn

theorem NewProc.root_ne : o.root ≠ r := by
  intro he
  have := h.space p o ho
  rw [he, hn.root_none h.world] at this
  cases this

/-- `uvmcopy` に失敗した子は、何も残さずに返される。 -/
theorem fork_undo {i role2} (hi : i < npages o.sz)
    (hc : CopyFailed L o.root r s1.k role' (update as r (some ⟨∅, true, some t⟩)) i k' role2) :
    wp (freeproc L np) (fun _ s' => ∃ role'', ForkFailed L as role s o i role'' s') E { s1 with k := k' } := by
  have ht2 : role2 t = .held := (hc.roles t).elim (·.trans hn.held) fun hf => by simp [hn.held] at hf
  have ht0 := hn.tf_free h.world
  have hrange0 : Finset.range (npages 0) = ∅ := by decide
  have hspec := freeproc_spec (E := E) (s := { s1 with k := k' }) (p := np) (t := t) (r := r) hc.world ht2
    (by rw [hrange0]; exact update_self ..) (by simp [hn.proc_self]) (by simp [hn.proc_self])
    (by simp [hn.proc_self])
  refine wp_post hspec ?_
  rintro _ s' ⟨k3, role3, rfl, hg⟩
  have hmem : i ∈ o.shape.dom := Finset.mem_range.mpr hi
  have hu := (h.world.space o.root _ (h.space p o ho)).user i hmem
  have hi26 := h.world.dom_lt (h.space p o ho) hmem
  have hleaf1 : s1.k.leaf o.root i = s.k.leaf o.root i := by
    rw [hn.space.leaf o.root _ i (h.space p o ho) hi26]
    refine h.world.toTyped.leaf_update (h.world.toTyped.take hn.head) (by simp [ht0]) (by simp) ?_
      (h.world.roots o.root _ (h.space p o ho)) i
    intro q hq
    exact update_of_ne hq ..
  have hne : ∀ q, role q ≠ .free → q ≠ t := by
    rintro q hq rfl
    exact hq ht0
  have hrole1 : ∀ q, role q ≠ .free → role' q = role q := by
    intro q hq
    have hq' : update role t .held q = role q := update_of_ne (hne q hq) ..
    rw [hn.space.ext.role_eq (by rwa [hq']), hq']
  have hrole2 : ∀ q, role q ≠ .free → role2 q = role q := fun q hq =>
    (hc.roles q).elim (·.trans (hrole1 q hq)) fun hf => absurd ((hrole1 q hq).symm.trans hf.1) hq
  have hroot2 : ∀ q path, role q ≠ .free → update role2 t .free q ≠ .table r path := by
    intro q path hq hc'
    rw [update_of_ne (hne q hq), hrole2 q hq] at hc'
    have := h.world.owned q r path hc'
    rw [hn.root_none h.world] at this
    cases this
  refine ⟨role3, ?_⟩
  constructor
  case lt => exact hi
  case world =>
    have hw := hg.world
    rwa [update_idem, ← hn.root_none h.world, update_eq_self] at hw
  case roles =>
    intro q hq
    have hq3 : update role2 t .free q = role q := by rw [update_of_ne (hne q hq), hrole2 q hq]
    by_cases hqu : role q = .user
    · have := hg.user q (by rw [hq3, hqu])
      rw [this, hqu, if_neg]
      rw [hg.refOut q (by rw [hrange0]; simp) fun path => hroot2 q path hq]
      have hcnt := hc.world.counts q
      rw [hrole2 q hq, hqu] at hcnt
      have hpush : (k'.push t).refcnt q = k'.refcnt q := update_of_ne (hne q hq) ..
      rw [hpush]
      exact Nat.pos_iff_ne_zero.mp hcnt
    · rw [hg.other q (by rw [hq3]; exact hqu) fun path => hroot2 q path hq, hq3]
  case refcnt =>
    have hq : role (pte2pa (s.k.leaf o.root i)) ≠ .free := by simp [hu]
    have hin := hc.refIn
    rw [hleaf1] at hin
    have h3 := hg.refOut (pte2pa (s.k.leaf o.root i)) (by rw [hrange0]; simp) fun path => hroot2 _ path hq
    have hpush : (k'.push t).refcnt (pte2pa (s.k.leaf o.root i)) = k'.refcnt (pte2pa (s.k.leaf o.root i)) :=
      update_of_ne (hne _ hq) ..
    have htake : (s.k.take t rest).refcnt (pte2pa (s.k.leaf o.root i)) = s.k.refcnt (pte2pa (s.k.leaf o.root i)) :=
      update_of_ne (hne _ hq) ..
    have h1 := hn.space.ext.refcnt (pte2pa (s.k.leaf o.root i)) (by rw [update_of_ne (hne _ hq)]; exact hq)
    change k3.refcnt _ = _
    rw [h3, hpush, hin, h1, htake]
  case failed =>
    have h1 : s1.k.failed = s.k.failed := hn.space.failed
    change k3.failed = _
    rw [hg.failed, ← h1, ← hc.failed]
    rfl
  case eq =>
    have hst : (s.proc np).state = .unused := by simpa using List.find?_some hn.slot
    have hreset : update s.proc np .empty = s.proc := by
      rw [← show s.proc np = .empty from h.of_none (h.none_iff.mpr hst), update_eq_self]
    rw [hn.eq]
    simp only [update_idem, hreset]

theorem fork_finish {role2}
    (hc : Copying L o.root r ⟨∅, true, some t⟩ s1.k role' (update as r (some ⟨∅, true, some t⟩)) (npages o.sz)
      k' role2) :
    Forked L as role own s o np r t role2
      { s with
        k := (k'.blit t 0 (k'.mem o.tf) 0 288).setPte t 14 0
        proc := update s.proc np ⟨.runnable, s.nextpid + 1, o.sz, some r, some t⟩
        nextpid := s.nextpid + 2 } := by
  have ht2 : role2 t = .held := (hc.roles t).elim (·.trans hn.held) fun hf => by simp [hn.held] at hf
  have ht0 := hn.tf_free h.world
  have hnone := hn.root_none h.world
  have hsub1 : ∀ r' s', as r' = some s' → update as r (some ⟨∅, true, some t⟩) r' = some s' := by
    intro r' s' hs'
    rw [update_of_ne]
    · exact hs'
    · rintro rfl
      rw [hnone] at hs'
      cases hs'
  have hsub2 : ∀ r' s', as r' = some s' → update as r (some (Own.mk r t o.sz).shape) r' = some s' := by
    intro r' s' hs'
    rw [update_of_ne]
    · exact hs'
    · rintro rfl
      rw [hnone] at hs'
      cases hs'
  have hw2 : World L k' role2 (update as r (some (Own.mk r t o.sz).shape)) := by
    have := hc.world
    rwa [update_idem] at this
  obtain ⟨hw3, hf3⟩ := hw2.setHeld ht2 (Lib.blit (k'.mem t) 0 (k'.mem o.tf) 0 288)
  obtain ⟨hw4, hf4⟩ := hw3.setHeld ht2 (putLE ((k'.blit t 0 (k'.mem o.tf) 0 288).mem t) (8 * 14) 8 0)
  have hself : update as r (some ⟨∅, true, some t⟩) r = some ⟨∅, true, some t⟩ := update_self ..
  have hf2 := (hc.frame hn.space.world hself).restrict hsub1
  have hf1 := (h.world.frame_take hn.head).trans (hn.space.frame (h.world.take hn.head))
  have hframe := ((hf1.trans hf2).trans (hf3.restrict hsub2)).trans (hf4.restrict hsub2)
  have hnp : own np = none := h.none_iff.mpr (by simpa using List.find?_some hn.slot)
  constructor
  case owned =>
    refine h.toOwned.set hw4 ?_ ?_ ?_ fun q hq _ => hframe.held q hq
    · intro r' _ hx
      exact update_of_ne (hx _ rfl).symm ..
    · intro o' ho'
      rw [hnp] at ho'
      cases ho'
    rintro o' ⟨⟩
    refine ⟨update_self .., ht2, fun hp => ?_, fun p' o' _ ho' => ⟨hn.root_ne h ho', fun he => ?_⟩⟩
    · have := h.pipe t hp
      rw [ht0] at this
      cases this
    · have := h.held p' o' ho'
      rw [he, ht0] at this
      cases this
  case frame => exact hframe
  case pages =>
    intro u hp
    have hO : update as r (some ⟨∅, true, some t⟩) o.root = some o.shape := hsub1 _ _ (h.space p o ho)
    have hp1 : Pages s1.k o.root (Finset.range (npages o.sz)) u := hp.congr fun v hv =>
      hf1.seen o.root _ v (fun hF => hF) (h.space p o ho) hv
    have hp2 := hc.pages hn.space.world hO (fun w hw => Finset.mem_range.mpr hw) hp1
    have hr2 : update as r (some (Own.mk r t o.sz).shape) r = some (Own.mk r t o.sz).shape :=
      update_self ..
    exact hp2.congr fun v hv => (hf3.trans hf4).seen r _ v (fun hF => hF) hr2 hv
  case eq => rfl

end

theorem fork_spec (h : Inv L s role as own) (ho : own p = some o) :
    wp (fork L p) (fun res s' =>
      (res = -1 ∧ findUnused s.proc = none ∧ s' = s) ∨
      (res = -1 ∧ s.k.freelist.length < 4 ∧ World L s'.k role as ∧ Same s.k s'.k role role as ∧
        s'.k.failed = s.k.failed + 1 ∧ s' = { s with k := s'.k, nextpid := s.nextpid + 2 }) ∨
      (res = -1 ∧ findUnused s.proc ≠ none ∧ 4 ≤ s.k.freelist.length ∧
        s.k.freelist.length < 4 + need (npages o.sz) ∧ ∃ i role', ForkFailed L as role s o i role' s') ∨
      (∃ np r t role', res = (s.nextpid + 1 : Nat) ∧ findUnused s.proc = some np ∧
        4 + need (npages o.sz) ≤ s.k.freelist.length ∧ Forked L as role own s o np r t role' s')) E s := by
  obtain ⟨_, hpt, htf, hsz⟩ := h.of_some ho
  simp only [fork, wp_bind]
  refine wp_post (allocproc_spec h.world fun q hq => h.of_none (h.none_iff.mpr hq)) ?_
  rintro res s1 (⟨rfl, hfu, rfl⟩ | ⟨rfl, hlen, hw, hs, hf, he⟩ | ⟨np, t, r, rest, role1, rfl, _, hn⟩)
  · exact wp_pure.mpr (.inl ⟨rfl, hfu, rfl⟩)
  · exact wp_pure.mpr (.inr (.inl ⟨rfl, hlen, hw, hs, hf, he⟩))
  have hps : s1.proc p = s.proc p := hn.proc_of_ne (hn.ne h ho)
  simp only [wp_bind, wp_get, wp_liftK, hps, hpt, hsz, htf, hn.proc_self, Option.getD_some]
  have hself : update as r (some ⟨∅, true, some t⟩) r =
    some { (⟨∅, true, some t⟩ : Shape) with dom := ∅ } := update_self ..
  have hO : update as r (some ⟨∅, true, some t⟩) o.root = some o.shape := by
    rw [update_of_ne (hn.root_ne h ho)]
    exact h.space p o ho
  have hlen : s1.k.freelist.length + 4 = s.k.freelist.length := by
    have h1 := hn.space.length
    rw [hn.head, List.length_cons]
    change s1.k.freelist.length + 3 = rest.length at h1
    omega
  refine wp_post (uvmcopy_spec (hn.root_ne h ho) hn.space.world hO hself
    (fun u hu => Finset.mem_range.mpr hu) hn.space.tables) ?_
  rintro res k2 ⟨role2, ⟨rfl, hc⟩ | ⟨rfl, hlt, i, hi, hc⟩⟩
  · have hneed := hc.length
    rw [if_neg (by decide)]
    simp only [wp_bind, wp_setProc, wp_liftK, copyTrapframe, setPte, wp_modify, Kernel.setProc]
    refine wp_pure.mpr (.inr (.inr (.inr ⟨np, r, t, role2, rfl, hn.slot, by omega, ?_⟩)))
    have hfin := fork_finish h ho hn hc
    rw [hn.eq]
    simpa only [update_self, update_idem] using hfin
  · rw [if_pos (by decide), wp_bind]
    refine wp_post (fork_undo h ho hn hi hc) ?_
    rintro _ s' ⟨role', hff⟩
    exact wp_pure.mpr (.inr (.inr (.inl ⟨rfl, by simp [hn.slot], by omega, by omega, i, role', hff⟩)))

end Fork

end Xv6.Vm
