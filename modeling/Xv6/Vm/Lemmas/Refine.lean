import Xv6.Vm.Lemmas.Step

/-!
# 仕様の機械との対応
-/

namespace Xv6.Vm

open Xv6.Lib

variable {L : Layout} {k' : Kmem} {role role' : Nat → Role} {as as' : Nat → Option Shape}
variable {s s' : Kernel} {p : Fin nproc} {own : Fin nproc → Option Own} {o : Own}
variable {a : Eager.Sys} {u : Eager.Proc} {E : String → Prop}

/-- プロセス `q` と仕様の機械のプロセス `u` の対応。 -/
structure Agrees (k : Kmem) (q : Proc) (u : Eager.Proc) : Prop where
  pid : u.pid = q.pid
  sz : u.sz = q.sz
  alive : u.alive = decide (q.state = .runnable)
  pages : Pages k (q.pagetable.getD 0) (Finset.range (npages q.sz)) u

/-- カーネルの状態と仕様の機械の状態の対応。 -/
structure Agree (s : Kernel) (a : Eager.Sys) : Prop where
  nextpid : a.nextpid = s.nextpid
  unused : ∀ p, a.proc p = none ↔ (s.proc p).state = .unused
  used : ∀ p u, a.proc p = some u → Agrees s.k (s.proc p) u

theorem Pages.of_page {k r D u'} (h : Pages k r D u) (he : u'.page = u.page) : Pages k r D u' :=
  ⟨by rw [he]; exact h.page, by rw [he]; exact h.absent⟩

theorem Agree.set {X : Nat → Prop} (hi : Inv L s role as own)
    (hseen : ∀ r sh v, ¬X r → as r = some sh → v ∈ sh.dom → SeenEq s.k k' r v)
    (hX : ∀ p' o', p' ≠ p → own p' = some o' → ¬X o'.root) (h : Agree s a) {q : Proc} {x : Option Eager.Proc} {n : Nat}
    (hx0 : x = none ↔ q.state = .unused) (hx : ∀ u, x = some u → Agrees k' q u) :
    Agree { s with k := k', proc := update s.proc p q, nextpid := n }
      { proc := update a.proc p x, nextpid := n } where
  nextpid := by rfl
  unused p' := by
    by_cases he : p' = p
    · subst he
      simpa using hx0
    · simpa [he] using h.unused p'
  used p' u hu := by
    by_cases he : p' = p
    · subst he
      simpa using hx u (by simpa using hu)
    simp only [update_of_ne he] at hu ⊢
    have hag := h.used p' u hu
    have hne : (s.proc p').state ≠ .unused := by
      intro hc
      rw [(h.unused p').mpr hc] at hu
      cases hu
    obtain ⟨o', ho'⟩ := hi.some_of_runnable hne
    obtain ⟨_, hpt, _, hsz⟩ := hi.of_some ho'
    refine { hag with pages := hag.pages.congr fun v hv => ?_ }
    rw [hpt]
    rw [hsz] at hv
    exact hseen o'.root _ v (hX p' o' he ho') (hi.space p' o' ho') hv

def StepOk (L : Layout) (s : Kernel) (op : UserOp) (out : Out) (s' : Kernel) : Prop :=
  (∃ role as own, Inv L s' role as own) ∧ s.k.failed ≤ s'.k.failed ∧
    ∀ a, Agree s a → Eager.Allowed a op → s'.k.failed = s.k.failed →
      out = (Eager.step a op).1 ∧ Agree s' (Eager.step a op).2

def InitExit (e : String) : Prop := e = "init exiting"

section Op

variable {op : UserOp} {out : Out}

theorem Agree.alive (h : Agree s a) (hs : (s.proc p).state = .runnable) :
    ∃ u, a.proc p = some u ∧ Agrees s.k (s.proc p) u ∧ ∀ f, a.running p f = f u := by
  cases hu : a.proc p with
  | none =>
    rw [(h.unused p).mp hu] at hs
    cases hs
  | some u =>
    have hag := h.used p u hu
    refine ⟨u, rfl, hag, fun f => ?_⟩
    have halive := hag.alive
    rw [hs] at halive
    simp [Eager.Sys.running, hu, halive]

theorem Agree.not_alive (h : Agree s a) (hs : (s.proc p).state ≠ .runnable)
    (f : Eager.Proc → Out × Eager.Sys) : a.running p f = (.skip, a) := by
  cases hu : a.proc p with
  | none => simp [Eager.Sys.running, hu]
  | some u =>
    have halive := (h.used p u hu).alive
    rw [decide_eq_false hs] at halive
    simp [Eager.Sys.running, hu, halive]

/-- 走っていないプロセスの操作は、どちらの機械でも何もしない。 -/
theorem running_spec {x : PM Out} {f : Eager.Sys → Eager.Proc → Out × Eager.Sys} (h : Inv L s role as own)
    (hop : ∀ a, Eager.step a op = a.running p (f a))
    (hx : ∀ o, own p = some o → (s.proc p).state = .runnable → wp x (StepOk L s op) InitExit s) :
    wp (running p x) (StepOk L s op) InitExit s := by
  simp only [running, wp_bind, wp_get]
  rw [wp_ite]
  refine ⟨fun hs => ?_, fun hs => wp_pure.mpr ⟨⟨role, as, own, h⟩, le_rfl, fun a ha _ _ => ?_⟩⟩
  · obtain ⟨o, ho⟩ := h.some_of_runnable (p := p) (by simp [hs])
    exact hx o ho hs
  · rw [hop, ha.not_alive hs]
    exact ⟨rfl, ha⟩

theorem wp_exit {Q} (hQ : Q () (s.setProc p fun q => { q with state := .zombie })) :
    wp (exit p) Q InitExit s := by
  simp only [exit, wp_bind, wp_get]
  rw [wp_ite]
  exact ⟨fun _ => rfl, fun _ => hQ⟩

theorem Inv.zombie (h : Inv L s role as own) (ho : own p = some o) :
    Inv L (s.setProc p fun q => { q with state := .zombie }) role as own := by
  obtain ⟨_, hpt, htf, hsz⟩ := h.of_some ho
  refine { h with slot := fun p' => ?_ }
  by_cases he : p' = p
  · subst he
    simp only [Kernel.setProc, update_self, ho]
    exact ⟨.inr rfl, hpt, htf, hsz⟩
  · simpa [Kernel.setProc, he] using h.slot p'

theorem Agree.kill (hi : Inv L s role as own) (h : Agree s a) (hu : a.proc p = some u) :
    Agree (s.setProc p fun q => { q with state := .zombie }) (a.kill p u) := by
  have hag := h.used p u hu
  have := Agree.set (X := fun _ => False) (p := p) (n := s.nextpid) (q := { s.proc p with state := .zombie })
    (x := some { u with alive := false }) hi (fun _ _ _ _ _ _ => ⟨rfl, fun _ _ => rfl⟩) (fun _ _ _ _ hF => hF) h
    (by simp) (by
      rintro _ ⟨⟩
      exact ⟨hag.pid, hag.sz, by simp, hag.pages.of_page rfl⟩)
  rw [← h.nextpid] at this
  simpa only [Eager.Sys.kill, Eager.Sys.set, Kernel.setProc, h.nextpid] using this

theorem exit_spec (h : Inv L s role as own) (ho : own p = some o) (hrun : (s.proc p).state = .runnable) :
    wp (do exit p; return Out.skip) (StepOk L s (.exit p)) InitExit s := by
  rw [wp_bind]
  refine wp_exit (wp_pure.mpr ⟨⟨role, as, own, h.zombie ho⟩, le_rfl, fun a ha _ _ => ?_⟩)
  obtain ⟨u, hu, _, hrunning⟩ := ha.alive hrun
  simp only [Eager.step, hrunning]
  exact ⟨trivial, ha.kill h hu⟩

theorem Agree.findUnused (h : Agree s a) :
    ((List.finRange nproc).find? fun p => (a.proc p).isNone) = findUnused s.proc := by
  have : (fun p => (a.proc p).isNone) = fun p => decide ((s.proc p).state = .unused) := by
    funext p
    rw [Bool.eq_iff_iff, Option.isNone_iff_eq_none, decide_eq_true_iff]
    exact h.unused p
  rw [Vm.findUnused, this]

theorem Forked.agree {np : Fin nproc} {r t : Nat} (hi : Inv L s role as own) (h : Agree s a)
    (hag : Agrees s.k (s.proc p) u) (ho : own p = some o) (hf : Forked L as role own s o np r t role' s') :
    Agree s' { proc := update a.proc np (some { u with pid := a.nextpid + 1, alive := true })
               nextpid := a.nextpid + 2 } := by
  obtain ⟨_, hpt, _, hsz⟩ := hi.of_some ho
  have hpages := hag.pages
  rw [hpt, hsz] at hpages
  rw [hf.eq, h.nextpid]
  refine Agree.set (X := fun _ => False) hi hf.frame.seen (fun _ _ _ _ hF => hF) h (by simp) ?_
  rintro _ ⟨⟩
  exact ⟨rfl, hag.sz.trans hsz, by simp, (hf.pages u hpages).of_page rfl⟩

theorem Agree.congr (h : Agree s a) (hp : s'.proc = s.proc) (hn : s'.nextpid = s.nextpid) (hk : s'.k = s.k) :
    Agree s' a :=
  ⟨h.nextpid.trans hn.symm, fun p => by rw [hp]; exact h.unused p, fun p u hu => by rw [hp, hk]; exact h.used p u hu⟩

theorem forkOp_spec (h : Inv L s role as own) (ho : own p = some o) (hrun : (s.proc p).state = .runnable) :
    wp (do let r ← fork L p; return Out.ret r) (StepOk L s (.fork p)) InitExit s := by
  rw [wp_bind]
  refine wp_post (fork_spec h ho) ?_
  rintro res s' (⟨rfl, hfu, rfl⟩ | ⟨rfl, _, hw, hsame, hf, he⟩ | ⟨rfl, _, _, _, i, role', hff⟩ |
    ⟨np, r, t, role', rfl, hfu, _, hfk⟩)
  · refine wp_pure.mpr ⟨⟨role, as, own, h⟩, le_rfl, fun a ha _ _ => ?_⟩
    obtain ⟨u, hu, _, hrunning⟩ := ha.alive hrun
    simp only [Eager.step, hrunning, Eager.Sys.fork, ha.findUnused, hfu]
    exact ⟨trivial, ha⟩
  · have hinv := h.frame hw fun q hq => hq
    refine wp_pure.mpr ⟨⟨role, as, own, ?_⟩, by omega, fun a _ _ hc => by omega⟩
    rw [he]
    exact { hinv with slot := hinv.slot }
  · have hinv := h.frame hff.world fun q hq => (hff.roles q (by simp [hq])).trans hq
    have hfail := hff.failed
    refine wp_pure.mpr ⟨⟨role', as, own, ?_⟩, by omega, fun a _ _ hc => by omega⟩
    rw [hff.eq]
    exact { hinv with slot := hinv.slot }
  have hslot : Slot (some ⟨r, t, o.sz⟩) ⟨.runnable, s.nextpid + 1, o.sz, some r, some t⟩ := ⟨.inl rfl, rfl, rfl, rfl⟩
  have hinv := h.set hfk.owned hslot (s.nextpid + 2)
  rw [← hfk.eq] at hinv
  refine wp_pure.mpr ⟨⟨role', _, _, hinv⟩, hfk.frame.failed, fun a ha _ _ => ?_⟩
  obtain ⟨u, hu, hag, hrunning⟩ := ha.alive hrun
  simp only [Eager.step, hrunning, Eager.Sys.fork, ha.findUnused, hfu, Eager.Sys.set, ha.nextpid]
  refine ⟨trivial, ?_⟩
  have := hfk.agree h ha hag ho
  rwa [ha.nextpid] at this

def Isolated (s s' : Kernel) (p : Fin nproc) : Prop :=
  ∀ p' va, p' ≠ p → (s.proc p').state ≠ .unused → s'.read p' va = s.read p' va

theorem World.read_congr {k k1 role1 r va sh} (h : World L k role as)
    (h1 : World L k1 role1 as) (hr : as r = some sh) (hseen : ∀ v ∈ sh.dom, SeenEq k k1 r v) :
    (k1.access r va pteR).map (fun q => k1.mem q (va % pgsize)) =
      (k.access r va pteR).map fun q => k.mem q (va % pgsize) := by
  by_cases hv : va / pgsize ∈ sh.dom
  · obtain ⟨hU, hbyte⟩ := hseen _ hv
    have hs := h.space r sh hr
    have hs1 := h1.space r sh hr
    have hlt := hbyte (va % pgsize) (Nat.mod_lt _ (by decide))
    simp only [Kmem.access, hs.valid _ hv, hs.readable _ hv, hs1.valid _ hv, hs1.readable _ hv, hU]
    split
    · exact congrArg some hlt
    · rfl
  have hnone : ∀ {k2 : Kmem} {role2 : Nat → Role}, World L k2 role2 as → k2.access r va pteR = none := by
    intro k2 role2 h2
    by_contra hc
    obtain ⟨q, hq⟩ := Option.ne_none_iff_exists'.mp hc
    exact hv (h2.access_some hr hq).1
  rw [hnone h, hnone h1]
  rfl

/-- `p` の一歩は、他のプロセスの読む値を変えない。 -/
theorem Inv.isolated (h : Inv L s role as own) (ho : own p = some o) (hw : World L s'.k role' as)
    (hf : Frame (· = o.root) s.k s'.k role role' as) (hp : ∀ p' ≠ p, s'.proc p' = s.proc p') : Isolated s s' p := by
  intro p' va hne hst
  obtain ⟨o', ho'⟩ := h.some_of_runnable hst
  obtain ⟨_, hpt, _, _⟩ := h.of_some ho'
  have hsp := h.space p' o' ho'
  simp only [Kernel.read, hp p' hne, hpt, Option.getD_some]
  refine h.world.read_congr hw hsp fun v hv => hf.seen o'.root _ v (fun he => ?_) hsp hv
  exact hne (h.root_inj p' p o' o ho' ho he)

theorem load_spec (h : Inv L s role as own) (ho : own p = some o) (hrun : (s.proc p).state = .runnable) (va : Nat) :
    wp (userLoad p va) (StepOk L s (.load p va)) InitExit s := by
  obtain ⟨_, hpt, _, hsz⟩ := h.of_some ho
  have hsp := h.space p o ho
  have hpages : ∀ {u}, Agrees s.k (s.proc p) u → Pages s.k o.root o.shape.dom u := by
    intro u hag
    have := hag.pages
    rwa [hpt, hsz] at this
  simp only [userLoad, wp_bind, wp_get, hpt, Option.getD_some]
  cases hacc : s.k.access o.root va pteR with
  | some q =>
    refine wp_pure.mpr ⟨⟨role, as, own, h⟩, le_rfl, fun a ha _ _ => ?_⟩
    obtain ⟨u, hu, hag, hrunning⟩ := ha.alive hrun
    obtain ⟨hv, rfl, hU, _⟩ := h.world.access_some hsp hacc
    obtain ⟨pg, _, _, hpa, hdata⟩ := (hpages hag).access_some va hv hU
    simp only [Eager.step, hrunning, hpa]
    refine ⟨?_, ha⟩
    rw [hdata _ (Nat.mod_lt _ (by decide))]
    rfl
  | none =>
    simp only [wp_bind]
    refine wp_exit (wp_pure.mpr ⟨⟨role, as, own, h.zombie ho⟩, le_rfl, fun a ha _ _ => ?_⟩)
    obtain ⟨u, hu, hag, hrunning⟩ := ha.alive hrun
    have hpa : u.access va pteR = none := by
      have hn : s.k.access o.root va pteU = none := by
        by_contra hc
        obtain ⟨q, hq⟩ := Option.ne_none_iff_exists'.mp hc
        obtain ⟨hv, _, hU, _⟩ := h.world.access_some hsp hq
        have hR := (h.world.space o.root _ hsp).readable _ hv
        rw [Kmem.access] at hacc hq
        split at hq
        · rename_i hcond
          rw [if_pos ⟨hcond.1, hcond.2.1, hU, hR⟩] at hacc
          cases hacc
        · cases hq
      exact Eager.Proc.access_none ((hpages hag).access_none h.world hsp hn) pteR
    simp only [Eager.step, hrunning, hpa]
    exact ⟨trivial, ha.kill h hu⟩

theorem Agree.write (hi : Inv L s role as own) (ho : own p = some o) (hf : Frame (· = o.root) s.k k' role role' as)
    (h : Agree s a) {u' : Eager.Proc} (hag : Agrees s.k (s.proc p) u) (hp : Pages k' o.root o.shape.dom u')
    (hpid : u'.pid = u.pid) (hsz : u'.sz = u.sz) (halive : u'.alive = u.alive) :
    Agree { s with k := k' } (a.set p (some u')) := by
  obtain ⟨hst, hpt, _, hosz⟩ := hi.of_some ho
  have := Agree.set (X := (· = o.root)) (p := p) (n := s.nextpid) (q := s.proc p) (x := some u') hi hf.seen
    (fun p' o' hne ho' he => hne (hi.root_inj p' p o' o ho' ho he)) h (by
      rcases hst with hc | hc <;> simp [hc]) (by
      rintro _ ⟨⟩
      refine ⟨hpid.trans hag.pid, hsz.trans hag.sz, halive.trans hag.alive, ?_⟩
      rw [hpt, hosz]
      exact hp)
  rw [update_eq_self, ← h.nextpid] at this
  exact this.congr rfl h.nextpid.symm rfl

section

variable (h : Inv L s role as own) (ho : own p = some o) (hrun : (s.proc p).state = .runnable)
include h ho hrun

theorem storeTo_spec {va b k1 role1} (hw : World L k1 role1 as)
    (hf : Frame (fun _ => False) s.k k1 role role1 as) {q} (hacc : k1.access o.root va pteW = some q) :
    wp (do liftK (modify fun k => k.blit q (va % pgsize) (fun _ => b) 0 1); return Out.ret 0)
      (fun out s' => StepOk L s (.store p va b) out s' ∧ Isolated s s' p) InitExit { s with k := k1 } := by
  obtain ⟨_, hpt, _, hsz⟩ := h.of_some ho
  have hsp := h.space p o ho
  obtain ⟨hv, rfl, hU, hW⟩ := hw.access_some hsp hacc
  obtain ⟨hw2, hf2, hp2⟩ := hw.store hsp hv (hw.writable o.root _ _ hsp hv hW) (va % pgsize) (fun _ => b) 0 1
  have hframe := (hf.mono fun _ hF => hF.elim).trans hf2
  rw [wp_bind, wp_liftK, wp_modify]
  refine wp_pure.mpr ⟨⟨⟨role1, as, own, h.frame hw2 hframe.held⟩, hframe.failed, fun a ha hallow _ => ?_⟩,
    h.isolated ho hw2 hframe fun _ _ => rfl⟩
  obtain ⟨u, hu, hag, hrunning⟩ := ha.alive hrun
  have hp : Pages s.k o.root o.shape.dom u := by
    have := hag.pages
    rwa [hpt, hsz] at this
  have hp1 : Pages k1 o.root o.shape.dom u := hp.congr fun v hv => hf.seen o.root _ v (fun hF => hF) hsp hv
  obtain ⟨pg, hpg, hpa, _⟩ := hp1.access_some va hv hU
  have hpw : u.access va pteW = some pg := by
    have hWp := hallow u pg hu hpa
    simp only [Eager.Proc.access, hpg, Option.filter_eq_some_iff] at hpa ⊢
    simp only [Bool.and_eq_true] at hpa ⊢
    exact ⟨trivial, hpa.2.1, hWp⟩
  simp only [Eager.step, hrunning, hpw]
  exact ⟨trivial, ha.write h ho hframe hag (hp2 u hp1) rfl rfl rfl⟩

theorem store_spec (va : Nat) (b : UInt8) :
    wp (userStore L p va b) (fun out s' => StepOk L s (.store p va b) out s' ∧ Isolated s s' p) InitExit s := by
  obtain ⟨_, hpt, _, hsz⟩ := h.of_some ho
  have hsp := h.space p o ho
  simp only [userStore, wp_bind, wp_get, hpt, Option.getD_some]
  cases hacc : s.k.access o.root va pteW with
  | some q => exact storeTo_spec h ho hrun h.world (.refl _ _ _ _) hacc
  | none =>
    simp only [wp_bind, wp_liftK]
    refine wp_post (cowfault_spec h.world hsp va) ?_
    rintro res k1 (⟨rfl, hk1⟩ | ⟨rfl, hlt, hU, hv, q, role1, hc⟩)
    · -- 届かないページへの書き込みと、割り当ての失敗では、プロセスは終わる。
      rw [if_pos (by decide), wp_bind]
      rcases hk1 with ⟨rfl, hn⟩ | rfl
      · refine wp_exit (wp_pure.mpr ⟨⟨⟨role, as, own, h.zombie ho⟩, le_rfl, fun a ha _ _ => ?_⟩,
          h.isolated ho (h.zombie ho).world (.refl _ _ _ _) fun _ hne => update_of_ne hne ..⟩)
        obtain ⟨u, hu, hag, hrunning⟩ := ha.alive hrun
        have hp := hag.pages
        rw [hpt, hsz] at hp
        have hpa := Eager.Proc.access_none (Pages.access_none h.world hsp hp hn) pteW
        simp only [Eager.step, hrunning, hpa]
        exact ⟨trivial, ha.kill h hu⟩
      have hinv := h.frame (h.world.fail (s.k.failed + 1)) fun _ hq => hq
      have hfr : Frame (· = o.root) s.k { s.k with failed := s.k.failed + 1 } role role as := by
        refine ⟨fun r sh v _ _ _ => .of_leaf ?_ rfl, fun _ hq => hq, Nat.le_succ _⟩
        exact congrFun (congrFun (Kmem.leaf_congr rfl) r) v
      refine wp_exit (wp_pure.mpr ⟨⟨⟨role, as, own, hinv.zombie ho⟩, Nat.le_succ _, fun a _ _ hf => ?_⟩,
        h.isolated ho (hinv.zombie ho).world hfr fun _ hne => update_of_ne hne ..⟩)
      exact absurd hf (Nat.succ_ne_self _)
    · rw [if_neg (by decide)]
      have hacc1 := hc.access hsp hlt (i := 2) (by decide)
      rw [show (2 : Nat) ^ 2 = pteW from rfl] at hacc1
      simp only [wp_bind, wp_get, hacc1]
      exact storeTo_spec h ho hrun hc.world (hc.frame h.world hsp hv hU) hacc1

theorem copyinOp_spec (va len : Nat) :
    wp (do
        let s ← get
        let (r, dst) ← liftK (copyin ((s.proc p).pagetable.getD 0) (fun _ => 0) va len)
        return Out.bytes r ((List.range len).map dst))
      (StepOk L s (.copyin p va len)) InitExit s := by
  obtain ⟨_, hpt, _, hsz⟩ := h.of_some ho
  simp only [wp_bind, wp_get, hpt, Option.getD_some, wp_liftK]
  refine wp_post (copyin_spec h.world (h.space p o ho) _ va len) ?_
  rintro ⟨r, dst⟩ k1 ⟨rfl, hres⟩
  refine wp_pure.mpr ⟨⟨role, as, own, h⟩, le_rfl, fun a ha _ _ => ?_⟩
  obtain ⟨u, hu, hag, hrunning⟩ := ha.alive hrun
  have hp := hag.pages
  rw [hpt, hsz] at hp
  simp only [Eager.step, hrunning, ← hres u hp]
  exact ⟨trivial, ha⟩

end

theorem Eager.copyout_fields (src : Bytes) (fuel : Nat) : ∀ (dstva sp len : Nat) (u : Eager.Proc),
    (Eager.copyout src fuel dstva sp len u).2.pid = u.pid ∧ (Eager.copyout src fuel dstva sp len u).2.sz = u.sz ∧
      (Eager.copyout src fuel dstva sp len u).2.alive = u.alive := by
  induction fuel with
  | zero => exact fun _ _ _ _ => ⟨rfl, rfl, rfl⟩
  | succ fuel ih =>
    intro dstva sp len u
    simp only [Eager.copyout]
    split
    · exact ⟨rfl, rfl, rfl⟩
    · split
      · exact ⟨rfl, rfl, rfl⟩
      · exact ih _ _ _ _

theorem copyoutOp_spec (h : Inv L s role as own) (ho : own p = some o) (hrun : (s.proc p).state = .runnable)
    (va : Nat) (src : List UInt8) :
    wp (do
        let s ← get
        let r ← liftK (copyout L ((s.proc p).pagetable.getD 0) va (ofList src) src.length)
        return Out.ret r)
      (fun out s' => StepOk L s (.copyout p va src) out s' ∧ Isolated s s' p) InitExit s := by
  obtain ⟨_, hpt, _, hsz⟩ := h.of_some ho
  simp only [wp_bind, wp_get, hpt, Option.getD_some, wp_liftK]
  refine wp_post (copyout_spec h.world (h.space p o ho) va (ofList src) src.length) ?_
  rintro res k1 ⟨role1, hw, hf, hres⟩
  refine wp_pure.mpr ⟨⟨⟨role1, as, own, h.frame hw hf.held⟩, hf.failed, fun a ha _ hfail => ?_⟩,
    h.isolated ho hw hf fun _ _ => rfl⟩
  obtain ⟨u, hu, hag, hrunning⟩ := ha.alive hrun
  have hp := hag.pages
  rw [hpt, hsz] at hp
  obtain ⟨rfl, hp'⟩ := hres u hp hfail
  obtain ⟨h1, h2, h3⟩ := Eager.copyout_fields (ofList src) src.length va 0 src.length u
  simp only [Eager.step, hrunning]
  exact ⟨trivial, ha.write h ho hf hag hp' h1 h2 h3⟩

theorem Eager.sbrk_fields (u : Eager.Proc) (n : Int) : (u.sbrk n).pid = u.pid ∧ (u.sbrk n).alive = u.alive := by
  simp only [Eager.Proc.sbrk, Eager.Proc.resize]
  split
  · exact ⟨rfl, rfl⟩
  · split <;> exact ⟨rfl, rfl⟩

theorem sbrk_spec (h : Inv L s role as own) (ho : own p = some o) (hrun : (s.proc p).state = .runnable) (n : Int) :
    wp (do let r ← sbrk L p n; return Out.ret r) (StepOk L s (.sbrk p n)) InitExit s := by
  obtain ⟨hst, hpt, _, hsz⟩ := h.of_some ho
  simp only [sbrk, wp_bind, wp_get]
  refine wp_post (growproc_spec h ho n) ?_
  rintro res s' ⟨role', as', own', hinv, ⟨rfl, hf⟩ | ⟨rfl, hg⟩⟩
  · rw [if_pos (by decide)]
    exact wp_pure.mpr (wp_pure.mpr ⟨⟨role', as', own', hinv⟩, hf.le, fun a _ _ hc => by omega⟩)
  rw [if_neg (by decide)]
  refine wp_pure.mpr (wp_pure.mpr ⟨⟨role', as', own', hinv⟩, hg.frame.failed, fun a ha _ _ => ?_⟩)
  obtain ⟨u, hu, hag, hrunning⟩ := ha.alive hrun
  have hp := hag.pages
  rw [hpt, hsz] at hp
  obtain ⟨hsz', hp'⟩ := hg.pages u (hag.sz.trans hsz) hp
  obtain ⟨h1, h2⟩ := Eager.sbrk_fields u n
  simp only [Eager.step, hrunning]
  refine ⟨by rw [hag.sz], ?_⟩
  have hset := Agree.set (X := (· = o.root)) (p := p) (n := s.nextpid) (x := some (u.sbrk n))
    (q := { s.proc p with sz := (s'.proc p).sz }) h hg.frame.seen
    (fun p' o' hne ho' he => hne (h.root_inj p' p o' o ho' ho he)) ha (by rcases hst with hc | hc <;> simp [hc]) (by
      rintro _ ⟨⟩
      refine ⟨h1.trans hag.pid, hsz', h2.trans hag.alive, ?_⟩
      simp only [hpt, Option.getD_some]
      exact hp')
  rw [hg.eq]
  rw [← ha.nextpid] at hset
  exact hset.congr rfl ha.nextpid.symm rfl

theorem reap_spec (h : Inv L s role as own) : wp (reap L p) (StepOk L s (.reap p)) InitExit s := by
  simp only [reap, wp_bind, wp_get]
  rw [wp_ite]
  refine ⟨fun hz => ?_, fun hz => wp_pure.mpr ⟨⟨role, as, own, h⟩, le_rfl, fun a ha _ _ => ?_⟩⟩
  · obtain ⟨o, ho⟩ := h.some_of_runnable (p := p) (by simp [hz])
    rw [wp_bind]
    refine wp_post (freeproc_inv h ho) ?_
    rintro _ s' ⟨role', as', own', hinv, hf, he⟩
    refine wp_pure.mpr ⟨⟨role', as', own', hinv⟩, hf.failed, fun a ha _ _ => ?_⟩
    cases hu : a.proc p with
    | none =>
      rw [(ha.unused p).mp hu] at hz
      cases hz
    | some u =>
      have halive := (ha.used p u hu).alive
      rw [hz, decide_eq_false (by decide)] at halive
      simp only [Eager.step, hu, halive]
      refine ⟨rfl, ?_⟩
      have hset := Agree.set (X := (· = o.root)) (p := p) (n := s.nextpid) (x := none) (q := .empty) h hf.seen
        (fun p' o' hne ho' he => hne (h.root_inj p' p o' o ho' ho he)) ha (by simp [Proc.empty])
        (by simp)
      rw [he]
      rw [← ha.nextpid] at hset
      exact hset.congr rfl ha.nextpid.symm rfl
  cases hu : a.proc p with
  | none =>
    simp only [Eager.step, hu]
    exact ⟨trivial, ha⟩
  | some u =>
    have halive := (ha.used p u hu).alive
    have hst : (s.proc p).state = .runnable := by
      have hne : (s.proc p).state ≠ .unused := fun hc => by
        rw [(ha.unused p).mpr hc] at hu
        cases hu
      obtain ⟨o, ho⟩ := h.some_of_runnable hne
      exact (h.of_some ho).1.resolve_right hz
    rw [hst, decide_eq_true rfl] at halive
    simp only [Eager.step, hu, halive]
    exact ⟨rfl, ha⟩

end Op

theorem userStep_spec (h : Inv L s role as own) (op : UserOp) : wp (userStep L op) (StepOk L s op) InitExit s := by
  cases op with
  | fork p => exact running_spec h (fun _ => rfl) fun o ho hrun => forkOp_spec h ho hrun
  | load p va => exact running_spec h (fun _ => rfl) fun o ho hrun => load_spec h ho hrun va
  | store p va b =>
    exact running_spec h (fun _ => rfl) fun o ho hrun => wp_post (store_spec h ho hrun va b) fun _ _ hok => hok.1
  | copyin p va len => exact running_spec h (fun _ => rfl) fun o ho hrun => copyinOp_spec h ho hrun va len
  | copyout p va src =>
    exact running_spec h (fun _ => rfl) fun o ho hrun => wp_post (copyoutOp_spec h ho hrun va src) fun _ _ hok => hok.1
  | sbrk p n => exact running_spec h (fun _ => rfl) fun o ho hrun => sbrk_spec h ho hrun n
  | exit p => exact running_spec h (fun _ => rfl) fun o ho hrun => exit_spec h ho hrun
  | reap p => exact reap_spec h

theorem running_isolated {x : PM Out} (h : Inv L s role as own)
    (hx : ∀ o, own p = some o → (s.proc p).state = .runnable → wp x (fun _ s' => Isolated s s' p) InitExit s) :
    wp (running p x) (fun _ s' => Isolated s s' p) InitExit s := by
  simp only [running, wp_bind, wp_get]
  rw [wp_ite]
  refine ⟨fun hs => ?_, fun _ => wp_pure.mpr fun _ _ _ _ => rfl⟩
  obtain ⟨o, ho⟩ := h.some_of_runnable (p := p) (by simp [hs])
  exact hx o ho hs

theorem userStep_isolated (h : Inv L s role as own) {op}
    (hop : (∃ va b, op = .store p va b) ∨ ∃ va src, op = .copyout p va src) :
    wp (userStep L op) (fun _ s' => Isolated s s' p) InitExit s := by
  rcases hop with ⟨va, b, rfl⟩ | ⟨va, src, rfl⟩
  · exact running_isolated h fun o ho hrun => wp_post (store_spec h ho hrun va b) fun _ _ hok => hok.2
  · exact running_isolated h fun o ho hrun => wp_post (copyoutOp_spec h ho hrun va src) fun _ _ hok => hok.2

/-- 割り当てに失敗しない限り、写しを遅らせても出力は同じである。 -/
theorem userRun_spec (ops : List UserOp) : ∀ {s : Kernel} {role : Nat → Role} {as : Nat → Option Shape}
    {own : Fin nproc → Option Own}, Inv L s role as own →
    wp (userRun L ops) (fun outs s' => s.k.failed ≤ s'.k.failed ∧
      ∀ a, Agree s a → Eager.AllAllowed ops a → s'.k.failed = s.k.failed →
        outs = (Eager.run ops a).1 ∧ Agree s' (Eager.run ops a).2) InitExit s := by
  induction ops with
  | nil => exact fun h => ⟨le_rfl, fun a ha _ _ => ⟨rfl, ha⟩⟩
  | cons op ops ih =>
    intro s role as own h
    simp only [userRun, wp_bind]
    refine wp_post (userStep_spec h op) ?_
    rintro out s1 ⟨⟨role1, as1, own1, h1⟩, hle1, hsim⟩
    refine wp_post (ih h1) ?_
    rintro outs s2 ⟨hle2, hrun⟩
    refine wp_pure.mpr ⟨hle1.trans hle2, fun a ha hall hf => ?_⟩
    obtain ⟨rfl, ha1⟩ := hsim a ha hall.1 (by omega)
    obtain ⟨rfl, ha2⟩ := hrun _ ha1 hall.2 (by omega)
    exact ⟨rfl, ha2⟩

theorem step_spec (h : Inv L s role as own) (op : Op) :
    wp (step L op) (fun _ s' => ∃ role' as' own', Inv L s' role' as' own') InitExit s := by
  cases op with
  | user op => exact wp_post (userStep_spec h op) fun _ _ hok => hok.1
  | exec p file argv =>
    simp only [step, running, wp_bind, wp_get]
    rw [wp_ite]
    refine ⟨fun hs => ?_, fun _ => wp_pure.mpr ⟨role, as, own, h⟩⟩
    obtain ⟨o, ho⟩ := h.some_of_runnable (p := p) (by simp [hs])
    rw [wp_bind]
    exact wp_post (exec_spec h ho file argv) fun _ _ hok => wp_pure.mpr hok
  | pipealloc => exact pipealloc_spec h
  | pipeclose q => exact pipeclose_spec h q

theorem Reachable.inv (h : Reachable L s) : ∃ role as own, Inv L s role as own := by
  induction h with
  | boot hb hs => exact wp_ok (userinit_spec (E := fun _ => True) hb) hs
  | step op _ hs ih =>
    obtain ⟨role, as, own, hi⟩ := ih
    exact wp_ok (step_spec hi op) hs

end Xv6.Vm
