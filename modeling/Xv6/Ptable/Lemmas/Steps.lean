import Xv6.Ptable.Lemmas.Moves

/-!
# 呼び出しの歩
-/

namespace Xv6.Ptable

open Xv6.Vm (ProcState nproc)
open Xv6.Lib

variable {s t u : Sys} {p q k i l c : Nat} {a : Pc} {x : Proc}

theorem Sys.Awake.row (h : s.Awake p) (hk : k ≠ p) : (s.row k x).Awake p :=
  ⟨by simpa [hk.symm] using h.runs, h.ended⟩

theorem Sys.Making.ne {y} (hm : s.Making q k y) (ha : s.Awake q) (hy : ¬Live y) : k ≠ q := by
  rintro rfl
  exact hy (hm.state ▸ ha.live)

theorem Sys.Ready.ne {o} (hm : s.Ready q k o) (ha : s.Awake q) : k ≠ q := by
  rintro rfl
  exact not_live_used (hm.state ▸ ha.live)

theorem Sys.Inv.forkTake (h : s.Inv) (ha : s.Awake p) (hk : k < nproc) (hl : s.plock k = none)
    (hu : (s.procs k).state = .unused) : (((s.hold k (some p)).make k (some p)).goto p (.forkPid k)).Inv := by
  have hplock : (s.hold k (some p)).plock k = some p := by simp
  refine h.step rfl ?_ ⟨{ ha with }, ?_⟩ fun q hq => ?_
  · refine (h.global.hold hl).make fun q hq => ?_
    exact ⟨hu, hplock.trans hq⟩
  · exact ⟨hk, by simp, hplock, hu, h.global.orphan k hu⟩
  · refine (Rely.hold hl).trans (.make fun hm => ?_)
    rcases h.global.maker k q hm with ⟨-, hm⟩ | hm
    · simp [hl] at hm
    · simp [hu] at hm

theorem Sys.Inv.forkNumber {y n} (h : s.Inv) (ha : s.Awake p) (hm : s.Making p k y)
    (hy : ¬Live y) (hx : Alike x (s.procs k)) (hp : 0 < x.pid) (hn : 0 < n)
    (hgood : (s.number k x n).Awake p → (s.number k x n).Making p k y → (s.number k x n).Good p a) :
    ((s.number k x n).goto p a).Inv := by
  have hne := hm.ne ha hy
  refine h.step rfl ?_ (hgood { ha.row hne with } ?_) fun q hq => ?_
  · exact h.global.refit (h.global.fits_alike hx fun _ => hp) hn (h.global.counted (by rw [hx.state]))
  · exact ⟨hm.lt, hm.maker, hm.plock, by simpa [hx.state] using hm.state, by simpa [hx.parent] using hm.parent⟩
  · refine { Rely.alike hx fun hl => ?_ with }
    rw [hm.plock] at hl
    exact absurd (Option.some.inj hl).symm hq

theorem Sys.Making.others {y} (hm : s.Making p k y) (hq : q ≠ p) :
    s.plock k ≠ some q ∧ s.maker k ≠ some q := by
  rw [hm.plock, hm.maker]
  exact ⟨fun h => hq (Option.some.inj h).symm, fun h => hq (Option.some.inj h).symm⟩

theorem Sys.Inv.forkUse {r} (h : s.Inv) (ha : s.Awake p) (hm : s.Making p k .unused) (hp : 0 < (s.procs k).pid)
    (hr : 0 < r) : ((s.row k { s.procs k with state := .used }).goto p (.forkStore k r)).Inv := by
  have hne := hm.ne ha not_live_unused
  refine h.step rfl ?_ ⟨ha.row hne, ⟨hm.lt, hm.maker, hm.plock, by simp, by simpa using hm.parent⟩, hr⟩ fun q hq => ?_
  · refine h.global.row ?_ (by simp [hm.state])
    constructor
    case lt => exact fun hk => absurd hm.lt (by omega)
    case live => exact fun hl => absurd (hm.state ▸ hl) not_live_unused
    case init => exact fun hk => absurd (hm.state ▸ hk ▸ h.global.init) not_live_unused
    case asleep =>
      intro hlt
      refine (h.global.asleep k hlt).imp_right fun hs => ?_
      simp [hm.state] at hs
    case lock => exact h.global.wakeInit
    all_goals simp_all [hm.parent]
  · obtain ⟨hpl, hmk⟩ := hm.others hq
    exact .put (fun _ => .inr (.inr ⟨hm.state ▸ not_live_unused, not_live_used, hpl⟩)) (fun hl => absurd hl hpl)
      (fun hl => absurd hl hmk) fun _ => ⟨rfl, by simp⟩

theorem Proc.build_ok {np par y al n} (h : np.build par al n = .ok y) :
    Alike y np ∧ y.pid = np.pid := by
  unfold Proc.build at h
  split at h
  · split at h
    · cases h
      exact ⟨⟨rfl, rfl, rfl⟩, rfl⟩
    · cases h
  · cases h
  · cases h

theorem Sys.Making.rested {y} (hm : s.Making p k y) (ha : s.Awake p) (hg : s.Global) (hy : ¬Live y) :
    ¬s.ended k < s.began k := by
  intro hlt
  rcases hg.asleep k hlt with hl | ⟨hs, -⟩
  · rw [hm.plock] at hl
    exact hm.ne ha hy (Option.some.inj hl).symm
  · exact hy (hm.state ▸ .inl hs)

section

variable (h : s.Inv) (ha : s.Awake p)
include h ha

theorem Sys.Inv.forkBuilt (hm : s.Making p k .used) (hx : Alike x (s.procs k))
    (hp : x.pid = (s.procs k).pid) : (((s.row k x).hold k none).goto p (.forkParent k)).Inv := by
  have hne := hm.ne ha not_live_used
  have hstate : ((s.row k x).procs k).state = .used := by simp [hx.state, hm.state]
  refine h.step rfl ?_ ⟨{ ha.row hne with }, hm.lt, hm.maker, hstate, by simp [hx.parent, hm.parent]⟩ fun q hq => ?_
  · have hpid : x.state ≠ .unused → 0 < x.pid := by
      rw [hx.state, hp]
      exact h.global.pid k
    refine (h.global.row (h.global.fits_alike hx hpid) (by rw [hx.state])).unhold (fun _ => hstate) fun hlt => ?_
    exact absurd hlt (hm.rested ha h.global not_live_used)
  · exact (Rely.alike hx fun _ => hp).trans (.unhold hm.plock hq)

theorem Sys.Inv.forkAbort (hm : s.Making p k .used) :
    ((((s.row k x.freeproc).make k none).hold k none).goto p .run).Inv := by
  have hne := hm.ne ha not_live_used
  have hrest := hm.rested ha h.global not_live_used
  refine h.step (a := .run) rfl ?_ { ha.row hne with } fun q hq => ?_
  · have hrow : (s.row k x.freeproc).Global := by
      refine h.global.row ?_ (by simp [hm.state, Proc.freeproc])
      constructor
      case maker => exact fun q hq => .inl ⟨rfl, by rw [hm.plock, ← hm.maker, hq]⟩
      case live => exact fun hl => absurd (hm.state ▸ hl) not_live_used
      case init => exact fun hk => absurd (hm.state ▸ hk ▸ h.global.init) not_live_used
      case asleep => exact fun hlt => absurd hlt hrest
      case lock => exact h.global.wakeInit
      all_goals simp [Proc.freeproc]
    refine (hrow.make (by simp)).unhold (by simp) fun hlt => absurd hlt hrest
  · obtain ⟨hpl, hmk⟩ := hm.others hq
    have hrow : Rely q s (s.row k x.freeproc) :=
      .put (fun _ => .inr (.inr ⟨hm.state ▸ not_live_used, not_live_unused, hpl⟩)) (absurd · hpl) (absurd · hmk)
        fun _ => ⟨hm.parent.symm, by simp [Proc.freeproc]⟩
    exact hrow.trans (.trans (t := (s.row k x.freeproc).make k none) (.make hmk) (.unhold hm.plock hq))

theorem Sys.Inv.forkParent (hm : s.Ready p k none) (hl : s.lock waitLock = none) :
    ((s.row k { s.procs k with parent := some p }).goto p (.forkReady k)).Inv := by
  have hne := hm.ne ha
  refine h.step rfl ?_ ⟨ha.row hne, hm.lt, hm.maker, by simpa using hm.state, by simp⟩ fun q hq => ?_
  · refine h.global.row ?_ Iff.rfl
    constructor
    case lt => exact h.global.outside k
    case maker => exact fun q hq => .inr hm.state
    case live => exact fun h1 h2 => absurd h1 h2
    case parent =>
      intro q _ hq
      cases hq
      exact .inr ha.live
    case loop =>
      intro hk
      cases hk
      exact ha.live
    case init => exact fun hk => hk ▸ h.global.init
    case asleep => exact h.global.asleep k
    case lock => exact h.global.wakeInit
    case pid => exact h.global.pid k
    all_goals simp [hm.state]
  · have hmk : s.maker k ≠ some q := by
      rw [hm.maker]
      exact fun h => hq (Option.some.inj h).symm
    exact .put (fun _ => .inl ⟨rfl, rfl⟩) (fun _ => ⟨rfl, rfl⟩) (absurd · hmk) (by simp [hl])

theorem Sys.Inv.forkReady (hm : s.Ready p k (some p)) (hl : s.plock k = none) :
    ((((s.make k none).row k { s.procs k with state := .runnable }).goto k .run).goto p .run).Inv := by
  have hne := hm.ne ha
  have hk : s.Good k .dead :=
    (h.good k).dead (hm.state ▸ not_live_used) (by simp [hm.state]) ▸ h.good k
  have hg : ((s.make k none).row k { s.procs k with state := .runnable }).Global := by
    have hnu : (s.procs k).state ≠ .unused := by simp [hm.state]
    have hmake := h.global.make (k := k) (o := none) (by simp)
    refine hmake.row (hmake.fits_live (by simp) hnu (.inr (.inl rfl)) rfl ?_ (h.global.pid k hnu) ?_) (by simp [hm.state])
    · simp [hm.parent]
    · exact fun hlt => absurd hlt (by simp [hk.2])
  refine ⟨hg.goto.goto, fun q => ?_⟩
  by_cases hqp : q = p
  · have hpc : ((((s.make k none).row k { s.procs k with state := .runnable }).goto k .run).goto p .run).pc q =
        .run := by simp [hqp]
    rw [hpc, hqp]
    exact ⟨by simpa [hne.symm] using ha.runs, ha.ended⟩
  by_cases hqk : q = k
  · have hpc : ((((s.make k none).row k { s.procs k with state := .runnable }).goto k .run).goto p .run).pc q =
        .run := by simp [hqk, hne]
    rw [hpc, hqk]
    exact ⟨by simp [Runs], hk.2⟩
  have hmk : s.maker k ≠ some q := by
    rw [hm.maker]
    exact fun h => hqp (Option.some.inj h).symm
  rw [Sys.goto_pc, update_of_ne hqp, Sys.goto_pc, update_of_ne hqk]
  refine (h.good q).rely (Rely.goto (Rely.goto (.trans (t := s.make k none) (.make hmk) ?_)))
  exact .put (fun h => absurd h.symm hqk) (by simp [hl]) (by simp) fun _ => ⟨rfl, by simp⟩

end

theorem Sys.startScan_scanning (hu : u.ended = s.ended) (hb : u.began = s.began) (hc : u.bchan = s.bchan) :
    u.Scanning (s.startScan p c) := by
  refine ⟨fun i hi => absurd hi (Nat.not_lt_zero i), fun i hi => ?_⟩
  rw [hu] at hi
  rw [hb, hc]
  simp only [Sys.startScan] at hi ⊢
  split at hi
  · rename_i hcond
    exact ⟨if_pos hcond, hcond.2.2⟩
  · omega

/-- 子を一つ `initproc` に渡し、`initproc` を起こし始める。 -/
theorem Sys.Inv.exitAdopt {st} (h : s.Inv) (ha : s.Awake p) (hh : s.Holding p) (hp : p ≠ initproc)
    (hs : ∀ i, i < k → (s.procs i).parent ≠ some p) (hk : (s.procs k).parent = some p) :
    ((s.adopt k).goto p (.wake (s.startScan p (procAddr initproc)) (.reparent st (k + 1)))).Inv := by
  have hstate : ∀ i, ((s.adopt k).procs i).state = (s.procs i).state := by
    intro i
    rw [Sys.adopt_procs]
    by_cases hik : i = k
    · simp [hik]
    · simp [hik]
  have hlive := h.global.parent k p hk
  refine h.step rfl ?_ ⟨⟨hstate p ▸ ha.runs, ha.ended⟩, startScan_scanning rfl rfl rfl, hh.lock, hp, rfl,
    fun _ => Nat.zero_le _, fun i hi => ?_⟩ fun q hq => ?_
  · refine h.global.refit (w := true) ?_ h.global.nextpid (h.global.counted (k := k) Iff.rfl)
    constructor
    case lt => exact h.global.outside k
    case maker => exact h.global.maker k
    case live => exact fun h1 h2 => absurd h1 h2
    case parent =>
      intro q _ hq
      cases hq
      exact .inr h.global.init
    case loop =>
      intro hq
      cases hq
      exact h.global.init
    case orphan => exact fun hu => absurd (h.global.orphan k hu) (by simp [hk])
    case init => exact fun hi => hi ▸ h.global.init
    case asleep => exact h.global.asleep k
    case lock => simp [hh.lock]
    case dozing =>
      intro P _ hP _
      cases hP
      exact ⟨rfl, rfl⟩
    case pid => exact h.global.pid k
    all_goals simp
  · rcases Nat.lt_succ_iff_lt_or_eq.mp hi with hi | rfl
    · simpa [Nat.ne_of_lt hi] using hs i hi
    · simpa using hp.symm
  have hrow : Rely q s (s.row k { s.procs k with parent := some initproc }) := by
    refine .put (fun _ => .inl ⟨rfl, rfl⟩) (fun _ => ⟨rfl, rfl⟩) (fun _ => ⟨rfl, fun hpar => ?_⟩) fun hl => ?_
    · simp [hk, hq.symm] at hpar
    · rw [hh.lock] at hl
      exact absurd (Option.some.inj hl).symm hq
  refine { hrow with lock := fun hl => ?_ }
  rw [hh.lock] at hl
  exact absurd (Option.some.inj hl).symm hq

theorem Sys.Global.maker_none (h : s.Global) (hp : Live (s.procs p).state ∨ (s.procs p).state = .zombie) :
    s.maker p = none := by
  cases hm : s.maker p with
  | none => rfl
  | some q =>
    rcases h.maker p q hm with ⟨hu, -⟩ | hu <;> rw [hu] at hp <;> simp [Live, Runs] at hp

/-- zombie になる時、`wait` で眠ったままの親はいない。 -/
theorem Sys.Inv.exitFinish {st} (h : s.Inv) (ha : s.Awake p) (hh : s.Holding p) (hp : p ≠ initproc)
    (hs : ∀ i, (s.procs i).parent ≠ some p) (hd : ∀ P, (s.procs p).parent = some P → ¬s.Dozing P)
    (hl : s.plock p = none) :
    ((((s.hold p (some p)).finish p st).own waitLock none).goto p .zombie).Inv := by
  have hmk := h.global.maker_none (.inl ha.live)
  refine h.step rfl ?_ ⟨by simp, by simp, ha.ended⟩ fun q hq => ?_
  · have hfin : ((s.hold p (some p)).finish p st).Global := by
      refine (h.global.hold hl).refit (w := s.wakeInit) ?_ h.global.nextpid fun i => ?_
      · constructor
        case live => exact fun _ _ => hs
        case parent => exact fun q _ hq => .inl hq
        case loop => exact fun hq => absurd hq (hs p)
        case adopted =>
          refine fun _ _ _ => h.global.adopted p ?_ ?_ hp <;>
            exact fun hu => absurd (hu ▸ ha.live) (by simp [Live, Runs])
        case asleep => exact fun hlt => absurd hlt (by simp [ha.ended])
        case lock => exact h.global.wakeInit
        case dozing => exact fun P hP hpar _ => absurd hP (hd P hpar)
        case pid => exact fun _ => h.global.pid p fun hu => not_live_unused (hu ▸ ha.live)
        case lt => exact fun hk => absurd (h.global.outside p hk ▸ ha.live) not_live_unused
        all_goals simp [hmk, hp]
      have hc := h.global.frees i
      by_cases hip : i = p
      · subst hip
        have hnz : (s.procs i).state ≠ .zombie := fun hz => not_live_zombie (hz ▸ ha.live)
        simpa [hnz] using hc
      · simpa [hip] using hc
    exact hfin.disown fun _ => hh.wakeInit
  have hrow : Rely q (s.hold p (some p)) ((s.hold p (some p)).row p
      { s.procs p with xstate := st, state := .zombie, etime := s.ticks }) := by
    refine .put (absurd ·.symm hq) (fun hpl => ?_) (by simp [hmk]) fun hlk => ?_
    · simp at hpl
      exact absurd hpl.symm hq
    · rw [Sys.hold_lock, hh.lock] at hlk
      exact absurd (Option.some.inj hlk).symm hq
  have hfin : Rely q (s.hold p (some p)) ((s.hold p (some p)).finish p st) := { hrow with }
  exact (Rely.hold hl).trans (hfin.trans (.disown (s := (s.hold p (some p)).finish p st) hh.lock hq))

theorem Sys.Inv.exitLeave (h : s.Inv) (hz : (s.procs p).state = .zombie) (hl : s.plock p = some p)
    (he : s.ended p = s.began p) : ((s.hold p none).goto p .dead).Inv := by
  refine h.step (a := .dead) rfl ?_ ⟨hz ▸ not_live_zombie, he⟩ fun q hq => .unhold hl hq
  exact h.global.unhold (by simp [h.global.maker_none (.inr hz)]) fun hlt => absurd hlt (by simp [he])

theorem Sys.Global.report {r} (h : s.Global) (hr : r.value = -1 → r.freed = none) : (s.report r).Global :=
  { h with
    waits := fun r' hr' hv => by
      rcases List.mem_append.mp hr' with hm | hm
      · exact h.waits r' hm hv
      · rw [List.mem_singleton.mp hm] at hv ⊢
        exact hr hv }

theorem Sys.Inv.waitFail {r} (h : s.Inv) (ha : s.Awake p) (hh : s.Holding p) (hr : r.freed = none) :
    (((s.own waitLock none).report r).goto p .run).Inv := by
  refine h.step (a := .run) rfl ?_ { ha with } fun q hq => { Rely.disown hh.lock hq with }
  exact (h.global.disown fun _ => hh.wakeInit).report fun _ => hr

theorem Sys.Inv.waitReap {out times} (h : s.Inv) (ha : s.Awake p)
    (hh : s.Holding p) (hl : s.plock k = none) (hpar : (s.procs k).parent = some p)
    (hz : (s.procs k).state = .zombie) :
    ((((s.reap k).own waitLock none).report ⟨p, (s.procs k).pid, some k, out, times⟩).goto p .run).Inv := by
  have hmk := h.global.maker_none (.inr hz)
  have hne : p ≠ k := by
    rintro rfl
    exact not_live_zombie (hz ▸ ha.live)
  refine h.step (a := .run) rfl ?_ ⟨by simpa [hne] using ha.runs, ha.ended⟩ fun q hq => ?_
  · have hreap : (s.reap k).Global := by
      refine h.global.refit (w := s.wakeInit) ?_ h.global.nextpid fun i => ?_
      · constructor
        case live => exact fun hlive => absurd (hz ▸ hlive) not_live_zombie
        case init => exact fun hk => absurd (hz ▸ hk ▸ h.global.init) not_live_zombie
        case asleep =>
          intro hlt
          rcases h.global.asleep k hlt with hp | ⟨hs, -⟩
          · simp [hl] at hp
          · simp [hz] at hs
        case lock => exact h.global.wakeInit
        all_goals simp [hmk, Proc.freeproc]
      · have hc := h.global.frees i
        by_cases hik : i = k
        · subst hik
          simpa [hz, Proc.freeproc] using hc
        · simpa [hik] using hc
    refine (hreap.disown fun _ => hh.wakeInit).report fun hv => ?_
    have := h.global.pid k (by simp [hz])
    simp only at hv
    omega
  have hrow : Rely q s (s.row k (s.procs k).freeproc) := by
    refine .put (fun _ => .inr (.inr ⟨hz ▸ not_live_zombie, not_live_unused, by simp [hl]⟩)) (by simp [hl])
      (by simp [hmk]) fun hlk => ?_
    rw [hh.lock] at hlk
    exact absurd (Option.some.inj hlk).symm hq
  have hreap : Rely q s (s.reap k) := { hrow with }
  exact { hreap.trans (.disown (s := s.reap k) hh.lock hq) with }

end Xv6.Ptable
