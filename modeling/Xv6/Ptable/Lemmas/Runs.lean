import Xv6.Ptable.Lemmas.Sleeps

/-!
# 割り込まれる呼び出しの列
-/

namespace Xv6.Ptable

open Xv6.Vm (ProcState nproc)
open Xv6.Lib

variable {s t : Sys} {p q k i l c : Nat}

theorem Sys.Inv.next {E} (h : s.Inv) (hn : s.next p E = some t) : t.Inv := by
  have hgood := h.good p
  rw [Sys.next] at hn
  generalize s.pc p = a at hn hgood
  cases a with
  | run | dead | asleep => cases hn
  | forkScan k =>
    dsimp only at hn
    split at hn
    · cases hn
      exact h.jump (a := .run) hgood
    rename_i hk
    split at hn
    · cases hn
    rename_i hl
    split at hn
    · cases hn
      exact h.forkTake hgood (by omega) (not_not.mp hl) ‹_›
    · cases hn
      exact h.jump (a := .forkScan (k + 1)) hgood
  | forkPid k =>
    dsimp only at hn
    obtain ⟨ha, hm⟩ := hgood
    split at hn
    · cases hn
      have hpid := h.global.nextpid
      refine h.forkNumber ha hm not_live_unused ⟨rfl, rfl, rfl⟩ hpid (by omega) fun ha hm => ⟨ha, hm, ?_⟩
      simpa using hpid
    · cases hn
  | forkLoad k =>
    dsimp only at hn
    obtain ⟨ha, hm, hp⟩ := hgood
    cases hn
    exact h.forkUse ha hm hp h.global.nextpid
  | forkStore k r =>
    dsimp only at hn
    obtain ⟨ha, hm, hr⟩ := hgood
    split at hn
    · cases hn
      exact h.forkNumber ha hm not_live_used ⟨rfl, rfl, rfl⟩ hr (by omega) fun ha hm => ⟨ha, hm⟩
    · cases hn
  | forkFill k =>
    dsimp only at hn
    obtain ⟨ha, hm⟩ := hgood
    split at hn
    · cases hn
      obtain ⟨hx, hp⟩ := Proc.build_ok ‹_›
      exact h.forkBuilt ha hm hx hp
    · cases hn
      exact h.forkAbort ha hm
  | forkParent k =>
    dsimp only at hn
    split at hn
    · cases hn
      exact h.forkParent hgood.1 hgood.2 ‹_›
    · cases hn
  | forkReady k =>
    dsimp only at hn
    split at hn
    · cases hn
      exact h.forkReady hgood.1 hgood.2 ‹_›
    · cases hn
  | exitLock st =>
    dsimp only at hn
    obtain ⟨ha, hp⟩ := hgood
    split at hn
    · rename_i hl
      cases hn
      refine h.step rfl h.global.own ⟨{ ha with }, ⟨by simp, h.global.wakeInit hl⟩, hp, fun i hi => ?_⟩ fun q _ =>
        .own hl
      exact absurd hi (Nat.not_lt_zero i)
    · cases hn
  | exitReparent st k =>
    dsimp only at hn
    obtain ⟨ha, hh, hp, hs⟩ := hgood
    have hlt : ∀ i, nproc ≤ i → (s.procs i).parent ≠ some p := fun i hi => by
      simp [h.global.orphan i (h.global.outside i hi)]
    split at hn
    · rename_i hk
      cases hn
      refine h.jump ⟨ha, startScan_scanning rfl rfl rfl, hh, hp, fun i => ?_, rfl, fun P _ hP =>
        absurd hP (Nat.not_lt_zero P)⟩
      exact (lt_or_ge i k).elim (hs i) fun hi => hlt i (hk.trans hi)
    split at hn
    · cases hn
      exact h.exitAdopt ha hh hp hs ‹_›
    rename_i hk
    cases hn
    refine h.jump ⟨ha, hh, hp, fun i hi => ?_⟩
    rcases Nat.lt_succ_iff_lt_or_eq.mp hi with hi | rfl
    · exact hs i hi
    · exact hk
  | exitZombie st =>
    dsimp only at hn
    obtain ⟨ha, hh, hp, hs, hd⟩ := hgood
    split at hn
    · cases hn
      exact h.exitFinish ha hh hp hs hd ‹_›
    · cases hn
  | zombie =>
    dsimp only at hn
    cases hn
    exact h.exitLeave hgood.1 hgood.2.1 hgood.2.2
  | waitLock w =>
    dsimp only at hn
    have ha : s.Awake p := hgood
    split at hn
    · rename_i hl
      cases hn
      refine h.step rfl h.global.own ⟨{ ha with }, ⟨by simp, h.global.wakeInit hl⟩, fun i hi => ?_⟩ fun q _ => .own hl
      exact absurd hi (Nat.not_lt_zero i)
    · cases hn
  | waitScan w k hk =>
    dsimp only at hn
    obtain ⟨ha, hh, hs⟩ := hgood
    split at hn
    · rename_i hkn
      cases hn
      refine h.jump ⟨ha, hh, fun i hi => ?_⟩
      rcases lt_or_ge i k with hik | hik
      · exact hs i hik hi
      · simp [h.global.outside i (hkn.trans hik)]
    split at hn
    · rename_i hpar
      split at hn
      · cases hn
      rename_i hl
      split at hn
      · rename_i hz
        split at hn
        · cases hn
          exact h.waitFail ha hh rfl
        · cases hn
          exact h.waitReap ha hh (not_not.mp hl) hpar hz
      rename_i hz
      cases hn
      refine h.jump ⟨ha, hh, fun i hi => ?_⟩
      rcases Nat.lt_succ_iff_lt_or_eq.mp hi with hi | rfl
      · exact hs i hi
      · exact fun _ => hz
    rename_i hpar
    cases hn
    refine h.jump ⟨ha, hh, fun i hi => ?_⟩
    rcases Nat.lt_succ_iff_lt_or_eq.mp hi with hi | rfl
    · exact hs i hi
    · exact fun hp => absurd hp hpar
  | waitTest w hk =>
    dsimp only at hn
    obtain ⟨ha, hh, hs⟩ := hgood
    split at hn
    · cases hn
    · split at hn
      · cases hn
        exact h.waitFail ha hh rfl
      · cases hn
        exact h.jump ⟨ha, rfl, rfl, hh, hs⟩
  | killScan pid k =>
    dsimp only at hn
    have ha : s.Awake p := hgood
    split at hn
    · cases hn
      exact h.jump (a := .run) ha
    split at hn
    · cases hn
    rename_i hl
    split at hn
    · cases hn
      have hr : ∀ q, Rely q s (s.rouse k (s.procs k).kill) := fun q =>
        .rouse h.global (s.procs k).kill_stirred (not_not.mp hl)
      exact h.step (a := .run) rfl (h.global.rouse (s.procs k).kill_stirred) (ha.rely (hr p)) fun q _ => hr q
    · cases hn
      exact h.jump (a := .killScan pid (k + 1)) ha
  | wake sc r =>
    dsimp only at hn
    obtain ⟨ha, hs, hr⟩ := hgood
    split at hn
    · cases hn
      exact h.wakeReturn ha hr ‹_›
    split at hn
    · cases hn
      exact h.wakeSkip ha hs hr ‹_›
    · split at hn
      · cases hn
      · rename_i hl
        cases hn
        exact h.wakeLook ha hs hr (not_not.mp hl)
  | sleepEnter c l r =>
    dsimp only at hn
    split at hn
    · cases hn
      exact h.sleepTake hgood.1 hgood.2 ‹_›
    · cases hn
  | sleepHeld c l r =>
    dsimp only at hn
    cases hn
    exact h.sleepDoze hgood.1 hgood.2.1 hgood.2.2
  | sleepFall c l r =>
    dsimp only at hn
    obtain ⟨hs, hl, hb, hc, hw, h0⟩ := hgood
    cases hn
    exact h.sleepFall hs hl hb hc hw h0
  | reacquire l r =>
    dsimp only at hn
    split at hn
    · cases hn
      exact h.sleepReturn hgood.1 hgood.2 ‹_›
    · cases hn

theorem Sys.Inv.act {a} (h : s.Inv) (ha : s.Awake p) (hn : s.act p a = some (.ok t)) : t.Inv := by
  cases a with
  | fork =>
    cases hn
    exact h.jump (a := .forkScan 0) ha
  | exit st =>
    simp only [Sys.act] at hn
    split at hn
    · cases hn
    · cases hn
      exact h.jump ⟨ha, ‹_›⟩
  | wait w =>
    cases hn
    exact h.jump (a := .waitLock w) ha
  | kill pid =>
    cases hn
    exact h.jump (a := .killScan pid 0) ha
  | wakeup c =>
    cases hn
    exact h.jump ⟨ha, startScan_scanning rfl rfl rfl, trivial⟩
  | sleep c l =>
    simp only [Sys.act] at hn
    split at hn
    · rename_i hl
      cases hn
      exact h.jump ⟨ha, hl.1⟩
    · cases hn
  | acquire l =>
    simp only [Sys.act] at hn
    split at hn
    · rename_i hl
      cases hn
      exact h.quiet rfl h.global.own fun q => .own hl.2
    · cases hn
  | release l =>
    simp only [Sys.act] at hn
    split at hn
    · rename_i hl
      cases hn
      refine h.quiet rfl (h.global.disown fun hw => absurd hw hl.1) fun q => ?_
      refine { (Rely.refl : Rely q s s) with lock := fun hlk => ?_ }
      exact ⟨by rwa [Sys.own_lock, update_of_ne hl.1.symm], fun _ => rfl, fun _ h => h, fun _ h => h,
        fun h => h⟩
    · cases hn
  | setkilled =>
    simp only [Sys.act] at hn
    split at hn
    · cases hn
      exact h.quiet rfl (h.global.row (h.global.fits_alike ⟨rfl, rfl, rfl⟩ (h.global.pid p)) Iff.rfl) fun q =>
        .alike ⟨rfl, rfl, rfl⟩ fun _ => rfl
    · cases hn

theorem step_next {E} (hn : Sys.step s (.next p E) = some (.ok t)) : s.next p E = some t := by
  simp only [Sys.step] at hn
  split at hn
  · cases ht : s.next p E with
    | none => simp [ht] at hn
    | some u => simpa [ht] using hn
  · cases hn

/-- どのスレッドのどの一歩も、不変条件を保つ。 -/
theorem Sys.Inv.machine {m} (h : s.Inv) (hn : Sys.step s m = some (.ok t)) : t.Inv := by
  cases m with
  | act p a =>
    simp only [Sys.step] at hn
    split at hn
    · rename_i hpc
      split at hn
      · refine h.act (p := p) ?_ hn
        have := h.good p
        rwa [hpc] at this
      · cases hn
    · cases hn
  | next p E => exact h.next (step_next hn)
  | schedule p =>
    simp only [Sys.step] at hn
    split at hn
    · rename_i hc
      obtain ⟨hp, hl, hs⟩ := hc
      have hruns : Runs (s.procs p).state := .inl hs
      split at hn
      · rename_i c l r hpc
        cases hn
        have hgood := h.good p
        rw [hpc] at hgood
        obtain ⟨h0, hg⟩ := hgood
        have hr : ∀ q, Rely q s (s.row p { s.procs p with state := .running, chan := 0 }) := fun q =>
          .turn h.global hruns (.inr rfl) rfl hl
        have ha : s.Awake p := by
          rcases hg with ⟨hg, -⟩ | ha
          · simp [hs] at hg
          · exact ha
        exact h.step rfl (h.global.turn hruns (.inr rfl) rfl rfl hl) ⟨ha.rely (hr p), h0⟩ fun q _ => hr q
      · cases hn
        exact h.quiet rfl (h.global.turn hruns (.inr rfl) rfl rfl hl) fun q => .turn h.global hruns (.inr rfl) rfl hl
    · cases hn
  | yield p =>
    simp only [Sys.step] at hn
    split at hn
    · rename_i hc
      obtain ⟨hp, hl, hs, -⟩ := hc
      have hruns : Runs (s.procs p).state := .inr hs
      cases hn
      exact h.quiet rfl (h.global.turn hruns (.inl rfl) rfl rfl hl) fun q => .turn h.global hruns (.inl rfl) rfl hl
    · cases hn
  | tick =>
    cases hn
    exact h.quiet rfl { h.global with } fun q => { (Rely.refl : Rely q s s) with }
  | charge k =>
    simp only [Sys.step] at hn
    split at hn
    · split at hn
      · cases hn
        exact h.quiet rfl (h.global.row (h.global.fits_alike ⟨rfl, rfl, rfl⟩ (h.global.pid k)) Iff.rfl) fun q =>
          .alike ⟨rfl, rfl, rfl⟩ fun _ => rfl
      · cases hn
        exact h
    · cases hn
  | poke k c =>
    simp only [Sys.step] at hn
    split at hn
    · rename_i hc
      cases hn
      exact h.quiet rfl (h.global.look hc.2) fun q => .look h.global hc.2
    · cases hn

theorem boot_inv (forkret tf pg root : Nat) : (Sys.boot forkret tf pg root).Inv := by
  obtain ⟨hother, -, -⟩ := boot_cases ⟨forkret, some tf, some pg, true⟩ root
  have hrow : ∀ i, i ≠ initproc → (Sys.boot forkret tf pg root).procs i = Proc.init i := hother
  have hinit : ((Sys.boot forkret tf pg root).procs initproc).state = .runnable := rfl
  have hparent : ∀ i, ((Sys.boot forkret tf pg root).procs i).parent = none := by
    intro i
    by_cases hi : i = initproc
    · subst hi
      rfl
    · rw [hrow i hi]
      rfl
  have hunused : ∀ i, i ≠ initproc → ((Sys.boot forkret tf pg root).procs i).state = .unused := by
    intro i hi
    rw [hrow i hi]
    rfl
  refine ⟨?_, fun q => ?_⟩
  · constructor
    case outside => exact fun i hi => hunused i (by rintro rfl; exact absurd hi (by decide))
    case init => exact .inr (.inl hinit)
    case adopted => exact fun i hu _ hi => absurd (hunused i hi) hu
    case frees =>
      intro i
      by_cases hi : i = initproc
      · subst hi
        rw [hinit]
        rfl
      · rw [hunused i hi]
        rfl
    case parent => simp [hparent]
    case orphan => exact fun i _ => hparent i
    case dozing => simp [hparent]
    case nextpid => exact (by decide : (0 : Int) < 3)
    case pid =>
      intro i hu
      by_cases hi : i = initproc
      · subst hi
        exact (by decide : (0 : Int) < 2)
      · exact absurd (hunused i hi) hu
    all_goals simp [Sys.boot]
  by_cases hq : q = initproc
  · subst hq
    exact ⟨.inl hinit, rfl⟩
  · have hpc : (Sys.boot forkret tf pg root).pc q = .dead := if_neg hq
    rw [hpc]
    exact ⟨by rw [hunused q hq]; exact not_live_unused, rfl⟩

theorem Sys.Inv.of_reaches {forkret tf pg root}
    (h : Machine.Reaches Sys.step (Sys.boot forkret tf pg root) s) : s.Inv :=
  h.inv Sys.Inv (boot_inv forkret tf pg root) fun _ _ _ hu hv => hu.machine hv

end Xv6.Ptable
