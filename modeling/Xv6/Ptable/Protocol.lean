import Xv6.Ptable.Lemmas.Traces

/-!
# 割り込まれる呼び出しの定理
-/

namespace Xv6.Ptable

open Xv6.Vm (ProcState nproc)
open Xv6.Lib

variable {s t : Sys} {p c forkret tf pg root : Nat}

/-! ## 親と子 -/

/-- 生まれたプロセスには終わっていない親がいる。終わったプロセスは、その親が一度だけ片付け、番号と終了値を返す。`-1` を返
すものは何も片付けない。 -/
theorem parent_child_protocol (h : Machine.Reaches Sys.step (Sys.boot forkret tf pg root) s) :
    (∀ i, i ≠ initproc → (s.procs i).state ≠ .unused → (s.procs i).state ≠ .used →
      ∃ q, (s.procs i).parent = some q ∧ (s.procs q).state ≠ .unused ∧ (s.procs q).state ≠ .zombie) ∧
    (∀ i, s.exits i = s.frees i + if (s.procs i).state = .zombie then 1 else 0) ∧
    (∀ m t i, Sys.step s m = some (.ok t) → (s.procs i).state = .zombie → (t.procs i).state ≠ .zombie →
      Reaped s m t i) ∧
    (∀ m t r, Sys.step s m = some (.ok t) → t.waits = s.waits ++ [r] → r.value = -1 →
      r.freed = none ∧ ∀ i, (s.procs i).state = .zombie → (t.procs i).state = .zombie) := by
  have hi := Sys.Inv.of_reaches h
  refine ⟨fun i hinit hu hd => ?_, hi.global.frees, fun m t i hn hz hg => reaped_of_gone hi hn hz hg,
    fun m t r hn hw hv => ?_⟩
  · obtain ⟨q, hq⟩ := Option.ne_none_iff_exists'.mp (hi.global.adopted i hu hd hinit)
    have hlive := hi.global.parent i q hq
    exact ⟨q, hq, fun hu => not_live_unused (hu ▸ hlive), fun hz => not_live_zombie (hz ▸ hlive)⟩
  have hfreed : r.freed = none := (hi.machine hn).global.waits r (by simp [hw]) hv
  refine ⟨hfreed, fun i hz => ?_⟩
  by_contra hg
  obtain ⟨p, E, w, hk, -, -, -, rfl⟩ := reaped_of_gone hi hn hz hg
  simp only [Sys.goto_waits, Sys.report_waits, Sys.own_waits, Sys.reap_waits, List.append_cancel_left_eq,
    List.cons.injEq, and_true] at hw
  rw [← hw] at hfreed
  cases hfreed

def plain : Env := ⟨⟨0, some 1, some 1, true⟩, true⟩

def Sys.Calm (s : Sys) (p : Nat) : Prop :=
  (s.procs p).state = .running ∧ s.wakeInit = false ∧ ∀ i, i < nproc →
    (s.procs i).parent ≠ some p ∧ s.plock i = none ∧ (s.procs i).state ≠ .sleeping

instance : DecidablePred (Sys.Calm · p) := fun s => by unfold Sys.Calm; infer_instance

theorem Sys.look_eq_self (hs : (s.procs p).state ≠ .sleeping) (hw : s.wakeInit = false) : s.look p c = s := by
  have hwake : (s.procs p).wake c = s.procs p := if_neg fun h => hs h.1
  have hn : ¬((s.procs p).state = .sleeping ∧ (s.procs p).state = .runnable) := fun h => hs h.1
  simp only [Sys.look, Sys.rouse, hwake, if_neg hn, update_eq_self, ← hw, ite_self]

theorem Sys.goto_goto {a b} : (s.goto p a).goto p b = s.goto p b := by
  simp only [Sys.goto, update_idem]

section

variable (h : s.Calm p) (hp : p < nproc)
include h hp

theorem Sys.Calm.next {a} (hn : (s.goto p a).next p plain = some t)
    {u} (hr : Machine.Reaches Sys.step t u) : Machine.Reaches Sys.step (s.goto p a) u := by
  refine .head (e := .next p plain) ?_ hr
  simp [Sys.step, hp, h.1, hn]

theorem Sys.Calm.wake {sc r} (n : Nat) (hn : nproc ≤ sc.k + n) :
    Machine.Reaches Sys.step (s.goto p (.wake sc r)) (s.goto p r.pc) := by
  induction n generalizing sc with
  | zero =>
    refine h.next (t := s.goto p r.pc) hp ?_ .refl
    simp [Sys.next, show sc.k ≥ nproc from hn, Sys.goto_goto]
  | succ n ih =>
    by_cases hk : sc.k ≥ nproc
    · refine h.next (t := s.goto p r.pc) hp ?_ .refl
      simp [Sys.next, hk, Sys.goto_goto]
    refine h.next (t := s.goto p (.wake { sc with k := sc.k + 1 } r)) hp ?_ (ih ?_)
    · obtain ⟨-, hl, hs⟩ := h.2.2 sc.k (not_le.mp hk)
      have hlook : (s.goto p (.wake sc r)).look sc.k sc.chan = s.goto p (.wake sc r) :=
        Sys.look_eq_self hs h.2.1
      simp [Sys.next, hk, hl, hlook, Sys.goto_goto]
    · show nproc ≤ sc.k + 1 + n
      omega

theorem Sys.Calm.exit {st} (n k : Nat) (hn : nproc ≤ k + n) :
    Machine.Reaches Sys.step (s.goto p (.exitReparent st k)) (s.goto p (.exitZombie st)) := by
  induction n generalizing k with
  | zero =>
    refine h.next (t := s.goto p (.wake (s.startScan p (s.procs p).parentAddr) (.zombie st))) hp ?_
      (h.wake hp nproc (Nat.le_add_left ..))
    simp [Sys.next, show k ≥ nproc from hn, Sys.goto_goto, Sys.startScan]
  | succ n ih =>
    by_cases hk : k ≥ nproc
    · refine h.next (t := s.goto p (.wake (s.startScan p (s.procs p).parentAddr) (.zombie st))) hp ?_
        (h.wake hp nproc (Nat.le_add_left ..))
      simp [Sys.next, hk, Sys.goto_goto, Sys.startScan]
    · refine h.next (t := s.goto p (.exitReparent st (k + 1))) hp ?_ (ih (k + 1) (by omega))
      simp [Sys.next, hk, (h.2.2 k (not_le.mp hk)).1, Sys.goto_goto]

end

def Pc.isRun : Pc → Bool
  | .run => true
  | _ => false

def Sys.canExit (s : Sys) (p : Nat) : Bool :=
  (s.pc p).isRun && s.lock waitLock = none && s.Calm p

def Sys.exiting (s : Sys) (p : Nat) (st : Int) : Sys := (s.own waitLock (some p)).goto p (.exitZombie st)

theorem Sys.reaches_exiting (st : Int) (hp : p < nproc) (hi : p ≠ initproc) (h : s.canExit p = true) :
    Machine.Reaches Sys.step s (s.exiting p st) := by
  simp only [Sys.canExit, Bool.and_eq_true, decide_eq_true_eq] at h
  obtain ⟨⟨hpc, hl⟩, hc⟩ := h
  have hrun : s.pc p = .run := by
    unfold Pc.isRun at hpc
    split at hpc
    · assumption
    · cases hpc
  have hown : (s.own waitLock (some p)).Calm p := hc
  refine .head (e := .act p (.exit st)) (u := s.goto p (.exitLock st)) (by simp [Sys.step, Sys.act, hrun, hp, hc.1, hi]) ?_
  refine hc.next (t := (s.own waitLock (some p)).goto p (.exitReparent st 0)) hp ?_
    (hown.exit hp nproc 0 (Nat.le_add_left ..))
  simp [Sys.next, hl, Sys.goto, Sys.own]

theorem exists_after_exit {es fs f st} (hp : p < nproc) (hi : p ≠ initproc)
    (h : ((Machine.final Sys.step s es).canExit p &&
      Machine.test Sys.step (fun _ _ => true) ((Machine.final Sys.step s es).exiting p st) f fs) = true) :
    ∃ t, Machine.Reaches Sys.step s t ∧ f t = true := by
  obtain ⟨hexit, hrun⟩ := (Bool.and_eq_true ..).mp h
  obtain ⟨t, ht, hf⟩ := Machine.reachesBy_of_test hrun
  exact ⟨t, (Machine.reaches_final es).trans ((Sys.reaches_exiting st hp hi hexit).trans ht.reaches), hf⟩

def forkChild : List Move :=
  List.flatten [[.schedule 0, .act 0 .fork], .replicate 8 (.next 0 plain), [.schedule 1]]

def leaveWait : List Move :=
  [.next 1 plain, .next 1 plain, .act 0 (.wait ⟨false, true⟩), .next 0 plain, .next 0 plain]

def Sys.after (s : Sys) (m : Move) (f : Sys → Bool) : Bool :=
  match Sys.step s m with
  | some (.ok t) => f t
  | _ => false

theorem Sys.of_after {m f} (h : s.after m f = true) :
    ∃ t, Sys.step s m = some (.ok t) ∧ f t = true := by
  unfold Sys.after at h
  split at h
  · exact ⟨_, ‹_›, h⟩
  · cases h

theorem leaveWait_test : ((Machine.final Sys.step (Sys.boot 0 1 1 1) forkChild).canExit 1 &&
    Machine.test Sys.step (fun _ _ => true) ((Machine.final Sys.step (Sys.boot 0 1 1 1) forkChild).exiting 1 7)
      (fun s => (s.procs 1).state = .zombie && s.after (.next 0 plain) fun t => (t.procs 1).state ≠ .zombie)
      leaveWait) = true := by
  decide +kernel

theorem parent_child_protocol_reaped :
    ∃ s t, Machine.Reaches Sys.step (Sys.boot 0 1 1 1) s ∧ Sys.step s (.next 0 plain) = some (.ok t) ∧
      (s.procs 1).state = .zombie ∧ (t.procs 1).state ≠ .zombie ∧ Reaped s (.next 0 plain) t 1 := by
  obtain ⟨s, hr, hf⟩ := exists_after_exit (by decide) (by decide) leaveWait_test
  simp only [Bool.and_eq_true, decide_eq_true_eq] at hf
  obtain ⟨t, hst, ht⟩ := Sys.of_after hf.2
  simp only [decide_eq_true_eq] at ht
  exact ⟨s, t, hr, hst, hf.1, ht, (parent_child_protocol hr).2.2.1 _ t 1 hst hf.1 ht⟩

/-! ## 眠り -/

/-- `p` が `s` で始めた `wakeup(c)` が、`t` で表を見終えて戻るところである。 -/
def Sys.Wakes (s : Sys) (p c : Nat) (t : Sys) : Prop :=
  ∃ m u r sc r', (∀ sc r, s.pc p ≠ .wake sc r) ∧ Sys.step s m = some (.ok u) ∧
    u.pc p = .wake (s.startScan p c) r ∧
    Machine.ReachesBy Sys.step (fun v _ => ∃ sc r, v.pc p = .wake sc r) u t ∧ t.pc p = .wake sc r' ∧ nproc ≤ sc.k

/-- `wakeup` が始まったときに、渡されたロックを手放して `c` で眠っていた眠りは、それが戻るときには終わっている。
`wait_lock` が空いていれば、終わった子を持つプロセスが `wait` の中で眠っていることはない。 -/
theorem no_lost_wakeup (h : Machine.Reaches Sys.step (Sys.boot forkret tf pg root) s) :
    (∀ p c t i, s.Wakes p c t → i < nproc → i ≠ p → s.ended i < s.began i → s.bchan i = c →
      s.began i ≤ t.ended i) ∧
    (s.lock waitLock = none → ∀ P c l w i, s.pc P = .asleep c l (.wait w) → (s.procs P).state = .sleeping →
      (s.procs i).parent = some P → (s.procs i).state ≠ .zombie) := by
  have hi := Sys.Inv.of_reaches h
  refine ⟨?_, fun hl P c l w i hpc hs hpar hz => ?_⟩
  · rintro p c t i ⟨m, u, r, sc, r', -, hm, hu, hrun, hpc, hk⟩ hin hip hlt hc
    have hdue : t.Inv ∧ ∀ sc r, t.pc p = .wake sc r → sc.due = (s.startScan p c).due := by
      refine hrun.inv (fun v => v.Inv ∧ ∀ sc r, v.pc p = .wake sc r → sc.due = (s.startScan p c).due)
        ⟨hi.machine hm, fun sc r hv => ?_⟩ ?_
      · rw [hu] at hv
        cases hv
        rfl
      rintro v e v' ⟨hv, hd⟩ ⟨sc, r, hpv⟩ hstep
      refine ⟨hv.machine hstep, fun sc' r' hpv' => ?_⟩
      rcases step_wake hv hstep hpv with ⟨k, -, hk⟩ | ⟨-, hk⟩
      · rw [hk] at hpv'
        cases hpv'
        exact hd sc r hpv
      · rw [hk] at hpv'
        cases r <;> cases hpv'
    have hgood := hdue.1.good p
    rw [hpc] at hgood
    have hpassed := hgood.2.1.passed i (lt_of_lt_of_le hin hk)
    rw [hdue.2 sc r' hpc] at hpassed
    simpa [Sys.startScan, hip, hlt, hc] using hpassed
  have hgood := hi.good P
  rw [hpc] at hgood
  rcases hgood.2 with ⟨-, -, hb, -, hw⟩ | ha
  · have hd : s.Dozing P := ⟨hw.mpr (by simp), by omega⟩
    have := (hi.global.dozing P i hd hpar hz).2
    rw [hi.global.wakeInit hl] at this
    cases this
  · exact not_runs_sleeping (hs ▸ ha.runs)

def forkSleep : List Move :=
  List.flatten [forkChild, [.act 1 (.acquire 5), .act 1 (.sleep 9 5), .next 1 plain, .next 1 plain]]

def Pc.isWake : Pc → Bool
  | .wake _ _ => true
  | _ => false

def Pc.wakeDone : Pc → Bool
  | .wake sc _ => nproc ≤ sc.k
  | _ => false

theorem forkSleep_test : Machine.test Sys.step (fun _ _ => true) (Sys.boot 0 1 1 1)
    (fun s => (s.ended 1 < s.began 1 && s.bchan 1 = 9) && s.after (.act 0 (.wakeup 9)) fun u =>
      Machine.test Sys.step (fun v _ => (v.pc 0).isWake) u (fun t => (t.pc 0).wakeDone)
        (.next 1 plain :: List.replicate 64 (.next 0 plain))) forkSleep = true := by
  decide +kernel

theorem wakeup_started {u} (h : Sys.step s (.act p (.wakeup c)) = some (.ok u)) :
    s.pc p = .run ∧ u.pc p = .wake (s.startScan p c) .run := by
  simp only [Sys.step, Sys.act] at h
  split at h
  · split at h
    · cases h
      exact ⟨‹_›, by simp⟩
    · cases h
  · cases h

theorem no_lost_wakeup_sleeper :
    ∃ s t, Machine.Reaches Sys.step (Sys.boot 0 1 1 1) s ∧ s.Wakes 0 9 t ∧ s.ended 1 < s.began 1 ∧ s.bchan 1 = 9 ∧
      s.began 1 ≤ t.ended 1 := by
  obtain ⟨s, hs, hf⟩ := Machine.reachesBy_of_test forkSleep_test
  simp only [Bool.and_eq_true, decide_eq_true_eq] at hf
  obtain ⟨⟨hlt, hc⟩, hu⟩ := hf
  obtain ⟨u, hstep, hu⟩ := Sys.of_after hu
  obtain ⟨t, ht, hdone⟩ := Machine.reachesBy_of_test hu
  obtain ⟨hrun, hpc⟩ := wakeup_started hstep
  have hw : s.Wakes 0 9 t := by
    have hbusy : Machine.ReachesBy Sys.step (fun v _ => ∃ sc r, v.pc 0 = .wake sc r) u t :=
      ht.weaken (fun _ => True) trivial (fun _ _ _ _ _ _ => trivial) fun v _ _ hv => by
        simp only [Pc.isWake] at hv
        split at hv
        · exact ⟨_, _, ‹_›⟩
        · cases hv
    simp only [Pc.wakeDone] at hdone
    split at hdone
    · exact ⟨_, u, _, _, _, by simp [hrun], hstep, hpc, hbusy, ‹_›, by simpa using hdone⟩
    · cases hdone
  exact ⟨s, t, hs.reaches, hw, hlt, hc, (no_lost_wakeup hs.reaches).1 0 9 t 1 hw (by decide) (by decide) hlt hc⟩

/-! ## 番号 -/

/-- `nextpid++` の読み書きの間にほかの CPU が `nextpid` を変えなければ、使われている番号は互いに異なる。 -/
theorem pids_distinct (h : Machine.ReachesBy Sys.step Sys.Undisturbed (Sys.boot forkret tf pg root) s) :
    ∀ i j, (s.procs i).state ≠ .unused → (s.procs j).state ≠ .unused → (s.procs i).pid = (s.procs j).pid → i = j := by
  intro i j hi _ hij
  have hinv : s.Inv ∧ s.Apart :=
    h.inv (fun s => s.Inv ∧ s.Apart) ⟨boot_inv forkret tf pg root, boot_apart forkret tf pg root⟩
      fun _ _ _ hu hc hv => ⟨hu.1.machine hv, hu.2.machine hu.1 hc hv⟩
  exact hinv.2.apart i j hij (ne_of_gt (hinv.1.global.pid i hi))

def forkTwice : List Move :=
  List.flatten [forkChild, [.act 1 .fork], .replicate 9 (.next 1 plain)]

def Sys.undisturbed (s : Sys) : Move → Bool
  | .next p _ => (List.range nproc).all fun q => q = p ||
      match s.pc q with
      | .forkStore _ _ => false
      | _ => true
  | _ => true

theorem Sys.Inv.undisturbed {m} (h : s.Inv) (hm : s.undisturbed m = true) : s.Undisturbed m := by
  cases m with
  | next p E =>
    intro _ q k r hq hpc
    have hg := h.good q
    rw [hpc] at hg
    have hlt : q < nproc := by
      by_contra hn
      exact not_live_unused (h.global.outside q (not_lt.mp hn) ▸ hg.1.live)
    simp only [Sys.undisturbed, List.all_eq_true, List.mem_range] at hm
    have := hm q hlt
    simp [hq, hpc] at this
  | _ => trivial

theorem forkTwice_test : Machine.test Sys.step Sys.undisturbed (Sys.boot 0 1 1 1)
    (fun s => (s.procs 1).state ≠ .unused && (s.procs 2).state ≠ .unused) forkTwice = true := by
  decide +kernel

theorem pids_distinct_grandchild :
    ∃ s, Machine.ReachesBy Sys.step Sys.Undisturbed (Sys.boot 0 1 1 1) s ∧ (s.procs 1).state ≠ .unused ∧
      (s.procs 2).state ≠ .unused ∧ (s.procs 1).pid ≠ (s.procs 2).pid := by
  obtain ⟨s, hs, hf⟩ := Machine.reachesBy_of_test forkTwice_test
  simp only [Bool.and_eq_true, decide_eq_true_eq] at hf
  have hu := hs.weaken Sys.Inv (boot_inv 0 1 1 1) (fun _ _ _ hu _ hv => hu.machine hv) fun _ _ hu => hu.undisturbed
  exact ⟨s, hu, hf.1, hf.2, fun hp => absurd (pids_distinct hu 1 2 hf.1 hf.2 hp) (by decide)⟩

def forkPair : List Move :=
  List.flatten [forkChild, [.act 0 .fork], .replicate 9 (.next 0 plain), [.schedule 2]]

/-- 一人目の `fork` が通り過ぎた後に、親がその欄を片付けて使い直す。二つの `fork` が `nextpid` を読んでから書く。 -/
def forkRace : List Move :=
  List.flatten [[.next 2 plain, .next 2 plain, .act 1 .fork], .replicate 3 (.next 1 plain),
    [.act 0 (.wait ⟨false, false⟩)], .replicate 4 (.next 0 plain), [.act 0 .fork], .replicate 3 (.next 0 plain),
    [.next 1 plain, .next 0 plain, .next 1 plain, .next 0 plain, .next 1 plain, .next 0 plain, .next 1 plain]]

theorem forkRace_test : ((Machine.final Sys.step (Sys.boot 0 1 1 1) forkPair).canExit 2 &&
    Machine.test Sys.step (fun _ _ => true) ((Machine.final Sys.step (Sys.boot 0 1 1 1) forkPair).exiting 2 0)
      (fun s => ((s.procs 2).state ≠ .unused && (s.procs 3).state ≠ .unused) && (s.procs 2).pid = (s.procs 3).pid)
      forkRace) = true := by
  decide +kernel

theorem racing_forks_share_pid :
    ∃ s, Machine.Reaches Sys.step (Sys.boot 0 1 1 1) s ∧ (s.procs 2).state ≠ .unused ∧
      (s.procs 3).state ≠ .unused ∧ (s.procs 2).pid = (s.procs 3).pid := by
  obtain ⟨s, hr, hf⟩ := exists_after_exit (by decide) (by decide) forkRace_test
  simp only [Bool.and_eq_true, decide_eq_true_eq] at hf
  exact ⟨s, hr, hf.1.1, hf.1.2, hf.2⟩

end Xv6.Ptable
