import Xv6.Ptable.Threads
import Xv6.Ptable.Lemmas.Pids

/-!
# 割り込まれる呼び出しの不変条件
-/

namespace Xv6.Ptable

open Xv6.Vm (ProcState nproc)
open Xv6.Lib

variable {s t : Sys} {p q k i : Nat}

def Runs (x : ProcState) : Prop := x = .runnable ∨ x = .running

def Live (x : ProcState) : Prop := x = .sleeping ∨ Runs x

theorem not_runs_sleeping : ¬Runs .sleeping := by simp [Runs]

theorem not_live_unused : ¬Live .unused := by simp [Live, Runs]

theorem not_live_used : ¬Live .used := by simp [Live, Runs]

theorem not_live_zombie : ¬Live .zombie := by simp [Live, Runs]

def Sys.Dozing (s : Sys) (i : Nat) : Prop := s.bwait i = true ∧ s.ended i < s.began i

structure Sys.Awake (s : Sys) (q : Nat) : Prop where
  runs : Runs (s.procs q).state
  ended : s.ended q = s.began q

structure Sys.Making (s : Sys) (q k : Nat) (x : ProcState) : Prop where
  lt : k < nproc
  maker : s.maker k = some q
  plock : s.plock k = some q
  state : (s.procs k).state = x
  parent : (s.procs k).parent = none

structure Sys.Ready (s : Sys) (q k : Nat) (o : Option Nat) : Prop where
  lt : k < nproc
  maker : s.maker k = some q
  state : (s.procs k).state = .used
  parent : (s.procs k).parent = o

/-- `wait_lock` を持ち、渡した子の分の `initproc` を起こし終えている。 -/
structure Sys.Holding (s : Sys) (q : Nat) : Prop where
  lock : s.lock waitLock = some q
  wakeInit : s.wakeInit = false

/-- 途中の `wakeup` が見終えた欄の眠りは終わっている。 -/
structure Sys.Scanning (s : Sys) (sc : Scan) : Prop where
  passed : ∀ i, i < sc.k → sc.due i ≤ s.ended i
  ahead : ∀ i, s.ended i < sc.due i → sc.due i = s.began i ∧ s.bchan i = sc.chan

def Sys.WakeOk (s : Sys) (q : Nat) (sc : Scan) : WakeRet → Prop
  | .run => True
  | .reparent _ k =>
    s.lock waitLock = some q ∧ q ≠ initproc ∧ sc.chan = procAddr initproc ∧
      (s.wakeInit = true → sc.k ≤ initproc) ∧ ∀ i, i < k → (s.procs i).parent ≠ some q
  | .zombie _ =>
    s.Holding q ∧ q ≠ initproc ∧ (∀ i, (s.procs i).parent ≠ some q) ∧ sc.chan = (s.procs q).parentAddr ∧
      ∀ P, (s.procs q).parent = some P → P < sc.k → ¬s.Dozing P

def Sys.SleepOk (s : Sys) (q c l : Nat) : SleepRet → Prop
  | .run => l ≠ waitLock
  | .wait _ =>
    l = waitLock ∧ c = procAddr q ∧ s.Holding q ∧ ∀ i, (s.procs i).parent = some q → (s.procs i).state ≠ .zombie

def Sys.Good (s : Sys) (q : Nat) : Pc → Prop
  | .run | .forkScan _ | .waitLock _ | .killScan _ _ => s.Awake q
  | .dead => ¬Live (s.procs q).state ∧ s.ended q = s.began q
  | .forkPid k => s.Awake q ∧ s.Making q k .unused
  | .forkLoad k => s.Awake q ∧ s.Making q k .unused ∧ 0 < (s.procs k).pid
  | .forkStore k r => s.Awake q ∧ s.Making q k .used ∧ 0 < r
  | .forkFill k => s.Awake q ∧ s.Making q k .used
  | .forkParent k => s.Awake q ∧ s.Ready q k none
  | .forkReady k => s.Awake q ∧ s.Ready q k (some q)
  | .exitLock _ => s.Awake q ∧ q ≠ initproc
  | .exitReparent _ k =>
    s.Awake q ∧ s.Holding q ∧ q ≠ initproc ∧ ∀ i, i < k → (s.procs i).parent ≠ some q
  | .exitZombie _ =>
    s.Awake q ∧ s.Holding q ∧ q ≠ initproc ∧ (∀ i, (s.procs i).parent ≠ some q) ∧
      ∀ P, (s.procs q).parent = some P → ¬s.Dozing P
  | .zombie => (s.procs q).state = .zombie ∧ s.plock q = some q ∧ s.ended q = s.began q
  | .waitScan _ k _ =>
    s.Awake q ∧ s.Holding q ∧ ∀ i, i < k → (s.procs i).parent = some q → (s.procs i).state ≠ .zombie
  | .waitTest _ _ =>
    s.Awake q ∧ s.Holding q ∧ ∀ i, (s.procs i).parent = some q → (s.procs i).state ≠ .zombie
  | .wake sc r => s.Awake q ∧ s.Scanning sc ∧ s.WakeOk q sc r
  | .sleepEnter c l r => s.Awake q ∧ s.SleepOk q c l r
  | .sleepHeld c l r => s.Awake q ∧ s.plock q = some q ∧ s.SleepOk q c l r
  | .sleepFall c l r =>
    Runs (s.procs q).state ∧ s.plock q = some q ∧ s.began q = s.ended q + 1 ∧ s.bchan q = c ∧
      (s.bwait q = true ↔ r ≠ .run) ∧ (r ≠ .run → l = waitLock)
  | .asleep c l r =>
    (r ≠ .run → l = waitLock) ∧
      (((s.procs q).state = .sleeping ∧ (s.procs q).chan = c ∧ s.began q = s.ended q + 1 ∧ s.bchan q = c ∧
          (s.bwait q = true ↔ r ≠ .run)) ∨
        s.Awake q)
  | .reacquire l r => s.Awake q ∧ (r ≠ .run → l = waitLock)

structure Sys.Global (s : Sys) : Prop where
  outside : ∀ i, nproc ≤ i → (s.procs i).state = .unused
  maker : ∀ k q, s.maker k = some q →
    ((s.procs k).state = .unused ∧ s.plock k = some q) ∨ (s.procs k).state = .used
  parent : ∀ i q, (s.procs i).parent = some q → Live (s.procs q).state
  orphan : ∀ i, (s.procs i).state = .unused → (s.procs i).parent = none
  adopted : ∀ i, (s.procs i).state ≠ .unused → (s.procs i).state ≠ .used → i ≠ initproc →
    (s.procs i).parent ≠ none
  init : Live (s.procs initproc).state
  ended : ∀ i, s.ended i ≤ s.began i
  asleep : ∀ i, s.ended i < s.began i →
    s.plock i = some i ∨ ((s.procs i).state = .sleeping ∧ (s.procs i).chan = s.bchan i)
  bwait : ∀ i, s.bwait i = true → s.bchan i = procAddr i
  wakeInit : s.lock waitLock = none → s.wakeInit = false
  dozing : ∀ P c, s.Dozing P → (s.procs c).parent = some P → (s.procs c).state = .zombie →
    P = initproc ∧ s.wakeInit = true
  frees : ∀ i, s.exits i = s.frees i + if (s.procs i).state = .zombie then 1 else 0
  nextpid : 0 < s.nextpid
  pid : ∀ i, (s.procs i).state ≠ .unused → 0 < (s.procs i).pid
  waits : ∀ r ∈ s.waits, r.value = -1 → r.freed = none

/-- ほかのプロセスの一歩による欄の変わり方。`b` は始めた眠りの数、`e` と `e'` は終わった眠りの数、`held` は自分の
`p->lock` を持つことである。 -/
inductive RowRely (x y : Proc) (b e e' : Nat) (held : Prop) : Prop
  | same (state : y.state = x.state) (chan : y.chan = x.chan) (ended : e' = e)
  | run (before : Runs x.state) (after : Runs y.state) (ended : e' = e)
  | woken (before : x.state = .sleeping) (after : Runs y.state) (ended : e' = b)
  | dead (before : ¬Live x.state) (after : ¬Live y.state) (free : ¬held) (ended : e' = e)

structure Rely (q : Nat) (s t : Sys) : Prop where
  row : RowRely (s.procs q) (t.procs q) (s.began q) (s.ended q) (t.ended q) (s.plock q = some q)
  slept : t.began q = s.began q ∧ t.bchan q = s.bchan q ∧ t.bwait q = s.bwait q
  plock : ∀ k, s.plock k = some q → t.plock k = some q ∧ (t.procs k).state = (s.procs k).state ∧
    (t.procs k).pid = (s.procs k).pid
  maker : ∀ k, s.maker k = some q → t.maker k = some q ∧ (t.procs k).state = (s.procs k).state ∧
    ((s.procs k).parent = none ∨ (s.procs k).parent = some q → (t.procs k).parent = (s.procs k).parent)
  lock : s.lock waitLock = some q → t.lock waitLock = some q ∧
    (∀ i, (t.procs i).parent = (s.procs i).parent) ∧
    (∀ i, (t.procs i).state = .zombie → (s.procs i).state = .zombie) ∧
    (∀ i, t.Dozing i → s.Dozing i) ∧ (t.wakeInit = true → s.wakeInit = true)
  scan : ∀ i, s.ended i ≤ t.ended i ∧
    (t.ended i < s.began i → t.began i = s.began i ∧ t.bchan i = s.bchan i)

theorem Sys.Awake.rely (h : s.Awake q) (hr : Rely q s t) : t.Awake q := by
  have hb := hr.slept.1
  cases hr.row with
  | same h1 h2 h3 => exact ⟨h1 ▸ h.runs, by rw [h3, h.ended, hb]⟩
  | run h1 h2 h3 => exact ⟨h2, by rw [h3, h.ended, hb]⟩
  | woken h1 h2 h3 => exact ⟨h2, by rw [h3, hb]⟩
  | dead h1 => exact absurd (.inr h.runs) h1

theorem Sys.Making.rely {x} (h : s.Making q k x) (hr : Rely q s t) : t.Making q k x where
  lt := h.lt
  maker := (hr.maker k h.maker).1
  plock := (hr.plock k h.plock).1
  state := (hr.plock k h.plock).2.1.trans h.state
  parent := ((hr.maker k h.maker).2.2 (.inl h.parent)).trans h.parent

theorem Sys.Ready.rely {o} (ho : o = none ∨ o = some q) (h : s.Ready q k o) (hr : Rely q s t) :
    t.Ready q k o where
  lt := h.lt
  maker := (hr.maker k h.maker).1
  state := (hr.maker k h.maker).2.1.trans h.state
  parent := ((hr.maker k h.maker).2.2 (by rwa [h.parent])).trans h.parent

theorem Sys.Holding.rely (h : s.Holding q) (hr : Rely q s t) : t.Holding q := by
  obtain ⟨hl, -, -, -, hw⟩ := hr.lock h.lock
  refine ⟨hl, ?_⟩
  cases ht : t.wakeInit with
  | false => rfl
  | true => rw [← hw ht, h.wakeInit]

section

variable (hr : Rely q s t) (hl : s.lock waitLock = some q)
include hr hl

theorem Rely.notChild (h : (s.procs i).parent ≠ some q) :
    (t.procs i).parent ≠ some q := by
  rwa [(hr.lock hl).2.1 i]

theorem Rely.notZombie (h : (s.procs i).parent = some q → (s.procs i).state ≠ .zombie) :
    (t.procs i).parent = some q → (t.procs i).state ≠ .zombie := by
  intro hp hz
  rw [(hr.lock hl).2.1 i] at hp
  exact h hp ((hr.lock hl).2.2.1 i hz)

theorem Rely.notDozing {P}
    (h : (s.procs q).parent = some P → ¬s.Dozing P) : (t.procs q).parent = some P → ¬t.Dozing P := by
  intro hp hd
  rw [(hr.lock hl).2.1 q] at hp
  exact h hp ((hr.lock hl).2.2.2.1 P hd)

end

theorem Sys.Scanning.rely {sc} (h : s.Scanning sc) (hr : Rely q s t) : t.Scanning sc := by
  refine ⟨fun i hi => (h.passed i hi).trans (hr.scan i).1, fun i hi => ?_⟩
  obtain ⟨hd, hc⟩ := h.ahead i (lt_of_le_of_lt (hr.scan i).1 hi)
  obtain ⟨hb, hbc⟩ := (hr.scan i).2 (hd ▸ hi)
  exact ⟨hd.trans hb.symm, hbc.trans hc⟩

theorem Sys.WakeOk.rely {sc r} (h : s.WakeOk q sc r) (hr : Rely q s t) : t.WakeOk q sc r := by
  cases r with
  | run => trivial
  | reparent st k =>
    obtain ⟨hl, hq, hc, hw, hk⟩ := h
    exact ⟨(hr.lock hl).1, hq, hc, fun ht => hw ((hr.lock hl).2.2.2.2 ht), fun i hi => hr.notChild hl (hk i hi)⟩
  | zombie st =>
    obtain ⟨hh, hq, hk, hc, hd⟩ := h
    refine ⟨hh.rely hr, hq, fun i => hr.notChild hh.lock (hk i), ?_, fun P hP hlt => ?_⟩
    · rw [hc, Proc.parentAddr, Proc.parentAddr, (hr.lock hh.lock).2.1 q]
    · exact hr.notDozing hh.lock (fun hP => hd P hP hlt) hP

theorem Sys.SleepOk.rely {c l r} (h : s.SleepOk q c l r) (hr : Rely q s t) :
    t.SleepOk q c l r := by
  cases r with
  | run => exact h
  | wait w =>
    obtain ⟨hl, hc, hh, hk⟩ := h
    exact ⟨hl, hc, hh.rely hr, fun i => hr.notZombie hh.lock (hk i)⟩

/-- 他のスレッドの一歩は、自分の位置の条件を崩さない。 -/
theorem Sys.Good.rely {a} (h : s.Good q a) (hr : Rely q s t) : t.Good q a := by
  cases a with
  | run | forkScan | waitLock | killScan => exact Sys.Awake.rely h hr
  | dead =>
    obtain ⟨hn, he⟩ := h
    rw [← hr.slept.1] at he
    cases hr.row with
    | same h1 h2 h3 => exact ⟨h1 ▸ hn, h3 ▸ he⟩
    | run h1 => exact absurd (.inr h1) hn
    | woken h1 => exact absurd (.inl h1) hn
    | dead h1 h2 h3 h4 => exact ⟨h2, h4 ▸ he⟩
  | forkPid k => exact ⟨h.1.rely hr, h.2.rely hr⟩
  | forkLoad k => exact ⟨h.1.rely hr, h.2.1.rely hr, (hr.plock k h.2.1.plock).2.2 ▸ h.2.2⟩
  | forkStore k r => exact ⟨h.1.rely hr, h.2.1.rely hr, h.2.2⟩
  | forkFill k => exact ⟨h.1.rely hr, h.2.rely hr⟩
  | forkParent k => exact ⟨h.1.rely hr, h.2.rely (.inl rfl) hr⟩
  | forkReady k => exact ⟨h.1.rely hr, h.2.rely (.inr rfl) hr⟩
  | exitLock st => exact ⟨h.1.rely hr, h.2⟩
  | exitReparent st k =>
    obtain ⟨ha, hh, hq, hk⟩ := h
    exact ⟨ha.rely hr, hh.rely hr, hq, fun i hi => hr.notChild hh.lock (hk i hi)⟩
  | exitZombie st =>
    obtain ⟨ha, hh, hq, hk, hd⟩ := h
    exact ⟨ha.rely hr, hh.rely hr, hq, fun i => hr.notChild hh.lock (hk i),
      fun P => hr.notDozing hh.lock (hd P)⟩
  | zombie =>
    obtain ⟨hz, hl, he⟩ := h
    rw [← hr.slept.1] at he
    obtain ⟨hl', hst, -⟩ := hr.plock q hl
    refine ⟨hst.trans hz, hl', ?_⟩
    cases hr.row with
    | same h1 h2 h3 => exact h3 ▸ he
    | run h1 => exact absurd (hz ▸ .inr h1) not_live_zombie
    | woken h1 => exact absurd (hz ▸ .inl h1) not_live_zombie
    | dead h1 h2 h3 => exact absurd hl h3
  | waitScan w k hk =>
    exact ⟨h.1.rely hr, h.2.1.rely hr, fun i hi => hr.notZombie h.2.1.lock (h.2.2 i hi)⟩
  | waitTest w hk => exact ⟨h.1.rely hr, h.2.1.rely hr, fun i => hr.notZombie h.2.1.lock (h.2.2 i)⟩
  | wake sc r => exact ⟨h.1.rely hr, h.2.1.rely hr, h.2.2.rely hr⟩
  | sleepEnter c l r => exact ⟨h.1.rely hr, h.2.rely hr⟩
  | sleepHeld c l r => exact ⟨h.1.rely hr, (hr.plock q h.2.1).1, h.2.2.rely hr⟩
  | sleepFall c l r =>
    obtain ⟨hs, hl, hb, hc, hw, h0⟩ := h
    obtain ⟨hl', hst, -⟩ := hr.plock q hl
    obtain ⟨hb', hc', hw'⟩ := hr.slept
    refine ⟨hst.symm ▸ hs, hl', ?_, hc'.trans hc, hw'.symm ▸ hw, h0⟩
    cases hr.row with
    | same h1 h2 h3 | run h1 h2 h3 => omega
    | woken h1 => exact absurd (h1 ▸ hs) not_runs_sleeping
    | dead h1 => exact absurd (.inr hs) h1
  | asleep c l r =>
    obtain ⟨h0, h⟩ := h
    obtain ⟨hb', hc', hw'⟩ := hr.slept
    refine ⟨h0, ?_⟩
    rcases h with ⟨hs, hc, hb, hbc, hw⟩ | ha
    · cases hr.row with
      | same h1 h2 h3 => exact .inl ⟨h1.trans hs, h2.trans hc, by omega, hc'.trans hbc, hw'.symm ▸ hw⟩
      | run h1 => exact absurd (hs ▸ h1) not_runs_sleeping
      | woken h1 h2 h3 => exact .inr ⟨h2, h3.trans hb'.symm⟩
      | dead h1 => exact absurd (.inl hs) h1
    · exact .inr (ha.rely hr)
  | reacquire l r => exact ⟨h.1.rely hr, h.2⟩

structure Sys.Inv (s : Sys) : Prop where
  global : s.Global
  good : ∀ q, s.Good q (s.pc q)

theorem Sys.Inv.move (h : s.Inv) (hg : t.Global) (hp : t.Good p (t.pc p))
    (hpc : ∀ q, q ≠ p → t.pc q = s.pc q) (hr : ∀ q, q ≠ p → Rely q s t) : t.Inv := by
  refine ⟨hg, fun q => ?_⟩
  by_cases hq : q = p
  · rwa [hq]
  · rw [hpc q hq]
    exact (h.good q).rely (hr q hq)

/-- どのスレッドの位置も動かさない一歩。 -/
theorem Sys.Inv.quiet (h : s.Inv) (hpc : t.pc = s.pc) (hg : t.Global) (hr : ∀ q, Rely q s t) : t.Inv :=
  ⟨hg, fun q => hpc ▸ (h.good q).rely (hr q)⟩

end Xv6.Ptable
