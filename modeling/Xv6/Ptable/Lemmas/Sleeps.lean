import Xv6.Ptable.Lemmas.Steps

/-!
# 眠ることと起こすこと
-/

namespace Xv6.Ptable

open Xv6.Vm (ProcState nproc)
open Xv6.Lib

variable {s t u : Sys} {p q k i l c : Nat} {x : Proc}

structure Stirred (x y : Proc) : Prop where
  state : y.state = x.state ∨ (x.state = .sleeping ∧ y.state = .runnable)
  parent : y.parent = x.parent
  chan : y.chan = x.chan
  pid : y.pid = x.pid

theorem Proc.wake_stirred (x : Proc) (c : Nat) : Stirred x (x.wake c) := by
  unfold Proc.wake
  split
  · rename_i hs
    exact ⟨.inr ⟨hs.1, rfl⟩, rfl, rfl, rfl⟩
  · exact ⟨.inl rfl, rfl, rfl, rfl⟩

theorem Proc.wake_woken {x : Proc} (hs : (x.wake c).state = .sleeping) : (x.wake c).chan ≠ c := by
  unfold Proc.wake at hs ⊢
  split at hs
  · cases hs
  · rename_i hn
    rw [if_neg hn]
    exact fun hc => hn ⟨hs, hc⟩

theorem Proc.kill_stirred (x : Proc) : Stirred x x.kill := by
  refine ⟨?_, rfl, rfl, rfl⟩
  by_cases hs : x.state = .sleeping
  · exact .inr ⟨hs, by simp [Proc.kill, hs]⟩
  · exact .inl (by simp [Proc.kill, hs])

@[simps]
def Sys.settle (s : Sys) (k : Nat) : Sys := { s with ended := update s.ended k (s.began k) }

theorem Sys.rouse_cases (hx : Stirred (s.procs k) x) :
    (x.state = (s.procs k).state ∧ s.rouse k x = s.row k x) ∨
      ((s.procs k).state = .sleeping ∧ x.state = .runnable ∧ s.rouse k x = (s.settle k).row k x) := by
  rcases hx.state with hs | ⟨hs, hr⟩
  · refine .inl ⟨hs, ?_⟩
    have hn : ¬((s.procs k).state = .sleeping ∧ x.state = .runnable) := by
      rintro ⟨h1, h2⟩
      simp [hs, h1] at h2
    simp only [Sys.rouse, Sys.row, if_neg hn, update_eq_self]
  · exact .inr ⟨hs, hr, by simp only [Sys.rouse, Sys.row, Sys.settle, hs, hr, and_self, if_true]⟩

section

variable (h : s.Global)
include h

theorem Sys.Global.le_settle (i : Nat) : s.ended i ≤ (s.settle k).ended i := by
  by_cases hik : i = k
  · subst hik
    simpa using h.ended i
  · simp [hik]

theorem Sys.Dozing.of_settle (hd : (s.settle k).Dozing i) : s.Dozing i :=
  ⟨hd.1, lt_of_le_of_lt (h.le_settle i) hd.2⟩

theorem Sys.Global.settle : (s.settle k).Global :=
  { h with
    ended := fun i => by
      by_cases hik : i = k
      · simp [hik]
      · simpa [hik] using h.ended i
    asleep := fun i hi => h.asleep i (lt_of_le_of_lt (h.le_settle i) hi)
    dozing := fun P c hd => h.dozing P c (hd.of_settle h) }

theorem Sys.Global.rouse (hx : Stirred (s.procs k) x) : (s.rouse k x).Global := by
  rcases rouse_cases hx with ⟨hs, heq⟩ | ⟨hs, hr, heq⟩ <;> rw [heq]
  · refine h.row (h.fits_alike ⟨hs, hx.parent, hx.chan⟩ ?_) (by rw [hs])
    rw [hs, hx.pid]
    exact h.pid k
  have hmk : s.maker k = none := h.maker_none (.inl (.inl hs))
  refine h.settle.row (h.settle.fits_live hmk ?_ (.inr (.inl hr)) hx.parent (fun hk => ?_) ?_ (by simp)) (by simp [hs, hr])
  · simp [hs]
  · exact hx.parent ▸ h.adopted k (by simp [hs]) (by simp [hs]) hk
  · exact hx.pid ▸ h.pid k (by simp [hs])

theorem Rely.rouse (hx : Stirred (s.procs k) x) (hl : s.plock k = none) :
    Rely q s (s.rouse k x) := by
  rcases Sys.rouse_cases hx with ⟨hs, heq⟩ | ⟨hs, hr, heq⟩ <;> rw [heq]
  · exact .alike ⟨hs, hx.parent, hx.chan⟩ fun _ => hx.pid
  have hmk : s.maker k = none := h.maker_none (.inl (.inl hs))
  constructor
  case row =>
    by_cases hqk : q = k
    · subst hqk
      refine .woken hs ?_ (by simp)
      simpa using .inl hr
    · exact .same (by simp [hqk]) (by simp [hqk]) (by simp [hqk])
  case slept => exact ⟨rfl, rfl, rfl⟩
  case plock =>
    intro j hj
    have hjk : j ≠ k := by
      rintro rfl
      simp [hl] at hj
    exact ⟨hj, by simp [hjk]⟩
  case maker =>
    intro j hj
    have hjk : j ≠ k := by
      rintro rfl
      simp [hmk] at hj
    exact ⟨hj, by simp [hjk]⟩
  case lock =>
    refine fun hlk => ⟨hlk, fun i => ?_, fun i hi => ?_, fun i hi => hi.of_settle h, fun hw => hw⟩
    · by_cases hik : i = k
      · subst hik
        simpa using hx.parent
      · simp [hik]
    · by_cases hik : i = k
      · subst hik
        simp [hr] at hi
      · simpa [hik] using hi
  case scan => exact fun i => ⟨h.le_settle i, fun _ => ⟨rfl, rfl⟩⟩

/-- 見終えてもまだ眠っている者は、別のチャネルで眠っている。 -/
theorem Sys.Global.look_woken (hl : s.plock k = none)
    (hlt : (s.look k c).ended k < s.began k) : s.bchan k ≠ c := by
  have hw := h.rouse (Proc.wake_stirred (s.procs k) c)
  rcases hw.asleep k hlt with hp | ⟨hs, hc⟩
  · rw [Sys.rouse_plock, hl] at hp
    cases hp
  · rw [Sys.rouse_procs, update_self] at hs hc
    exact hc ▸ Proc.wake_woken hs

end

theorem Sys.look_wakeInit_iff :
    (s.look k c).wakeInit = true ↔ ¬(k = initproc ∧ c = procAddr initproc) ∧ s.wakeInit = true := by
  simp only [Sys.look]
  split <;> simp_all

theorem Sys.Global.look (h : s.Global) (hl : s.plock k = none) : (s.look k c).Global := by
  have hw := h.rouse (Proc.wake_stirred (s.procs k) c)
  refine { hw with wakeInit := fun hlk => ?_, dozing := fun P j hd hp hz => ?_ }
  · rw [← Bool.not_eq_true, Sys.look_wakeInit_iff, h.wakeInit hlk]
    simp
  · obtain ⟨hP, hi⟩ := hw.dozing P j hd hp hz
    refine ⟨hP, Sys.look_wakeInit_iff.mpr ⟨?_, hi⟩⟩
    rintro ⟨rfl, hc⟩
    rw [hP] at hd
    exact h.look_woken hl hd.2 (hc ▸ h.bwait _ hd.1)

theorem Rely.look (h : s.Global) (hl : s.plock k = none) : Rely q s (s.look k c) := by
  have hr : Rely q s _ := Rely.rouse h (Proc.wake_stirred (s.procs k) c) hl
  refine { hr with lock := fun hlk => ?_ }
  obtain ⟨h1, h2, h3, h4, h5⟩ := hr.lock hlk
  exact ⟨h1, h2, h3, h4, fun hw => (Sys.look_wakeInit_iff.mp hw).2⟩

section

variable (h : s.Inv) (ha : s.Awake p)
include h ha

theorem Sys.Inv.wakeSkip {sc r} (hs : s.Scanning sc)
    (hr : s.WakeOk p sc r) (hp : sc.k = p) : (s.goto p (.wake { sc with k := sc.k + 1 } r)).Inv := by
  refine h.jump ⟨ha, ⟨fun i hi => ?_, hs.ahead⟩, ?_⟩
  · rcases Nat.lt_succ_iff_lt_or_eq.mp hi with hi | rfl
    · exact hs.passed i hi
    · by_contra hn
      obtain ⟨hd, -⟩ := hs.ahead _ (not_le.mp hn)
      rw [hp] at hd hn
      exact hn (by rw [hd, ha.ended])
  cases r with
  | run => trivial
  | reparent st k =>
    obtain ⟨hl, hq, hc, hw, hk⟩ := hr
    refine ⟨hl, hq, hc, fun hi => ?_, hk⟩
    have := hw hi
    exact lt_of_le_of_ne this (hp ▸ hq)
  | zombie st =>
    obtain ⟨hh, hq, hk, hc, hd⟩ := hr
    refine ⟨hh, hq, hk, hc, fun P hP hlt => ?_⟩
    rcases Nat.lt_succ_iff_lt_or_eq.mp hlt with hlt | rfl
    · exact hd P hP hlt
    · exact absurd (hp ▸ hP) (hk p)

theorem Sys.Inv.wakeLook {sc r} (hs : s.Scanning sc) (hr : s.WakeOk p sc r) (hl : s.plock sc.k = none) :
    ((s.look sc.k sc.chan).goto p (.wake { sc with k := sc.k + 1 } r)).Inv := by
  have hrely : Rely p s (s.look sc.k sc.chan) := .look h.global hl
  refine h.step rfl (h.global.look hl) ⟨ha.rely hrely, ⟨fun i hi => ?_, (hs.rely hrely).ahead⟩, ?_⟩ fun q _ =>
    .look h.global hl
  · rcases Nat.lt_succ_iff_lt_or_eq.mp hi with hi | rfl
    · exact (hs.rely hrely).passed i hi
    · by_contra hn
      obtain ⟨hd, hc⟩ := (hs.rely hrely).ahead _ (not_le.mp hn)
      exact h.global.look_woken hl (hd ▸ not_le.mp hn) hc
  have hok := hr.rely hrely
  cases r with
  | run => trivial
  | reparent st k =>
    obtain ⟨hlk, hq, hc, hw, hk⟩ := hok
    refine ⟨hlk, hq, hc, fun hi => lt_of_le_of_ne (hw hi) fun hki => ?_, hk⟩
    simp [hki, hc] at hi
  | zombie st =>
    obtain ⟨hh, hq, hk, hc, hd⟩ := hok
    refine ⟨hh, hq, hk, hc, fun P hP hlt => ?_⟩
    rcases Nat.lt_succ_iff_lt_or_eq.mp hlt with hlt | rfl
    · exact hd P hP hlt
    · intro hdz
      refine h.global.look_woken hl hdz.2 ?_
      rw [hc, Proc.parentAddr, hP]
      exact h.global.bwait _ hdz.1

theorem Sys.Inv.wakeReturn {sc r} (hr : s.WakeOk p sc r) (hk : nproc ≤ sc.k) : (s.goto p r.pc).Inv := by
  refine h.jump ?_
  cases r with
  | run => exact ha
  | reparent st k =>
    obtain ⟨hl, hq, -, hw, hs⟩ := hr
    refine ⟨ha, ⟨hl, ?_⟩, hq, hs⟩
    cases hi : s.wakeInit with
    | false => rfl
    | true => exact absurd (hk.trans (hw hi)) (by decide)
  | zombie st =>
    obtain ⟨hh, hq, hs, -, hd⟩ := hr
    refine ⟨ha, hh, hq, hs, fun P hP => hd P hP (lt_of_lt_of_le ?_ hk)⟩
    by_contra hn
    exact not_live_unused (h.global.outside P (not_lt.mp hn) ▸ h.global.parent p P hP)

theorem Sys.Inv.sleepTake {r} (hr : s.SleepOk p c l r)
    (hl : s.plock p = none) : ((s.hold p (some p)).goto p (.sleepHeld c l r)).Inv := by
  refine h.step rfl (h.global.hold hl) ⟨{ ha with }, by simp, ?_⟩ fun q _ => .hold hl
  exact hr.rely (.hold hl)

/-- `p->lock` を取ってから `lk` を放すので、起こし損ねない。 -/
theorem Sys.Inv.sleepDoze {r} (hl : s.plock p = some p)
    (hr : s.SleepOk p c l r) : ((s.doze p c l r).goto p (.sleepFall c l r)).Inv := by
  have hlw : ∀ w, r = .wait w → l = waitLock ∧ c = procAddr p ∧ s.Holding p ∧
      ∀ i, (s.procs i).parent = some p → (s.procs i).state ≠ .zombie := by
    rintro w rfl
    exact hr
  have hrun : r = .run → l ≠ waitLock := by
    rintro rfl
    exact hr
  have hother : ∀ i, i ≠ p → (s.doze p c l r).Dozing i → s.Dozing i := by
    intro i hi hd
    simpa [Sys.Dozing, hi] using hd
  have hself : (s.doze p c l r).Dozing p → ∃ w, r = .wait w := by
    intro hd
    cases r with
    | run => simp [Sys.Dozing] at hd
    | wait w => exact ⟨w, rfl⟩
  refine h.step rfl ?_ ⟨ha.runs, hl, ?_⟩ fun q hq => ?_
  · refine { h.global with
      ended := fun i => ?_
      asleep := fun i hi => ?_
      bwait := fun i hi => ?_
      wakeInit := fun hn => ?_
      dozing := fun P j hd hp hz => ?_ }
    · by_cases hip : i = p
      · subst hip
        simpa using (h.global.ended i).trans (Nat.le_succ _)
      · simpa [hip] using h.global.ended i
    · by_cases hip : i = p
      · exact .inl (hip ▸ hl)
      · simpa [hip] using h.global.asleep i (by simpa [hip] using hi)
    · by_cases hip : i = p
      · subst hip
        cases r with
        | run => simp at hi
        | wait w => simpa using (hlw w rfl).2.1
      · simpa [hip] using h.global.bwait i (by simpa [hip] using hi)
    · cases r with
      | run =>
        rw [Sys.doze_lock, update_of_ne (hrun rfl).symm] at hn
        exact h.global.wakeInit hn
      | wait w => exact (hlw w rfl).2.2.1.wakeInit
    · by_cases hPp : P = p
      · subst hPp
        obtain ⟨w, hw⟩ := hself hd
        exact absurd hz ((hlw w hw).2.2.2 j hp)
      · exact h.global.dozing P j (hother P hPp hd) hp hz
  · refine ⟨by simp [ha.ended], by simp, by simp, fun hne => ?_⟩
    cases r with
    | run => exact absurd rfl hne
    | wait w => exact (hlw w rfl).1
  constructor
  case row => exact .same rfl rfl rfl
  case slept => exact ⟨by simp [hq], by simp [hq], by simp [hq]⟩
  case plock => exact fun j hj => ⟨hj, rfl, rfl⟩
  case maker => exact fun j hj => ⟨hj, rfl, fun _ => rfl⟩
  case lock =>
    intro hlk
    have hrr : r = .run := by
      cases r with
      | run => rfl
      | wait w =>
        rw [(hlw w rfl).2.2.1.lock] at hlk
        exact absurd (Option.some.inj hlk).symm hq
    refine ⟨?_, fun _ => rfl, fun _ hz => hz, fun i hd => ?_, fun hw => hw⟩
    · rwa [Sys.doze_lock, update_of_ne (hrun hrr).symm]
    by_cases hip : i = p
    · subst hip
      obtain ⟨w, hw⟩ := hself hd
      rw [hrr] at hw
      cases hw
    · exact hother i hip hd
  case scan =>
    refine fun i => ⟨le_rfl, fun hlt => ?_⟩
    have hip : i ≠ p := by
      rintro rfl
      simp [ha.ended] at hlt
    simp [hip]

end

theorem Sys.Inv.sleepFall {r} (h : s.Inv) (hs : Runs (s.procs p).state) (hl : s.plock p = some p)
    (hb : s.began p = s.ended p + 1) (hc : s.bchan p = c) (hw : s.bwait p = true ↔ r ≠ .run)
    (h0 : r ≠ .run → l = waitLock) :
    (((s.row p { s.procs p with chan := c, state := .sleeping }).hold p none).goto p (.asleep c l r)).Inv := by
  have hlive : Live (s.procs p).state := .inr hs
  have hmk := h.global.maker_none (.inl hlive)
  have hnz : (s.procs p).state ≠ .zombie := fun hz => not_live_zombie (hz ▸ hlive)
  have hnu : (s.procs p).state ≠ .unused := fun hu => not_live_unused (hu ▸ hlive)
  refine h.step rfl ?_ ⟨h0, .inl ⟨by simp, by simp, hb, hc, hw⟩⟩ fun q hq => ?_
  · have hrow : (s.row p { s.procs p with chan := c, state := .sleeping }).Global := by
      refine h.global.row (h.global.fits_live hmk hnu (.inl rfl) rfl ?_ ?_ fun _ => .inl hl) (by simp [hnz])
      · exact h.global.adopted p hnu fun hu => not_live_used (hu ▸ hlive)
      · exact h.global.pid p hnu
    exact hrow.unhold (by simp [hmk]) fun _ => ⟨by simp, by simp [hc]⟩
  · refine .trans (t := s.row p { s.procs p with chan := c, state := .sleeping }) ?_ (.unhold hl hq)
    refine .put (absurd ·.symm hq) (fun hpl => ?_) (by simp [hmk]) fun _ => ⟨rfl, by simp⟩
    rw [hl] at hpl
    exact absurd (Option.some.inj hpl).symm hq

theorem Sys.Inv.sleepReturn {r : SleepRet} (h : s.Inv) (ha : s.Awake p) (h0 : r ≠ .run → l = waitLock)
    (hl : s.lock l = none) : ((s.own l (some p)).goto p r.pc).Inv := by
  refine h.step rfl h.global.own ?_ fun q _ => .own hl
  cases r with
  | run => exact { ha with }
  | wait w =>
    obtain rfl := h0 (by simp)
    exact ⟨{ ha with }, ⟨by simp, h.global.wakeInit hl⟩, fun i hi => absurd hi (Nat.not_lt_zero i)⟩

theorem Sys.Global.turn (h : s.Global) (hs : Runs (s.procs p).state) (hx : Runs x.state)
    (hp : x.parent = (s.procs p).parent) (hpid : x.pid = (s.procs p).pid) (hl : s.plock p = none) :
    (s.row p x).Global := by
  have hlive : Live (s.procs p).state := .inr hs
  have hmk := h.maker_none (.inl hlive)
  have hnz : (s.procs p).state ≠ .zombie := fun hz => not_live_zombie (hz ▸ hlive)
  have hxz : x.state ≠ .zombie := fun hz => not_live_zombie (hz ▸ .inr hx)
  have hnu : (s.procs p).state ≠ .unused := fun hu => not_live_unused (hu ▸ hlive)
  refine h.row (h.fits_live hmk hnu (.inr hx) hp (fun hpi => ?_) (hpid ▸ h.pid p hnu) fun hlt => ?_) (by simp [hnz, hxz])
  · exact hp ▸ h.adopted p hnu (fun hu => not_live_used (hu ▸ hlive)) hpi
  · rcases h.asleep p hlt with hpl | ⟨hsl, -⟩
    · simp [hl] at hpl
    · exact absurd (hsl ▸ hs) not_runs_sleeping

theorem Rely.turn (h : s.Global) (hs : Runs (s.procs p).state) (hx : Runs x.state)
    (hp : x.parent = (s.procs p).parent) (hl : s.plock p = none) : Rely q s (s.row p x) := by
  refine .put (fun _ => .inr (.inl ⟨hs, hx⟩)) (by simp [hl]) (by simp [h.maker_none (.inl (.inr hs))]) fun _ =>
    ⟨hp, fun hz => absurd (hz ▸ .inr hx) not_live_zombie⟩

end Xv6.Ptable
