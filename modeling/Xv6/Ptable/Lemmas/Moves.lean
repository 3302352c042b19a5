import Xv6.Ptable.Lemmas.Threads

/-!
# 一歩ごとの不変条件
-/

namespace Xv6.Ptable

open Xv6.Vm (ProcState nproc)
open Xv6.Lib

variable {s t u : Sys} {p q k i l : Nat} {a : Pc} {x : Proc}

theorem Sys.Global.goto (h : s.Global) : (s.goto p a).Global := { h with }

theorem Rely.goto (h : Rely q s t) : Rely q s (t.goto p a) := { h with }

theorem Rely.refl : Rely q s s where
  row := .same rfl rfl rfl
  slept := ⟨rfl, rfl, rfl⟩
  plock _ h := ⟨h, rfl, rfl⟩
  maker _ h := ⟨h, rfl, fun _ => rfl⟩
  lock h := ⟨h, fun _ => rfl, fun _ h => h, fun _ h => h, fun h => h⟩
  scan _ := ⟨le_rfl, fun _ => ⟨rfl, rfl⟩⟩

theorem RowRely.trans {x y z b b' e e' e'' A B} (hb : b' = b) (hl : A → B)
    (h : RowRely x y b e e' A) (h' : RowRely y z b' e' e'' B) : RowRely x z b e e'' A := by
  cases h with
  | same a1 a2 a3 =>
    cases h' with
    | same b1 b2 b3 => exact .same (b1.trans a1) (b2.trans a2) (b3.trans a3)
    | run b1 b2 b3 => exact .run (a1 ▸ b1) b2 (b3.trans a3)
    | woken b1 b2 b3 => exact .woken (a1 ▸ b1) b2 (b3.trans hb)
    | dead b1 b2 b3 b4 => exact .dead (a1 ▸ b1) b2 (mt hl b3) (b4.trans a3)
  | run a1 a2 a3 =>
    cases h' with
    | same b1 b2 b3 => exact .run a1 (b1 ▸ a2) (b3.trans a3)
    | run b1 b2 b3 => exact .run a1 b2 (b3.trans a3)
    | woken b1 => exact absurd (b1 ▸ a2) not_runs_sleeping
    | dead b1 => exact absurd (.inr a2) b1
  | woken a1 a2 a3 =>
    cases h' with
    | same b1 b2 b3 => exact .woken a1 (b1 ▸ a2) (b3.trans a3)
    | run b1 b2 b3 => exact .woken a1 b2 (b3.trans a3)
    | woken b1 => exact absurd (b1 ▸ a2) not_runs_sleeping
    | dead b1 => exact absurd (.inr a2) b1
  | dead a1 a2 a3 a4 =>
    cases h' with
    | same b1 b2 b3 => exact .dead a1 (b1 ▸ a2) a3 (b3.trans a4)
    | run b1 => exact absurd (.inr b1) a2
    | woken b1 => exact absurd (.inl b1) a2
    | dead b1 b2 b3 b4 => exact .dead a1 b2 a3 (b4.trans a4)

theorem Rely.trans (h : Rely q s t) (h' : Rely q t u) : Rely q s u where
  row := h.row.trans h.slept.1 (fun hl => (h.plock q hl).1) h'.row
  slept := ⟨h'.slept.1.trans h.slept.1, h'.slept.2.1.trans h.slept.2.1, h'.slept.2.2.trans h.slept.2.2⟩
  plock k hk := by
    obtain ⟨h1, h2, h3⟩ := h.plock k hk
    obtain ⟨h1', h2', h3'⟩ := h'.plock k h1
    exact ⟨h1', h2'.trans h2, h3'.trans h3⟩
  maker k hk := by
    obtain ⟨h1, h2, h3⟩ := h.maker k hk
    obtain ⟨h1', h2', h3'⟩ := h'.maker k h1
    exact ⟨h1', h2'.trans h2, fun hp => (h3' (by rwa [h3 hp])).trans (h3 hp)⟩
  lock hl := by
    obtain ⟨h1, h2, h3, h4, h5⟩ := h.lock hl
    obtain ⟨h1', h2', h3', h4', h5'⟩ := h'.lock h1
    exact ⟨h1', fun i => (h2' i).trans (h2 i), fun i hi => h3 i (h3' i hi), fun i hi => h4 i (h4' i hi),
      fun hw => h5 (h5' hw)⟩
  scan i := by
    obtain ⟨h1, h2⟩ := h.scan i
    obtain ⟨h1', h2'⟩ := h'.scan i
    refine ⟨h1.trans h1', fun hi => ?_⟩
    obtain ⟨hb, hc⟩ := h2 (lt_of_le_of_lt h1' hi)
    obtain ⟨hb', hc'⟩ := h2' (hb.symm ▸ hi)
    exact ⟨hb'.trans hb, hc'.trans hc⟩

theorem Sys.Good.goto {b} (h : s.Good q b) : (s.goto p a).Good q b := h.rely Rely.refl.goto

/-- `p` の一歩。他のスレッドには `Rely` だけを約束すればよい。 -/
theorem Sys.Inv.step (h : s.Inv) (hpc : u.pc = s.pc) (hg : u.Global) (ha : u.Good p a)
    (hr : ∀ q, q ≠ p → Rely q s u) : (u.goto p a).Inv := by
  refine h.move (p := p) hg.goto ?_ (fun q hq => ?_) fun q hq => (hr q hq).goto
  · rw [Sys.goto_pc, update_self]
    exact ha.goto
  · rw [Sys.goto_pc, update_of_ne hq, hpc]

theorem Sys.Inv.jump (h : s.Inv) (ha : s.Good p a) : (s.goto p a).Inv :=
  h.step rfl h.global ha fun _ _ => .refl

theorem Sys.Awake.live (h : s.Awake p) : Live (s.procs p).state := .inr h.runs

theorem Sys.Good.dead (h : s.Good p a) (hn : ¬Live (s.procs p).state) (hz : (s.procs p).state ≠ .zombie) :
    a = .dead := by
  cases a with
  | dead => rfl
  | run | forkScan | waitLock | killScan => exact absurd (Sys.Awake.live h) hn
  | forkPid | forkLoad | forkStore | forkFill | forkParent | forkReady | exitLock | exitReparent | exitZombie
  | waitScan | waitTest | wake | sleepEnter | sleepHeld | reacquire => exact absurd h.1.live hn
  | zombie => exact absurd h.1 hz
  | sleepFall => exact absurd (.inr h.1) hn
  | asleep =>
    rcases h.2 with ⟨hs, -⟩ | ha
    · exact absurd (.inl hs) hn
    · exact absurd ha.live hn

theorem Sys.Global.own (h : s.Global) : (s.own l (some p)).Global :=
  { h with
    wakeInit := by
      intro hn
      rw [Sys.own_lock] at hn
      rcases update_cases (P := fun o => o = none) hn with ⟨-, hn⟩ | ⟨-, hn⟩
      · cases hn
      · exact h.wakeInit hn }

theorem Rely.own (hl : s.lock l = none) : Rely q s (s.own l (some p)) :=
  { (Rely.refl : Rely q s s) with
    lock := fun hw => by
      have hne : waitLock ≠ l := by
        rintro rfl
        simp [hl] at hw
      exact ⟨by rwa [Sys.own_lock, update_of_ne hne], fun _ => rfl, fun _ h => h, fun _ h => h, fun h => h⟩ }

theorem Sys.Global.disown (h : s.Global) (hw : l = waitLock → s.wakeInit = false) : (s.own l none).Global :=
  { h with
    wakeInit := by
      intro hn
      rw [Sys.own_lock] at hn
      rcases update_cases (P := fun o => o = none) hn with ⟨hl, -⟩ | ⟨-, hn⟩
      · exact hw hl.symm
      · exact h.wakeInit hn }

theorem Rely.disown (hl : s.lock l = some p) (hq : q ≠ p) : Rely q s (s.own l none) :=
  { (Rely.refl : Rely q s s) with
    lock := fun hw => by
      have hne : waitLock ≠ l := by
        rintro rfl
        rw [hl] at hw
        exact hq (Option.some.inj hw).symm
      exact ⟨by rwa [Sys.own_lock, update_of_ne hne], fun _ => rfl, fun _ h => h, fun _ h => h, fun h => h⟩ }

theorem Sys.Global.hold (h : s.Global) (hk : s.plock k = none) : (s.hold k (some p)).Global :=
  { h with
    maker := fun j q hj => by
      refine (h.maker j q hj).imp_left fun ⟨hu, hl⟩ => ⟨hu, ?_⟩
      rwa [Sys.hold_plock, update_of_ne (by rintro rfl; simp [hk] at hl)]
    asleep := fun i hi => by
      refine (h.asleep i hi).imp_left fun hl => ?_
      rwa [Sys.hold_plock, update_of_ne (by rintro rfl; simp [hk] at hl)] }

theorem Rely.hold (hk : s.plock k = none) : Rely q s (s.hold k (some p)) :=
  { (Rely.refl : Rely q s s) with
    plock := fun j hj => by
      exact ⟨by rwa [Sys.hold_plock, update_of_ne (by rintro rfl; simp [hk] at hj)], rfl, rfl⟩ }

theorem Sys.Global.unhold (h : s.Global) (hm : s.maker k ≠ none → (s.procs k).state = .used)
    (hs : s.ended k < s.began k → (s.procs k).state = .sleeping ∧ (s.procs k).chan = s.bchan k) :
    (s.hold k none).Global :=
  { h with
    maker := fun j q hj => by
      by_cases hjk : j = k
      · exact .inr (hjk ▸ hm (by rw [← hjk]; simp [show s.maker j = some q from hj]))
      · rw [Sys.hold_plock, update_of_ne hjk]
        exact h.maker j q hj
    asleep := fun i hi => by
      by_cases hik : i = k
      · exact .inr (hik ▸ hs (hik ▸ hi))
      · rw [Sys.hold_plock, update_of_ne hik]
        exact h.asleep i hi }

theorem Rely.unhold (hk : s.plock k = some p) (hq : q ≠ p) : Rely q s (s.hold k none) :=
  { (Rely.refl : Rely q s s) with
    plock := fun j hj => by
      refine ⟨?_, rfl, rfl⟩
      rwa [Sys.hold_plock, update_of_ne (by rintro rfl; rw [hk] at hj; exact hq (Option.some.inj hj).symm)] }

theorem Sys.Global.make {o} (h : s.Global)
    (hk : ∀ q, o = some q → (s.procs k).state = .unused ∧ s.plock k = some q) : (s.make k o).Global :=
  { h with
    maker := fun j q hj => by
      rw [Sys.make_maker] at hj
      rcases update_cases (P := fun o => o = some q) hj with ⟨hjk, hj'⟩ | ⟨-, hj'⟩
      · exact .inl (hjk ▸ hk q hj')
      · exact h.maker j q hj' }

theorem Rely.make {o} (hk : s.maker k ≠ some q) : Rely q s (s.make k o) :=
  { (Rely.refl : Rely q s s) with
    maker := fun j hj => by
      refine ⟨?_, rfl, fun _ => rfl⟩
      rwa [Sys.make_maker, update_of_ne (by rintro rfl; exact hk hj)] }

structure Sys.Fits (s : Sys) (k : Nat) (x : Proc) (w : Bool) : Prop where
  lt : nproc ≤ k → x.state = .unused
  maker : ∀ q, s.maker k = some q → (x.state = .unused ∧ s.plock k = some q) ∨ x.state = .used
  live : Live (s.procs k).state → ¬Live x.state → ∀ i, (s.procs i).parent ≠ some k
  parent : ∀ q, q ≠ k → x.parent = some q → (s.procs k).parent = some q ∨ Live (s.procs q).state
  loop : x.parent = some k → Live x.state
  orphan : x.state = .unused → x.parent = none
  adopted : x.state ≠ .unused → x.state ≠ .used → k ≠ initproc → x.parent ≠ none
  init : k = initproc → Live x.state
  asleep : s.ended k < s.began k → s.plock k = some k ∨ (x.state = .sleeping ∧ x.chan = s.bchan k)
  wake : s.wakeInit = true → w = true
  lock : s.lock waitLock = none → w = false
  dozing : ∀ P, s.Dozing P → x.parent = some P → x.state = .zombie → P = initproc ∧ w = true
  pid : x.state ≠ .unused → 0 < x.pid

theorem Sys.Global.refit {w e f n} (h : s.Global) (hx : s.Fits k x w) (hn : 0 < n)
    (hef : ∀ i, e i = f i + if (update s.procs k x i).state = .zombie then 1 else 0) :
    { s with procs := update s.procs k x, wakeInit := w, exits := e, frees := f, nextpid := n }.Global where
  __ := h
  outside i hi := by
    by_cases hik : i = k
    · subst hik
      simpa using hx.lt hi
    · simpa [hik] using h.outside i hi
  maker j q hj := by
    by_cases hjk : j = k
    · subst hjk
      simpa using hx.maker q hj
    · simpa [hjk] using h.maker j q hj
  parent i q hi := by
    have hold : (s.procs i).parent = some q → Live (s.procs q).state := h.parent i q
    by_cases hqk : q = k
    · subst hqk
      simp only [update_self]
      by_contra hn
      by_cases hiq : i = q
      · subst hiq
        simp only [update_self] at hi
        exact hn (hx.loop hi)
      · simp only [update_of_ne hiq] at hi
        exact hx.live (hold hi) hn i hi
    simp only [update_of_ne hqk]
    by_cases hik : i = k
    · subst hik
      simp only [update_self] at hi
      exact (hx.parent q hqk hi).elim hold id
    · simp only [update_of_ne hik] at hi
      exact hold hi
  orphan i hi := by
    by_cases hik : i = k
    · subst hik
      simpa using hx.orphan (by simpa using hi)
    · simpa [hik] using h.orphan i (by simpa [hik] using hi)
  adopted i h1 h2 h3 := by
    by_cases hik : i = k
    · subst hik
      simpa using hx.adopted (by simpa using h1) (by simpa using h2) h3
    · simpa [hik] using h.adopted i (by simpa [hik] using h1) (by simpa [hik] using h2) h3
  init := by
    by_cases hik : initproc = k
    · simpa [hik] using hx.init hik.symm
    · simpa [hik] using h.init
  asleep i hi := by
    by_cases hik : i = k
    · subst hik
      simpa using hx.asleep hi
    · simpa [hik] using h.asleep i hi
  wakeInit := hx.lock
  dozing P c hd hp hz := by
    by_cases hck : c = k
    · subst hck
      exact hx.dozing P hd (by simpa using hp) (by simpa using hz)
    · obtain ⟨hP, hw⟩ := h.dozing P c hd (by simpa [hck] using hp) (by simpa [hck] using hz)
      exact ⟨hP, hx.wake hw⟩
  frees := hef
  nextpid := hn
  pid i hi := by
    by_cases hik : i = k
    · subst hik
      simpa using hx.pid (by simpa using hi)
    · simpa [hik] using h.pid i (by simpa [hik] using hi)

theorem Sys.Global.counted (h : s.Global) (hz : x.state = .zombie ↔ (s.procs k).state = .zombie) (i : Nat) :
    s.exits i = s.frees i + if (update s.procs k x i).state = .zombie then 1 else 0 := by
  rw [h.frees i]
  by_cases hik : i = k
  · subst hik
    simp only [update_self, hz]
  · rw [update_of_ne hik]

theorem Sys.Global.row (h : s.Global) (hx : s.Fits k x s.wakeInit)
    (hz : x.state = .zombie ↔ (s.procs k).state = .zombie) : (s.row k x).Global :=
  h.refit hx h.nextpid (h.counted hz)

theorem Rely.put (hself : k = q → (x.state = (s.procs k).state ∧ x.chan = (s.procs k).chan) ∨
      (Runs (s.procs k).state ∧ Runs x.state) ∨
      (¬Live (s.procs k).state ∧ ¬Live x.state ∧ s.plock k ≠ some q))
    (hpl : s.plock k = some q → x.state = (s.procs k).state ∧ x.pid = (s.procs k).pid)
    (hmk : s.maker k = some q → x.state = (s.procs k).state ∧
      ((s.procs k).parent = none ∨ (s.procs k).parent = some q → x.parent = (s.procs k).parent))
    (hlk : s.lock waitLock = some q → x.parent = (s.procs k).parent ∧
      (x.state = .zombie → (s.procs k).state = .zombie)) : Rely q s (s.row k x) where
  row := by
    by_cases hqk : q = k
    · subst hqk
      rw [Sys.row_procs, update_self]
      rcases hself rfl with ⟨h1, h2⟩ | ⟨h1, h2⟩ | ⟨h1, h2, h3⟩
      · exact .same h1 h2 rfl
      · exact .run h1 h2 rfl
      · exact .dead h1 h2 h3 rfl
    · exact .same (by simp [hqk]) (by simp [hqk]) rfl
  slept := ⟨rfl, rfl, rfl⟩
  plock j hj := by
    refine ⟨hj, ?_⟩
    by_cases hjk : j = k
    · subst hjk
      simpa using hpl hj
    · simp [hjk]
  maker j hj := by
    refine ⟨hj, ?_⟩
    by_cases hjk : j = k
    · subst hjk
      simpa using hmk hj
    · simp [hjk]
  lock hl := by
    refine ⟨hl, fun i => ?_, fun i hi => ?_, fun _ h => h, fun h => h⟩
    · by_cases hik : i = k
      · subst hik
        simpa using (hlk hl).1
      · simp [hik]
    · by_cases hik : i = k
      · subst hik
        exact (hlk hl).2 (by simpa using hi)
      · simpa [hik] using hi
  scan _ := ⟨le_rfl, fun _ => ⟨rfl, rfl⟩⟩

structure Alike (x y : Proc) : Prop where
  state : x.state = y.state
  parent : x.parent = y.parent
  chan : x.chan = y.chan

/-- 使われている欄は、親が同じなら、生きた状態に書き換えられる。 -/
theorem Sys.Global.fits_live (h : s.Global) (hmk : s.maker k = none) (hnu : (s.procs k).state ≠ .unused) (hx : Live x.state)
    (hp : x.parent = (s.procs k).parent) (had : k ≠ initproc → x.parent ≠ none) (hpid : 0 < x.pid)
    (hsl : s.ended k < s.began k → s.plock k = some k ∨ (x.state = .sleeping ∧ x.chan = s.bchan k)) :
    s.Fits k x s.wakeInit where
  lt hk := absurd (h.outside k hk) hnu
  maker q hq := by simp [hmk] at hq
  live _ hn := absurd hx hn
  parent q _ hq := .inl (hp ▸ hq)
  loop _ := hx
  orphan hu := absurd (hu ▸ hx) not_live_unused
  adopted _ _ := had
  init _ := hx
  asleep := hsl
  wake hw := hw
  lock := h.wakeInit
  dozing _ _ _ hz := absurd (hz ▸ hx) not_live_zombie
  pid _ := hpid

theorem Sys.Global.fits_alike (h : s.Global) (hx : Alike x (s.procs k)) (hp : x.state ≠ .unused → 0 < x.pid) :
    s.Fits k x s.wakeInit where
  lt hk := hx.state.trans (h.outside k hk)
  maker q hq := hx.state ▸ h.maker k q hq
  live hl hn := absurd (hx.state ▸ hl) hn
  parent q _ hq := .inl (hx.parent ▸ hq)
  loop hk := hx.state ▸ h.parent k k (hx.parent ▸ hk)
  orphan hu := hx.parent.trans (h.orphan k (hx.state ▸ hu))
  adopted h1 h2 h3 := hx.parent ▸ h.adopted k (hx.state ▸ h1) (hx.state ▸ h2) h3
  init hk := hx.state ▸ hk ▸ h.init
  asleep hk := by
    rw [hx.state, hx.chan]
    exact h.asleep k hk
  wake hw := hw
  lock := h.wakeInit
  dozing P hd hP hz := h.dozing P k hd (hx.parent ▸ hP) (hx.state ▸ hz)
  pid := hp

theorem Rely.alike (hx : Alike x (s.procs k)) (hp : s.plock k = some q → x.pid = (s.procs k).pid) :
    Rely q s (s.row k x) :=
  .put (fun _ => .inl ⟨hx.state, hx.chan⟩) (fun hl => ⟨hx.state, hp hl⟩) (fun _ => ⟨hx.state, fun _ => hx.parent⟩)
    fun _ => ⟨hx.parent, fun hz => hx.state ▸ hz⟩

end Xv6.Ptable
