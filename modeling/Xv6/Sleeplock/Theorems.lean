import Xv6.Sleeplock.Sleeplock

/-!
# スリープロックの定理
-/

namespace Xv6.Sleeplock

open Xv6.Lib
open Xv6.Vm (ProcState)

variable {nproc : Nat} {pid : Nat → Nat} {s t : Sys} {p q : Nat} {b : Pc}

/-! ## 位置 -/

def Pc.hasLk : Pc → Bool
  | .test | .sleepEnter | .sleepHeld | .take | .leave | .clear | .wake _ | .relLeave | .ask _ | .askLeave .. => true
  | _ => false

def Pc.hasPlock : Pc → Bool
  | .sleepHeld | .sleepFall | .sleepSched | .tidy => true
  | _ => false

def Pc.holds : Pc → Bool
  | .leave | .held | .relEnter | .clear => true
  | .askEnter mine | .ask mine | .askLeave mine _ => mine
  | _ => false

def Pc.falling : Pc → Bool
  | .sleepEnter | .sleepHeld | .sleepFall | .sleepSched => true
  | _ => false

def Sys.Waiting (s : Sys) (q : Nat) : Prop := (s.pc q).falling = true ∨ s.state q = .sleeping

/-- 位置と、二つのロック、`locked`、`pid`、状態の関係。`waiter` は、眠っているか眠ろうとしているプロセスがあれば、ロック
が取られているか、これから起こす者がいることである。 -/
structure Inv (nproc : Nat) (pid : Nat → Nat) (s : Sys) : Prop where
  lk : ∀ p, (s.pc p).hasLk = true ↔ s.lk = some p
  plock : ∀ p, s.plock p = (s.pc p).hasPlock
  holder : ∀ p, (s.pc p).holds = true → s.locked = true ∧ s.pid = pid p
  held : s.locked = true → ∃ p, (s.pc p).holds = true
  take : ∀ p, s.pc p = .take → s.locked = false
  answer : ∀ p mine r, s.pc p = .askLeave mine r → r = mine
  sleeping : ∀ p, s.state p = .sleeping → (s.pc p = .sleepSched ∨ s.pc p = .asleep) ∧ s.chan p = true
  range : ∀ p, s.Waiting p → p < nproc
  waiter : ∀ p, s.Waiting p → s.locked = true ∨ ∃ q k, s.pc q = .wake k ∧ k ≤ p

/-! ## 一歩 -/

structure Moved (nproc : Nat) (pid : Nat → Nat) (s t : Sys) (p : Nat) (b : Pc) : Prop where
  pc : t.pc = update s.pc p b
  lk : (b.hasLk = (s.pc p).hasLk ∧ t.lk = s.lk) ∨ (b.hasLk = true ∧ s.lk = none ∧ t.lk = some p) ∨
    ((s.pc p).hasLk = true ∧ b.hasLk = false ∧ t.lk = none)
  plock : t.plock = update s.plock p b.hasPlock
  lock : (t.locked = s.locked ∧ t.pid = s.pid ∧ b.holds = (s.pc p).holds) ∨
    (s.pc p = .take ∧ b.holds = true ∧ t.locked = true ∧ t.pid = pid p) ∨
    (s.pc p = .clear ∧ b = .wake 0 ∧ t.locked = false)
  take : b = .take → t.locked = false
  answer : ∀ mine r, b = .askLeave mine r → r = mine
  sleeping : ∀ q, t.state q = .sleeping → (q = p ∧ (b = .sleepSched ∨ b = .asleep) ∧ t.chan q = true) ∨
    (q ≠ p ∧ s.state q = .sleeping ∧ t.chan q = s.chan q)
  falling : b.falling = true ∨ t.state p = .sleeping → s.Waiting p ∨ t.locked = true
  wake : ∀ k, s.pc p = .wake k → (b = .wake (k + 1) ∧ ¬t.Waiting k) ∨ nproc ≤ k

namespace Moved

section

variable (h : Moved nproc pid s t p b)
include h

theorem pc_self : t.pc p = b := by rw [h.pc, update_self]

theorem pc_ne (hq : q ≠ p) : t.pc q = s.pc q := by rw [h.pc, update_of_ne hq]

theorem waiting (hw : t.Waiting q) : s.Waiting q ∨ q = p ∧ t.locked = true := by
  by_cases hq : q = p
  · subst hq
    rw [Sys.Waiting, h.pc_self] at hw
    exact (h.falling hw).imp_right fun hl => ⟨rfl, hl⟩
  refine .inl ?_
  rw [Sys.Waiting, h.pc_ne hq] at hw
  refine hw.imp_right fun hs => ?_
  obtain ⟨rfl, -⟩ | ⟨-, hs, -⟩ := h.sleeping q hs
  · exact absurd rfl hq
  · exact hs

end

end Moved

namespace Inv

theorem awake {a} (h : Inv nproc pid s) (ha : s.pc p = a) (hne : a ≠ .sleepSched ∧ a ≠ .asleep) :
    s.state p ≠ .sleeping :=
  fun hs => (h.sleeping p hs).1.elim (fun hc => hne.1 (ha.symm.trans hc)) fun hc => hne.2 (ha.symm.trans hc)

theorem lk_unique (h : Inv nproc pid s) (hp : (s.pc p).hasLk = true) (hq : (s.pc q).hasLk = true) : p = q :=
  Option.some.inj (((h.lk p).mp hp).symm.trans ((h.lk q).mp hq))

section

variable (hpid : Function.Injective pid) (h : Inv nproc pid s)
include hpid h

theorem holder_unique (hp : (s.pc p).holds = true) (hq : (s.pc q).holds = true) : p = q :=
  hpid ((h.holder p hp).2.symm.trans (h.holder q hq).2)

theorem holdingsleep_iff :
    s.holdingsleep (pid p) = true ↔ (s.pc p).holds = true := by
  rw [Sys.holdingsleep, Bool.and_eq_true, beq_iff_eq]
  constructor
  · rintro ⟨hl, hp⟩
    obtain ⟨q, hq⟩ := h.held hl
    obtain rfl : q = p := hpid ((h.holder q hq).2.symm.trans hp)
    exact hq
  · exact h.holder p

theorem moved (hm : Moved nproc pid s t p b) (hp : p < nproc) :
    Inv nproc pid t where
  lk q := by
    by_cases hq : q = p
    · subst hq
      rw [hm.pc_self]
      rcases hm.lk with ⟨hb, hl⟩ | ⟨hb, -, hl⟩ | ⟨-, hb, hl⟩
      · rw [hb, hl]
        exact h.lk q
      · simp [hb, hl]
      · simp [hb, hl]
    · rw [hm.pc_ne hq, h.lk q]
      rcases hm.lk with ⟨-, hl⟩ | ⟨-, hs, hl⟩ | ⟨hb, -, hl⟩
      · rw [hl]
      · simp [hs, hl, Ne.symm hq]
      · simp [hl, (h.lk p).mp hb, Ne.symm hq]
  plock q := by
    by_cases hq : q = p
    · subst hq
      rw [hm.pc_self, hm.plock, update_self]
    · rw [hm.pc_ne hq, hm.plock, update_of_ne hq]
      exact h.plock q
  holder q hq := by
    by_cases hqp : q = p
    · subst hqp
      rw [hm.pc_self] at hq
      rcases hm.lock with ⟨hl, hi, hb⟩ | ⟨-, -, hl, hi⟩ | ⟨-, rfl, -⟩
      · rw [hl, hi]
        exact h.holder q (hb ▸ hq)
      · exact ⟨hl, hi⟩
      · cases hq
    rw [hm.pc_ne hqp] at hq
    have hold := h.holder q hq
    rcases hm.lock with ⟨hl, hi, -⟩ | ⟨ht, -⟩ | ⟨hc, -⟩
    · rwa [hl, hi]
    · rw [h.take p ht] at hold
      cases hold.1
    · exact absurd (h.holder_unique hpid hq (by rw [hc]; rfl)) hqp
  held hl := by
    rcases hm.lock with ⟨hs, -, hb⟩ | ⟨-, hb, -⟩ | ⟨-, -, hf⟩
    · obtain ⟨q, hq⟩ := h.held (hs ▸ hl)
      by_cases hqp : q = p
      · exact ⟨p, by rw [hm.pc_self, hb, ← hqp, hq]⟩
      · exact ⟨q, by rw [hm.pc_ne hqp, hq]⟩
    · exact ⟨p, by rw [hm.pc_self, hb]⟩
    · rw [hf] at hl
      cases hl
  take q hq := by
    by_cases hqp : q = p
    · subst hqp
      exact hm.take (hm.pc_self.symm.trans hq)
    rw [hm.pc_ne hqp] at hq
    rcases hm.lock with ⟨hs, -⟩ | ⟨ht, -⟩ | ⟨-, -, hf⟩
    · rw [hs]
      exact h.take q hq
    · exact absurd (h.lk_unique (by rw [hq]; rfl) (by rw [ht]; rfl)) hqp
    · exact hf
  answer q mine r hq := by
    by_cases hqp : q = p
    · subst hqp
      exact hm.answer mine r (hm.pc_self.symm.trans hq)
    · exact h.answer q mine r (hm.pc_ne hqp ▸ hq)
  sleeping q hq := by
    obtain ⟨rfl, hb, hc⟩ | ⟨hqp, hs, hc⟩ := hm.sleeping q hq
    · rw [hm.pc_self]
      exact ⟨hb, hc⟩
    · rw [hm.pc_ne hqp, hc]
      exact h.sleeping q hs
  range q hq := by
    obtain hq | ⟨rfl, -⟩ := hm.waiting hq
    · exact h.range q hq
    · exact hp
  waiter q hq := by
    obtain hw | ⟨-, hl⟩ := hm.waiting hq
    swap
    · exact .inl hl
    obtain hl | ⟨r, k, hr, hk⟩ := h.waiter q hw
    · rcases hm.lock with ⟨hs, -⟩ | ⟨-, -, ht, -⟩ | ⟨-, rfl, -⟩
      · exact .inl (hs.trans hl)
      · exact .inl ht
      · exact .inr ⟨p, 0, hm.pc_self, Nat.zero_le q⟩
    by_cases hrp : r = p
    · subst hrp
      -- 起こす者が一つ進んでも、`q` はまだ先にいる。
      obtain ⟨rfl, hk'⟩ | hend := hm.wake k hr
      · have hne : k ≠ q := by
          rintro rfl
          exact hk' hq
        exact .inr ⟨r, k + 1, hm.pc_self, by omega⟩
      · have := h.range q hw
        omega
    · exact .inr ⟨r, k, (hm.pc_ne hrp).trans hr, hk⟩

end

theorem kill (h : Inv nproc pid s) (k : Nat) : Inv nproc pid (s.kill k) := by
  rw [Sys.kill]
  split
  case isFalse => exact h
  case isTrue =>
    have hsleep : ∀ q, (s.row k .runnable (s.chan k)).state q = .sleeping → s.state q = .sleeping := by
      intro q hq
      obtain ⟨-, hq⟩ | ⟨-, hq⟩ := update_cases (P := fun x => x = ProcState.sleeping) hq
      · cases hq
      · exact hq
    have hchan : (s.row k .runnable (s.chan k)).chan = s.chan := update_eq_self ..
    have hwait : ∀ q, (s.row k .runnable (s.chan k)).Waiting q → s.Waiting q := fun q hq => hq.imp_right (hsleep q)
    refine ⟨h.lk, h.plock, h.holder, h.held, h.take, h.answer, fun q hq => ?_,
      fun q hq => h.range q (hwait q hq), fun q hq => h.waiter q (hwait q hq)⟩
    rw [hchan]
    exact h.sleeping q (hsleep q hq)

end Inv

/-! ## 位置ごとの一歩 -/

structure Quiet (s : Sys) (a b : Pc) : Prop where
  holds : b.holds = a.holds
  take : b = .take → s.locked = false
  answer : ∀ mine r, b = .askLeave mine r → r = mine
  sleep : a = .sleepSched ∨ a = .asleep → b = .asleep
  falling : b.falling = true → a.falling = true ∨ s.locked = true

namespace Moved

variable {a : Pc}

section

variable (h : Inv nproc pid s) (ha : s.pc p = a)
include h ha

theorem quiet (hab : Quiet s a b) (hpc : t.pc = update s.pc p b)
    (hplock : t.plock = update s.plock p b.hasPlock)
    (hlk : (b.hasLk = a.hasLk ∧ t.lk = s.lk) ∨ (b.hasLk = true ∧ s.lk = none ∧ t.lk = some p) ∨
      (a.hasLk = true ∧ b.hasLk = false ∧ t.lk = none))
    (hlock : t.locked = s.locked ∧ t.pid = s.pid) (hstate : t.state = s.state ∧ t.chan = s.chan)
    (hwake : ∀ k, a = .wake k → (b = .wake (k + 1) ∧ ¬t.Waiting k) ∨ nproc ≤ k) : Moved nproc pid s t p b := by
  subst ha
  refine ⟨hpc, hlk, hplock, .inl ⟨hlock.1, hlock.2, hab.holds⟩, fun hb => hlock.1.trans (hab.take hb), hab.answer, ?_, ?_,
    hwake⟩
  · intro q hq
    rw [hstate.1] at hq
    rw [hstate.2]
    by_cases hqp : q = p
    · subst hqp
      obtain ⟨hs, hc⟩ := h.sleeping q hq
      exact .inl ⟨rfl, .inr (hab.sleep hs), hc⟩
    · exact .inr ⟨hqp, hq, rfl⟩
  · rintro (hb | hs)
    · exact (hab.falling hb).imp .inl fun hl => hlock.1.trans hl
    · exact .inl (.inr (hstate.1 ▸ hs))

theorem plock_same (hb : b.hasPlock = a.hasPlock) :
    s.plock = update s.plock p b.hasPlock := by
  rw [hb, ← ha, ← h.plock p, update_eq_self]

theorem goto (hab : Quiet s a b) (hlk : b.hasLk = a.hasLk) (hplock : b.hasPlock = a.hasPlock)
    (hwake : ∀ k, a = .wake k → (b = .wake (k + 1) ∧ ¬(s.goto p b).Waiting k) ∨ nproc ≤ k) :
    Moved nproc pid s (s.goto p b) p b :=
  quiet h ha hab rfl (plock_same (s := s) h ha hplock) (.inl ⟨hlk, rfl⟩) ⟨rfl, rfl⟩ ⟨rfl, rfl⟩ hwake

theorem acquire (hab : Quiet s a b) (hlk : b.hasLk = true)
    (hplock : b.hasPlock = a.hasPlock) (hwake : ∀ k, a ≠ .wake k) (ht : s.acquire p b = some t) :
    Moved nproc pid s t p b := by
  rw [Sys.acquire] at ht
  split at ht
  case isTrue hfree =>
    cases ht
    exact quiet h ha hab rfl (plock_same (s := s) h ha hplock) (.inr (.inl ⟨hlk, hfree, rfl⟩)) ⟨rfl, rfl⟩ ⟨rfl, rfl⟩
      fun k hk => absurd hk (hwake k)
  case isFalse => cases ht

theorem release (hab : Quiet s a b) (hlk : a.hasLk = true ∧ b.hasLk = false)
    (hplock : b.hasPlock = a.hasPlock) (hwake : ∀ k, a ≠ .wake k) :
    Moved nproc pid s ((s.own none).goto p b) p b :=
  quiet h ha hab rfl (plock_same (s := s) h ha hplock) (.inr (.inr ⟨hlk.1, hlk.2, rfl⟩)) ⟨rfl, rfl⟩ ⟨rfl, rfl⟩
    fun k hk => absurd hk (hwake k)

theorem hold {x} (hab : Quiet s a b) (hlk : b.hasLk = a.hasLk)
    (hx : x = b.hasPlock) (hwake : ∀ k, a ≠ .wake k) : Moved nproc pid s ((s.hold p x).goto p b) p b :=
  quiet h ha hab rfl (congrArg (update s.plock p) hx) (.inl ⟨hlk, rfl⟩) ⟨rfl, rfl⟩ ⟨rfl, rfl⟩ fun k hk =>
    absurd hk (hwake k)

theorem set {x n} (hawake : a ≠ .sleepSched ∧ a ≠ .asleep)
    (hlk : b.hasLk = a.hasLk) (hplock : b.hasPlock = a.hasPlock)
    (hlock : (a = .take ∧ b = .leave ∧ x = true ∧ n = pid p) ∨ (a = .clear ∧ b = .wake 0 ∧ x = false)) :
    Moved nproc pid s ((s.set x n).goto p b) p b := by
  subst ha
  have hs := h.awake rfl hawake
  refine ⟨rfl, .inl ⟨hlk, rfl⟩, plock_same (s := s) h rfl hplock, .inr (hlock.imp_left fun hc => ?_), ?_, ?_, ?_, ?_, ?_⟩
  · exact ⟨hc.1, by rw [hc.2.1]; rfl, hc.2.2⟩
  · rintro rfl
    rcases hlock with ⟨-, hb, -⟩ | ⟨-, hb, -⟩ <;> cases hb
  · rintro mine r rfl
    rcases hlock with ⟨-, hb, -⟩ | ⟨-, hb, -⟩ <;> cases hb
  · exact fun q hq => .inr ⟨fun hqp => hs (hqp ▸ hq), hq, rfl⟩
  · rintro (hb | hc)
    · rcases hlock with ⟨-, rfl, -⟩ | ⟨-, rfl, -⟩ <;> cases hb
    · exact absurd hc hs
  · intro k hk
    rcases hlock with ⟨ha, -⟩ | ⟨ha, -⟩ <;> cases ha.symm.trans hk

end

end Moved

theorem Inv.wakeup_awake (h : Inv nproc pid s) (k : Nat) : (s.wakeup k).state k ≠ .sleeping := by
  rw [Sys.wakeup]
  split
  case isTrue => simp
  case isFalse hn => exact fun hs => hn ⟨hs, (h.sleeping k hs).2⟩

theorem wakeup_sleeping {k} (hq : (s.wakeup k).state q = .sleeping) :
    s.state q = .sleeping ∧ (s.wakeup k).chan q = s.chan q := by
  revert hq
  rw [Sys.wakeup]
  split
  case isTrue =>
    intro hq
    obtain ⟨-, hq⟩ | ⟨hne, hq⟩ := update_cases (P := fun x => x = ProcState.sleeping) hq
    · cases hq
    · exact ⟨hq, update_of_ne hne ..⟩
  case isFalse => exact fun hq => ⟨hq, rfl⟩

theorem wakeup_pc (k : Nat) : (s.wakeup k).pc = s.pc := by
  rw [Sys.wakeup]
  split <;> rfl

theorem Inv.wake (h : Inv nproc pid s) {k} (ha : s.pc p = .wake k) (hk : k ≠ p) (hfree : s.plock k = false) :
    Moved nproc pid s ((s.wakeup k).goto p (.wake (k + 1))) p (.wake (k + 1)) := by
  have hsame : (s.wakeup k).lk = s.lk ∧ (s.wakeup k).plock = s.plock ∧ (s.wakeup k).locked = s.locked ∧
      (s.wakeup k).pid = s.pid := by
    rw [Sys.wakeup]
    split <;> exact ⟨rfl, rfl, rfl, rfl⟩
  obtain ⟨hlk, hplock, hlocked, hpid⟩ := hsame
  have hawake := h.awake ha (by simp)
  -- `p->lock` を持たず、`lk->lk` も持たないので、欄 `k` は眠る途中でない。
  have hk' : (s.pc k).falling = false := by
    have h1 : (s.pc k).hasPlock = false := (h.plock k).symm.trans hfree
    have h2 : (s.pc k).hasLk = false := Bool.eq_false_iff.mpr fun hc => hk (h.lk_unique hc (by rw [ha]; rfl))
    cases hpk : s.pc k <;> rw [hpk] at h1 h2 <;>
      first | rfl | exact absurd h1 (by decide) | exact absurd h2 (by decide)
  refine ⟨?_, .inl ⟨by rw [ha]; rfl, hlk⟩, ?_, .inl ⟨hlocked, hpid, by rw [ha]; rfl⟩, nofun, nofun, ?_, ?_, ?_⟩
  · exact congrArg (update · p _) (wakeup_pc k)
  · exact hplock.trans (Moved.plock_same h ha rfl)
  · intro q hq
    obtain ⟨hs, hc⟩ := wakeup_sleeping hq
    exact .inr ⟨fun hqp => hawake (hqp ▸ hs), hs, hc⟩
  · rintro (hb | hs)
    · cases hb
    · exact absurd (wakeup_sleeping hs).1 hawake
  intro j hj
  cases ha.symm.trans hj
  refine .inl ⟨rfl, ?_⟩
  rintro (hf | hs)
  · rw [Sys.goto_pc, update_of_ne hk, wakeup_pc, hk'] at hf
    cases hf
  · exact h.wakeup_awake k hs

theorem row_sleeping {x c} (hx : x ≠ .sleeping) {q}
    (hq : (s.row p x c).state q = .sleeping) : q ≠ p ∧ s.state q = .sleeping ∧ (s.row p x c).chan q = s.chan q := by
  obtain ⟨-, hq⟩ | ⟨hne, hq⟩ := update_cases (P := fun y => y = ProcState.sleeping) hq
  · exact absurd hq hx
  · exact ⟨hne, hq, update_of_ne hne ..⟩

theorem Moved.dispatch (ha : s.pc p = .asleep) :
    Moved nproc pid s (((s.row p .running (s.chan p)).hold p true).goto p .tidy) p .tidy := by
  have hx : ProcState.running ≠ .sleeping := by decide
  refine ⟨rfl, .inl ⟨by rw [ha]; rfl, rfl⟩, rfl, .inl ⟨rfl, rfl, by rw [ha]; rfl⟩, nofun, nofun,
    fun q hq => .inr (row_sleeping hx hq), ?_, fun k hk => by cases ha.symm.trans hk⟩
  rintro (hb | hs)
  · cases hb
  · exact absurd rfl (row_sleeping (c := s.chan p) hx hs).1

theorem Inv.run (hpid : Function.Injective pid) (h : Inv nproc pid s) (hr : run nproc pid s p = some t) :
    ∃ b, Moved nproc pid s t p b := by
  rw [Sleeplock.run] at hr
  generalize ha : s.pc p = a at hr
  cases a with
  | out | held | asleep =>
    dsimp only at hr
    cases hr
  | enter | again =>
    dsimp only at hr
    exact ⟨.test, .acquire h ha ⟨rfl, nofun, nofun, by simp, nofun⟩ rfl rfl nofun hr⟩
  | test =>
    dsimp only at hr
    cases hr
    cases hl : s.locked with
    | true => exact ⟨_, .goto h ha ⟨rfl, nofun, nofun, by simp, fun _ => .inr hl⟩ rfl rfl nofun⟩
    | false => exact ⟨_, .goto h ha ⟨rfl, fun _ => hl, nofun, by simp, nofun⟩ rfl rfl nofun⟩
  | sleepEnter =>
    dsimp only at hr
    split at hr <;> cases hr
    exact ⟨_, .hold h ha ⟨rfl, nofun, nofun, by simp, fun _ => .inl rfl⟩ rfl rfl nofun⟩
  | sleepHeld =>
    dsimp only at hr
    cases hr
    exact ⟨_, .release h ha ⟨rfl, nofun, nofun, by simp, fun _ => .inl rfl⟩ ⟨rfl, rfl⟩ rfl nofun⟩
  | sleepFall =>
    dsimp only at hr
    cases hr
    refine ⟨.sleepSched, rfl, .inl ⟨by rw [ha]; rfl, rfl⟩, Moved.plock_same (s := s) h ha rfl,
      .inl ⟨rfl, rfl, by rw [ha]; rfl⟩, nofun, nofun, fun q hq => ?_, fun _ => .inl (.inl (by rw [ha]; rfl)), ?_⟩
    · obtain ⟨rfl, -⟩ | ⟨hne, hq⟩ := update_cases (P := fun y => y = ProcState.sleeping) hq
      · exact .inl ⟨rfl, .inl rfl, update_self ..⟩
      · exact .inr ⟨hne, hq, update_of_ne hne ..⟩
    · intro k hk
      cases ha.symm.trans hk
  | sleepSched =>
    dsimp only at hr
    cases hr
    exact ⟨_, .hold h ha ⟨rfl, nofun, nofun, fun _ => rfl, nofun⟩ rfl rfl nofun⟩
  | tidy =>
    dsimp only at hr
    cases hr
    have hx := h.awake ha (by simp)
    refine ⟨.again, rfl, .inl ⟨by rw [ha]; rfl, rfl⟩, rfl, .inl ⟨rfl, rfl, by rw [ha]; rfl⟩, nofun, nofun,
      fun q hq => .inr (row_sleeping hx hq), ?_, fun k hk => by cases ha.symm.trans hk⟩
    rintro (hb | hs)
    · cases hb
    · exact absurd rfl (row_sleeping (c := false) hx hs).1
  | take =>
    dsimp only at hr
    cases hr
    exact ⟨_, .set h ha (by simp) rfl rfl (.inl ⟨rfl, rfl, rfl, rfl⟩)⟩
  | leave =>
    dsimp only at hr
    cases hr
    exact ⟨_, .release h ha ⟨rfl, nofun, nofun, by simp, nofun⟩ ⟨rfl, rfl⟩ rfl nofun⟩
  | relEnter =>
    dsimp only at hr
    exact ⟨.clear, .acquire h ha ⟨rfl, nofun, nofun, by simp, nofun⟩ rfl rfl nofun hr⟩
  | clear =>
    dsimp only at hr
    cases hr
    exact ⟨_, .set h ha (by simp) rfl rfl (.inr ⟨rfl, rfl, rfl⟩)⟩
  | wake k =>
    dsimp only at hr
    split at hr
    case isTrue hk =>
      split at hr
      case isTrue hkp =>
        cases hr
        subst hkp
        -- 自分は飛ばす。
        refine ⟨_, .goto h ha ⟨rfl, nofun, nofun, by simp, nofun⟩ rfl rfl fun j hj => ?_⟩
        cases hj
        refine .inl ⟨rfl, ?_⟩
        rintro (hf | hs)
        · rw [Sys.goto_pc, update_self] at hf
          cases hf
        · exact h.awake ha (by simp) hs
      case isFalse hkp =>
        split at hr <;> cases hr
        exact ⟨_, h.wake ha hkp ‹_›⟩
    case isFalse hk =>
      cases hr
      exact ⟨_, .goto h ha ⟨rfl, nofun, nofun, by simp, nofun⟩ rfl rfl fun j hj => by cases hj; exact .inr (by omega)⟩
  | relLeave =>
    dsimp only at hr
    cases hr
    exact ⟨_, .release h ha ⟨rfl, nofun, nofun, by simp, nofun⟩ ⟨rfl, rfl⟩ rfl nofun⟩
  | askEnter mine =>
    dsimp only at hr
    exact ⟨.ask mine, .acquire h ha ⟨rfl, nofun, nofun, by simp, nofun⟩ rfl rfl nofun hr⟩
  | ask mine =>
    dsimp only at hr
    cases hr
    refine ⟨_, .goto h ha ⟨rfl, nofun, fun m r hm => ?_, by simp, nofun⟩ rfl rfl nofun⟩
    cases hm
    have := h.holdingsleep_iff hpid (p := p)
    rw [ha] at this
    exact Bool.eq_iff_iff.mpr this
  | askLeave mine r =>
    dsimp only at hr
    cases hr
    cases mine <;> exact ⟨_, .release h ha ⟨rfl, nofun, nofun, by simp, nofun⟩ ⟨rfl, rfl⟩ rfl nofun⟩

/-! ## 実行の全体 -/

theorem Inv.init (nproc : Nat) (pid : Nat → Nat) : Inv nproc pid init where
  lk _ := by simp [Sleeplock.init, Pc.hasLk]
  plock _ := rfl
  holder _ h := by cases h
  held h := by cases h
  take _ h := by cases h
  answer _ _ _ h := by cases h
  sleeping _ h := by cases h
  range _ h := by rcases h with h | h <;> cases h
  waiter _ h := by rcases h with h | h <;> cases h

theorem Inv.step {e} (hpid : Function.Injective pid) (h : Inv nproc pid s)
    (ht : step nproc pid s e = some (.ok t)) : Inv nproc pid t := by
  rw [Sleeplock.step] at ht
  split at ht
  case isFalse => cases ht
  case isTrue hp =>
  obtain ⟨t', hmove, heq⟩ := Option.map_eq_some_iff.mp ht
  cases heq
  cases e with
  | acquire p =>
    rw [move] at hmove
    split at hmove
    case isTrue ha =>
      cases hmove
      exact h.moved hpid (.goto (a := .out) h ha ⟨rfl, nofun, nofun, by simp, nofun⟩ rfl rfl nofun) hp
    case isFalse => cases hmove
  | release p =>
    rw [move] at hmove
    split at hmove
    case isTrue ha =>
      cases hmove
      exact h.moved hpid (.goto (a := .held) h ha ⟨rfl, nofun, nofun, by simp, nofun⟩ rfl rfl nofun) hp
    case isFalse => cases hmove
  | holding p =>
    rw [move] at hmove
    split at hmove
    case h_1 ha =>
      cases hmove
      exact h.moved hpid (.goto (a := .out) h ha ⟨rfl, nofun, nofun, by simp, nofun⟩ rfl rfl nofun) hp
    case h_2 ha =>
      cases hmove
      exact h.moved hpid (.goto (a := .held) h ha ⟨rfl, nofun, nofun, by simp, nofun⟩ rfl rfl nofun) hp
    case h_3 => cases hmove
  | run p =>
    obtain ⟨b, hm⟩ := h.run hpid hmove
    exact h.moved hpid hm hp
  | kill p =>
    rw [move] at hmove
    split at hmove
    case isTrue =>
      cases hmove
      exact h.kill p
    case isFalse => cases hmove
  | dispatch p =>
    rw [move] at hmove
    split at hmove
    case isTrue hc =>
      cases hmove
      exact h.moved hpid (.dispatch hc.2.1) hp
    case isFalse => cases hmove

theorem Inv.reaches (hpid : Function.Injective pid) (h : (Sleeplock.step nproc pid).Reaches Sleeplock.init s) :
    Inv nproc pid s :=
  h.inv (Inv nproc pid) (.init nproc pid) fun _ _ _ hu ht => hu.step hpid ht

def Pc.inside : Pc → Bool
  | .held | .relEnter => true
  | .askEnter mine | .ask mine | .askLeave mine _ => mine
  | _ => false

theorem Pc.holds_of_inside {a : Pc} (h : a.inside = true) : a.holds = true := by
  cases a <;> first | exact h | cases h

theorem Pc.holds_eq_inside {a : Pc} (h : a.hasLk = false) : a.holds = a.inside := by
  cases a <;> first | rfl | cases h

structure Exclusive (nproc : Nat) (pid : Nat → Nat) (s : Sys) : Prop where
  one : ∀ p q, (s.pc p).inside = true → (s.pc q).inside = true → p = q
  /-- `lk->lk` の空いているときの `holdingsleep` は、ロックを持つプロセスでだけ真である。 -/
  holding : s.lk = none → ∀ p, (s.holdingsleep (pid p) = true ↔ (s.pc p).inside = true)
  /-- `holdingsleep` の返す値は、ロックを持つプロセスでだけ真である。 -/
  answer : ∀ p mine r, s.pc p = .askLeave mine r → (r = true ↔ (s.pc p).inside = true)
  /-- 起こされないまま残る待ち手はない。 -/
  waiter : s.lk = none → s.locked = false → ∀ p, ¬(s.state p = .sleeping ∧ s.chan p = true)

/-- どの順序で進んでも、スリープロックは排他であり、待ち手は取り残されない。 -/
theorem sleeplock_exclusive (hpid : Function.Injective pid) (h : (step nproc pid).Reaches init s) :
    Exclusive nproc pid s := by
  have hinv := Inv.reaches hpid h
  refine ⟨fun p q hp hq => hinv.holder_unique hpid (Pc.holds_of_inside hp) (Pc.holds_of_inside hq),
    fun hfree p => ?_, fun p mine r hp => ?_, ?_⟩
  · rw [hinv.holdingsleep_iff hpid]
    have hno : (s.pc p).hasLk = false := Bool.eq_false_iff.mpr fun hc => by
      rw [(hinv.lk p).mp hc] at hfree
      cases hfree
    rw [Pc.holds_eq_inside hno]
  · rw [hinv.answer p mine r hp, hp, Pc.inside]
  rintro hfree hl p ⟨hs, -⟩
  obtain hc | ⟨q, k, hq, -⟩ := hinv.waiter p (.inr hs)
  · rw [hl] at hc
    cases hc
  · have := (hinv.lk q).mp (by rw [hq]; rfl)
    rw [hfree] at this
    cases this

def contended : List Event :=
  [.acquire 0, .run 0, .run 0, .run 0, .run 0, .acquire 1, .run 1, .run 1, .run 1, .run 1, .run 1, .run 1, .kill 1,
    .dispatch 1, .run 1, .release 0, .run 0, .run 0, .run 0, .run 0, .run 0, .run 0, .run 1, .run 1, .run 1, .run 1]

theorem sleeplock_exclusive_contended :
    ((step 2 id).final init contended).pc 1 = .held ∧ Exclusive 2 id ((step 2 id).final init contended) :=
  ⟨by decide, sleeplock_exclusive Function.injective_id (Machine.reaches_final _)⟩

end Xv6.Sleeplock
