import Xv6.Lib.Machine
import Xv6.Vm.Proc

/-!
# 走った時間と待った時間

`kernel/trap.c` の `clockintr` は、`ticks` を増やしてから `update_time` で表を順に見る。その間も、ほかの CPU では
プロセスが作られ、走り、終わる。`ticks` は `tickslock` を取らずに読まれる。
-/

namespace Xv6.Ptable.Clock

open Xv6.Vm (ProcState nproc)
open Xv6.Lib

/-- `struct proc` のうち、時間に関わる欄。`birth` は作られたときまでの割り込みの数の記録である。 -/
structure Slot where
  state : ProcState
  rtime : Nat
  ctime : Nat
  etime : Nat
  birth : Nat
  deriving DecidableEq

/-- `now` は割り込みの数で、`ticks` はその下位 32 ビットである。`scan` は `update_time` が次に見る欄である。 -/
structure Sys where
  procs : Nat → Slot
  now : Nat
  scan : Option Nat

def Sys.ticks (s : Sys) : Nat := s.now % 2 ^ 32

def Sys.set (s : Sys) (i : Nat) (x : Slot) : Sys := { s with procs := update s.procs i x }

/-- `move` は時間の欄に触れない移り変わり、`tick` は `ticks` を増やすこと、`charge` は `update_time` が欄を一つ見ること、
`done` は見終わることである。 -/
inductive Ev
  | allocproc (i : Nat)
  | move (i : Nat) (st : ProcState)
  | exit (i : Nat)
  | tick
  | charge
  | done

/-- `fork` の終わりと失敗、選ばれること、譲ること、眠ること、起こされること、`wait` に集められること。 -/
def Moves : ProcState → ProcState → Bool
  | .used, .runnable => true
  | .used, .unused => true
  | .runnable, .running => true
  | .running, .runnable => true
  | .running, .sleeping => true
  | .sleeping, .runnable => true
  | .zombie, .unused => true
  | _, _ => false

def step : Machine Sys Ev := fun s e =>
  match e with
  | .allocproc i =>
    if i < nproc ∧ (s.procs i).state = .unused then
      some (.ok (s.set i ⟨.used, 0, s.ticks, 0, s.now⟩))
    else none
  | .move i st =>
    if i < nproc ∧ Moves (s.procs i).state st then some (.ok (s.set i { s.procs i with state := st })) else none
  | .exit i =>
    if i < nproc ∧ (s.procs i).state = .running then
      some (.ok (s.set i { s.procs i with state := .zombie, etime := s.ticks }))
    else none
  | .tick => if s.scan = none then some (.ok { s with now := s.now + 1, scan := some 0 }) else none
  | .charge =>
    match s.scan with
    | none => none
    | some k =>
      if k < nproc then
        let x := s.procs k
        let x := if x.state = .running then { x with rtime := (x.rtime + 1) % 2 ^ 32 } else x
        some (.ok { s.set k x with scan := some (k + 1) })
      else none
  | .done => if s.scan = some nproc then some (.ok { s with scan := none }) else none

def boot : Sys := { procs := fun _ => ⟨.unused, 0, 0, 0, 0⟩, now := 0, scan := none }

def Slot.life (x : Slot) : Nat := (x.etime + 2 ^ 32 - x.ctime) % 2 ^ 32

def Slot.wtime (x : Slot) : Nat := (x.etime + 2 * 2 ^ 32 - x.ctime - x.rtime) % 2 ^ 32

/-- 表を見る途中でまだ見られていない欄にはプロセスは作られず、`2 ^ 32` 回の割り込みより長く生きない。 -/
def Timely (s : Sys) : Ev → Prop
  | .allocproc i => ∀ k, s.scan = some k → i < k
  | .tick => ∀ i, i < nproc → (s.procs i).state ≠ .unused → (s.procs i).state ≠ .zombie → s.now + 1 -
      (s.procs i).birth < 2 ^ 32
  | _ => True

/-! ## 不変条件 -/

variable {s t : Sys} {i : Nat}

def Sys.pending (s : Sys) (i : Nat) : Nat :=
  match s.scan with
  | some k => if k ≤ i then 1 else 0
  | none => 0

/-- 生きている間、走った時間は、作られてから見られた割り込みの数を超えない。 -/
structure Charged (x : Slot) (now pending : Nat) : Prop where
  live : x.state ≠ .unused → x.state ≠ .zombie →
    x.birth ≤ now ∧ x.rtime + pending ≤ now - x.birth ∧ now - x.birth < 2 ^ 32 ∧ x.ctime = x.birth % 2 ^ 32
  dead : x.state = .zombie → x.ctime < 2 ^ 32 ∧ x.rtime ≤ x.life

def Inv (s : Sys) : Prop := ∀ i, i < nproc → Charged (s.procs i) s.now (s.pending i)

theorem Charged.move {x now pending st} (h : Charged x now pending) (hm : Moves x.state st = true) :
    Charged { x with state := st } now pending := by
  cases hx : x.state <;> cases st <;> simp only [hx, Moves, Bool.false_eq_true] at hm
  all_goals
    refine ⟨fun h1 h2 => ?_, fun hz => ?_⟩
    · first
        | exact h.live (by rw [hx]; decide) (by rw [hx]; decide)
        | exact absurd rfl h1
    · cases hz

theorem Charged.exit {x now pending} (h : Charged x now pending) (hr : x.state = .running) :
    Charged { x with state := .zombie, etime := now % 2 ^ 32 } now pending where
  live _ h2 := absurd rfl h2
  dead _ := by
    obtain ⟨h1, h2, h3, h4⟩ := h.live (by rw [hr]; decide) (by rw [hr]; decide)
    simp only [Slot.life, h4]
    exact ⟨Nat.mod_lt _ (by decide), by omega⟩

theorem Charged.tick {x now} (h : Charged x now 0)
    (hage : x.state ≠ .unused → x.state ≠ .zombie → now + 1 - x.birth < 2 ^ 32) : Charged x (now + 1) 1 where
  live h1 h2 := by
    obtain ⟨g1, g2, -, g4⟩ := h.live h1 h2
    exact ⟨by omega, by omega, hage h1 h2, g4⟩
  dead := h.dead

theorem Charged.charge {x now} (h : Charged x now 1) :
    Charged (if x.state = .running then { x with rtime := (x.rtime + 1) % 2 ^ 32 } else x) now 0 := by
  split
  · rename_i hr
    obtain ⟨g1, g2, g3, g4⟩ := h.live (by rw [hr]; decide) (by rw [hr]; decide)
    refine ⟨fun _ _ => ⟨g1, ?_, g3, g4⟩, fun hz => ?_⟩
    · simp only
      omega
    · simp [hr] at hz
  · refine ⟨fun h1 h2 => ?_, h.dead⟩
    obtain ⟨g1, g2, g3, g4⟩ := h.live h1 h2
    exact ⟨g1, by omega, g3, g4⟩

theorem Inv.set (h : Inv s) {x} (hx : Charged x s.now (s.pending i)) : Inv (s.set i x) := by
  intro j hj
  change Charged (update s.procs i x j) s.now (s.pending j)
  by_cases hji : j = i
  · rw [hji, update_self]
    exact hx
  · rw [update_of_ne hji]
    exact h j hj

theorem Inv.step {e} (h : Inv s) (hc : Timely s e) (hs : step s e = some (.ok t)) : Inv t := by
  cases e with
  | allocproc i =>
    simp only [Clock.step] at hs
    split at hs
    · cases hs
      refine h.set ⟨fun _ _ => ⟨le_rfl, ?_, by simp, rfl⟩, nofun⟩
      have hp : s.pending i = 0 := by
        unfold Sys.pending
        split
        · rename_i k hk
          have := hc k hk
          rw [if_neg (by omega)]
        · rfl
      simp [hp]
    · cases hs
  | move i st =>
    simp only [Clock.step] at hs
    split at hs
    · rename_i hg
      cases hs
      exact h.set ((h i hg.1).move hg.2)
    · cases hs
  | exit i =>
    simp only [Clock.step] at hs
    split at hs
    · rename_i hg
      cases hs
      exact h.set ((h i hg.1).exit hg.2)
    · cases hs
  | tick =>
    simp only [Clock.step] at hs
    split at hs
    · rename_i hn
      cases hs
      intro j hj
      have hj' := h j hj
      rw [Sys.pending, hn] at hj'
      exact hj'.tick (hc j hj)
    · cases hs
  | charge =>
    simp only [Clock.step] at hs
    split at hs
    · cases hs
    rename_i k hk
    split at hs
    · rename_i hlt
      cases hs
      intro j hj
      have hj' := h j hj
      simp only [Sys.pending, hk, Sys.set] at hj' ⊢
      by_cases hjk : j = k
      · subst hjk
        rw [if_pos le_rfl] at hj'
        rw [update_self, if_neg (Nat.not_succ_le_self j)]
        exact hj'.charge
      rw [update_of_ne hjk]
      by_cases hle : k ≤ j
      · rw [if_pos hle] at hj'
        rwa [if_pos (by omega)]
      · rw [if_neg hle] at hj'
        rwa [if_neg (by omega)]
    · cases hs
  | done =>
    simp only [Clock.step] at hs
    split at hs
    · rename_i hn
      cases hs
      intro j hj
      have hj' := h j hj
      rw [Sys.pending, hn] at hj'
      simp only [if_neg (Nat.not_le.mpr hj)] at hj'
      exact hj'
    · cases hs

/-- 条件を満たす歩だけで着く状態では、走った時間は生きた時間を超えず、`waitx` の返す待ち時間は桁あふれしない。 -/
theorem waiting_time_exact (h : step.ReachesBy Timely boot s) (hi : i < nproc) (hz : (s.procs i).state = .zombie) :
    (s.procs i).rtime ≤ (s.procs i).life ∧ (s.procs i).wtime = (s.procs i).life - (s.procs i).rtime := by
  have hinv : Inv s := h.inv Inv (fun j _ => ⟨fun h1 => absurd rfl h1, nofun⟩) fun _ _ _ hu hc hs =>
    hu.step hc hs
  obtain ⟨hlt, hle⟩ := (hinv i hi).dead hz
  refine ⟨hle, ?_⟩
  simp only [Slot.life, Slot.wtime] at *
  omega

/-! ## 例 -/

def timelyRun : List Ev :=
  List.flatten [[.allocproc 0, .move 0 .runnable, .move 0 .running, .tick], List.replicate nproc .charge,
    [.done, .allocproc 1, .move 1 .runnable, .move 1 .running, .tick], List.replicate nproc .charge, [.done, .exit 1]]

def timely (s : Sys) : Ev → Bool
  | .allocproc i => (s.scan.getD (i + 1)) > i
  | .tick => s.now < 2
  | _ => true

theorem timely_sound {e} (h : timely s e = true) : Timely s e := by
  cases e with
  | allocproc i =>
    intro k hk
    simpa [timely, hk] using h
  | tick =>
    intro i _ _ _
    simp only [timely, decide_eq_true_eq] at h
    omega
  | _ => trivial

theorem waiting_time_exact_child : ∃ s, step.ReachesBy Timely boot s ∧ (s.procs 1).state = .zombie ∧
    (s.procs 1).rtime ≤ (s.procs 1).life := by
  have htest : step.test timely boot (fun s => (s.procs 1).state = .zombie) timelyRun = true := by decide +kernel
  obtain ⟨s, hr, hz⟩ := Machine.reachesBy_of_test htest
  have hz : (s.procs 1).state = .zombie := by simpa using hz
  have hr : step.ReachesBy Timely boot s :=
    hr.weaken (fun _ => True) trivial (fun _ _ _ _ _ _ => trivial) fun _ _ _ => timely_sound
  exact ⟨s, hr, hz, (waiting_time_exact hr (by decide) hz).1⟩

def racingRun : List Ev :=
  [.allocproc 0, .move 0 .runnable, .move 0 .running, .tick, .charge, .allocproc 1, .move 1 .runnable, .move 1 .running,
    .charge, .exit 1]

/-- 子の走った時間は 1 なのに、生きた時間は 0 で、待ち時間は `2 ^ 32 - 1` になる。 -/
theorem racing_child_wraps : ∃ s, step.Reaches boot s ∧ (s.procs 1).state = .zombie ∧ (s.procs 1).rtime = 1 ∧
    (s.procs 1).life = 0 ∧ (s.procs 1).wtime = 2 ^ 32 - 1 :=
  ⟨step.final boot racingRun, Machine.reaches_final _, by decide +kernel⟩

end Xv6.Ptable.Clock
