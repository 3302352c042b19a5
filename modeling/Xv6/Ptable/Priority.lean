import Xv6.Ptable.Calls

/-!
# 優先度の変更と一覧

`kernel/proc.c` の `chpr` と `cps` は、プロセス表 `proc` ではなく、同じ型の別の表 `ptable.proc` を読み書きする。
この表はほかのどの関数も触らない。
-/

namespace Xv6.Ptable

open Xv6.Vm (ProcState nproc)
open Xv6.Lib

def Proc.zero : Proc := { Proc.init 0 with kstack := 0 }

structure Prio where
  table : Table
  ptable : Nat → Proc

/-- `chpr`。見つかっても見つからなくても `pid` を返す。 -/
def chpr (ps : Nat → Proc) (pid priority : Int) : (Nat → Proc) × Int :=
  match (List.range nproc).find? fun i => (ps i).pid = pid with
  | some i => (update ps i { ps i with priority := priority }, pid)
  | none => (ps, pid)

def sysChpr (s : Prio) (pid pr : Int) : Prio × Int :=
  if pid < 0 then (s, -1)
  else if pr < 0 then (s, -1)
  else ({ s with ptable := (chpr s.ptable pid pr).1 }, (chpr s.ptable pid pr).2)

structure Row where
  name : List Char
  pid : Int
  state : ProcState
  priority : Int
  deriving DecidableEq

def Proc.Listed (p : Proc) : Prop := p.state = .sleeping ∨ p.state = .running ∨ p.state = .runnable

instance (p : Proc) : Decidable p.Listed := inferInstanceAs (Decidable (_ ∨ _))

def Proc.row (p : Proc) : Row := ⟨p.name, p.pid, p.state, p.priority⟩

def rows (ps : Nat → Proc) : List Row := ((List.range nproc).filter fun i => (ps i).Listed).map fun i => (ps i).row

def cps (s : Prio) : List Row := rows s.ptable

inductive PrioEvent
  | table (e : Event)
  | chpr (p : Nat) (pid pr : Int)

def Prio.step : Machine Prio PrioEvent := fun s e =>
  match e with
  | .table e => (Table.step s.table e).map fun r => r.map fun t => { s with table := t }
  | .chpr p pid pr =>
    if p < nproc ∧ (s.table.procs p).state = .running then some (.ok (sysChpr s pid pr).1) else none

def Prio.boot (a : Alloc) (root : Nat) : Prio := { table := Table.boot a root, ptable := fun _ => .zero }

/-- その番号のプロセスがあれば、その優先度だけが替わり、次の一覧に新しい優先度で載る。 -/
def TakesEffect (s : Prio) (pid pr : Int) : Prop :=
  ∀ i, i < nproc → (s.table.procs i).Listed → (s.table.procs i).pid = pid →
    ((sysChpr s pid pr).1.table.procs i).priority = pr ∧
      (∀ j, j ≠ i → ((sysChpr s pid pr).1.table.procs j).priority = (s.table.procs j).priority) ∧
        { (s.table.procs i).row with priority := pr } ∈ cps (sysChpr s pid pr).1

/-- その番号のプロセスがなければ、失敗を返して何も変えない。 -/
def Rejects (s : Prio) (pid pr : Int) : Prop :=
  (∀ i, i < nproc → (s.table.procs i).Listed → (s.table.procs i).pid ≠ pid) →
    (sysChpr s pid pr).2 = -1 ∧ (sysChpr s pid pr).1 = s

/-- 一覧は、プロセス表の眠っているか走れるプロセスと一致する。 -/
def Exact (s : Prio) : Prop := cps s = rows s.table.procs

/-! ## `ptable` は空のままである -/

def Prio.Vacant (s : Prio) : Prop := ∀ i, (s.ptable i).state = .unused

variable {s t : Prio} {pid pr : Int}

theorem chpr_state (ps : Nat → Proc) (pid pr : Int) (i : Nat) : ((chpr ps pid pr).1 i).state = (ps i).state := by
  unfold chpr
  split
  · rename_i j _
    by_cases hij : i = j
    · subst hij
      simp
    · simp [hij]
  · rfl

theorem sysChpr_table (s : Prio) (pid pr : Int) : (sysChpr s pid pr).1.table = s.table := by
  unfold sysChpr
  split
  · rfl
  · split <;> rfl

theorem Prio.Vacant.sysChpr (h : s.Vacant) (pid pr : Int) : (sysChpr s pid pr).1.Vacant := by
  intro i
  unfold Ptable.sysChpr
  split
  · exact h i
  · split
    · exact h i
    · exact (chpr_state ..).trans (h i)

theorem Prio.Vacant.step {e} (h : s.Vacant) (hs : Prio.step s e = some (.ok t)) : t.Vacant := by
  cases e with
  | table e =>
    cases hr : Table.step s.table e with
    | none => simp [Prio.step, hr] at hs
    | some r =>
      cases r with
      | error msg => simp [Prio.step, hr, Except.map] at hs
      | ok u =>
        simp only [Prio.step, hr, Option.map_some, Except.map, Option.some.injEq, Except.ok.injEq] at hs
        subst hs
        exact h
  | chpr p pid pr =>
    simp only [Prio.step] at hs
    split at hs
    · cases hs
      exact h.sysChpr pid pr
    · cases hs

theorem Prio.Vacant.of_reaches {a root} (h : Prio.step.Reaches (Prio.boot a root) s) : s.Vacant :=
  h.inv Prio.Vacant (fun _ => rfl) fun _ _ _ hu hs => hu.step hs

theorem rows_eq_nil_iff {ps} : rows ps = [] ↔ ∀ i, i < nproc → ¬(ps i).Listed := by
  simp [rows]

theorem Prio.Vacant.cps (h : s.Vacant) : cps s = [] :=
  rows_eq_nil_iff.mpr fun i _ hl => by
    rw [Proc.Listed, h i] at hl
    simp at hl

/-- `chpr` はプロセス表を変えず、一覧はいつも空である。変更が効くのはその番号のプロセスがないときに限り、一覧が表と一致す
るのは載せるべきプロセスがないときに限る。 -/
theorem chpr_cps_iff {a : Alloc} {root : Nat} (h : Prio.step.Reaches (Prio.boot a root) s) (hpid : 0 ≤ pid)
    (hpr : 0 ≤ pr) :
    (sysChpr s pid pr).1.table = s.table ∧
      (TakesEffect s pid pr ↔ ∀ i, i < nproc → (s.table.procs i).Listed → (s.table.procs i).pid ≠ pid) ∧
      (Rejects s pid pr ↔ ∃ i, i < nproc ∧ (s.table.procs i).Listed ∧ (s.table.procs i).pid = pid) ∧
      (Exact s ↔ ∀ i, i < nproc → ¬(s.table.procs i).Listed) := by
  have hv : s.Vacant := .of_reaches h
  have hret : (sysChpr s pid pr).2 = pid := by
    unfold sysChpr chpr
    rw [if_neg (by omega), if_neg (by omega)]
    split <;> rfl
  refine ⟨sysChpr_table s pid pr, ⟨fun hte i hi hl hp => ?_, fun hno i hi hl hp => absurd hp (hno i hi hl)⟩, ?_, ?_⟩
  · have hrow := (hte i hi hl hp).2.2
    rw [(hv.sysChpr pid pr).cps] at hrow
    cases hrow
  · constructor
    · intro hrej
      by_contra hno
      have hfail := (hrej fun i hi hl hp => hno ⟨i, hi, hl, hp⟩).1
      omega
    · rintro ⟨i, hi, hl, hp⟩ hno
      exact absurd hp (hno i hi hl)
  · rw [Exact, hv.cps, eq_comm, rows_eq_nil_iff]

def initRunning : Prio := Prio.step.final (Prio.boot exampleAlloc 1) [.table (.schedule 0)]

theorem chpr_cps_iff_initRunning :
    Prio.step.Reaches (Prio.boot exampleAlloc 1) initRunning ∧ TakesEffect initRunning 5 7 ∧ ¬Rejects initRunning 5 7 := by
  have hreach : Prio.step.Reaches (Prio.boot exampleAlloc 1) initRunning := Machine.reaches_final _
  have hnone : ∀ i, i < nproc → (initRunning.table.procs i).Listed → (initRunning.table.procs i).pid ≠ 5 := by
    decide +kernel
  have hiff := chpr_cps_iff hreach (by decide : (0 : Int) ≤ 5) (by decide : (0 : Int) ≤ 7)
  refine ⟨hreach, hiff.2.1.mpr hnone, fun hrej => ?_⟩
  obtain ⟨i, hi, hl, hp⟩ := hiff.2.2.1.mp hrej
  exact hnone i hi hl hp

/-- 最初のプロセスの優先度を 5 にしても 60 のままで、一覧には何も載らない。 -/
theorem chpr_leaves_init_priority :
    Prio.step.Reaches (Prio.boot exampleAlloc 1) initRunning ∧ (initRunning.table.procs 0).pid = 2 ∧
        (initRunning.table.procs 0).state = .running ∧
      (sysChpr initRunning 2 5).2 = 2 ∧ ((sysChpr initRunning 2 5).1.table.procs 0).priority = 60 ∧
        cps (sysChpr initRunning 2 5).1 = [] :=
  ⟨Machine.reaches_final _, by decide +kernel⟩

end Xv6.Ptable
