import Xv6.Ptable.Lemmas.Pids

/-!
# プロセス表の定理
-/

namespace Xv6.Ptable

open Xv6.Vm (ProcState nproc)
open Xv6.Lib

variable {t t' : Table} {i p : Nat} {a : Alloc}

/-! ## kill -/

def KillsNamed (t : Table) (pid : Int) : Prop :=
  (∀ i, i < nproc → (t.procs i).state ≠ .unused → (t.procs i).pid = pid →
      kill t pid = (t.set i (t.procs i).kill, 0)) ∧
    ((∀ i, i < nproc → (t.procs i).state ≠ .unused → (t.procs i).pid ≠ pid) → kill t pid = (t, -1))

theorem killsNamed_iff (hfit : t.Fit) (hn : Numbered t) (pid : Int) :
    KillsNamed t pid ↔ (pid = 0 → ∀ i, i < nproc → (t.procs i).state ≠ .unused) := by
  constructor
  · rintro ⟨-, hnone⟩ rfl i hi hu
    have hkill := hnone fun j _ hj => ne_of_gt (hn.pid j hj).1
    unfold Ptable.kill at hkill
    split at hkill
    · simp at hkill
    · rename_i hf
      have := find_none hf hi
      simp [((hfit i).unused hu).1] at this
  intro hz
  have hlive : ∀ j, j < nproc → (t.procs j).pid = pid → (t.procs j).state ≠ .unused := by
    intro j hj hpid hu
    rw [((hfit j).unused hu).1] at hpid
    exact hz hpid.symm j hj hu
  unfold KillsNamed Ptable.kill
  split
  · rename_i j hf
    obtain ⟨hj, hpid⟩ := find_some hf
    simp only [decide_eq_true_eq] at hpid
    refine ⟨fun i hi hu hpi => ?_, fun hno => absurd hpid (hno j hj (hlive j hj hpid))⟩
    rw [hn.apart i j hu (hlive j hj hpid) (hpi.trans hpid.symm)]
  · rename_i hf
    refine ⟨fun i hi _ hpi => ?_, fun _ => rfl⟩
    have := find_none hf hi
    simp [hpi] at this

theorem allocproc_killed (h : allocproc t a = (t', some i)) :
    (t.procs i).state = .unused ∧ (t'.procs i).killed = (t.procs i).killed := by
  unfold allocproc at h
  cases hf : t.find fun p => p.state = .unused with
  | none => simp [hf] at h
  | some j =>
    have hu := (find_some hf).2
    simp only [decide_eq_true_eq] at hu
    simp only [hf] at h
    cases htf : a.trapframe with
    | none => simp [htf] at h
    | some tf =>
      cases hpg : a.pagetable with
      | none => simp [htf, hpg] at h
      | some pg =>
        simp only [htf, hpg, Prod.mk.injEq, Option.some.injEq] at h
        obtain ⟨rfl, rfl⟩ := h
        exact ⟨hu, by rw [set_self]; rfl⟩

/-- 番号が一周しない列では、`kill(pid)` が名指したプロセスだけを変えるのは、`pid` が零でないか空きの欄がないときに限る。 -/
theorem kill_only_named_iff (a₀ : Alloc) (root : Nat) (t : Table)
    (h : Machine.ReachesBy Table.step NoWrap (Table.boot a₀ root) t) :
    (∀ pid, KillsNamed t pid ↔ (pid = 0 → ∀ i, i < nproc → (t.procs i).state ≠ .unused)) ∧
      (Machine.ReachesBy Table.step NoKillUnused (Table.boot a₀ root) t →
        ∀ a t' i, allocproc t a = (t', some i) → (t'.procs i).killed = false) := by
  refine ⟨killsNamed_iff (.of_reaches h.reaches) (.of_reaches h), fun hk a t' i ha => ?_⟩
  obtain ⟨hu, hkilled⟩ := allocproc_killed ha
  rw [hkilled]
  exact Table.Unmarked.of_reaches hk i hu

def killChild : List Event :=
  [.schedule 0, .run 0 (.fork exampleAlloc), .run 0 (.kill 4)]

theorem killChild_run :
    ∃ t, Machine.exec Table.step (Table.boot exampleAlloc 1) killChild = some (.ok t) ∧
      (t.procs 1).killed = true ∧ (t.procs 1).pid = 4 ∧
        Machine.Along Table.step NoWrap (Table.boot exampleAlloc 1) killChild := by
  refine ⟨_, rfl, rfl, rfl, trivial, fun u hu => ?_⟩
  cases hu
  refine ⟨by simp only [NoWrap]; decide, fun u hu => ?_⟩
  cases hu
  exact ⟨trivial, fun _ _ => trivial⟩

theorem kill_only_named_iff_child :
    ∃ t, Machine.exec Table.step (Table.boot exampleAlloc 1) killChild = some (.ok t) ∧
      (t.procs 1).pid = 4 ∧ KillsNamed t 4 := by
  obtain ⟨t, ht, -, hpid, halong⟩ := killChild_run
  exact ⟨t, ht, hpid, ((kill_only_named_iff exampleAlloc 1 t ⟨killChild, ht, halong⟩).1 4).mpr fun h0 => absurd h0
      (by decide)⟩

/-- `kill(0)` は空きの欄に印を付けて `0` を返し、次に作られる子は初めから殺されている。 -/
theorem kill_zero_marks_next_child :
    ∃ t, Machine.exec Table.step (Table.boot exampleAlloc 1) [.schedule 0] = some (.ok t) ∧
      (∀ i, i < nproc → (t.procs i).state ≠ .unused → (t.procs i).pid ≠ 0) ∧ (kill t 0).2 = 0 ∧
      (((fork (kill t 0).1 0 exampleAlloc).1).procs 1).killed = true :=
  ⟨_, rfl, by decide, by decide, by decide⟩

/-! ## 欄の使い回し -/

theorem fork_child (hr : (t.procs p).state = .running) (hi : t.find (fun x => x.state = .unused) = some i)
    (ha : a.trapframe.isSome ∧ a.pagetable.isSome ∧ a.copied) :
    ∃ tf pg, a.trapframe = some tf ∧ a.pagetable = some pg ∧
      (fork t p a).1.procs i = child (t.procs i) (t.procs p) p a.forkret tf pg t.ticks t.nextpid := by
  have hf := fork_forked (a := a) (show (t.procs p).state ≠ .unused by simp [hr])
  generalize Ptable.fork t p a = r at hf
  cases hf with
  | full h =>
    rw [hi] at h
    cases h
  | failed _ _ _ hfail => rcases hfail with h | h | h <;> simp [h] at ha
  | @done j tf pg hj htf hpg _ =>
    rw [hi] at hj
    cases hj
    exact ⟨tf, pg, htf, hpg, set_self⟩

theorem child_eq_iff {x x' y forkret tf pg ticks nextpid} (h : x.Fit i) (h' : x'.Fit i)
    (hu : x.state = .unused) (hu' : x'.state = .unused) :
    child x y p forkret tf pg ticks nextpid = child x' y p forkret tf pg ticks nextpid ↔
      x.tracemask = x'.tracemask ∧ x.killed = x'.killed := by
  constructor
  · intro he
    have ht := congrArg Proc.tracemask he
    have hk := congrArg Proc.killed he
    exact ⟨ht, hk⟩
  · rintro ⟨ht, hk⟩
    obtain ⟨-, hchan, hx, -⟩ := h.unused hu
    obtain ⟨-, hchan', hx', -⟩ := h'.unused hu'
    simp only [child, Proc.copyFrom, Proc.setup, h.kstack, h'.kstack, h.closed (.inl hu), h'.closed (.inl hu'),
      hchan, hchan', hx, hx', ht, hk]

/-- 二つの履歴で着いた表から同じように子を作るとき、子が等しいのは、空きの欄に残った `tracemask` と `killed` が等しいとき、
かつそのときに限る。 -/
theorem fork_child_eq_iff (a₁ a₂ : Alloc) (root₁ root₂ : Nat) (t₁ t₂ : Table)
    (h₁ : Machine.Reaches Table.step (Table.boot a₁ root₁) t₁)
    (h₂ : Machine.Reaches Table.step (Table.boot a₂ root₂) t₂) (p i : Nat) (a : Alloc)
    (hp : t₁.procs p = t₂.procs p) (hr : (t₁.procs p).state = .running) (hnext : t₁.nextpid = t₂.nextpid)
    (hticks : t₁.ticks = t₂.ticks) (hi₁ : t₁.find (fun x => x.state = .unused) = some i)
    (hi₂ : t₂.find (fun x => x.state = .unused) = some i) (ha : a.trapframe.isSome ∧ a.pagetable.isSome ∧ a.copied) :
    (fork t₁ p a).1.procs i = (fork t₂ p a).1.procs i ↔
      (t₁.procs i).tracemask = (t₂.procs i).tracemask ∧ (t₁.procs i).killed = (t₂.procs i).killed := by
  obtain ⟨tf, pg, htf, hpg, e₁⟩ := fork_child hr hi₁ ha
  obtain ⟨tf', pg', htf', hpg', e₂⟩ := fork_child (hp ▸ hr) hi₂ ha
  cases htf.symm.trans htf'
  cases hpg.symm.trans hpg'
  rw [e₁, e₂, hp, hnext, hticks]
  exact child_eq_iff (Table.Fit.of_reaches h₁ i) (Table.Fit.of_reaches h₂ i)
    (by simpa using (find_some hi₁).2) (by simpa using (find_some hi₂).2)

def occupied (c : Call) : List Event :=
  [.schedule 0, .run 0 (.fork exampleAlloc), .schedule 1, .run 1 c, .run 1 (.exit 0), .run 0 (.wait true)]

theorem occupied_runs :
    ∃ t₁ t₂, Machine.exec Table.step (Table.boot exampleAlloc 1) (occupied (.grow 8192)) = some (.ok t₁) ∧
      Machine.exec Table.step (Table.boot exampleAlloc 1) (occupied .setkilled) = some (.ok t₂) ∧
      t₁.procs 0 = t₂.procs 0 ∧ (t₁.procs 0).state = .running ∧ t₁.nextpid = t₂.nextpid ∧ t₁.ticks = t₂.ticks ∧
      t₁.find (fun x => x.state = .unused) = some 1 ∧ t₂.find (fun x => x.state = .unused) = some 1 ∧
      (t₁.procs 1).tracemask = (t₂.procs 1).tracemask ∧ (t₁.procs 1).killed = (t₂.procs 1).killed :=
  ⟨_, _, rfl, rfl, by decide, by decide, by decide, by decide, by decide, by decide, by decide, by decide⟩

theorem fork_child_eq_iff_occupied :
    ∃ t₁ t₂, Machine.exec Table.step (Table.boot exampleAlloc 1) (occupied (.grow 8192)) = some (.ok t₁) ∧
      Machine.exec Table.step (Table.boot exampleAlloc 1) (occupied .setkilled) = some (.ok t₂) ∧
      (fork t₁ 0 exampleAlloc).1.procs 1 = (fork t₂ 0 exampleAlloc).1.procs 1 := by
  obtain ⟨t₁, t₂, h₁, h₂, hp, hr, hn, ht, hi₁, hi₂, hm, hk⟩ := occupied_runs
  exact ⟨t₁, t₂, h₁, h₂, (fork_child_eq_iff exampleAlloc exampleAlloc 1 1 t₁ t₂ ⟨_, h₁⟩ ⟨_, h₂⟩ 0 1 exampleAlloc
    hp hr hn ht hi₁ hi₂ (by decide)).mpr ⟨hm, hk⟩⟩

/-- 前の持ち主が `trace` を呼んでいれば、子はその印を受け継ぐ。 -/
theorem fork_child_inherits_tracemask :
    ∃ t₁ t₂, Machine.exec Table.step (Table.boot exampleAlloc 1) (occupied (.trace 2147483647)) = some (.ok t₁) ∧
      Machine.exec Table.step (Table.boot exampleAlloc 1) (occupied (.grow 8192)) = some (.ok t₂) ∧
      t₁.procs 0 = t₂.procs 0 ∧ t₁.nextpid = t₂.nextpid ∧ t₁.ticks = t₂.ticks ∧
      (fork t₁ 0 exampleAlloc).2 = 6 ∧ (fork t₂ 0 exampleAlloc).2 = 6 ∧
      ((fork t₁ 0 exampleAlloc).1.procs 1).tracemask = 2147483647 ∧
      ((fork t₂ 0 exampleAlloc).1.procs 1).tracemask = 0 :=
  ⟨_, _, rfl, rfl, by decide, by decide, by decide, by decide, by decide, by decide, by decide⟩

end Xv6.Ptable
