import Xv6.Ptable.Proc

/-!
# 到着順の選び方

`kernel/proc.c` の `scheduler` を `FCFS` で組んだときの、表を一回り見て選ぶループを定める。`create_time` はどの関数も
書かない欄であり、作られた時刻は `allocproc` が `ctime` に書く。
-/

namespace Xv6.Sched

open Xv6.Vm (ProcState nproc)

structure Slot where
  state : ProcState
  createTime : Int
  ctime : Nat

/-- 空の番地の `chosen` から `chosen->create_time` を読んだ欄の番号か、選んだ欄と持っているロック。 -/
abbrev Selected := Except Nat (Option Nat × (Nat → Bool))

/-- 選ぶループ。欄 `k` から `n` 個を見る。走れない欄では、ロックを放さずに進む。`if` の後の塊は条件によらない。 -/
def selectLoop (t : Nat → Slot) (k : Nat) (chosen : Option Nat) (held : Nat → Bool) : Nat → Selected
  | 0 => .ok (chosen, held)
  | n + 1 =>
    let held := Function.update held k true
    if (t k).state ≠ .runnable then selectLoop t (k + 1) chosen held n
    else
      match chosen with
      | none => .error k
      | some c =>
        let _chosen := if (t k).createTime < (t c).createTime then k else c
        selectLoop t (k + 1) (some k) (Function.update held k false) n

def select (t : Nat → Slot) : Selected := selectLoop t 0 none (fun _ => false) nproc

/-- 走れる欄のうち最も早く作られたものを選び、そのロックだけを持つ。なければ選ばない。 -/
def FirstCome (t : Nat → Slot) : Prop :=
  match select t with
  | .error _ => False
  | .ok (none, _) => ∀ i, i < nproc → (t i).state ≠ .runnable
  | .ok (some c, held) =>
    c < nproc ∧ (t c).state = .runnable ∧ (∀ i, i < nproc → (t i).state = .runnable → (t c).ctime ≤ (t i).ctime) ∧
      ∀ i, i < nproc → (held i = true ↔ i = c)

variable {t : Nat → Slot} {k n : Nat} {held : Nat → Bool}

theorem selectLoop_fault (held : Nat → Bool) (h : ∃ i, k ≤ i ∧ i < k + n ∧ (t i).state = .runnable) :
    ∃ i, k ≤ i ∧ i < k + n ∧ (t i).state = .runnable ∧ selectLoop t k none held n = .error i := by
  induction n generalizing k held with
  | zero =>
    obtain ⟨i, h1, h2, -⟩ := h
    omega
  | succ n ih =>
    simp only [selectLoop]
    split
    · rename_i hk
      have hrest : ∃ i, k + 1 ≤ i ∧ i < k + 1 + n ∧ (t i).state = .runnable := by
        obtain ⟨i, h1, h2, hi⟩ := h
        have hne : i ≠ k := fun he => hk (he ▸ hi)
        exact ⟨i, by omega, by omega, hi⟩
      obtain ⟨i, h1, h2, hi, hrun⟩ := ih _ hrest
      exact ⟨i, by omega, by omega, hi, hrun⟩
    · rename_i hk
      exact ⟨k, le_rfl, by omega, not_not.mp hk, rfl⟩

theorem selectLoop_none (held : Nat → Bool) (h : ∀ i, k ≤ i → i < k + n → (t i).state ≠ .runnable) :
    ∃ held', selectLoop t k none held n = .ok (none, held') ∧ (∀ i, k ≤ i → i < k + n → held' i = true) ∧
      ∀ i, held i = true → held' i = true := by
  induction n generalizing k held with
  | zero => exact ⟨held, rfl, fun i h1 h2 => by omega, fun _ hi => hi⟩
  | succ n ih =>
    simp only [selectLoop]
    rw [if_pos (h k le_rfl (by omega))]
    obtain ⟨held', hrun, hall, hkeep⟩ := ih (k := k + 1) (Function.update held k true) fun i h1 h2 =>
      h i (by omega) (by omega)
    refine ⟨held', hrun, fun i h1 h2 => ?_, fun i hi => hkeep i ?_⟩
    · by_cases hik : i = k
      · exact hkeep i (by rw [hik, Function.update_self])
      · exact hall i (by omega) (by omega)
    · by_cases hik : i = k
      · rw [hik, Function.update_self]
      · rw [Function.update_of_ne hik, hi]

/-- 走れる欄が一つでもあれば、空の番地を読む。到着順に選ぶのは走れる欄がないときに限り、そのときはすべての欄のロックを持
ったまま終える。 -/
theorem firstCome_iff (t : Nat → Slot) :
    (FirstCome t ↔ ∀ i, i < nproc → (t i).state ≠ .runnable) ∧
      ((∃ i, i < nproc ∧ (t i).state = .runnable) → ∃ i, i < nproc ∧ select t = .error i) ∧
      ((∀ i, i < nproc → (t i).state ≠ .runnable) →
        ∃ held, select t = .ok (none, held) ∧ ∀ i, i < nproc → held i = true) := by
  have hfault : (∃ i, i < nproc ∧ (t i).state = .runnable) → ∃ i, i < nproc ∧ select t = .error i := by
    rintro ⟨i, hi, hrun⟩
    obtain ⟨j, -, hj, -, herr⟩ := selectLoop_fault (t := t) (k := 0) (n := nproc) (fun _ => false)
      ⟨i, Nat.zero_le _, by omega, hrun⟩
    exact ⟨j, by omega, herr⟩
  have hnone : (∀ i, i < nproc → (t i).state ≠ .runnable) →
      ∃ held, select t = .ok (none, held) ∧ ∀ i, i < nproc → held i = true := by
    intro h
    obtain ⟨held, hrun, hall, -⟩ := selectLoop_none (t := t) (k := 0) (n := nproc) (fun _ => false)
      fun i _ hi => h i (by omega)
    exact ⟨held, hrun, fun i hi => hall i (Nat.zero_le _) (by omega)⟩
  refine ⟨⟨fun h i hi hrun => ?_, fun h => ?_⟩, hfault, hnone⟩
  · obtain ⟨j, -, herr⟩ := hfault ⟨i, hi, hrun⟩
    simp [FirstCome, herr] at h
  · obtain ⟨held, hrun, -⟩ := hnone h
    simpa [FirstCome, hrun] using h

def emptyTable : Nat → Slot := fun _ => ⟨.unused, 0, 0⟩

theorem firstCome_iff_emptyTable : FirstCome emptyTable :=
  (firstCome_iff emptyTable).1.mpr nofun

def oneRunnable : Nat → Slot := Function.update emptyTable 0 ⟨.runnable, 0, 1⟩

theorem oneRunnable_faults : (oneRunnable 0).state = .runnable ∧ select oneRunnable = .error 0 ∧
    ¬FirstCome oneRunnable := by
  have herr : select oneRunnable = .error 0 := rfl
  refine ⟨rfl, herr, fun h => ?_⟩
  simp [FirstCome, herr] at h

end Xv6.Sched
