import Xv6.Sched.Lemmas.Cpu

/-!
# スケジューラの定理
-/

namespace Xv6.Sched

open Xv6.Lib

variable {s : Sys} {c p : Nat} {a : Act}

theorem Act.engaged_of_cur (h : a.cur = some p) : a.engaged = some p := by
  cases a <;> first | exact h | cases h

theorem Inv.engaged (h : Inv s) (hc : s.cur c = some p) : (s.act c).engaged = some p :=
  Act.engaged_of_cur ((h.cur c).symm.trans hc)

theorem Act.cur_of_engaged (h : a.engaged = some p) (hl : a.held ≠ some p) : a.cur = some p := by
  cases a with
  | picking p => exact absurd h hl
  | _ => exact h

/-- 二つの CPU が同じプロセスを走らせることはない。ロックのないプロセスが `RUNNING` であるのは、ちょうど一つの CPU の
`c->proc` であるときに限る。スケジューラが移る先には戻り先がある。 -/
theorem one_cpu_per_process (h : step.Reaches boot s) :
    (∀ c d p, s.cur c = some p → s.cur d = some p → c = d) ∧
      (∀ p, s.lock p = none → ((s.proc p).state = .running ↔ ∃! c, s.cur c = some p)) ∧
      (∀ c p, s.act c = .chosen p → ∃ k, (s.proc p).context = some k ∧ k ≠ .sched .exit) := by
  have hinv : Inv s := .of_reaches h
  have huniq : ∀ c d p, s.cur c = some p → s.cur d = some p → c = d := fun c d p hc hd =>
    hinv.home.unique (hinv.engaged hc) (hinv.engaged hd)
  refine ⟨huniq, fun p hl => ⟨fun hr => ?_, fun hc => ?_⟩, fun c p hact => ?_⟩
  · cases hh : s.home p with
    | none => exact absurd hr (hinv.rest p hh).1
    | some c =>
      have he := (hinv.home p c).mp hh
      have hne : (s.act c).held ≠ some p := fun hp => by simp [(hinv.lock p c).mpr hp] at hl
      have hc : s.cur c = some p := (hinv.cur c).trans (Act.cur_of_engaged he hne)
      exact ⟨c, hc, fun d hd => huniq d c p hd hc⟩
  · obtain ⟨c, hc, -⟩ := hc
    have he := hinv.engaged hc
    exact (hinv.fits c p he).running he fun hp => by simp [(hinv.lock p c).mpr hp] at hl
  · have hf := hinv.fits c p (by rw [hact]; rfl)
    rw [hact] at hf
    exact hf.2

def wokenOnZero : Sys :=
  step.final boot (List.flatten [.replicate 5 ⟨1, .go⟩, [⟨1, .leave (.sleep 7)⟩], .replicate 4 ⟨1, .go⟩,
    [⟨0, .lock 0⟩, ⟨0, .op (.wakeup 7)⟩], .replicate 4 ⟨0, .go⟩])

theorem one_cpu_per_process_woken :
    wokenOnZero.act 0 = .chosen 0 ∧ wokenOnZero.cur 1 = none ∧
      ∃ k, (wokenOnZero.proc 0).context = some k ∧ k ≠ .sched .exit := by
  have hact : wokenOnZero.act 0 = .chosen 0 := by decide +kernel
  exact ⟨hact, by decide +kernel, (one_cpu_per_process (Machine.reaches_final _)).2.2 0 0 hact⟩

end Xv6.Sched
