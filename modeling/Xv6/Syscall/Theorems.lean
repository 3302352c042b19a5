import Xv6.Syscall.Dispatch

/-!
# システムコールの追跡の定理
-/

namespace Xv6.Syscall

open Xv6.Lib

variable {s t : Sys} {e : Event} {p : Task} {f : Frame} {o : Outcome} {n : Int} {d : Task × Frame × List Line}

/-! ## 一度の呼び出し -/

theorem report_task : (report n d).1 = d.1 := by
  simp only [report]
  split <;> rfl

theorem dispatch_trace (h : syscalls n = some .trace) : (dispatch n p f o).1 = { p with tracemask := toInt (f.a 0) } := by
  simp only [dispatch, call, h, sysTrace]

theorem dispatch_of_ne (h : syscalls n ≠ some .trace) : (dispatch n p f o).1 = p := by
  simp only [dispatch, call]
  split
  · exact absurd ‹_› h
  · rfl
  · rfl

theorem after_task : (s.after e).task = { s.task with tracemask := e.mask.getD s.task.tracemask } := by
  have ha : (s.after e).task = (dispatch e.num s.task e.frame e.outcome).1 := report_task
  rw [ha, Event.mask]
  by_cases h : syscalls e.num = some .trace
  · rw [dispatch_trace h, if_pos h, Option.getD_some]
  · rw [dispatch_of_ne h, if_neg h, Option.getD_none]

theorem after_tracemask : (s.after e).task.tracemask = e.mask.getD s.task.tracemask := by rw [after_task]

theorem not_traced_dispatch {pid name args ret} :
    Line.traced pid name args ret ∉ (dispatch n p f o).2.2 := by
  simp only [dispatch, call]
  split <;> simp

theorem traced_report (hd : ∀ pid name args ret, Line.traced pid name args ret ∉ d.2.2) :
    (∃ pid name args ret, Line.traced pid name args ret ∈ (report n d).2.2) ↔ sra d.1.tracemask n ≠ 0 := by
  simp only [report]
  split
  case isTrue h => exact iff_of_true ⟨_, _, _, _, List.mem_append_right _ (List.mem_singleton_self _)⟩ h
  case isFalse h => exact iff_of_false (fun ⟨_, _, _, _, hmem⟩ => hd _ _ _ _ hmem) h

theorem traced_iff : Traced s e ↔ sra (s.after e).task.tracemask e.num ≠ 0 := by
  have ha : (s.after e).task = (dispatch e.num s.task e.frame e.outcome).1 := report_task
  rw [ha]
  exact traced_report fun _ _ _ _ => not_traced_dispatch

theorem syscalls_range {n} (h : (syscalls n).isSome) : 0 ≤ n ∧ n < 32 := by
  unfold syscalls at h
  split at h
  case isTrue hn =>
    have hl : table.length = 28 := rfl
    omega
  case isFalse => cases h

theorem sra_ne_zero {m n} (hm : 0 ≤ m) (hn : 0 ≤ n ∧ n < 32) (hb : m.toNat.testBit n.toNat) : sra m n ≠ 0 := by
  have hk : (n % 32).toNat = n.toNat := by omega
  have hge : 2 ^ n.toNat ≤ m.toNat := Nat.ge_two_pow_of_testBit hb
  obtain ⟨k, rfl⟩ := Int.eq_ofNat_of_zero_le hm
  have hpos : 0 < k >>> n.toNat := by
    rw [Nat.shiftRight_eq_div_pow]
    exact Nat.div_pos hge (Nat.two_pow_pos _)
  rw [sra, hk]
  intro h0
  have hc : ((k >>> n.toNat : Nat) : Int) = 0 := h0
  omega

/-! ## 呼び出しの列 -/

/-- マスクは負でなく、記録と一致する。 -/
def Agrees (s : Sys) : Prop := 0 ≤ s.task.tracemask ∧ s.task.tracemask = s.wanted.getD 0

theorem Agrees.after (h : Agrees s) (hm : ∀ m, e.mask = some m → 0 ≤ m) : Agrees (s.after e) := by
  have hw : (s.after e).wanted = e.want s.wanted := rfl
  rw [Agrees, after_task, hw, Event.want]
  cases hmask : e.mask with
  | none => exact h
  | some m =>
    have h0 := hm m hmask
    simp [h0]

theorem Agrees.of_reaches {pid name} (h : step.ReachesBy Fits (Sys.start pid name) s) : Agrees s := by
  refine h.inv Agrees ⟨Int.le_refl _, rfl⟩ fun u e v hu hfit hstep => ?_
  cases hstep
  exact hu.after hfit.1

theorem Agrees.wanted_iff (h : Agrees (s.after e)) :
    Wanted s e ↔ (syscalls e.num).isSome ∧ (s.after e).task.tracemask.toNat.testBit e.num.toNat := by
  have hw : (s.after e).wanted = e.want s.wanted := rfl
  rw [Wanted, h.2, hw]
  cases e.want s.wanted with
  | none | some m => simp

/-- 条件を満たす呼び出しだけの列の後では、次の呼び出しの追跡が正しいのは、その呼び出しも条件を満たすときに限る。 -/
theorem traced_right_iff {pid : Int} {name : String} (h : step.ReachesBy Fits (Sys.start pid name) s) (e : Event) :
    Right s e ↔ Fits s e := by
  have hs := Agrees.of_reaches h
  by_cases hm : ∀ m, e.mask = some m → 0 ≤ m
  · have ha := hs.after hm
    have hneg : ¬∃ m, e.mask = some m ∧ m < 0 := fun ⟨m, hmask, hlt⟩ => by
      have := hm m hmask
      omega
    rw [Right, Fits, traced_iff, ha.wanted_iff, after_tracemask]
    constructor
    · exact fun hr => ⟨hm, hr.1.mp⟩
    · rintro ⟨-, hf⟩
      have hpos := ha.1
      rw [after_tracemask] at hpos
      exact ⟨⟨hf, fun hb => sra_ne_zero hpos (syscalls_range hb.1) hb.2⟩, fun hlt => absurd hlt hneg⟩
  -- 負の引数は失敗するのに、マスクに残る
  refine iff_of_false (fun hr => ?_) fun hf => hm hf.1
  simp only [not_forall, Int.not_le] at hm
  obtain ⟨m, hmask, hlt⟩ := hm
  have heq := hr.2 ⟨m, hmask, hlt⟩
  rw [after_task, hmask] at heq
  have h0 : m = s.task.tracemask := congrArg Task.tracemask heq
  have := hs.1
  omega

def callOf (a7 a0 : Nat) : Event := { frame := { a := fun k => if k = 0 then a0 else 0, a7 := a7 }, outcome := ⟨0,
    fun _ => 0⟩ }

theorem traced_right_iff_trace :
    step.ReachesBy Fits (Sys.start 3 "sh") ((Sys.start 3 "sh").after (callOf 24 (2 ^ 24))) ∧
      Right ((Sys.start 3 "sh").after (callOf 24 (2 ^ 24))) (callOf 24 (2 ^ 24)) := by
  have hmask : ∀ m, (callOf 24 (2 ^ 24)).mask = some m → m = 2 ^ 24 := by decide
  have hfit : ∀ u : Sys, Fits u (callOf 24 (2 ^ 24)) := by
    intro u
    have hm : (callOf 24 (2 ^ 24)).mask = some (2 ^ 24) := by decide
    refine ⟨fun m h => by rw [hmask m h]; decide, fun _ => ⟨by decide, ?_⟩⟩
    rw [hm]
    show ((2 : Int) ^ 24).toNat.testBit (callOf 24 (2 ^ 24)).num.toNat
    decide
  have hreach : step.ReachesBy Fits (Sys.start 3 "sh") ((Sys.start 3 "sh").after (callOf 24 (2 ^ 24))) :=
    ⟨[callOf 24 (2 ^ 24)], rfl, hfit _, fun _ _ => trivial⟩
  exact ⟨hreach, (traced_right_iff hreach _).mpr (hfit _)⟩

/-- `trace(1 << SYS_write)` の後では、マスクにない `fork` も印字される。 -/
theorem trace_write_prints_fork :
    Traced ((Sys.start 3 "sh").after (callOf 24 (2 ^ 16))) (callOf 1 0) ∧
      ¬Wanted ((Sys.start 3 "sh").after (callOf 24 (2 ^ 16))) (callOf 1 0) := by
  constructor
  · rw [traced_iff, after_task, after_task]
    decide
  rintro ⟨-, m, hm, hb⟩
  have : m = 2 ^ 16 := by
    have h16 : (callOf 1 0).want ((Sys.start 3 "sh").after (callOf 24 (2 ^ 16))).wanted = some (2 ^ 16) := by decide
    exact Option.some.inj (hm.symm.trans h16)
  subst this
  exact absurd hb (by decide)

end Xv6.Syscall
