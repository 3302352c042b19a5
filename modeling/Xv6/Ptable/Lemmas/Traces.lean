import Xv6.Ptable.Lemmas.Runs

/-!
# 一歩で変わるもの
-/

namespace Xv6.Ptable

open Xv6.Vm (ProcState nproc)
open Xv6.Lib

variable {s t : Sys} {p q k i : Nat} {E : Env} {m : Move}

/-- `wait` または `waitx` が終わった子 `k` を見つけて片付け、その番号と終了値を返す。 -/
def Reaped (s : Sys) (m : Move) (t : Sys) (k : Nat) : Prop :=
  ∃ p E w hk, m = .next p E ∧ s.pc p = .waitScan w k hk ∧ (s.procs k).parent = some p ∧
    t = ((((s.reap k).own waitLock none).report
      ⟨p, (s.procs k).pid, some k, if w.addr then some (s.procs k).xstate else none,
        if w.x then some (s.procs k).times else none⟩).goto p .run)

theorem next_counts (hn : s.next p E = some t) :
    (t.frees = s.frees ∧ ∀ i, s.exits i ≤ t.exits i) ∨
      ∃ k, Reaped s (.next p E) t k ∧ (s.procs k).state = .zombie := by
  cases hpc : s.pc p with
  | waitScan w k hk =>
    simp only [Sys.next, hpc] at hn
    split at hn
    · cases hn
      exact .inl ⟨rfl, fun _ => le_rfl⟩
    split at hn
    · rename_i hpar
      split at hn
      · cases hn
      split at hn
      · rename_i hz
        split at hn
        · cases hn
          exact .inl ⟨rfl, fun _ => le_rfl⟩
        · cases hn
          exact .inr ⟨k, ⟨p, E, w, hk, rfl, hpc, hpar, rfl⟩, hz⟩
      · cases hn
        exact .inl ⟨rfl, fun _ => le_rfl⟩
    · cases hn
      exact .inl ⟨rfl, fun _ => le_rfl⟩
  | exitZombie st =>
    simp only [Sys.next, hpc] at hn
    split at hn
    · cases hn
      refine .inl ⟨rfl, fun i => ?_⟩
      by_cases hi : i = p
      · simp [hi]
      · simp [hi]
    · cases hn
  | _ =>
    simp only [Sys.next, hpc] at hn
    all_goals
      repeat' split at hn
    all_goals first
      | cases hn; exact .inl ⟨rfl, fun _ => le_rfl⟩
      | cases hn

theorem step_counts (hn : Sys.step s m = some (.ok t)) :
    (t.frees = s.frees ∧ ∀ i, s.exits i ≤ t.exits i) ∨ ∃ k, Reaped s m t k ∧ (s.procs k).state = .zombie := by
  cases m with
  | next p E => exact next_counts (step_next hn)
  | act p a =>
    cases a <;> simp only [Sys.step, Sys.act] at hn
    all_goals
      repeat' split at hn
    all_goals first
      | cases hn; exact .inl ⟨rfl, fun _ => le_rfl⟩
      | cases hn
  | _ =>
    simp only [Sys.step] at hn
    all_goals
      repeat' split at hn
    all_goals first
      | cases hn; exact .inl ⟨rfl, fun _ => le_rfl⟩
      | cases hn

/-- zombie が消えるのは、`wait` が刈り取る時だけである。 -/
theorem reaped_of_gone (h : s.Inv) (hn : Sys.step s m = some (.ok t)) (hz : (s.procs i).state = .zombie)
    (hg : (t.procs i).state ≠ .zombie) : Reaped s m t i := by
  have hs := h.global.frees i
  have ht := (h.machine hn).global.frees i
  rw [if_pos hz] at hs
  rw [if_neg hg] at ht
  rcases step_counts hn with ⟨hf, he⟩ | ⟨k, hr, hk⟩
  · have := he i
    rw [hf] at ht
    omega
  suffices hik : i = k from hik ▸ hr
  by_contra hik
  obtain ⟨p, E, w, hw, -, -, -, rfl⟩ := hr
  simp only [Sys.goto_frees, Sys.report_frees, Sys.own_frees, Sys.reap_frees, Sys.goto_exits, Sys.report_exits,
    Sys.own_exits, Sys.reap_exits, update_of_ne hik] at ht
  omega

theorem next_pc_other (hn : s.next p E = some t) (hq : q ≠ p) : t.pc q = s.pc q ∨ s.pc p = .forkReady q := by
  cases hpc : s.pc p with
  | forkReady k =>
    simp only [Sys.next, hpc] at hn
    split at hn
    · cases hn
      by_cases hqk : q = k
      · exact .inr (hqk ▸ rfl)
      · exact .inl (by simp [hq, hqk])
    · cases hn
  | _ =>
    simp only [Sys.next, hpc] at hn
    all_goals
      repeat' split at hn
    all_goals first
      | cases hn; exact .inl (update_of_ne hq ..)
      | cases hn

theorem step_wake {sc r} (h : s.Inv) (hn : Sys.step s m = some (.ok t)) (hpc : s.pc p = .wake sc r) :
    (∃ k, sc.k ≤ k ∧ t.pc p = .wake { sc with k := k } r) ∨ (nproc ≤ sc.k ∧ t.pc p = r.pc) := by
  have hsame : t.pc p = s.pc p → (∃ k, sc.k ≤ k ∧ t.pc p = .wake { sc with k := k } r) ∨ (nproc ≤ sc.k ∧ t.pc p = r.pc) :=
    fun ht => .inl ⟨sc.k, le_rfl, ht.trans hpc⟩
  cases m with
  | next q E =>
    have ht := step_next hn
    by_cases hq : p = q
    · subst hq
      simp only [Sys.next, hpc] at ht
      split at ht
      · cases ht
        exact .inr ⟨‹_›, by simp⟩
      split at ht
      · cases ht
        exact .inl ⟨sc.k + 1, Nat.le_succ _, by simp⟩
      · split at ht
        · cases ht
        · cases ht
          exact .inl ⟨sc.k + 1, Nat.le_succ _, by simp⟩
    rcases next_pc_other ht hq with hsm | hready
    · exact hsame hsm
    · have hp := h.good p
      have hg := h.good q
      rw [hpc] at hp
      rw [hready] at hg
      exact absurd (hg.2.state ▸ hp.1.live) not_live_used
  | act q a =>
    by_cases hq : p = q
    · subst hq
      simp [Sys.step, hpc] at hn
    cases a <;> simp only [Sys.step, Sys.act] at hn
    all_goals
      repeat' split at hn
    all_goals first
      | cases hn; exact hsame (update_of_ne hq ..)
      | cases hn; exact hsame rfl
      | cases hn
  | schedule q =>
    simp only [Sys.step] at hn
    split at hn
    · split at hn
      · rename_i hq
        cases hn
        refine hsame (update_of_ne ?_ ..)
        rintro rfl
        simp [hpc] at hq
      · cases hn
        exact hsame rfl
    · cases hn
  | _ =>
    simp only [Sys.step] at hn
    all_goals
      repeat' split at hn
    all_goals first
      | cases hn; exact hsame rfl
      | cases hn

def Sys.KeepsPids (s t : Sys) : Prop :=
  t.nextpid = s.nextpid ∧ ∀ i, (t.procs i).pid = (s.procs i).pid ∨ (t.procs i).pid = 0

theorem Sys.KeepsPids.of_procs (hn : t.nextpid = s.nextpid) (hp : t.procs = s.procs) : s.KeepsPids t :=
  ⟨hn, fun i => .inl (by rw [hp])⟩

theorem Sys.KeepsPids.of_row {x} (hn : t.nextpid = s.nextpid) (hp : t.procs = update s.procs k x)
    (hx : x.pid = (s.procs k).pid ∨ x.pid = 0) : s.KeepsPids t := by
  refine ⟨hn, fun i => ?_⟩
  rw [hp]
  by_cases hik : i = k
  · subst hik
    simpa using hx
  · exact .inl (by rw [update_of_ne hik])

/-- 番号を配るのは、`fork` の二つの歩だけである。 -/
theorem next_pids (hn : s.next p E = some t) :
    s.KeepsPids t ∨
      (∃ k, s.pc p = .forkPid k ∧
        t = (s.number k { s.procs k with pid := s.nextpid } (s.nextpid + 1)).goto p (.forkLoad k)) ∨
      ∃ k r, s.pc p = .forkStore k r ∧
        t = (s.number k { s.procs k with pid := r, priority := 60 } (r + 1)).goto p (.forkFill k) := by
  cases hpc : s.pc p with
  | forkPid k =>
    simp only [Sys.next, hpc] at hn
    split at hn
    · cases hn
      exact .inr (.inl ⟨k, rfl, rfl⟩)
    · cases hn
  | forkStore k r =>
    simp only [Sys.next, hpc] at hn
    split at hn
    · cases hn
      exact .inr (.inr ⟨k, r, rfl, rfl⟩)
    · cases hn
  | forkFill k =>
    simp only [Sys.next, hpc] at hn
    split at hn
    · cases hn
      exact .inl (.of_row rfl rfl (.inl (Proc.build_ok ‹_›).2))
    · cases hn
      exact .inl (.of_row rfl rfl (.inr rfl))
  | waitScan w k hk =>
    simp only [Sys.next, hpc] at hn
    repeat' split at hn
    all_goals first
      | cases hn; exact .inl (.of_procs rfl rfl)
      | cases hn; exact .inl (.of_row rfl rfl (.inr rfl))
      | cases hn
  | wake sc r =>
    simp only [Sys.next, hpc] at hn
    repeat' split at hn
    all_goals first
      | cases hn; exact .inl (.of_procs rfl rfl)
      | cases hn; exact .inl (.of_row rfl rfl (.inl (Proc.wake_stirred ..).pid))
      | cases hn
  | _ =>
    simp only [Sys.next, hpc] at hn
    all_goals
      repeat' split at hn
    all_goals first
      | cases hn; exact .inl (.of_procs rfl rfl)
      | cases hn; exact .inl (.of_row rfl rfl (.inl rfl))
      | cases hn

theorem next_forkStore {r} (hn : s.next p E = some t) (hq : t.pc q = .forkStore k r) :
    s.pc q = .forkStore k r ∨ r = s.nextpid := by
  by_cases hqp : q = p
  · subst hqp
    right
    cases hpc : s.pc q with
    | forkLoad j =>
      simp only [Sys.next, hpc] at hn
      cases hn
      simp at hq
      exact hq.2.symm
    | wake sc r =>
      simp only [Sys.next, hpc] at hn
      repeat' split at hn
      all_goals cases hn
      all_goals simp at hq
      cases r <;> cases hq
    | reacquire l r =>
      simp only [Sys.next, hpc] at hn
      split at hn
      · cases hn
        simp at hq
        cases r <;> cases hq
      · cases hn
    | _ =>
      simp only [Sys.next, hpc] at hn
      all_goals
        repeat' split at hn
      all_goals cases hn
      all_goals simp at hq
  rcases next_pc_other hn hqp with hsame | hready
  · exact .inl (hsame ▸ hq)
  · simp only [Sys.next, hready] at hn
    split at hn
    · cases hn
      simp [hqp] at hq
    · cases hn

theorem goto_forkStore {r a} (ha : ∀ k r, a ≠ .forkStore k r) (hq : (s.goto p a).pc q = .forkStore k r) :
    s.pc q = .forkStore k r := by
  rw [Sys.goto_pc] at hq
  rcases update_cases (P := fun b : Pc => b = .forkStore k r) hq with ⟨-, hq⟩ | ⟨-, hq⟩
  · exact absurd hq (ha k r)
  · exact hq

theorem step_keepsPids (hm : ∀ p E, m ≠ .next p E) (hn : Sys.step s m = some (.ok t)) :
    s.KeepsPids t ∧ ∀ q k r, t.pc q = .forkStore k r → s.pc q = .forkStore k r := by
  cases m with
  | next p E => exact absurd rfl (hm p E)
  | act p a =>
    cases a <;> simp only [Sys.step, Sys.act] at hn
    all_goals
      repeat' split at hn
    all_goals first
      | cases hn; exact ⟨.of_procs rfl rfl, fun q k r => goto_forkStore (by simp)⟩
      | cases hn; exact ⟨.of_procs rfl rfl, fun _ _ _ hq => hq⟩
      | cases hn; exact ⟨.of_row rfl rfl (.inl rfl), fun _ _ _ hq => hq⟩
      | cases hn
  | poke k c =>
    simp only [Sys.step] at hn
    split at hn
    · cases hn
      exact ⟨.of_row rfl rfl (.inl (Proc.wake_stirred ..).pid), fun _ _ _ hq => hq⟩
    · cases hn
  | _ =>
    simp only [Sys.step] at hn
    all_goals
      repeat' split at hn
    all_goals first
      | cases hn; exact ⟨.of_row rfl rfl (.inl rfl), fun q k r => goto_forkStore (by simp)⟩
      | cases hn; exact ⟨.of_row rfl rfl (.inl rfl), fun _ _ _ hq => hq⟩
      | cases hn; exact ⟨.of_procs rfl rfl, fun _ _ _ hq => hq⟩
      | cases hn

/-- 使われている番号は互いに異なり、次の番号より小さい。`nextpid` を読んだプロセスは今の値を持つ。 -/
structure Sys.Apart (s : Sys) : Prop where
  below : ∀ i, (s.procs i).pid < s.nextpid
  apart : ∀ i j, (s.procs i).pid = (s.procs j).pid → (s.procs i).pid ≠ 0 → i = j
  loaded : ∀ q k r, s.pc q = .forkStore k r → r = s.nextpid

theorem Sys.Apart.keep (h : s.Apart) (hpos : 0 < s.nextpid) (hk : s.KeepsPids t)
    (hl : ∀ q k r, t.pc q = .forkStore k r → r = t.nextpid) : t.Apart where
  below i := by
    rw [hk.1]
    rcases hk.2 i with hi | hi
    · exact hi ▸ h.below i
    · rwa [hi]
  apart i j hij hi := by
    have hi' := (hk.2 i).resolve_right hi
    have hj' := (hk.2 j).resolve_right (hij ▸ hi)
    exact h.apart i j (by rw [← hi', ← hj', hij]) (hi' ▸ hi)
  loaded := hl

theorem Sys.Apart.number {x a} (h : s.Apart) (hx : x.pid = s.nextpid) (ha : ∀ k r, a ≠ .forkStore k r)
    (hq : ∀ q k r, q ≠ p → s.pc q ≠ .forkStore k r) : ((s.number k x (s.nextpid + 1)).goto p a).Apart where
  below i := by
    have hi := h.below i
    by_cases hik : i = k
    · simp [hik, hx]
    · simp only [Sys.goto_procs, Sys.number_procs, update_of_ne hik, Sys.goto_nextpid, Sys.number_nextpid]
      omega
  apart i j hij hi := by
    have hbi := h.below i
    have hbj := h.below j
    simp only [Sys.goto_procs, Sys.number_procs, update_apply] at hij hi
    split at hij <;> split at hij
    · exact ‹i = k›.trans ‹j = k›.symm
    · omega
    · omega
    · exact h.apart i j hij (by simpa [‹¬i = k›] using hi)
  loaded q j r hpc := by
    by_cases hqp : q = p
    · simp [hqp] at hpc
      exact absurd hpc (ha j r)
    · simp [hqp] at hpc
      exact absurd hpc (hq q j r hqp)

/-- `nextpid` の読み書きの間に、ほかのプロセスが `nextpid` を変えない。 -/
def Sys.Undisturbed (s : Sys) : Move → Prop
  | .next p _ =>
    ((∃ k, s.pc p = .forkPid k) ∨ ∃ k r, s.pc p = .forkStore k r) → ∀ q k r, q ≠ p → s.pc q ≠ .forkStore k r
  | _ => True

theorem Sys.Apart.machine (h : s.Apart) (hi : s.Inv) (hu : s.Undisturbed m) (hn : Sys.step s m = some (.ok t)) :
    t.Apart := by
  by_cases hm : ∃ p E, m = .next p E
  · obtain ⟨p, E, rfl⟩ := hm
    have ht := step_next hn
    rcases next_pids ht with hk | ⟨k, hpc, rfl⟩ | ⟨k, r, hpc, rfl⟩
    · refine h.keep hi.global.nextpid hk fun q k r hq => ?_
      rw [hk.1]
      exact (next_forkStore ht hq).elim (h.loaded q k r) id
    · exact h.number rfl (by simp) (hu (.inl ⟨k, hpc⟩))
    · obtain rfl := h.loaded p k r hpc
      exact h.number rfl (by simp) (hu (.inr ⟨k, _, hpc⟩))
  · obtain ⟨hk, hl⟩ := step_keepsPids (fun p E he => hm ⟨p, E, he⟩) hn
    exact h.keep hi.global.nextpid hk fun q k r hq => hk.1 ▸ h.loaded q k r (hl q k r hq)

theorem boot_apart (forkret tf pg root : Nat) : (Sys.boot forkret tf pg root).Apart := by
  obtain ⟨hother, -, -⟩ := boot_cases ⟨forkret, some tf, some pg, true⟩ root
  have hpid : ∀ i, i ≠ initproc → ((Sys.boot forkret tf pg root).procs i).pid = 0 := by
    intro i hi
    rw [show (Sys.boot forkret tf pg root).procs i = Proc.init i from hother i hi]
    rfl
  refine ⟨fun i => ?_, fun i j hij hi => ?_, fun q k r hq => ?_⟩
  · by_cases hi : i = initproc
    · subst hi
      exact (by decide : (2 : Int) < 3)
    · rw [hpid i hi]
      exact (by decide : (0 : Int) < 3)
  · have h0 : ∀ i, ((Sys.boot forkret tf pg root).procs i).pid ≠ 0 → i = initproc := fun i hi =>
      not_not.mp fun hne => hi (hpid i hne)
    exact (h0 i hi).trans (h0 j (hij ▸ hi)).symm
  · simp only [Sys.boot] at hq
    split at hq <;> cases hq

end Xv6.Ptable
