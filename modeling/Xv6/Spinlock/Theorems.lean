import Xv6.Spinlock.Spinlock

/-!
# スピンロックの排他
-/

namespace Xv6.Spinlock

open Xv6.Lib

variable {s t : Sys} {x y : Cpu} {c l : Nat} {a : Pc} {k : Lock} {j : Option Nat}

/-! ## 一つの CPU -/

/-- `push_off` を終えてロックを取る前と、ロックを放して `pop_off` を終える前に、一つ多く数える。 -/
def Pc.extra : Pc → Nat
  | .acqLocked _ | .acqCpu _ | .acqSwap _ | .pop (some _) => 1
  | _ => 0

/-- `locked` を立てたロックのうち、`lk->cpu` がまだ、またはもう、この CPU でないもの。 -/
def Pc.unnamed : Pc → Option Nat
  | .acqRecord l | .relStore l => some l
  | _ => none

def Pc.counting : Pc → Bool
  | .offCount _ _ => true
  | _ => false

def Cpu.Placed (x : Cpu) : Prop :=
  match x.pc with
  | .offClear old _ => x.noff = 0 → old = x.want
  | .offCount old _ => x.sie = false ∧ (x.noff = 0 → old = x.want)
  | .acqSwap l => l ∉ x.held
  | .acqRecord l | .relClear l | .relStore l => l ∈ x.held
  | .pop none => 0 < x.pushed
  | _ => True

/-- `noff` は持っているロックと `push_off` の数であり、零でない間は割り込みが切れている。零なら、割り込みは元のままである。 -/
structure Cpu.Ok (x : Cpu) : Prop where
  count : x.noff = x.held.length + x.pushed + x.pc.extra
  off : 0 < x.noff → x.sie = false ∧ x.intena = x.want
  on : x.noff = 0 → x.pc.counting = false → x.sie = x.want
  placed : x.Placed
  frame : ∀ a, x.frame = some a → x.want = false ∧ a.calm
  nodup : x.held.Nodup

/-- ロックの欄は、CPU `c` が持つかどうかと合う。 -/
structure Cpu.Sees (x : Cpu) (c : Nat) (k : Lock) : Prop where
  locked : x.pc.lock ∈ x.held → k.locked
  named : k.cpu = some c ↔ x.pc.lock ∈ x.held ∧ x.pc.unnamed ≠ some x.pc.lock

theorem Pc.unnamed_of_calm (h : a.calm) : a.unnamed = none := by
  cases a <;> simp_all [Pc.calm, Pc.unnamed]

section

variable (h : x.Ok)
include h

theorem Cpu.Ok.goto (hextra : a.extra = x.pc.extra) (hcounting : x.pc.counting = false)
    (hp : Cpu.Placed { x with pc := a }) : Cpu.Ok { x with pc := a } where
  __ := h
  count := by rw [h.count, hextra]
  on h0 _ := h.on h0 hcounting
  placed := hp

theorem Cpu.Ok.push {old} (hpc : x.pc = .offCount old j) : Cpu.Ok { x with
    noff := x.noff + 1
    intena := if x.noff = 0 then old else x.intena
    pushed := if j = none then x.pushed + 1 else x.pushed
    pc := j.elim .rest .acqLocked } := by
  obtain ⟨hcount, hoff, -, hplaced, hframe, hnodup⟩ := h
  simp only [Placed, hpc] at hcount hplaced
  change x.noff = _ + 0 at hcount
  have hintena : (if x.noff = 0 then old else x.intena) = x.want := by
    split_ifs with h0
    exacts [hplaced.2 h0, (hoff (Nat.pos_of_ne_zero h0)).2]
  refine ⟨?_, fun _ => ⟨hplaced.1, hintena⟩, fun h0 => absurd h0 (Nat.succ_ne_zero _), ?_, hframe, hnodup⟩
  · cases j <;> simp [Pc.extra] <;> omega
  · cases j <;> trivial

theorem Cpu.Ok.pop (hpc : x.pc = .pop j) : 0 < x.noff ∧ Cpu.Ok { x with
    noff := x.noff - 1
    sie := x.noff - 1 = 0 && x.intena
    pushed := if j = none then x.pushed - 1 else x.pushed
    pc := .rest } := by
  obtain ⟨hcount, hoff, -, hplaced, hframe, hnodup⟩ := h
  simp only [Placed, hpc] at hcount hplaced
  have hpos : 0 < x.noff := by cases j <;> simp [Pc.extra] at hcount hplaced <;> omega
  refine ⟨hpos, ?_, fun h0 => ⟨?_, (hoff hpos).2⟩, fun h0 _ => ?_, trivial, hframe, hnodup⟩
  · cases j <;> simp [Pc.extra] at hcount hplaced ⊢ <;> omega
  · rw [decide_eq_false (Nat.ne_of_gt h0), Bool.false_and]
  · rw [decide_eq_true h0, Bool.true_and, (hoff hpos).2]

theorem Cpu.Ok.next (hk : x.Sees c k) (hy : x.next c k = .ok y) : y.Ok := by
  have hok := h
  obtain ⟨hcount, hoff, hon, hplaced, hframe, hnodup⟩ := h
  obtain ⟨hlocked, hnamed⟩ := hk
  rw [Cpu.next] at hy
  cases hpc : x.pc <;> simp only [hpc, Placed, Pc.lock, Pc.unnamed] at hcount hon hplaced hlocked hnamed hy
  case rest => cases hy; exact hok
  case offClear old j =>
    cases hy
    exact ⟨hcount, fun hpos => ⟨rfl, (hoff hpos).2⟩, nofun, ⟨rfl, hplaced⟩, hframe, hnodup⟩
  case offCount old j => cases hy; exact hok.push hpc
  case pop j =>
    have hpop := (hok.pop hpc).2
    split_ifs at hy with _ _ hj <;> cases hy
    · rwa [if_pos hj] at hpop
    · rwa [if_neg hj] at hpop
  case acqSwap l =>
    change x.noff = _ + 1 at hcount
    split_ifs at hy <;> cases hy
    · exact hok
    · refine ⟨?_, hoff, fun h0 => ?_, List.mem_cons_self, hframe, List.nodup_cons.mpr ⟨hplaced, hnodup⟩⟩
      · change x.noff = x.held.length + 1 + x.pushed + 0
        omega
      · change x.noff = 0 at h0
        omega
  case relStore l =>
    change x.noff = _ + 0 at hcount
    have hlen := List.length_pos_of_mem hplaced
    cases hy
    refine ⟨?_, hoff, fun h0 => ?_, trivial, hframe, hnodup.erase l⟩
    · change x.noff = (x.held.erase l).length + x.pushed + 1
      rw [List.length_erase_of_mem hplaced]
      omega
    · change x.noff = 0 at h0
      omega
  -- 残りの位置では、位置だけが進む
  case acqLocked | acqCpu | relLocked | relCpu =>
    split_ifs at hy with hl <;> cases hy <;> refine hok.goto (by rw [hpc]; rfl) (by rw [hpc]; rfl) ?_ <;> simp_all [Placed]
  all_goals cases hy; exact hok.goto (by rw [hpc]; rfl) (by rw [hpc]; rfl) (by simp_all [Placed, Pc.counting])

theorem Cpu.Ok.error {m} (hk : x.Sees c k) (hm : x.next c k = .error m) :
    ∃ l, m = "acquire" ∧ x.pc = .acqCpu l ∧ l ∈ x.held ∨
      m = "release" ∧ (x.pc = .relLocked l ∨ x.pc = .relCpu l) ∧ l ∉ x.held := by
  obtain ⟨hcount, hoff, -, hplaced, -, -⟩ := h
  obtain ⟨hlocked, hnamed⟩ := hk
  rw [Cpu.next] at hm
  cases hpc : x.pc <;> simp only [hpc, Placed, Pc.lock, Pc.unnamed] at hcount hplaced hlocked hnamed hm
  case pop k => cases k <;> grind [Pc.extra]
  all_goals grind

/-- 割り込みの開いた CPU は、ロックを持たず、割り込んでもよい位置にある。 -/
theorem Cpu.Ok.calm (hsie : x.sie = true) : x.noff = 0 ∧ x.pc.calm := by
  obtain ⟨hcount, hoff, hon, hplaced, -, -⟩ := h
  have h0 : x.noff = 0 := by
    by_contra hne
    rw [(hoff (Nat.pos_of_ne_zero hne)).1] at hsie
    cases hsie
  have hheld : x.held = [] := List.length_eq_zero_iff.mp (by omega)
  have hpushed : x.pushed = 0 := by omega
  have hextra : x.pc.extra = 0 := by omega
  rw [Placed] at hplaced
  cases hpc : x.pc with
  | pop k => cases k <;> simp_all [Pc.extra]
  | _ => simp_all [Pc.extra, Pc.counting, Pc.calm]

/-- 割り込みを開け閉めし、割り込まれたコードと行き来する歩。 -/
theorem Cpu.Ok.quiet {on f} (h0 : x.noff = 0) (hx : x.pc.calm) (ha : a.calm)
    (hon : on = true ∨ a = .rest) (hf : ∀ b, f = some b → on = false ∧ b.calm) :
    Cpu.Ok { x with sie := on, want := on, pc := a, frame := f } := by
  have hextra : ∀ b : Pc, b.calm → b.extra = 0 := fun b hb => by cases b <;> simp_all [Pc.calm, Pc.extra]
  refine ⟨by rw [h.count, hextra _ hx, hextra a ha], fun hpos => absurd h0 (Nat.ne_of_gt hpos), fun _ _ => rfl, ?_, hf, h.nodup⟩
  cases a <;> simp_all [Placed, Pc.calm]

end

/-! ## 不変条件 -/

structure Inv (s : Sys) : Prop where
  ok : ∀ c, (s.cpu c).Ok
  locked : ∀ c l, l ∈ (s.cpu c).held → (s.lock l).locked
  one : ∀ c c' l, l ∈ (s.cpu c).held → l ∈ (s.cpu c').held → c = c'
  named : ∀ c l, (s.lock l).cpu = some c ↔ l ∈ (s.cpu c).held ∧ (s.cpu c).pc.unnamed ≠ some l

theorem Inv.sees (h : Inv s) (c : Nat) : (s.cpu c).Sees c (s.lock (s.cpu c).pc.lock) := ⟨h.locked c _, h.named c _⟩

theorem Inv.set (h : Inv s) (hx : x.Ok) (hheld : x.held = (s.cpu c).held) (hun : x.pc.unnamed = (s.cpu c).pc.unnamed) :
    Inv (s.set c x) := by
  obtain ⟨hok, hlocked, hone, hnamed⟩ := h
  constructor <;> simp only [Sys.set, update_apply] <;> grind

theorem Inv.run (h : Inv s) (hs : s.run c = .ok t) : Inv t := by
  rw [Sys.run] at hs
  cases hy : (s.cpu c).next c (s.lock (s.cpu c).pc.lock) with
  | error m => simp [hy] at hs
  | ok y =>
    have hyok := (h.ok c).next (h.sees c) hy
    have hplaced := (h.ok c).placed
    have hnodup := (h.ok c).nodup
    simp only [hy] at hs
    cases hs
    rw [Cpu.next] at hy
    rw [Cpu.Placed] at hplaced
    cases hpc : (s.cpu c).pc <;> simp only [hpc, Pc.lock, Lock.next, update_eq_self] at hy hplaced ⊢
    -- ロックの欄を書く位置
    case acqSwap | acqRecord | relClear | relStore =>
      obtain ⟨hok, hlocked, hone, hnamed⟩ := h
      try split_ifs at hy
      all_goals cases hy; constructor <;> simp only [Sys.set, update_apply] <;> grind [Pc.unnamed]
    case rest => cases hy; exact h.set hyok rfl rfl
    case offCount old k => cases hy; cases k <;> exact h.set hyok rfl (congrArg Pc.unnamed hpc).symm
    all_goals
      try split_ifs at hy
      all_goals cases hy; exact h.set hyok rfl (congrArg Pc.unnamed hpc).symm

theorem Inv.call (h : Inv s) (hpc : (s.cpu c).pc = .rest) (hextra : a.extra = 0) (hun : a.unnamed = none)
    (hplaced : Cpu.Placed { s.cpu c with pc := a }) : Inv (s.set c { s.cpu c with pc := a }) :=
  h.set ((h.ok c).goto (by rw [hpc, hextra]; rfl) (by rw [hpc]; rfl) hplaced) rfl (by rw [hpc, hun]; rfl)

theorem Inv.step {e} (h : Inv s) (hs : Spinlock.step s e = some (.ok t)) : Inv t := by
  cases e with
  | run c => exact h.run (Option.some.inj hs)
  | popOff c =>
    simp only [Spinlock.step] at hs
    split_ifs at hs with hg
    cases hs
    exact h.call hg.1 rfl rfl hg.2
  | intr c on =>
    simp only [Spinlock.step] at hs
    split_ifs at hs with hg
    obtain ⟨hpc, h0, hf⟩ := hg
    cases hs
    rw [hpc, hf]
    exact h.set ((h.ok c).quiet h0 (by rw [hpc]; rfl) rfl (.inr rfl) (by rintro b ⟨⟩)) rfl (by rw [hpc])
  | trap c =>
    simp only [Spinlock.step] at hs
    split_ifs at hs with hsie
    cases hs
    obtain ⟨h0, hcalm⟩ := (h.ok c).calm hsie
    exact h.set ((h.ok c).quiet h0 hcalm rfl (.inr rfl) (by rintro b ⟨⟩; exact ⟨rfl, hcalm⟩)) rfl
      (Pc.unnamed_of_calm hcalm).symm
  | sret c =>
    simp only [Spinlock.step] at hs
    split at hs
    · cases hs
    rename_i a hf
    split_ifs at hs with hg
    cases hs
    have hcalm := ((h.ok c).frame a hf).2
    exact h.set ((h.ok c).quiet hg.2 (by rw [hg.1]; rfl) hcalm (.inl rfl) (by rintro b ⟨⟩)) rfl
      (by rw [hg.1]; exact Pc.unnamed_of_calm hcalm)
  | sched c intena frame =>
    have hok := h.ok c
    simp only [Spinlock.step] at hs
    split_ifs at hs with hg
    obtain ⟨hpc, h1, -, hf⟩ := hg
    cases hs
    refine h.set ⟨hok.count, fun hpos => ⟨(hok.off hpos).1, rfl⟩, fun h0 => ?_, ?_, ?_, hok.nodup⟩ rfl rfl
    · rw [h1] at h0
      cases h0
    · rw [Cpu.Placed, hpc]
      trivial
    · rintro a ⟨⟩
      simpa using hf
  | _ =>
    simp only [Spinlock.step] at hs
    split_ifs at hs with hg
    cases hs
    exact h.call hg rfl rfl trivial

theorem Inv.of_reaches (h : Machine.Reaches Spinlock.step init s) : Inv s := by
  refine h.inv Inv ?_ fun _ _ _ hi hs => hi.step hs
  constructor
  · exact fun c => ⟨rfl, nofun, fun _ _ => rfl, trivial, nofun, List.nodup_nil⟩
  all_goals simp [init]

/-- どの順序でも、一つのロックは高々一つの CPU が持つ。ロックを持つか `push_off` した CPU では割り込みが切れ、そうでなければ割り込みは
元のままである。関数の外では、`holding` は自分が持つかどうかをちょうど答える。 -/
theorem spinlock_exclusive (h : step.Reaches init s) :
    (∀ c c' l, l ∈ (s.cpu c).held → l ∈ (s.cpu c').held → c = c') ∧
    (∀ c, ((s.cpu c).held ≠ [] ∨ 0 < (s.cpu c).pushed) → (s.cpu c).sie = false) ∧
    ∀ c, (s.cpu c).pc = .rest →
      ((s.cpu c).held = [] → (s.cpu c).pushed = 0 → (s.cpu c).sie = (s.cpu c).want) ∧
      ∀ l, holding s c l = true ↔ l ∈ (s.cpu c).held := by
  have hi := Inv.of_reaches h
  refine ⟨hi.one, fun c hpos => ((hi.ok c).off ?_).1, fun c hpc => ⟨fun hheld hpushed => (hi.ok c).on ?_ ?_, fun l => ?_⟩⟩
  · have hcount := (hi.ok c).count
    rcases hpos with hne | hpos
    · have := List.length_pos_of_ne_nil hne
      omega
    · omega
  · rw [(hi.ok c).count, hheld, hpushed, hpc]
    rfl
  · rw [hpc]
    rfl
  · have hnamed := hi.named c l
    rw [hpc] at hnamed
    simp only [holding, Bool.and_eq_true, beq_iff_eq, hnamed]
    exact ⟨fun hl => hl.2.1, fun hl => ⟨hi.locked c l hl, hl, by simp [Pc.unnamed]⟩⟩

def exampleEvents : List Event :=
  .intr 0 true :: .acquire 0 0 :: .acquire 1 0 :: List.replicate 6 (.run 0) ++ List.replicate 7 (.run 1)

theorem spinlock_exclusive_spin : ((step.final init exampleEvents).cpu 0).held = [0] ∧
    ((step.final init exampleEvents).cpu 1).pc = .acqSwap 0 ∧ ((step.final init exampleEvents).cpu 0).sie = false := by
  have hheld : ((step.final init exampleEvents).cpu 0).held = [0] := by decide +kernel
  refine ⟨hheld, by decide +kernel, ?_⟩
  exact (spinlock_exclusive (Machine.reaches_final exampleEvents)).2.1 0 (.inl (by simp [hheld]))

/-- `panic` するのは、自分の持つロックをもう一度取ろうとしたときと、持たないロックを放そうとしたときだけである。どちらの誤りも、
ロックに触れる前に必ず見つかる。`pop_off` は止まらない。 -/
theorem spinlock_panic (h : step.Reaches init s) :
    (∀ e m, step s e = some (.error m) → ∃ c l, e = .run c ∧
      (m = "acquire" ∧ (s.cpu c).pc = .acqCpu l ∧ l ∈ (s.cpu c).held ∨
        m = "release" ∧ ((s.cpu c).pc = .relLocked l ∨ (s.cpu c).pc = .relCpu l) ∧ l ∉ (s.cpu c).held)) ∧
    (∀ c l, (s.cpu c).pc = .acqSwap l → l ∉ (s.cpu c).held) ∧
    ∀ c l, ((s.cpu c).pc = .relClear l ∨ (s.cpu c).pc = .relStore l) → l ∈ (s.cpu c).held := by
  have hi := Inv.of_reaches h
  have hplaced : ∀ c, (s.cpu c).Placed := fun c => (hi.ok c).placed
  refine ⟨fun e m hs => ?_, fun c l hpc => ?_, fun c l hpc => ?_⟩
  · cases e with
    | run c =>
      simp only [step, Sys.run] at hs
      cases hy : (s.cpu c).next c (s.lock (s.cpu c).pc.lock) with
      | ok y => simp [hy] at hs
      | error m' =>
        simp only [hy] at hs
        cases hs
        obtain ⟨l, hl⟩ := (hi.ok c).error (hi.sees c) hy
        exact ⟨c, l, rfl, hl⟩
    | _ =>
      simp only [step] at hs
      repeat' split at hs
      all_goals cases hs
  · have := hplaced c
    rwa [Cpu.Placed, hpc] at this
  · have := hplaced c
    rcases hpc with hpc | hpc <;> rwa [Cpu.Placed, hpc] at this

theorem spinlock_panic_spin : ((step.final init exampleEvents).cpu 1).pc = .acqSwap 0 ∧
    0 ∉ ((step.final init exampleEvents).cpu 1).held := by
  have hpc : ((step.final init exampleEvents).cpu 1).pc = .acqSwap 0 := by decide +kernel
  exact ⟨hpc, (spinlock_panic (Machine.reaches_final exampleEvents)).2.1 1 0 hpc⟩

end Xv6.Spinlock
