import Xv6.Ptable.Lemmas.Calls

/-!
# 番号と終了の印
-/

namespace Xv6.Ptable

open Xv6.Vm (ProcState nproc)
open Xv6.Lib

variable {t t' : Table} {i j p : Nat} {x y : Proc} {c : Call} {a : Alloc} {e : Event}

theorem incr_eq {n} (h0 : 0 < n) (h : n + 1 < 2 ^ 31) : incr n = n + 1 := by
  unfold incr
  rw [Int.bmod_eq_of_le (by norm_num; omega) (by norm_num; omega)]

def Later (x y : Proc) : Prop := y.state = .unused ∨ (x.state ≠ .unused ∧ y.pid = x.pid)

theorem Later.refl (x : Proc) : Later x x := by
  by_cases h : x.state = .unused
  · exact .inl h
  · exact .inr ⟨h, rfl⟩

theorem Later.nudged (h : Nudged x y) : Later x y := by
  by_cases hu : x.state = .unused
  · exact .inl (h.unused.mpr hu)
  · exact .inr ⟨hu, by rw [h.rest]⟩

theorem Later.kill (x : Proc) : Later x x.kill := by
  by_cases hu : x.state = .unused
  · exact .inl (by simp [Proc.kill, hu])
  · exact .inr ⟨hu, rfl⟩

/-- `fork` でない呼び出しは、番号を配らない。 -/
theorem call_later (hp : (t.procs p).state = .running) (hf : ∀ a, c ≠ .fork a) (hc : t.call p c = .ok t') :
    t'.nextpid = t.nextpid ∧ ∀ i, Later (t.procs i) (t'.procs i) := by
  have hset : ∀ y : Proc, y.pid = (t.procs p).pid → ∀ i, Later (t.procs i) ((t.set p y).procs i) := by
    intro y hy
    refine forall_set (R := fun i z => Later (t.procs i) z) (fun i => .refl _) (.inr ⟨by simp [hp], hy⟩)
  cases c with
  | fork a => exact absurd rfl (hf a)
  | exit status =>
    obtain ⟨hn, -, hother, y, hy, hself⟩ := exit_ok hc
    refine ⟨hn, fun i => ?_⟩
    by_cases hi : i = p
    · subst hi
      refine .inr ⟨by simp [hp], ?_⟩
      rw [hself]
      simp only
      rw [hy.rest]
    · exact .nudged (hother i hi)
  | wait b =>
    cases hc
    unfold wait
    split
    · split
      · exact ⟨rfl, forall_set (R := fun i z => Later (t.procs i) z) (fun i => .refl _) (.inl rfl)⟩
      · exact ⟨rfl, fun i => .refl _⟩
    · split
      · exact ⟨rfl, fun i => .refl _⟩
      · exact ⟨rfl, hset _ rfl⟩
  | kill pid =>
    cases hc
    unfold Ptable.kill
    split
    · exact ⟨rfl, forall_set (R := fun i z => Later (t.procs i) z) (fun i => .refl _) (.kill _)⟩
    · exact ⟨rfl, fun i => .refl _⟩
  | wakeup chan => cases hc; exact ⟨rfl, fun i => .nudged (wakeup_nudged t chan (some p) i)⟩
  | sleep chan | yield | setkilled | trace mask | exec name sz pg regs | grow sz | file fd f | chdir ip
  | user regs => cases hc; exact ⟨rfl, hset _ rfl⟩

/-- 生きているプロセスの番号は、正で、`nextpid` より小さく、互いに異なる。 -/
structure Numbered (t : Table) : Prop where
  next : 0 < t.nextpid ∧ t.nextpid < 2 ^ 31
  pid : ∀ i, (t.procs i).state ≠ .unused → 0 < (t.procs i).pid ∧ (t.procs i).pid < t.nextpid
  apart : ∀ i j, (t.procs i).state ≠ .unused → (t.procs j).state ≠ .unused →
    (t.procs i).pid = (t.procs j).pid → i = j

theorem Numbered.later (h : Numbered t) (hn : t.nextpid ≤ t'.nextpid ∧ t'.nextpid < 2 ^ 31)
    (hl : ∀ i, Later (t.procs i) (t'.procs i)) : Numbered t' := by
  have hlive : ∀ i, (t'.procs i).state ≠ .unused → (t.procs i).state ≠ .unused ∧
      (t'.procs i).pid = (t.procs i).pid := fun i hi => (hl i).resolve_left hi
  refine ⟨⟨by have := h.next.1; omega, hn.2⟩, fun i hi => ?_, fun i j hi hj hij => ?_⟩
  · obtain ⟨h1, h2⟩ := hlive i hi
    have := h.pid i h1
    rw [h2]
    omega
  · obtain ⟨h1, h2⟩ := hlive i hi
    obtain ⟨h3, h4⟩ := hlive j hj
    exact h.apart i j h1 h3 (by rw [← h2, ← h4]; exact hij)

theorem Numbered.fork (h : Numbered t) (hp : (t.procs p).state ≠ .unused) (hw : t.nextpid + 2 < 2 ^ 31) :
    Numbered (fork t p a).1 := by
  have h0 := h.next.1
  have h1 : incr t.nextpid = t.nextpid + 1 := incr_eq h0 (by omega)
  have h2 : incr (incr t.nextpid) = t.nextpid + 2 := by
    rw [h1, incr_eq (by omega) (by omega)]
    omega
  have hf := fork_forked (a := a) hp
  generalize Ptable.fork t p a = r at hf
  cases hf with
  | full _ => exact h
  | failed _ _ _ _ =>
    refine h.later ⟨?_, ?_⟩ (forall_set (R := fun i z => Later (t.procs i) z) (fun i => .refl _) (.inl rfl))
    · simp only [Table.set, h2]; omega
    · simp only [Table.set, h2]; exact hw
  | @done i tf pg hi _ _ _ =>
    have hpid : ∀ k, k ≠ i → ∀ z, (Table.set { t with nextpid := incr (incr t.nextpid) } i z).procs k = t.procs k :=
      fun k hk z => set_ne hk
    have hnew : (child (t.procs i) (t.procs p) p a.forkret tf pg t.ticks t.nextpid).pid = t.nextpid + 1 := h1
    constructor
    case next => simp only [Table.set, h2]; omega
    case pid =>
      intro k hk
      by_cases hki : k = i
      · subst hki
        rw [set_self, hnew]
        simp only [Table.set, h2]
        omega
      · rw [hpid k hki] at hk ⊢
        have := h.pid k hk
        simp only [Table.set, h2]
        omega
    case apart =>
      intro k l hk hl hkl
      by_cases hki : k = i <;> by_cases hli : l = i
      · rw [hki, hli]
      · subst hki
        rw [hpid l hli] at hl hkl
        rw [set_self, hnew] at hkl
        have := h.pid l hl
        omega
      · subst hli
        rw [hpid k hki] at hk hkl
        rw [set_self, hnew] at hkl
        have := h.pid k hk
        omega
      · rw [hpid k hki] at hk hkl
        rw [hpid l hli] at hl hkl
        exact h.apart k l hk hl hkl

def NoWrap (t : Table) : Event → Prop
  | .run _ (.fork _) => t.nextpid + 2 < 2 ^ 31
  | _ => True

def NoKillUnused (t : Table) : Event → Prop
  | .run _ (.kill pid) => pid = 0 → ∀ i, i < nproc → (t.procs i).state ≠ .unused
  | _ => True

theorem Numbered.step (h : Numbered t) (hw : NoWrap t e) (hs : Table.step t e = some (.ok t')) : Numbered t' := by
  cases e with
  | run p c =>
    simp only [Table.step] at hs
    split at hs
    · rename_i hp
      have hc := Option.some.inj hs
      by_cases hf : ∃ a, c = .fork a
      · obtain ⟨a, rfl⟩ := hf
        cases hc
        exact h.fork (by simp [hp.2]) hw
      · obtain ⟨hn, hl⟩ := call_later hp.2 (fun a ha => hf ⟨a, ha⟩) hc
        exact h.later ⟨hn.ge, hn ▸ h.next.2⟩ hl
    · cases hs
  | schedule p =>
    simp only [Table.step] at hs
    split at hs
    · rename_i hp
      cases hs
      exact h.later ⟨le_refl _, h.next.2⟩ (forall_set (R := fun i z => Later (t.procs i) z) (fun i => .refl _)
        (.inr ⟨by simp [hp.2], rfl⟩))
    · cases hs
  | tick =>
    cases hs
    refine h.later ⟨le_refl _, h.next.2⟩ fun i => ?_
    simp only
    split
    · rename_i hr
      exact .inr ⟨by simp [hr], rfl⟩
    · exact .refl _

def Proc.Unmarked (x : Proc) : Prop := x.state = .unused → x.killed = false

theorem Proc.Unmarked.of_live (h : x.state ≠ .unused) : x.Unmarked := fun hu => absurd hu h

theorem Proc.Unmarked.nudged (h : x.Unmarked) (hn : Nudged x y) : y.Unmarked := by
  intro hu
  rw [hn.rest]
  exact h (hn.unused.mp hu)

def Table.Unmarked (t : Table) : Prop := ∀ i, (t.procs i).Unmarked

theorem Table.Unmarked.set (h : t.Unmarked) (hx : x.Unmarked) : (t.set i x).Unmarked :=
  forall_set (R := fun _ z => z.Unmarked) h hx

theorem Table.Unmarked.call (h : t.Unmarked) (hfit : t.Fit) (hk : NoKillUnused t (.run p c))
    (hp : (t.procs p).state = .running) (hc : t.call p c = .ok t') : t'.Unmarked := by
  have hrun : ∀ y : Proc, y.state = .running → (t.set p y).Unmarked :=
    fun y hy => h.set (.of_live (by simp [hy]))
  cases c with
  | exit status =>
    obtain ⟨-, -, hother, y, -, hself⟩ := exit_ok hc
    intro i
    by_cases hi : i = p
    · subst hi
      rw [hself]
      exact .of_live (by simp)
    · exact (h i).nudged (hother i hi)
  | fork a =>
    cases hc
    have hf := fork_forked (a := a) (show (t.procs p).state ≠ .unused by simp [hp])
    generalize Ptable.fork t p a = r at hf
    cases hf with
    | full _ => exact h
    | failed _ _ _ _ => exact Table.Unmarked.set h fun _ => rfl
    | done _ _ _ _ => exact Table.Unmarked.set h (.of_live (by simp [child]))
  | wait b =>
    cases hc
    unfold Ptable.wait
    split
    · split
      · exact h.set fun _ => rfl
      · exact h
    · split
      · exact h
      · exact h.set (.of_live (by simp))
  | kill pid =>
    cases hc
    unfold Ptable.kill
    split
    · rename_i i hi
      obtain ⟨hlt, hpid⟩ := find_some hi
      -- 空きの欄の番号は零なので、見つかるのは生きているプロセスである。
      have hlive : (t.procs i).state ≠ .unused := by
        intro hu
        have h0 := ((hfit i).unused hu).1
        simp only [h0, decide_eq_true_eq] at hpid
        exact hk hpid.symm i hlt hu
      exact h.set (.of_live (by simp only [Proc.kill]; split <;> simp [hlive]))
    · exact h
  | wakeup chan => cases hc; exact fun i => (h i).nudged (wakeup_nudged t chan (some p) i)
  | sleep chan | yield => cases hc; exact h.set (.of_live (by simp))
  | setkilled | trace mask | exec name sz pg regs | grow sz | file fd f | chdir ip | user regs =>
    cases hc; exact hrun _ hp

theorem Table.Unmarked.step (h : t.Unmarked) (hfit : t.Fit) (hk : NoKillUnused t e)
    (hs : Table.step t e = some (.ok t')) : t'.Unmarked := by
  cases e with
  | run p c =>
    simp only [Table.step] at hs
    split at hs
    · rename_i hp
      exact h.call hfit hk hp.2 (Option.some.inj hs)
    · cases hs
  | schedule p =>
    simp only [Table.step] at hs
    split at hs
    · cases hs
      exact h.set (.of_live (by simp))
    · cases hs
  | tick =>
    cases hs
    intro i
    simp only
    split
    · rename_i hr
      exact .of_live (by simp [hr])
    · exact h i

theorem boot_cases (a : Alloc) (root : Nat) :
    (∀ i, i ≠ 0 → (Table.boot a root).procs i = Proc.init i) ∧ (Table.boot a root).nextpid = 3 ∧
      ((Table.boot a root).procs 0 = { Proc.init 0 with priority := 60 }.freeproc ∨
        (((Table.boot a root).procs 0).state = .runnable ∧ ((Table.boot a root).procs 0).pid = 2 ∧
          ((Table.boot a root).procs 0).kstack = kstackOf 0 ∧
          ((Table.boot a root).procs 0).ofile = List.replicate nofile none)) := by
  have hfind : Table.find { procs := Proc.init, nextpid := 1, ticks := 0, initproc := 0 }
      (fun p => p.state = .unused) = some 0 := rfl
  unfold Table.boot allocproc
  simp only [hfind]
  cases a.trapframe with
  | none => exact ⟨fun i hi => set_ne hi, rfl, .inl (set_self)⟩
  | some tf =>
    cases a.pagetable with
    | none => exact ⟨fun i hi => set_ne hi, rfl, .inl (set_self)⟩
    | some pg =>
      simp only [set_set, set_self]
      exact ⟨fun i hi => set_ne hi, rfl, .inr ⟨trivial, rfl, rfl, rfl⟩⟩

theorem boot_fit (a : Alloc) (root : Nat) : (Table.boot a root).Fit := by
  obtain ⟨hother, -, h0⟩ := boot_cases a root
  intro i
  by_cases hi : i = 0
  · subst hi
    rcases h0 with h0 | ⟨hs, -, hk, ho⟩
    · rw [h0]
      exact ⟨rfl, rfl, fun _ => ⟨rfl, rfl, rfl, rfl⟩, fun _ => rfl⟩
    · exact ⟨hk, by simp [ho], by simp [hs], fun _ => ho⟩
  · rw [hother i hi]
    exact .init i

theorem boot_numbered (a : Alloc) (root : Nat) : Numbered (Table.boot a root) := by
  obtain ⟨hother, hn, h0⟩ := boot_cases a root
  have hlive : ∀ i, ((Table.boot a root).procs i).state ≠ .unused → i = 0 ∧ ((Table.boot a root).procs 0).pid = 2 := by
    intro i hi
    by_cases hi0 : i = 0
    · subst hi0
      rcases h0 with h0 | ⟨-, hp, -⟩
      · rw [h0] at hi
        exact absurd rfl hi
      · exact ⟨rfl, hp⟩
    · rw [hother i hi0] at hi
      exact absurd rfl hi
  refine ⟨by rw [hn]; decide, fun i hi => ?_, fun i j hi hj _ => (hlive i hi).1.trans (hlive j hj).1.symm⟩
  obtain ⟨rfl, hp⟩ := hlive i hi
  rw [hp, hn]
  decide

theorem boot_unmarked (a : Alloc) (root : Nat) : (Table.boot a root).Unmarked := by
  obtain ⟨hother, -, h0⟩ := boot_cases a root
  intro i
  by_cases hi : i = 0
  · subst hi
    rcases h0 with h0 | ⟨hs, -⟩
    · rw [h0]
      exact fun _ => rfl
    · exact .of_live (by simp [hs])
  · rw [hother i hi]
    exact fun _ => rfl

theorem Table.Fit.of_reaches {root} (h : Machine.Reaches Table.step (Table.boot a root) t) : t.Fit :=
  h.inv Table.Fit (boot_fit a root) fun _ _ _ hu hv => hu.step hv

theorem Numbered.of_reaches {root} (h : Machine.ReachesBy Table.step NoWrap (Table.boot a root) t) :
    Numbered t :=
  h.inv Numbered (boot_numbered a root) fun _ _ _ hu hc hv => hu.step hc hv

theorem Table.Unmarked.of_reaches {root}
    (h : Machine.ReachesBy Table.step NoKillUnused (Table.boot a root) t) : t.Unmarked :=
  (h.inv (fun t => t.Fit ∧ t.Unmarked) ⟨boot_fit a root, boot_unmarked a root⟩
    fun _ _ _ hu hc hv => ⟨hu.1.step hv, hu.2.step hu.1 hc hv⟩).2

end Xv6.Ptable
