import Xv6.Ptable.Calls

/-!
# 呼び出しの後の欄
-/

namespace Xv6.Ptable

open Xv6.Vm (ProcState nproc)
open Xv6.Lib

variable {t t' : Table} {i j p : Nat} {x y : Proc} {c : Call} {a : Alloc}

@[simp]
theorem set_self : (t.set i x).procs i = x := update_self ..

theorem set_ne (h : j ≠ i) : (t.set i x).procs j = t.procs j := update_of_ne h ..

theorem forall_set {R : Nat → Proc → Prop} (h : ∀ j, R j (t.procs j)) (hx : R i x) :
    ∀ j, R j ((t.set i x).procs j) := by
  intro j
  by_cases hj : j = i
  · subst hj
    rw [set_self]
    exact hx
  · rw [set_ne hj]
    exact h j

theorem find_some {f} (h : t.find f = some i) : i < nproc ∧ f (t.procs i) = true :=
  ⟨List.mem_range.mp (List.mem_of_find?_eq_some h), List.find?_some (p := fun i => f (t.procs i)) h⟩

theorem find_none {f} (h : t.find f = none) (hi : i < nproc) : f (t.procs i) = false := by
  have := List.find?_eq_none.mp h i (List.mem_range.mpr hi)
  simpa using this

/-- どの呼び出しの列の後でも、空きの欄には次の値が入っている。 -/
structure Proc.Fit (i : Nat) (x : Proc) : Prop where
  kstack : x.kstack = kstackOf i
  ofile : x.ofile.length = nofile
  unused : x.state = .unused → x.pid = 0 ∧ x.chan = 0 ∧ x.xstate = 0 ∧ x.parent = none
  closed : x.state = .unused ∨ x.state = .zombie → x.ofile = List.replicate nofile none

theorem Proc.Fit.init (i : Nat) : (Proc.init i).Fit i :=
  ⟨rfl, rfl, fun _ => ⟨rfl, rfl, rfl, rfl⟩, fun _ => rfl⟩

theorem Proc.Fit.alive (h : x.Fit i) (hk : y.kstack = x.kstack) (ho : y.ofile.length = x.ofile.length)
    (hu : y.state ≠ .unused) (hz : y.state ≠ .zombie) : y.Fit i where
  kstack := hk.trans h.kstack
  ofile := ho.trans h.ofile
  unused hs := absurd hs hu
  closed hs := by
    rcases hs with hs | hs
    · exact absurd hs hu
    · exact absurd hs hz

theorem Proc.Fit.freeproc (h : x.Fit i) (hc : x.ofile = List.replicate nofile none) : x.freeproc.Fit i :=
  ⟨h.kstack, h.ofile, fun _ => ⟨rfl, rfl, rfl, rfl⟩, fun _ => hc⟩

theorem Proc.wake_state (x : Proc) (chan : Nat) :
    x.wake chan = x ∨ (x.state = .sleeping ∧ x.wake chan = { x with state := .runnable }) := by
  unfold Proc.wake
  split
  · rename_i h; exact .inr ⟨h.1, rfl⟩
  · exact .inl rfl

theorem Proc.Fit.kill (h : x.Fit i) : x.kill.Fit i := by
  have hst : x.kill.state = .unused ∨ x.kill.state = .zombie → x.kill.state = x.state := by
    unfold Proc.kill
    split <;> simp
  refine ⟨h.kstack, h.ofile, fun hs => ?_, fun hs => ?_⟩
  · exact h.unused ((hst (.inl hs)).symm.trans hs)
  · exact h.closed (by rw [← hst hs]; exact hs)

def Table.Fit (t : Table) : Prop := ∀ i, (t.procs i).Fit i

theorem Table.Fit.set (h : t.Fit) (hx : x.Fit i) : (t.set i x).Fit := forall_set (R := fun i x => x.Fit i) h hx

def child (x y : Proc) (p : Nat) (forkret tf pg ticks : Nat) (nextpid : Int) : Proc :=
  { (({ x with state := .used, pid := incr nextpid, priority := 60 }.setup forkret tf pg ticks).copyFrom y) with
    parent := some p, state := .runnable }

inductive Forked (t : Table) (p : Nat) (a : Alloc) : Table × Int → Prop
  | full (h : t.find (fun x => x.state = .unused) = none) : Forked t p a (t, -1)
  | failed {i : Nat} {x : Proc} (h : t.find (fun x => x.state = .unused) = some i)
      (hk : x.kstack = (t.procs i).kstack) (ho : x.ofile = (t.procs i).ofile)
      (hfail : a.trapframe = none ∨ a.pagetable = none ∨ a.copied = false) :
      Forked t p a ({ t with nextpid := incr (incr t.nextpid) }.set i x.freeproc, -1)
  | done {i tf pg} (h : t.find (fun x => x.state = .unused) = some i) (htf : a.trapframe = some tf)
      (hpg : a.pagetable = some pg) (hc : a.copied = true) :
      Forked t p a ({ t with nextpid := incr (incr t.nextpid) }.set i
        (child (t.procs i) (t.procs p) p a.forkret tf pg t.ticks t.nextpid), incr t.nextpid)

theorem set_set (t : Table) (i : Nat) (x y : Proc) : (t.set i x).set i y = t.set i y := by
  simp [Table.set]

theorem fork_forked (hp : (t.procs p).state ≠ .unused) : Forked t p a (fork t p a) := by
  unfold fork allocproc
  cases hf : t.find fun x => x.state = .unused with
  | none => exact .full hf
  | some i =>
    have hi := (find_some hf).2
    have hpi : p ≠ i := by
      rintro rfl
      exact hp (by simpa using hi)
    cases htf : a.trapframe with
    | none => exact .failed hf rfl rfl (.inl htf)
    | some tf =>
      cases hpg : a.pagetable with
      | none => exact .failed hf rfl rfl (.inr (.inl hpg))
      | some pg =>
        simp only
        cases hc : a.copied with
        | false =>
          simp only [Bool.false_eq_true, if_false, set_self, set_set]
          exact .failed hf rfl rfl (.inr (.inr hc))
        | true =>
          simp only [if_true, set_self, set_ne hpi, set_set]
          exact .done hf htf hpg hc

theorem Proc.Fit.child (h : x.Fit i) (hx : x.state = .unused) (hy : y.Fit j) {forkret tf pg ticks nextpid} : (child x y p forkret tf pg ticks nextpid).Fit i := by
  refine h.alive rfl ?_ (by simp [Ptable.child]) (by simp [Ptable.child])
  simp [Ptable.child, Proc.copyFrom, Proc.setup, hy.ofile, h.closed (.inl hx)]

structure Nudged (x y : Proc) : Prop where
  rest : y = { x with state := y.state, parent := y.parent }
  state : y.state = x.state ∨ (x.state = .sleeping ∧ y.state = .runnable)
  parent : x.parent = none → y.parent = none

theorem Nudged.refl (x : Proc) : Nudged x x := ⟨rfl, .inl rfl, id⟩

theorem Nudged.trans {z} (h : Nudged x y) (h' : Nudged y z) : Nudged x z where
  rest := by rw [h'.rest, h.rest]
  state := by
    rcases h.state with h1 | ⟨h1, h1'⟩ <;> rcases h'.state with h2 | ⟨h2, h2'⟩
    · exact .inl (h2.trans h1)
    · exact .inr ⟨h1.symm.trans h2, h2'⟩
    · exact .inr ⟨h1, h2.trans h1'⟩
    · rw [h1'] at h2
      cases h2
  parent hx := h'.parent (h.parent hx)

theorem Nudged.wake (x : Proc) (chan : Nat) : Nudged x (x.wake chan) := by
  rcases x.wake_state chan with hw | ⟨hs, hw⟩ <;> rw [hw]
  · exact .refl x
  · exact ⟨rfl, .inr ⟨hs, rfl⟩, id⟩

theorem Nudged.unused (h : Nudged x y) : y.state = .unused ↔ x.state = .unused := by
  rcases h.state with h1 | ⟨h1, h1'⟩
  · rw [h1]
  · simp [h1, h1']

theorem Proc.Fit.nudged (h : x.Fit i) (hn : Nudged x y) : y.Fit i := by
  have hk : y.kstack = x.kstack := by rw [hn.rest]
  have ho : y.ofile = x.ofile := by rw [hn.rest]
  refine ⟨hk.trans h.kstack, by rw [ho]; exact h.ofile, fun hu => ?_, fun hc => ?_⟩
  · obtain ⟨h1, h2, h3, h4⟩ := h.unused (hn.unused.mp hu)
    exact ⟨by rw [hn.rest]; exact h1, by rw [hn.rest]; exact h2, by rw [hn.rest]; exact h3, hn.parent h4⟩
  · rw [ho]
    refine h.closed ?_
    rcases hn.state with h1 | ⟨-, h1⟩
    · rwa [h1] at hc
    · simp [h1] at hc

theorem wakeup_nudged (t : Table) (chan : Nat) (self : Option Nat) (i : Nat) :
    Nudged (t.procs i) ((t.wakeup chan self).procs i) := by
  simp only [Table.wakeup]
  split
  · exact .refl _
  · exact .wake _ _

theorem adopt_nudged (t : Table) (p i : Nat) : Nudged (t.procs i) ((t.adopt p).procs i) := by
  simp only [Table.adopt]
  split
  · rename_i hp
    exact ⟨rfl, .inl rfl, fun hn => by rw [hn] at hp; cases hp⟩
  · exact .refl _

theorem reparent_nudged (t : Table) (p i : Nat) : Nudged (t.procs i) ((reparent t p).procs i) := by
  unfold reparent
  split
  · exact (adopt_nudged t p i).trans (wakeup_nudged (t.adopt p) _ _ i)
  · exact adopt_nudged t p i

theorem reparent_nextpid (t : Table) (p : Nat) :
    (reparent t p).nextpid = t.nextpid ∧ (reparent t p).initproc = t.initproc := by
  unfold reparent
  split <;> exact ⟨rfl, rfl⟩

/-- 自分の欄の他は、起こされるか親が替わるだけである。 -/
theorem exit_ok {status} (h : exit t p status = .ok t') :
    t'.nextpid = t.nextpid ∧ t'.initproc = t.initproc ∧
      (∀ i, i ≠ p → Nudged (t.procs i) (t'.procs i)) ∧
      ∃ y, Nudged { t.procs p with ofile := List.replicate nofile none, cwd := none } y ∧
        t'.procs p = { y with xstate := status, state := .zombie, etime := (t'.procs p).etime } := by
  unfold exit at h
  split at h
  · cases h
  simp only [Except.ok.injEq] at h
  generalize hu : reparent (t.set p { t.procs p with ofile := List.replicate nofile none, cwd := none }) p = u
    at h
  have hnext := reparent_nextpid (t.set p { t.procs p with ofile := List.replicate nofile none, cwd := none }) p
  have hnud := reparent_nudged (t.set p { t.procs p with ofile := List.replicate nofile none, cwd := none }) p
  rw [hu] at hnext
  simp only [hu] at hnud
  subst h
  refine ⟨hnext.1, hnext.2, fun i hi => ?_, (u.wakeup (u.procs p).parentAddr (some p)).procs p, ?_, ?_⟩
  · have h1 := hnud i
    rw [set_ne hi] at h1
    rw [set_ne hi]
    exact h1.trans (wakeup_nudged u _ (some p) i)
  · have h1 := hnud p
    rw [set_self] at h1
    exact h1.trans (wakeup_nudged u _ (some p) p)
  · rw [set_self]

theorem Table.Fit.exit {status} (h : t.Fit) (he : exit t p status = .ok t') : t'.Fit := by
  obtain ⟨-, -, hother, y, hy, hp⟩ := exit_ok he
  intro i
  by_cases hi : i = p
  · subst hi
    have hk : y.kstack = (t.procs i).kstack := by rw [hy.rest]
    have ho : y.ofile = List.replicate nofile none := by rw [hy.rest]
    rw [hp]
    exact ⟨hk.trans (h i).kstack, by simp [ho], by simp, fun _ => ho⟩
  · exact (h i).nudged (hother i hi)

theorem Table.Fit.fork (h : t.Fit) (hp : (t.procs p).state ≠ .unused) : (fork t p a).1.Fit := by
  have hf := fork_forked (a := a) hp
  generalize Ptable.fork t p a = r at hf
  cases hf with
  | full _ => exact h
  | @failed i x hi hk ho _ =>
    have hfit := h i
    have hopen : x.ofile = List.replicate nofile none := by
      rw [ho]
      exact hfit.closed (.inl (by simpa using (find_some hi).2))
    exact Table.Fit.set h ⟨hk.trans hfit.kstack, by simp [Proc.freeproc, hopen],
      fun _ => ⟨rfl, rfl, rfl, rfl⟩, fun _ => hopen⟩
  | @done i tf pg hi _ _ _ =>
    exact Table.Fit.set h ((h i).child (by simpa using (find_some hi).2) (h p))

theorem Table.Fit.wait (h : t.Fit) (b : Bool) : (wait t p b).1.Fit := by
  unfold Ptable.wait
  split
  · rename_i i hi
    split
    · have hz := (find_some hi).2
      simp only [decide_eq_true_eq] at hz
      exact h.set ((h i).freeproc ((h i).closed (.inr hz.2)))
    · exact h
  · split
    · exact h
    · exact h.set ((h p).alive rfl rfl (by simp) (by simp))

theorem Table.Fit.call (h : t.Fit) (hp : (t.procs p).state = .running) (hc : t.call p c = .ok t') : t'.Fit := by
  have hrun : ∀ y : Proc, y.kstack = (t.procs p).kstack → y.ofile.length = (t.procs p).ofile.length →
      y.state = .running → (t.set p y).Fit :=
    fun y hk ho hs => h.set ((h p).alive hk ho (by simp [hs]) (by simp [hs]))
  cases c with
  | exit status => exact h.exit hc
  | fork a => cases hc; exact h.fork (by simp [hp])
  | wait b => cases hc; exact h.wait b
  | kill pid =>
    cases hc
    unfold Ptable.kill
    split
    · rename_i i _; exact h.set (h i).kill
    · exact h
  | sleep chan => cases hc; exact h.set ((h p).alive rfl rfl (by simp) (by simp))
  | wakeup chan => cases hc; exact fun i => (h i).nudged (wakeup_nudged t chan (some p) i)
  | yield => cases hc; exact h.set ((h p).alive rfl rfl (by simp) (by simp))
  | setkilled | trace mask | exec name sz pg regs | grow sz => cases hc; exact hrun _ rfl rfl hp
  | file fd f => cases hc; exact hrun _ rfl (by simp) hp
  | chdir ip | user regs => cases hc; exact hrun _ rfl rfl hp

theorem Table.Fit.step {e} (h : t.Fit) (hs : Table.step t e = some (.ok t')) : t'.Fit := by
  cases e with
  | run p c =>
    simp only [Table.step] at hs
    split at hs
    · rename_i hp
      exact h.call hp.2 (Option.some.inj hs)
    · cases hs
  | schedule p =>
    simp only [Table.step] at hs
    split at hs
    · cases hs
      exact h.set ((h p).alive rfl rfl (by simp) (by simp))
    · cases hs
  | tick =>
    cases hs
    intro i
    simp only
    split
    · rename_i hr
      exact (h i).alive rfl rfl (by simp [hr]) (by simp [hr])
    · exact h i

end Xv6.Ptable
