import Xv6.Ftable.Lemmas.Local

/-!
# 表の不変条件
-/

namespace Xv6.Ftable

open Xv6.Lib

def Sys.view (s : Sys) (p : ProcId) : View where
  state := (s.proc p).state
  ofile := (s.proc p).ofile
  own := s.own p
  blank f := s.blank f = some p
  hand t := s.holder t = some (.thread p)
  kid := (s.kid p).map fun np => (np, (s.proc np).ofile)

/-- 参照の数は、プロセスが持つ参照の総数である。 -/
structure Counts (s : Sys) : Prop where
  ref : ∀ f, (s.file f).ref = ∑ p, s.own p f
  free : ∀ f, (s.file f).ref = 0 → (s.file f).type = .none
  blank : ∀ f p, s.blank f = some p → s.own p f = 1 ∧ (s.file f).ref = 1 ∧ (s.file f).type = .none

/-- `r`、`a`、`b` はページ、読む端、書く端の権利の持ち主、`made` は割り当てられたことを表す。権利が残っている間は `kfree`
されず、なくなったときには一度だけ `kfree` されている。 -/
structure PipeOk (r a b : Option Holder) (x : Pipe) (made : Prop) : Prop where
  readopen : x.readopen = true ↔ a ≠ none
  writeopen : x.writeopen = true ↔ b ≠ none
  closed : r ≠ none → a = none ∧ b = none
  freed : made → r = none → a = none → b = none → x.frees = 1
  held : r ≠ none ∨ a ≠ none ∨ b ≠ none → made ∧ x.frees = 0
  new : ¬made → x.frees = 0

/-- パイプの端の権利は、項目かプロセスのどちらか一つが持つ。 -/
structure Ends (s : Sys) : Prop where
  file : ∀ f pi w, s.holder (.side pi w) = some (.file f) ↔
    (s.file f).type = .pipe ∧ (s.file f).pipe = pi ∧ (s.file f).writable = w
  raw : ∀ f pi, s.holder (.raw pi) ≠ some (.file f)
  pipe : ∀ pi, PipeOk (s.holder (.raw pi)) (s.holder (.side pi false)) (s.holder (.side pi true)) (s.pipe pi) (pi < s.pipes)

structure Idle (v : View) : Prop where
  bare : v.state ≠ .live → v.Bare
  own : v.state ≠ .live → ∀ f, v.own f = 0
  empty : v.state = .unused ∨ v.state = .zombie → ∀ fd, v.ofile fd = none

structure Kids (s : Sys) : Prop where
  used : ∀ p np, s.kid p = some np → (s.proc np).state = .used
  unique : ∀ p q np, s.kid p = some np → s.kid q = some np → p = q
  parent : ∀ np, (s.proc np).state = .used → ∃ p, s.kid p = some np

structure Inv (s : Sys) : Prop where
  counts : Counts s
  ends : Ends s
  idle : ∀ p, Idle (s.view p)
  kids : Kids s

variable {s s' : Sys} {p q np : ProcId} {f : FileId} {t : Token} {fd : Fd}

section View

@[simp]
theorem view_setFile (x : File) : (s.setFile f x).view q = s.view q := rfl

@[simp]
theorem view_setPipe (pi : Nat) (x : Pipe) : (s.setPipe pi x).view q = s.view q := rfl

theorem view_setOwn_self (g : FileId → Nat) : (s.setOwn p g).view p = (s.view p).setOwn g := by
  simp [Sys.view, View.setOwn, Sys.setOwn]

theorem view_setOwn_of_ne (h : q ≠ p) (g : FileId → Nat) : (s.setOwn p g).view q = s.view q := by
  simp [Sys.view, Sys.setOwn, h]

theorem view_gain_self : (s.gain p f).view p = (s.view p).gain f := view_setOwn_self _

theorem view_gain_of_ne (h : q ≠ p) : (s.gain p f).view q = s.view q := view_setOwn_of_ne h _

theorem view_lose_self : (s.lose p f).view p = (s.view p).lose f := view_setOwn_self _

theorem view_lose_of_ne (h : q ≠ p) : (s.lose p f).view q = s.view q := view_setOwn_of_ne h _

theorem view_setBlank (o : Option ProcId) : (s.setBlank f o).view q = (s.view q).mark f (o = some q) := by
  ext g <;> simp only [Sys.view, View.mark, Sys.setBlank_blank, Sys.setBlank_proc, Sys.setBlank_own,
      Sys.setBlank_holder, Sys.setBlank_kid]
  by_cases hg : g = f
  · simp [hg]
  · simp [hg]

theorem view_setHolder (o : Option Holder) : (s.setHolder t o).view q = (s.view q).hold t (o = some (.thread q)) := by
  ext u <;> simp only [Sys.view, View.hold, Sys.setHolder_blank, Sys.setHolder_proc, Sys.setHolder_own,
      Sys.setHolder_holder,
    Sys.setHolder_kid]
  by_cases hu : u = t
  · simp [hu]
  · simp [hu]

theorem view_setBlank_self : (s.setBlank f (some p)).view p = (s.view p).mark f True := by
  rw [view_setBlank, eq_self]

theorem view_setBlank_of_ne {o} (h : o ≠ some q) : (s.setBlank f o).view q = (s.view q).mark f False := by
  rw [view_setBlank, eq_false h]

theorem view_setHolder_self : (s.setHolder t (some (.thread p))).view p = (s.view p).hold t True := by
  rw [view_setHolder, eq_self]

theorem view_setHolder_of_ne {o} (h : o ≠ some (.thread q)) :
    (s.setHolder t o).view q = (s.view q).hold t False := by
  rw [view_setHolder, eq_false h]

theorem View.mark_self {v : View} (h : ¬v.blank f) : v.mark f False = v := by
  have he : update v.blank f False = v.blank := by
    rw [← eq_false h, update_eq_self]
  rw [View.mark, he]

theorem view_setKid_self (o : Option ProcId) :
    (s.setKid p o).view p = (s.view p).setKid (o.map fun np => (np, (s.proc np).ofile)) := by
  simp [Sys.view, View.setKid, Sys.setKid]

theorem view_setKid_of_ne (h : q ≠ p) (o : Option ProcId) : (s.setKid p o).view q = s.view q := by
  simp [Sys.view, Sys.setKid, h]

theorem setState_ofile (st : PState) : ((s.setState p st).proc q).ofile = (s.proc q).ofile := by
  by_cases hq : q = p
  · simp [Sys.setState, hq]
  · simp [Sys.setState, hq]

theorem view_setState_self (st : PState) : (s.setState p st).view p = (s.view p).setState st := by
  simp only [Sys.view, View.setState, setState_ofile]
  simp [Sys.setState]

theorem view_setState_of_ne (h : q ≠ p) (st : PState) : (s.setState p st).view q = s.view q := by
  simp only [Sys.view, setState_ofile]
  simp [Sys.setState, h]

theorem kid_setOfile (h : s.kid q ≠ some p) (o : Option FileId) :
    ((s.kid q).map fun np => (np, ((s.setOfile p fd o).proc np).ofile)) = (s.kid q).map fun np => (np, (s.proc np).ofile) := by
  cases hk : s.kid q with
  | none => rfl
  | some np =>
    have hne : np ≠ p := by
      rintro rfl
      exact h hk
    simp [Sys.setOfile, hne]

theorem view_setOfile_self (h : s.kid p ≠ some p) (o : Option FileId) :
    (s.setOfile p fd o).view p = (s.view p).setOfile fd o := by
  ext1 <;> simp [Sys.view, Sys.setOfile, View.setOfile]
  exact kid_setOfile h o

theorem view_setOfile_of_ne (hq : q ≠ p) (h : s.kid q ≠ some p) (o : Option FileId) :
    (s.setOfile p fd o).view q = s.view q := by
  ext1 <;> simp [Sys.view, Sys.setOfile, hq]
  exact kid_setOfile h o

theorem view_setOfile_kid (hne : p ≠ np) (h : s.kid p = some np) (o : Option FileId) :
    (s.setOfile np fd o).view p = (s.view p).setKid (some (np, update (s.proc np).ofile fd o)) := by
  ext1 <;> simp [Sys.view, Sys.setOfile, View.setKid, h, hne]

end View

theorem gain_own_apply (q : ProcId) (g : FileId) :
    (s.gain p f).own q g = s.own q g + if q = p ∧ g = f then 1 else 0 := by
  by_cases hq : q = p
  · by_cases hg : g = f
    · simp [hq, hg]
    · simp [hq, hg]
  · simp [hq]

theorem lose_own_apply (q : ProcId) (g : FileId) :
    (s.lose p f).own q g = s.own q g - if q = p ∧ g = f then 1 else 0 := by
  by_cases hq : q = p
  · by_cases hg : g = f
    · simp [hq, hg]
    · simp [hq, hg]
  · simp [hq]

namespace Counts

theorem own_le (h : Counts s) (p : ProcId) (f : FileId) : s.own p f ≤ (s.file f).ref := by
  rw [h.ref f]
  exact Finset.single_le_sum (f := fun p => s.own p f) (fun _ _ => Nat.zero_le _) (Finset.mem_univ p)

/-- 参照が一つなら、持ち主は一人である。 -/
theorem sole (h : Counts s) (hf : (s.file f).ref = 1) (hp : 0 < s.own p f) (hq : 0 < s.own q f) : p = q := by
  by_contra hne
  have hle := Finset.add_le_sum (f := fun p => s.own p f) (fun _ _ => Nat.zero_le _) (Finset.mem_univ p)
      (Finset.mem_univ q) hne
  rw [← h.ref f] at hle
  omega

theorem sum_gain (h : Counts s) (g : FileId) :
    ∑ q, (s.gain p f).own q g = (s.file g).ref + if g = f then 1 else 0 := by
  have hsum := sum_update s.own p (update (s.own p) f (s.own p f + 1)) g
  rw [← h.ref g] at hsum
  simp only [Sys.gain, Sys.setOwn_own]
  by_cases hg : g = f
  · subst hg
    rw [update_self] at hsum
    rw [if_pos rfl]
    omega
  · rw [update_of_ne hg] at hsum
    rw [if_neg hg]
    omega

theorem sum_lose (h : Counts s) (hp : 0 < s.own p f) (g : FileId) :
    ∑ q, (s.lose p f).own q g + (if g = f then 1 else 0) = (s.file g).ref := by
  have hsum := sum_update s.own p (update (s.own p) f (s.own p f - 1)) g
  rw [← h.ref g] at hsum
  simp only [Sys.lose, Sys.setOwn_own]
  by_cases hg : g = f
  · subst hg
    rw [update_self] at hsum
    rw [if_pos rfl]
    omega
  · rw [update_of_ne hg] at hsum
    rw [if_neg hg]
    omega

end Counts

end Xv6.Ftable
