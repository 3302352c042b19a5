import Xv6.Lib.Owner
import Xv6.Sched.Cpu

/-!
# スケジューラの不変条件
-/

namespace Xv6.Sched

open Xv6.Lib
open Xv6.Vm (ProcState nproc)

variable {s t : Sys} {c p q : Nat} {a : Act} {x : Proc}

def Act.held : Act → Option Nat
  | .scan _ | .thread _ => none
  | .check p | .picking p | .chosen p | .resume p _ | .own p _ | .leaving p _ | .back p | .done p => some p
  | .touch _ q | .poke _ q => some q

def Act.engaged : Act → Option Nat
  | .picking p | .chosen p | .resume p _ | .thread p | .own p _ | .leaving p _ | .back p | .touch p _ => some p
  | .scan _ | .check _ | .done _ | .poke _ _ => none

def Act.cur : Act → Option Nat
  | .chosen p | .resume p _ | .thread p | .own p _ | .leaving p _ | .back p | .touch p _ => some p
  | .scan _ | .check _ | .picking _ | .done _ | .poke _ _ => none

def Ready (x : Proc) : Prop := ∃ k, x.context = some k ∧ k ≠ .sched .exit

def Rested (x : Proc) : Prop := x.state ≠ .running ∧ (x.state ≠ .unused → x.state ≠ .zombie → Ready x)

def Act.Fits (x : Proc) : Act → Prop
  | .picking _ | .chosen _ => x.state = .running ∧ Ready x
  | .resume _ k => x.state = .running ∧ k ≠ .sched .exit
  | .thread _ | .own _ _ | .touch _ _ => x.state = .running
  | .leaving _ w => x.state ≠ .running ∧ (w = .exit → x.state = .zombie)
  | .back _ => Rested x
  | .scan _ | .check _ | .done _ | .poke _ _ => True

structure Inv (s : Sys) : Prop where
  cur : ∀ c, s.cur c = (s.act c).cur
  lock : Matched s.lock Act.held s.act
  home : Matched s.home Act.engaged s.act
  fits : ∀ c p, (s.act c).engaged = some p → (s.act c).Fits (s.proc p)
  rest : ∀ p, s.home p = none → Rested (s.proc p)

theorem Act.Fits.running (h : a.Fits x) (he : a.engaged = some p) (hl : a.held ≠ some p) : x.state = .running := by
  cases a with
  | thread p | touch p q => exact h
  | scan p | check p | done p | poke i q => cases he
  | picking p | chosen p | resume p k => exact h.1
  | own p w => exact h
  | leaving p w | back p => exact absurd he hl

theorem Act.Fits.of_running {y} (h : a.Fits x) (he : a.engaged = some p) (hl : a.held ≠ some p)
    (hy : y.state = .running) : a.Fits y := by
  cases a with
  | thread p | touch p q => exact hy
  | scan p | check p | done p | poke i q => cases he
  | picking p | chosen p | resume p k => exact absurd he hl
  | own p w => exact hy
  | leaving p w | back p => exact absurd he hl

section

variable (h : Inv s)
include h

theorem Inv.cur_update (a' : Act) (d : Nat) :
    update s.cur c a'.cur d = (update s.act c a' d).cur := by
  by_cases hd : d = c
  · rw [hd, update_self, update_self]
  · rw [update_of_ne hd, update_of_ne hd, h.cur d]

theorem Inv.cur_same {a'} (hcur : a'.cur = (s.act c).cur) (d : Nat) :
    s.cur d = (update s.act c a' d).cur := by
  rw [← h.cur_update a' d, hcur, ← h.cur c, update_eq_self]

/-- `q` の鍵を持つ CPU が `q` を書いても、他の CPU の条件は崩れない。 -/
theorem Inv.fits_other {d} (hd : d ≠ c) (hq : (s.act c).held = some q)
    (hrun : (s.act c).engaged ≠ some q → (s.proc q).state = .running → x.state = .running)
    (hp : (s.act d).engaged = some p) : (s.act d).Fits (update s.proc q x p) := by
  have hold := h.fits d p hp
  by_cases hpq : p = q
  · subst hpq
    have hnl : (s.act d).held ≠ some p := fun hl => hd (h.lock.unique hl hq)
    have hne : (s.act c).engaged ≠ some p := fun he => hd (h.home.unique hp he)
    rw [update_self]
    exact hold.of_running hp hnl (hrun hne (hold.running hp hnl))
  · rwa [update_of_ne hpq]

theorem Inv.modify {a'} (hq : (s.act c).held = some q) (hheld : a'.held = some q)
    (heng : a'.engaged = (s.act c).engaged) (hcur : a'.cur = (s.act c).cur)
    (hfits : ∀ p, a'.engaged = some p → a'.Fits (update s.proc q x p))
    (hrun : (s.act c).engaged ≠ some q → (s.proc q).state = .running → x.state = .running)
    (hrest : s.home q = none → Rested x) : Inv ((s.setProc q x).go c a') where
  cur := h.cur_same hcur
  lock := h.lock.keep (hheld.trans hq.symm)
  home := h.home.keep heng
  fits := fun d p hp => by
    simp only [Sys.go_act, Sys.go_proc, Sys.setProc_proc] at hp ⊢
    by_cases hd : d = c
    · subst hd
      rw [update_self] at hp ⊢
      exact hfits p hp
    · rw [update_of_ne hd] at hp ⊢
      exact h.fits_other hd hq hrun hp
  rest := fun p hp => by
    simp only [Sys.go_proc, Sys.setProc_proc]
    by_cases hpq : p = q
    · subst hpq
      rw [update_self]
      exact hrest hp
    · rw [update_of_ne hpq]
      exact h.rest p hp

theorem Inv.fits_go {a'} (heng : a'.engaged = (s.act c).engaged) (hfits : ∀ x, (s.act c).Fits x →
    a'.Fits x)
    {d} (hp : (update s.act c a' d).engaged = some p) :
    (update s.act c a' d).Fits (s.proc p) := by
  by_cases hd : d = c
  · subst hd
    rw [update_self] at hp ⊢
    exact hfits _ (h.fits d p (heng ▸ hp))
  · rw [update_of_ne hd] at hp ⊢
    exact h.fits d p hp

theorem Inv.acquire {a'} (hact : s.act c = a) (hs : s.acquire c q a' = some (.ok t))
    (hnone : a.held = none) (hheld : a'.held = some q) (heng : a'.engaged = a.engaged) (hcur : a'.cur = a.cur)
    (hfits : ∀ x, a.Fits x → a'.Fits x) : Inv t := by
  subst hact
  unfold Sys.acquire at hs
  split at hs
  case isFalse => cases hs
  case isTrue hfree =>
    cases hs
    exact ⟨h.cur_same hcur, h.lock.take hfree hnone hheld, h.home.keep heng, fun _ _ hp => h.fits_go heng hfits hp,
        h.rest⟩

theorem Inv.release {a'} (hact : s.act c = a) (hs : s.release c q a' = some (.ok t))
    (hq : a.held = some q) (hheld : a'.held = none) (heng : a'.engaged = a.engaged) (hcur : a'.cur = a.cur)
    (hfits : ∀ x, a.Fits x → a'.Fits x) : Inv t := by
  subst hact
  cases hs
  exact ⟨h.cur_same hcur, h.lock.give hq hheld, h.home.keep heng, fun _ _ hp => h.fits_go heng hfits hp, h.rest⟩

end

theorem Op.apply_running (h : x.state = .running) (o : Op) : (o.apply x).state = .running := by
  cases o <;> simp [Op.apply, h]

theorem Rested.apply (h : Rested x) (o : Op) : Rested (o.apply x) := by
  obtain ⟨hr, hready⟩ := h
  cases o with
  | wakeup chan =>
    simp only [Op.apply]
    split
    · rename_i hs
      exact ⟨by simp, fun _ _ => hready (by simp [hs.1]) (by simp [hs.1])⟩
    · exact ⟨hr, hready⟩
  | kill =>
    by_cases hs : x.state = .sleeping
    · simp only [Op.apply, hs, if_true]
      exact ⟨by simp, fun _ _ => hready (by simp [hs]) (by simp [hs])⟩
    · simp only [Op.apply, hs, if_false]
      exact ⟨hr, hready⟩
  | alloc =>
    simp only [Op.apply]
    split
    · exact ⟨by simp, fun _ _ => ⟨.forkret, rfl, by simp⟩⟩
    · exact ⟨hr, hready⟩
  | start =>
    simp only [Op.apply]
    split
    · rename_i hs
      exact ⟨by simp, fun _ _ => hready (by simp [hs]) (by simp [hs])⟩
    · exact ⟨hr, hready⟩
  | free =>
    simp only [Op.apply]
    split
    · exact ⟨by simp, fun h => absurd rfl h⟩
    · exact ⟨hr, hready⟩

theorem Inv.op (h : Inv s) {a'} (ha : s.act c = a') (hq : a'.held = some q) (o : Op)
    (hfits : ∀ x, a'.Fits x → a'.Fits (o.apply x)) : Inv ((s.setProc q (o.apply (s.proc q))).go c a') := by
  subst ha
  refine h.modify hq hq rfl rfl (fun p hp => ?_) (fun _ hr => Op.apply_running hr o) fun hn => (h.rest q hn).apply o
  by_cases hpq : p = q
  · subst hpq
    rw [update_self]
    exact hfits _ (h.fits c p hp)
  · rw [update_of_ne hpq]
    exact h.fits c p hp

theorem Inv.pick (h : Inv s) (ha : s.act c = .check p) (hr : (s.proc p).state = .runnable) :
    Inv (((s.setProc p { s.proc p with state := .running }).setHome p (some c)).go c (.picking p)) := by
  have hheld : (s.act c).held = some p := by rw [ha]; rfl
  have hnone : (s.act c).engaged = none := by rw [ha]; rfl
  have hfree : s.home p = none := by
    cases hh : s.home p with
    | none => rfl
    | some d =>
      have he := (h.home p d).mp hh
      have hrun : (s.proc p).state = .running := by
        refine (h.fits d p he).running he fun hl => ?_
        rw [h.lock.unique hl hheld, hnone] at he
        cases he
      rw [hrun] at hr
      cases hr
  constructor
  case cur => exact h.cur_same (by rw [ha]; rfl)
  case lock => exact h.lock.keep hheld.symm
  case home => exact h.home.take hfree hnone rfl
  case fits =>
    intro d q hq
    simp only [Sys.go_act, Sys.go_proc, Sys.setHome_proc, Sys.setProc_proc] at hq ⊢
    by_cases hd : d = c
    · subst hd
      rw [update_self] at hq ⊢
      cases hq
      rw [update_self]
      exact ⟨rfl, (h.rest p hfree).2 (by simp [hr]) (by simp [hr])⟩
    · rw [update_of_ne hd] at hq ⊢
      exact h.fits_other hd hheld (fun _ _ => rfl) hq
  case rest =>
    intro q hq
    simp only [Sys.go_home, Sys.setHome_home] at hq
    simp only [Sys.go_proc, Sys.setHome_proc, Sys.setProc_proc]
    by_cases hqp : q = p
    · rw [hqp, update_self] at hq
      cases hq
    · rw [update_of_ne hqp] at hq ⊢
      exact h.rest q hq

theorem Inv.putBack (h : Inv s) (ha : s.act c = .back p) :
    Inv (((s.setCur c none).setHome p none).go c (.done p)) := by
  have heng : (s.act c).engaged = some p := by rw [ha]; rfl
  constructor
  case cur => exact h.cur_update (.done p)
  case lock => exact h.lock.keep (by rw [ha]; rfl)
  case home => exact h.home.give heng rfl
  case fits =>
    intro d q hq
    simp only [Sys.go_act] at hq ⊢
    by_cases hd : d = c
    · rw [hd, update_self] at hq
      cases hq
    · rw [update_of_ne hd] at hq ⊢
      exact h.fits d q hq
  case rest =>
    intro q hq
    simp only [Sys.go_home, Sys.setHome_home] at hq
    by_cases hqp : q = p
    · have hfits := h.fits c p heng
      rw [ha] at hfits
      rw [hqp]
      exact hfits
    · rw [update_of_ne hqp] at hq
      exact h.rest q hq

/-- 自分の鍵の下で、自分のプロセスを書き換える。 -/
theorem Inv.own (h : Inv s) {a'} (hact : s.act c = a) (hq : a.held = some p) (he : a.engaged = some p)
    (hheld : a'.held = some p) (heng : a'.engaged = some p) (hcur : a'.cur = a.cur) (hfits : a'.Fits x) :
    Inv ((s.setProc p x).go c a') := by
  subst hact
  refine h.modify hq hheld (heng.trans he.symm) hcur (fun r hr => ?_) (fun hne => absurd he hne) fun hn => ?_
  · rw [heng] at hr
    cases hr
    rw [update_self]
    exact hfits
  · rw [(h.home p c).mpr he] at hn
    cases hn

theorem Inv.step {e} (h : Inv s) (hs : Sched.step s e = some (.ok t)) : Inv t := by
  obtain ⟨c, cmd⟩ := e
  simp only [Sched.step] at hs
  have hfits : ∀ p, (s.act c).engaged = some p → (s.act c).Fits (s.proc p) := h.fits c
  cases hact : s.act c with
  | scan p =>
    rw [hact] at hs
    cases cmd with
    | go | lock q => exact h.acquire hact hs rfl rfl rfl rfl fun _ _ => trivial
    | leave w | op o => cases hs
  | check p =>
    rw [hact] at hs
    cases cmd with
    | go =>
      simp only [Sys.next] at hs
      split at hs
      · cases hs
        exact h.pick hact ‹_›
      · exact h.release hact hs rfl rfl rfl rfl fun _ _ => trivial
    | _ => cases hs
  | picking p =>
    rw [hact] at hs hfits
    cases cmd with
    | go =>
      cases hs
      refine ⟨h.cur_update (.chosen p), h.lock.keep (by rw [hact]; rfl), h.home.keep (by rw [hact]; rfl), ?_, h.rest⟩
      exact fun d q hq => h.fits_go (by rw [hact]; rfl) (by rw [hact]; exact fun _ hx => hx) hq
    | _ => cases hs
  | chosen p =>
    rw [hact] at hs hfits
    obtain ⟨hrun, k, hk, hne⟩ := hfits p rfl
    cases cmd with
    | go =>
      simp only [Sys.next, hk] at hs
      cases hs
      exact h.own hact rfl rfl rfl rfl rfl ⟨hrun, hne⟩
    | _ => cases hs
  | resume p k =>
    rw [hact] at hs hfits
    obtain ⟨hrun, hne⟩ := hfits p rfl
    cases cmd with
    | go =>
      have hrel : ∀ {t}, s.release c p (.thread p) = some (.ok t) → Inv t := fun hs =>
        h.release hact hs rfl rfl rfl rfl fun _ hx => hx.1
      cases k with
      | forkret => exact hrel hs
      | sched w =>
        cases w with
        | yield => exact hrel hs
        | sleep chan =>
          cases hs
          exact h.own hact rfl rfl rfl rfl rfl ⟨hrun, by simp⟩
        | exit => exact absurd rfl hne
    | leave w | lock q | op o => cases k with
        | forkret => cases hs
        | sched w => cases w <;> cases hs
  | thread p =>
    rw [hact] at hs
    cases cmd with
    | leave w | lock q => exact h.acquire hact hs rfl rfl rfl rfl fun _ hx => hx
    | go | op o => cases hs
  | own p w =>
    rw [hact] at hs
    cases cmd with
    | go =>
      cases hs
      refine h.own hact rfl rfl rfl rfl rfl ?_
      cases w <;> exact ⟨by simp [Why.apply], by simp [Why.apply]⟩
    | _ => cases hs
  | leaving p w =>
    rw [hact] at hs hfits
    obtain ⟨hrun, hz⟩ := hfits p rfl
    cases cmd with
    | go =>
      simp only [Sys.next, hrun, if_false] at hs
      cases hs
      refine h.own hact rfl rfl rfl rfl rfl ⟨hrun, fun _ hnz => ⟨_, rfl, ?_⟩⟩
      rintro heq
      cases heq
      exact hnz (hz rfl)
    | _ => cases hs
  | back p =>
    rw [hact] at hs
    cases cmd with
    | go =>
      cases hs
      exact h.putBack hact
    | _ => cases hs
  | done p =>
    rw [hact] at hs
    cases cmd with
    | go => exact h.release hact hs rfl rfl rfl rfl fun _ _ => trivial
    | _ => cases hs
  | touch p q =>
    rw [hact] at hs
    cases cmd with
    | op o =>
      cases hs
      exact h.op hact rfl o fun _ hx => Op.apply_running hx o
    | go => exact h.release hact hs rfl rfl rfl rfl fun _ hx => hx
    | leave w | lock r => cases hs
  | poke i q =>
    rw [hact] at hs
    cases cmd with
    | op o =>
      cases o with
      | wakeup chan =>
        cases hs
        exact h.op hact rfl (.wakeup chan) fun _ _ => trivial
      | _ => cases hs
    | go => exact h.release hact hs rfl rfl rfl rfl fun _ _ => trivial
    | leave w | lock r => cases hs

theorem Inv.boot : Inv boot where
  cur := fun _ => rfl
  lock := fun _ _ => by simp [Sched.boot, Act.held]
  home := fun _ _ => by simp [Sched.boot, Act.engaged]
  fits := nofun
  rest := fun p _ => by
    by_cases hp : p = 0
    · simp [Sched.boot, hp, Rested, Ready]
    · simp [Sched.boot, hp, Rested]

theorem Inv.of_reaches (h : Sched.step.Reaches Sched.boot s) : Inv s := h.inv Inv .boot fun _ _ _ hu hs => hu.step hs

end Xv6.Sched
