import Xv6.Itable.Lemmas.Inv

/-!
# inode の表の定理
-/

namespace Xv6.Itable

open Xv6.Lib

variable {s s' : Sys} {p q : Nat} {e : EntryId} {k : Key} {ev : Ev}

def Sys.Ok (s : Sys) : Prop := Inv s.entry s.disk s.pos s.refs s.dying

theorem find_some (h : s.find k = some e) : 0 < (s.entry e).ref ∧ (s.entry e).key = k := by
  simpa [Sys.find] using List.find?_some h

theorem find_none (h : s.find k = none) (e : EntryId) (he : 0 < (s.entry e).ref) : (s.entry e).key ≠ k := by
  have := List.find?_eq_none.mp h e (List.mem_finRange e)
  simpa [he] using this

structure Gettable (s : Sys) (k : Key) : Prop where
  type : (s.disk k).type ≠ 0
  freeing : ∀ e, (s.entry e).key = k → 0 < (s.entry e).ref → ∀ q, s.pos q ≠ .trunc e ∧ s.pos q ≠ .mark e
  alloc : ∀ q, s.pos q ≠ .alloc k

theorem Gettable.iget (h : s.Ok) (hk : Gettable s k) (hs : s.iget k = .ok s') : s'.Ok := by
  unfold Sys.iget at hs
  split at hs
  · rename_i e he
    obtain ⟨hr, rfl⟩ := find_some he
    cases hs
    exact h.share hr hk.type (hk.freeing e rfl hr) hk.alloc
  rename_i hn
  split at hs
  · rename_i e he
    cases hs
    have hz : (s.entry e).ref = 0 := by simpa using List.find?_some he
    exact h.recycle hz (find_none hn) hk.type hk.alloc
  · cases hs

theorem Sys.Ok.gettable (h : s.Ok) (hk : 0 < s.links k ∨ ∃ e ∈ s.refs, (s.entry e).key = k) : Gettable s k := by
  obtain hk | ⟨e0, hm, rfl⟩ := hk
  · unfold Sys.links at hk
    split at hk
    · rename_i e he
      obtain ⟨hr, rfl⟩ := find_some he
      have huniq : ∀ e', (s.entry e').key = (s.entry e).key → 0 < (s.entry e').ref → e' = e :=
        fun e' hk' hr' => h.unique e' e hr' hr hk'
      split at hk
      · rename_i hv
        refine ⟨fun ht => ?_, fun e' hk' hr' q => ?_, fun q hq => ?_⟩
        · obtain ⟨_, ht'⟩ | ⟨q, hq⟩ := h.type e hr hv
          · exact ht' ht
          · have hpl := h.placed_at hq
            exact absurd hpl.2.2 (by omega)
        · obtain rfl := huniq e' hk' hr'
          have hpl := h.placed q
          constructor <;> intro hc <;> rw [hc] at hpl <;> exact absurd hpl.2.2.1 (by omega)
        · have hpl := h.placed_at hq
          exact absurd ((hpl.2.2 e rfl).2.1 hr hv) (by omega)
      rename_i hv
      refine ⟨fun ht => absurd (h.free _ ht) (by omega), fun e' hk' hr' q => ?_, fun q hq => ?_⟩
      · obtain rfl := huniq e' hk' hr'
        have hpl := h.placed q
        constructor <;> intro hc <;> rw [hc] at hpl <;> exact hv hpl.2.1
      · have hpl := h.placed_at hq
        exact absurd hpl.2.1 (by omega)
    · rename_i hn
      refine ⟨fun ht => absurd (h.free _ ht) (by omega), fun e' hk' hr' => absurd hk' (find_none hn e' hr'), fun q hq => ?_⟩
      have hpl := h.placed_at hq
      exact absurd hpl.2.1 (by omega)
  have hr := h.ref_pos_of_mem hm
  refine ⟨h.live e0 hm, fun e' hk' hr' q => ?_, fun q hq => ?_⟩
  · obtain rfl := h.unique e' e0 hr' hr hk'
    have hpl := h.placed q
    constructor <;> intro hc <;> rw [hc] at hpl <;> exact hpl.2.2.2.1 hm
  · have hpl := h.placed_at hq
    exact (hpl.2.2 e0 rfl).1 hm

inductive Does (s : Sys) : Ev → Sys → Prop
  | iget {k : Key} {s' : Sys} (hs : s.iget k = .ok s') : Does s (.iget k) s'
  | idup {e : EntryId} : Does s (.idup e) (s.share e)
  | ialloc {p : Nat} {k : Key} {type : Nat} (hp : s.pos p = .idle) (hk : (s.disk k).type = 0) :
      Does s (.ialloc p k type) ((s.setDisk k ⟨type, 0, 0⟩).go p (.alloc k))
  | ialloced {p : Nat} {k : Key} {s' : Sys} (hp : s.pos p = .alloc k) (hs : s.iget k = .ok s') : Does s (.go p)
      (s'.go p .idle)
  | ilock {p : Nat} {e : EntryId} (hp : s.pos p = .idle) : Does s (.ilock p e) (s.go p (.await e))
  | acquire {p : Nat} {e : EntryId} (hp : s.pos p = .await e) (hl : (s.entry e).lock = none) :
      Does s (.go p) ((s.setEntry e { s.entry e with lock := some p }).go p (if (s.entry e).valid then .idle else .load e))
  | load {p : Nat} {e : EntryId} (hp : s.pos p = .load e) (ht : (s.disk (s.entry e).key).type ≠ 0) :
      Does s (.go p) ((s.setEntry e { s.entry e with valid := true, d := s.disk (s.entry e).key }).go p .idle)
  | iunlock {p : Nat} {e : EntryId} (hp : s.pos p = .idle) (hl : (s.entry e).lock = some p) :
      Does s (.iunlock p e) (s.setEntry e { s.entry e with lock := none })
  | touch {p : Nat} {e : EntryId} {nlink : Nat} {size : Nat} (hp : s.pos p = .idle) (hl : (s.entry e).lock = some p) :
      Does s (.touch p e nlink size)
        (s.setEntry e { s.entry e with d := { (s.entry e).d with nlink := nlink, size := size } })
  | iupdate {p : Nat} {e : EntryId} (hp : s.pos p = .idle) (hl : (s.entry e).lock = some p) :
      Does s (.iupdate p e) (s.setDisk (s.entry e).key (s.entry e).d)
  | put {p : Nat} {e : EntryId} (hp : s.pos p = .idle) :
      Does s (.iput p e) ((s.setEntry e { s.entry e with ref := (s.entry e).ref - 1 }).setRefs (s.refs.erase e))
  | putLast {p : Nat} {e : EntryId} (hp : s.pos p = .idle) (hr : (s.entry e).ref = 1) (hv : (s.entry e).valid = true)
      (hn : (s.entry e).d.nlink = 0) (hl : (s.entry e).lock = none) :
      Does s (.iput p e) ((((s.setEntry e { s.entry e with lock := some p }).setRefs (s.refs.erase e)).setDying e
        (some p)).go p (.trunc e))
  | trunc {p : Nat} {e : EntryId} (hp : s.pos p = .trunc e) :
      Does s (.go p) (((s.setEntry e { s.entry e with d := { (s.entry e).d with size := 0 } }).setDisk (s.entry e).key
        { (s.entry e).d with size := 0 }).go p (.mark e))
  | mark {p : Nat} {e : EntryId} (hp : s.pos p = .mark e) :
      Does s (.go p) (((s.setEntry e { s.entry e with d := { (s.entry e).d with type := 0 } }).setDisk (s.entry e).key
        { (s.entry e).d with type := 0 }).go p (.inval e))
  | inval {p : Nat} {e : EntryId} (hp : s.pos p = .inval e) :
      Does s (.go p) ((s.setEntry e { s.entry e with valid := false }).go p (.unlock e))
  | unlock {p : Nat} {e : EntryId} (hp : s.pos p = .unlock e) :
      Does s (.go p) ((s.setEntry e { s.entry e with lock := none }).go p (.drop e))
  | drop {p : Nat} {e : EntryId} (hp : s.pos p = .drop e) :
      Does s (.go p) (((s.setEntry e { s.entry e with ref := (s.entry e).ref - 1 }).setDying e none).go p .idle)

theorem does_of_next {x} (hp : s.pos p = x) (hs : s.next p x = some (.ok s')) : Does s (.go p) s' := by
  cases x with
  | idle => cases hs
  | alloc k =>
    simp only [Sys.next] at hs
    split at hs <;> cases hs
    exact .ialloced hp ‹_›
  | await e =>
    simp only [Sys.next] at hs
    split at hs <;> cases hs
    exact .acquire hp ‹_›
  | load e =>
    simp only [Sys.next] at hs
    split at hs <;> cases hs
    exact .load hp ‹_›
  | trunc e =>
    cases hs
    exact .trunc hp
  | mark e =>
    cases hs
    exact .mark hp
  | inval e =>
    cases hs
    exact .inval hp
  | unlock e =>
    cases hs
    exact .unlock hp
  | drop e =>
    cases hs
    exact .drop hp

theorem does_of_step (hs : step s ev = some (.ok s')) : Does s ev s' := by
  cases ev with
  | iget k => exact .iget (by simpa [step] using hs)
  | ialloc p k type =>
    simp only [step] at hs
    split at hs <;> cases hs
    rename_i hc
    exact .ialloc hc.1 hc.2
  | idup e =>
    cases hs
    exact .idup
  | ilock p e =>
    simp only [step] at hs
    split at hs
    · rename_i hp
      split at hs <;> cases hs
      exact .ilock hp
    · cases hs
  | iunlock p e =>
    simp only [step] at hs
    split at hs
    · rename_i hp
      split at hs <;> cases hs
      rename_i hc
      exact .iunlock hp (not_not.mp fun hl => hc (.inl hl))
    · cases hs
  | touch p e nlink size =>
    simp only [step] at hs
    split at hs <;> cases hs
    rename_i hc
    exact .touch hc.1 hc.2
  | iupdate p e =>
    simp only [step] at hs
    split at hs <;> cases hs
    rename_i hc
    exact .iupdate hc.1 hc.2
  | iput p e =>
    simp only [step, Sys.iput] at hs
    split at hs
    · rename_i hp
      split at hs
      · rename_i hc
        split at hs <;> cases hs
        exact .putLast hp hc.1 hc.2.1 hc.2.2 ‹_›
      · cases hs
        exact .put hp
    · cases hs
  | go p => exact does_of_next rfl hs

theorem iget_go {x} (hs : s.iget k = .ok s') : (s.go p x).iget k = .ok (s'.go p x) := by
  unfold Sys.iget at hs ⊢
  rw [show (s.go p x).find k = s.find k from rfl, show (s.go p x).empty = s.empty from rfl]
  cases hf : s.find k with
  | some e =>
    simp only [hf] at hs
    cases hs
    rfl
  | none =>
    simp only [hf] at hs
    cases he : s.empty with
    | some e =>
      simp only [he] at hs
      cases hs
      rfl
    | none => simp [he] at hs

theorem Sys.Ok.trunc_type (h : s.Ok) (hp : s.pos p = .trunc e ∨ s.pos p = .mark e) : (s.entry e).d.type ≠ 0 := by
  have hpl : Placed s.entry s.disk s.pos s.refs p (.trunc e) := by
    have := h.placed p
    obtain hp | hp := hp <;> rwa [hp] at this
  have hr : 0 < (s.entry e).ref := by
    refine h.ref_pos_of_freeing (p := p) ?_
    obtain hp | hp := hp <;> rw [hp] <;> rfl
  refine And.left ((h.type e hr hpl.2.1).resolve_right ?_)
  rintro ⟨q, hq⟩
  have hplq := h.placed_at hq
  have hqp : q = p := Option.some.inj (hplq.1.symm.trans hpl.1)
  subst hqp
  obtain hp | hp := hp <;> simp [hp] at hq

theorem Sys.Ok.step (h : s.Ok) (hd : Disciplined s ev) (hs : Does s ev s') : s'.Ok := by
  cases hs with
  | iget hs => exact (h.gettable hd).iget h hs
  | idup =>
    have hg := h.gettable (.inr ⟨_, hd, rfl⟩)
    have hr := h.ref_pos_of_mem hd
    exact h.share hr hg.type (hg.freeing _ rfl hr) hg.alloc
  | ialloc hp hk => exact h.ialloc hp hk hd
  | @ialloced p k t hp hs =>
    have hpl := h.placed_at hp
    -- `iget` を終えたスレッドのほかに、この番号を割り当てたものはない
    have hg : Gettable (s.go p .idle) k := by
      refine ⟨hpl.1, fun e he hr q => ?_, fun q hq => ?_⟩
      · have := (hpl.2.2 e he).2.2 q
        by_cases hq : q = p
        · simp [Sys.go, hq]
        · simpa [Sys.go, hq] using this
      · by_cases hqp : q = p
        · simp [Sys.go, hqp] at hq
        · exact hqp (h.alloc q p k (by simpa [Sys.go, hqp] using hq) hp)
    exact Gettable.iget (s := s.go p .idle) (h.ialloced hp) hg (iget_go hs)
  | ilock hp => exact h.ilock hp hd
  | acquire hp hl => exact h.acquire hp hl
  | load hp ht => exact h.load hp ht
  | iunlock hp hl => exact h.iunlock hp hl
  | touch hp hl => exact h.touch hp hl _ _
  | iupdate hp hl => exact h.iupdate hp hl
  | put hp => exact h.put hd.1 fun q hq => hd.2 ⟨q, hq⟩
  | @putLast p e hp hr hv hn hl =>
    refine h.putLast hp hd.1 hr hv hn (fun q hq => ?_) hl
    -- ただ一つの参照なので、待っているスレッドはいない
    have hm := List.count_pos_iff.mpr (hd.2 ⟨q, .inl hq⟩)
    have hc := h.count e
    rw [List.count_erase_self] at hm
    omega
  | @trunc p e hp =>
    have hpl := h.placed_at hp
    exact h.erase (.inl hp) (.inl ⟨rfl, h.trunc_type (.inl hp)⟩) hpl.2.2.1
  | @mark p e hp =>
    have hpl := h.placed_at hp
    exact h.erase (.inr hp) (.inr rfl) hpl.2.2.1
  | inval hp => exact h.inval hp
  | unlock hp => exact h.unlock hp
  | drop hp => exact h.drop hp

theorem Boot.ok (h : Boot s) : s.Ok where
  count e := by simp [h.ref, h.refs, h.dying]
  unique e _ he := by simp [h.ref e] at he
  dying e p := by simp [h.dying, h.pos, Pos.freeing]
  placed p := by
    rw [h.pos p]
    trivial
  locked e p hl := by simp [h.lock] at hl
  type e he := by simp [h.ref e] at he
  live e he := by simp [h.refs] at he
  free := h.disk
  alloc p _ _ hp := by simp [h.pos] at hp

theorem reaches_ok {s0} (h0 : Boot s0) (h : Machine.ReachesBy step Disciplined s0 s) : s.Ok :=
  h.inv Sys.Ok h0.ok fun _ _ _ hu hd hs => hu.step hd (does_of_step hs)

/-! ## 一歩で変わるもの -/

theorem update_key {entry : EntryId → Entry} {x : Entry} {e' : EntryId} (hx : x.key = (entry e).key) :
    (update entry e x e').key = (entry e').key := by
  by_cases he : e' = e
  · rw [he, update_self, hx]
  · rw [update_of_ne he]

theorem iget_key (hs : s.iget k = .ok s') (hk : (s'.entry e).key ≠ (s.entry e).key) : (s.entry e).ref = 0 := by
  unfold Sys.iget at hs
  split at hs
  · cases hs
    exact (hk (update_key rfl)).elim
  split at hs
  · rename_i e' he'
    cases hs
    by_cases he : e = e'
    · subst he
      simpa using List.find?_some he'
    · exact absurd (congrArg Entry.key (update_of_ne he _ s.entry)) hk
  · cases hs

theorem Does.key (hs : Does s ev s') (hk : (s'.entry e).key ≠ (s.entry e).key) : (s.entry e).ref = 0 := by
  cases hs with
  | iget hs | ialloced _ hs => exact iget_key hs hk
  | ialloc | ilock | iupdate => exact absurd rfl hk
  | _ => exact (hk (update_key rfl)).elim

theorem iget_disk (hs : s.iget k = .ok s') : s'.disk = s.disk := by
  unfold Sys.iget at hs
  split at hs
  · cases hs
    rfl
  · split at hs <;> cases hs
    rfl

theorem Does.freed (h : s.Ok) (hd : Disciplined s ev) (hs : Does s ev s') (hk : (s.disk k).type ≠ 0) (hk' :
    (s'.disk k).type = 0) :
    ∃ p e, ev = .go p ∧ s.pos p = .mark e ∧ (s.entry e).key = k := by
  have hupd : ∀ {k' : Key} {d : Dinode}, (update s.disk k' d k).type = 0 → k' = k ∧ d.type = 0 := fun
      {k' d} hu => by
    by_cases hkk : k = k'
    · subst hkk
      exact ⟨rfl, by simpa using hu⟩
    · rw [update_of_ne hkk] at hu
      exact absurd hu hk
  cases hs with
  | iget hs =>
    rw [iget_disk hs] at hk'
    exact absurd hk' hk
  | @ialloced p _ t _ hs =>
    rw [show (t.go p .idle).disk = t.disk from rfl, iget_disk hs] at hk'
    exact absurd hk' hk
  | ialloc => exact absurd (hupd hk').2 hd
  | iupdate hp hl => exact absurd (hupd hk').2 (h.holder hp hl).2.2
  | trunc hp => exact absurd (hupd hk').2 (h.trunc_type (.inl hp))
  | mark hp => exact ⟨_, _, rfl, hp, (hupd hk').1⟩
  | _ => exact absurd hk' hk

theorem Sys.Ok.last (h : s.Ok) (hp : s.pos p = .trunc e ∨ s.pos p = .mark e) :
    (s.entry e).ref = 1 ∧ s.dying e = some p ∧ e ∉ s.refs ∧ (s.entry e).d.nlink = 0 := by
  have hpl : Placed s.entry s.disk s.pos s.refs p (.trunc e) := by
    have := h.placed p
    obtain hp | hp := hp <;> rwa [hp] at this
  have hd : s.dying e = some p := by
    refine (h.dying e p).mpr ?_
    obtain hp | hp := hp <;> rw [hp] <;> rfl
  refine ⟨?_, hd, hpl.2.2.2.1, hpl.2.2.1⟩
  rw [h.count e, List.count_eq_zero.mpr hpl.2.2.2.1, hd]
  rfl

/-- 呼び出す側の条件を守るどの進み方でも、番号ごとに使われている項目は多くとも一つで、`ref` は出ている参照の数である。inode を消すのは、リンクのない inode のただ一つの参照を手放
す `iput` だけである。 -/
theorem inode_table {s0 : Sys} (h0 : Boot s0) (h : Machine.ReachesBy step Disciplined s0 s) :
    (∀ e e', 0 < (s.entry e).ref → 0 < (s.entry e').ref → (s.entry e).key = (s.entry e').key → e = e') ∧
    (∀ e, (s.entry e).ref = s.outstanding e) ∧
    (∀ ev s' e, step s ev = some (.ok s') → (s'.entry e).key ≠ (s.entry e).key → (s.entry e).ref = 0 ∧
        s.outstanding e = 0) ∧
    (∀ p e, s.pos p = .trunc e ∨ s.pos p = .mark e →
      (s.entry e).ref = 1 ∧ s.dying e = some p ∧ e ∉ s.refs ∧ (s.entry e).d.nlink = 0) ∧
    ∀ ev s' k, Disciplined s ev → step s ev = some (.ok s') → (s.disk k).type ≠ 0 → (s'.disk k).type = 0 →
      ∃ p e, ev = .go p ∧ s.pos p = .mark e ∧ (s.entry e).key = k := by
  have hok := reaches_ok h0 h
  refine ⟨hok.unique, hok.count, fun ev s' e hs hk => ?_, fun p e => hok.last, fun ev s' k hd hs =>
      (does_of_step hs).freed hok hd⟩
  have hr := (does_of_step hs).key hk
  exact ⟨hr, (hok.count e).symm.trans hr⟩

/-! ## 例 -/

def Ev.thread : Ev → Option Nat
  | .iget _ | .idup _ => none
  | .ialloc p _ _ | .ilock p _ | .iunlock p _ | .touch p _ _ _ | .iupdate p _ | .iput p _ | .go p => some p

theorem Does.pos (hs : Does s ev s') (hq : ev.thread ≠ some q) : s'.pos q = s.pos q := by
  have hupd : ∀ {p : Nat} {x : Pos} {t : Sys}, ev.thread = some p → (t.go p x).pos q = t.pos q := fun {p x t} hp => by
    have hne : q ≠ p := by
      rintro rfl
      exact hq hp
    exact update_of_ne hne x t.pos
  have hget : ∀ {k : Key} {t : Sys}, s.iget k = .ok t → t.pos = s.pos := fun {k t} ht => by
    unfold Sys.iget at ht
    split at ht
    · cases ht
      rfl
    · split at ht <;> cases ht
      rfl
  cases hs with
  | iget hs => rw [hget hs]
  | @ialloced p k t _ hs => rw [hupd rfl, hget hs]
  | idup | iunlock | touch | iupdate | put => rfl
  | _ => exact hupd rfl

def exampleCond (s : Sys) (ev : Ev) : Bool :=
  (ev.thread.getD 0 < 2) && match ev with
    | .iget k => 0 < s.links k
    | .ialloc _ _ type => type ≠ 0
    | .idup e => e ∈ s.refs
    | .ilock _ e => e ∈ s.refs
    | .iput _ e => e ∈ s.refs ∧ (s.entry e).lock = none ∧ s.pos 0 ≠ .await e ∧ s.pos 1 ≠ .await e
    | _ => true

theorem exampleCond_disciplined (hfew : ∀ q, 2 ≤ q → s.pos q = .idle)
    (hc : exampleCond s ev = true) : Disciplined s ev := by
  simp only [exampleCond, Bool.and_eq_true, decide_eq_true_eq] at hc
  obtain ⟨_, hc⟩ := hc
  cases ev with
  | iget k => exact .inl (by simpa using hc)
  | ialloc p k type => exact of_decide_eq_true (p := type ≠ 0) hc
  | idup e | ilock p e => exact of_decide_eq_true (p := e ∈ s.refs) hc
  | iput p e =>
    simp only [decide_eq_true_eq] at hc
    obtain ⟨he, hl, h0, h1⟩ := hc
    refine ⟨he, ?_⟩
    rintro ⟨q, hq | ⟨hq, _⟩⟩
    · exfalso
      match q, hq with
      | 0, hq => exact h0 hq
      | 1, hq => exact h1 hq
      | q + 2, hq => simp [hfew (q + 2) (by omega)] at hq
    · simp [hl] at hq
  | _ => trivial

def exampleBoot : Sys where
  entry := fun _ => ⟨(1, 0), 0, false, none, ⟨0, 0, 0⟩⟩
  disk := fun k => if k = (1, 7) then ⟨2, 1, 100⟩ else ⟨0, 0, 0⟩
  pos := fun _ => .idle
  refs := []
  dying := fun _ => none

theorem exampleBoot_boot : Boot exampleBoot := by
  refine ⟨fun _ => rfl, fun _ => rfl, fun _ => rfl, rfl, fun _ => rfl, fun k hk => ?_⟩
  simp only [exampleBoot] at hk ⊢
  split at hk
  · cases hk
  · rename_i hne
    rw [if_neg hne]

def exampleEntry : EntryId := ⟨0, by decide⟩

def exampleRun : List Ev :=
  [.iget (1, 7), .ilock 0 exampleEntry, .go 0, .go 0, .touch 0 exampleEntry 0 100, .iupdate 0 exampleEntry,
    .iunlock 0 exampleEntry, .iput 0 exampleEntry, .go 0, .go 0, .ialloc 1 (1, 7) 1, .go 1]

theorem exampleRun_reaches : ∃ s, Machine.ReachesBy step Disciplined exampleBoot s ∧ s.refs = [exampleEntry] ∧
    s.pos 0 = .inval exampleEntry := by
  have htest : step.test exampleCond exampleBoot (fun s => s.refs = [exampleEntry] ∧ s.pos 0 = .inval exampleEntry)
      exampleRun = true := by
    decide +kernel
  obtain ⟨s, hr, hf⟩ := Machine.reachesBy_of_test htest
  refine ⟨s, hr.weaken (fun u => ∀ q, 2 ≤ q → u.pos q = .idle) (fun _ _ => rfl) (fun u ev v hu hc hs q hq => ?_)
    fun u ev hu hc => exampleCond_disciplined hu hc, by simpa using hf⟩
  rw [(does_of_step hs).pos, hu q hq]
  intro ht
  simp only [exampleCond, ht, Option.getD_some, Bool.and_eq_true, decide_eq_true_eq] at hc
  omega

theorem inode_table_realloc : ∃ s, Machine.ReachesBy step Disciplined exampleBoot s ∧ s.pos 0 = .inval exampleEntry ∧
    (s.entry exampleEntry).ref = 2 ∧ s.outstanding exampleEntry = 2 := by
  obtain ⟨s, hr, hrefs, hp⟩ := exampleRun_reaches
  have hcount := (inode_table exampleBoot_boot hr).2.1 exampleEntry
  have hd := ((reaches_ok exampleBoot_boot hr).dying exampleEntry 0).mpr (by rw [hp]; rfl)
  have ho : s.outstanding exampleEntry = 2 := by simp [Sys.outstanding, hrefs, hd]
  exact ⟨s, hr, hp, hcount.trans ho, ho⟩

end Xv6.Itable
