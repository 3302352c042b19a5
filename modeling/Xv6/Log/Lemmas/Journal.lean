import Xv6.Log.Journal
import Xv6.Log.Lemmas.Reserve

/-!
# 操作が分かれない不変条件
-/

namespace Xv6.Log

open Xv6.Lib

variable {j k : Journal} {e : Event} {p q : Nat} {pl : Place} {l : LogState} {A : Finset Nat}

inductive Advanced (j : Journal) : Event → Journal → Prop
  | sleep {p : Nat} (hp : j.procs p = .idle ∨ j.procs p = .waiting) :
      Advanced j (.beginOp p) (j.go j.log p .waiting)
  | enter {p : Nat} {l : LogState} (hp : j.procs p = .idle ∨ j.procs p = .waiting)
      (hl : beginOp j.log = some l) : Advanced j (.beginOp p) (j.go l p (.active []))
  | write {p b ws l} (hp : j.procs p = .active ws)
      (hl : logWrite j.log b = .ok l) :
      Advanced j (.logWrite p b) (j.go l p (.active (ws ++ [(j.commits.length, b)])))
  | leave {p ws l c} (hp : j.procs p = .active ws)
      (hl : endOp j.log = .ok (l, c)) :
      Advanced j (.endOp p) { j.go l p (if c then .committing .start else .idle) with
        ended := j.ended ++ [ws] }
  | commit {p pos} (hp : j.procs p = .committing pos) :
      Advanced j (.commit p) (commitStep j p pos)

theorem Journal.step_ok (h : Journal.step j e = some (.ok k)) : Advanced j e k := by
  cases e with
  | beginOp p =>
    cases hp : j.procs p with
    | idle =>
      cases hl : beginOp j.log with
      | none => simp [Journal.step, hp, hl] at h; subst h; exact .sleep (.inl hp)
      | some l => simp [Journal.step, hp, hl] at h; subst h; exact .enter (.inl hp) hl
    | waiting =>
      cases hl : beginOp j.log with
      | none => simp [Journal.step, hp, hl] at h; subst h; exact .sleep (.inr hp)
      | some l => simp [Journal.step, hp, hl] at h; subst h; exact .enter (.inr hp) hl
    | _ => simp [Journal.step, hp] at h
  | logWrite p b =>
    cases hp : j.procs p with
    | active ws =>
      cases hl : logWrite j.log b with
      | error m => simp [Journal.step, hp, hl] at h
      | ok l => simp [Journal.step, hp, hl] at h; subst h; exact .write hp hl
    | _ => simp [Journal.step, hp] at h
  | endOp p =>
    cases hp : j.procs p with
    | active ws =>
      cases hl : endOp j.log with
      | error m => simp [Journal.step, hp, hl] at h
      | ok r =>
        obtain ⟨l, c⟩ := r
        simp only [Journal.step, hp, hl, Option.some.injEq, Except.ok.injEq] at h
        subst h
        exact .leave hp hl
    | _ => simp [Journal.step, hp] at h
  | commit p =>
    cases hp : j.procs p with
    | committing pos => simp [Journal.step, hp] at h; subst h; exact .commit hp
    | _ => simp [Journal.step, hp] at h

theorem Journal.go_ne (hq : q ≠ p) : (j.go l p pl).procs q = j.procs q := by
  simp [Journal.go, hq]

@[simp]
theorem Journal.go_self : (j.go l p pl).procs p = pl := by
  simp [Journal.go]

theorem Journal.go_procs {pl'} (h : update j.procs p pl q = pl') :
    (q = p ∧ pl = pl') ∨ (q ≠ p ∧ j.procs q = pl') :=
  update_cases (P := fun x => x = pl') h

def Journal.Committed (j : Journal) (ws : List (Nat × Nat)) : Prop :=
  ∃ n bs, j.commits[n]? = some bs ∧ ∀ w ∈ ws, w.1 = n ∧ w.2 ∈ bs

def Journal.Pending (j : Journal) (ws : List (Nat × Nat)) : Prop :=
  ∀ w ∈ ws, w.1 = j.commits.length ∧ w.2 ∈ j.log.lh

def CommitPos.Headed (pos : CommitPos) : Prop := pos = .install ∨ pos = .erase

/-- その区切りから `commit` が終わるまでの歩数の上界。 -/
def CommitPos.left : CommitPos → Nat
  | .start => 6
  | .writeLog => 5
  | .writeHead => 4
  | .install => 3
  | .erase => 2
  | .done => 1

theorem commitStep_left (pos : CommitPos) :
    ((commitStep j p pos).procs p = .idle ∧ (commitStep j p pos).log.committing = false) ∨
      ∃ pos', (commitStep j p pos).procs p = .committing pos' ∧ pos'.left < pos.left := by
  cases pos with
  | done => exact .inl ⟨update_self .., rfl⟩
  | start => exact .inr ⟨_, update_self .., by split <;> decide⟩
  | _ => exact .inr ⟨_, update_self .., by decide⟩

/-- `commit` を始めたプロセスは、自分の歩だけで終わる。 -/
theorem commit_finishes {pos} (hp : j.procs p = .committing pos) :
    ∃ n ≤ pos.left, ∃ k, Machine.exec Journal.step j (List.replicate n (.commit p)) = some (.ok k) ∧
      k.procs p = .idle ∧ k.log.committing = false ∧ k.log.outstanding = j.log.outstanding ∧
        k.ended = j.ended := by
  induction hn : pos.left using Nat.strong_induction_on generalizing j pos with
  | _ m ih =>
    have hstep : Journal.step j (.commit p) = some (.ok (commitStep j p pos)) := by
      simp [Journal.step, hp]
    have hsame : (commitStep j p pos).log.outstanding = j.log.outstanding ∧
        (commitStep j p pos).ended = j.ended := by cases pos <;> exact ⟨rfl, rfl⟩
    rcases commitStep_left (j := j) (p := p) pos with ⟨hidle, hc⟩ | ⟨pos', hp', hlt⟩
    · refine ⟨1, ?_, _, ?_, hidle, hc, hsame⟩
      · cases pos <;> simp [CommitPos.left] at hn <;> omega
      · simp [Machine.exec, hstep]
    · obtain ⟨n, hle, k, hk, hidle, hc, ho, he⟩ := ih _ (hn ▸ hlt) hp' rfl
      refine ⟨n + 1, by omega, k, ?_, hidle, hc, ho.trans hsame.1, he.trans hsame.2⟩
      rw [List.replicate_succ, Machine.exec, hstep]
      exact hk

structure Unsplit (j : Journal) (A : Finset Nat) : Prop where
  mem : ∀ p, p ∈ A ↔ ∃ ws, j.procs p = .active ws
  card : A.card = j.log.outstanding
  busy : j.log.committing = true → A = ∅
  single : ∀ p q c d, j.procs p = .committing c → j.procs q = .committing d → p = q
  holder : ∀ p c, j.procs p = .committing c → j.log.committing = true
  current : ∀ p ws, j.procs p = .active ws → j.Pending ws
  ended : ∀ ws ∈ j.ended, j.Committed ws ∨ j.Pending ws
  headed : ∀ p c, j.procs p = .committing c → c.Headed → ∀ ws ∈ j.ended, j.Committed ws
  erased : ∀ p, j.procs p = .committing .done → j.log.lh = []
  quiet : j.log.committing = false → A = ∅ → j.log.lh = []

namespace Unsplit

theorem init (size : Nat) : Unsplit (.init size) ∅ where
  mem p := by simp [Journal.init]
  card := rfl
  busy _ := rfl
  single p q c d h := by simp [Journal.init] at h
  holder p c h := by simp [Journal.init] at h
  current p ws h := by simp [Journal.init] at h
  ended ws h := by simp [Journal.init] at h
  headed p c h := by simp [Journal.init] at h
  erased p h := by simp [Journal.init] at h
  quiet _ _ := rfl

section

variable (h : Unsplit j A)
include h

theorem notMem (hp : ∀ ws, j.procs p ≠ .active ws) : p ∉ A := by
  intro hm
  obtain ⟨ws, hws⟩ := (h.mem p).mp hm
  exact hp ws hws

theorem not_committing {ws} (hp : j.procs p = .active ws) :
    j.log.committing = false := by
  cases hc : j.log.committing with
  | false => rfl
  | true =>
    have := (h.mem p).mpr ⟨ws, hp⟩
    rw [h.busy hc] at this
    simp at this

theorem no_committer (hc : j.log.committing = false) (c : CommitPos) :
    j.procs q ≠ .committing c := by
  intro hq
  rw [h.holder q c hq] at hc
  cases hc

theorem sleep (hp : j.procs p = .idle ∨ j.procs p = .waiting) :
    Unsplit (j.go j.log p .waiting) A := by
  have hpA : p ∉ A := h.notMem (by intro ws hws; rcases hp with hp | hp <;> rw [hp] at hws <;> cases hws)
  have hback : ∀ q pl, pl ≠ .waiting → (j.go j.log p .waiting).procs q = pl → j.procs q = pl := by
    intro q pl hne hq
    rcases Journal.go_procs hq with ⟨_, rfl⟩ | ⟨_, hq⟩
    · exact absurd rfl hne
    · exact hq
  constructor
  case mem =>
    intro q
    by_cases hq : q = p
    · subst hq; simp [hpA]
    · rw [Journal.go_ne hq]; exact h.mem q
  case card => exact h.card
  case busy => exact h.busy
  case single => exact fun q r c d hq hr => h.single q r c d (hback q _ (by simp) hq) (hback r _ (by simp) hr)
  case holder => exact fun q c hq => h.holder q c (hback q _ (by simp) hq)
  case current => exact fun q ws hq => h.current q ws (hback q _ (by simp) hq)
  case ended => exact h.ended
  case headed => exact fun q c hq => h.headed q c (hback q _ (by simp) hq)
  case erased => exact fun q hq => h.erased q (hback q _ (by simp) hq)
  case quiet => exact h.quiet

/-- 操作を始めることと `log_write` は、`commit` の途中でない記録を保つ。 -/
theorem active {ws} (hc : j.log.committing = false) (hl : l.committing = false) (hcard : (insert p A).card = l.outstanding)
    (hgrow : ∀ {vs}, j.Pending vs → (j.go l p (.active ws)).Pending vs) (hws : (j.go l p (.active ws)).Pending ws) :
    Unsplit (j.go l p (.active ws)) (insert p A) := by
  have hnone : ∀ q c, (j.go l p (.active ws)).procs q ≠ .committing c := by
    intro q c hq
    rcases Journal.go_procs hq with ⟨_, hq⟩ | ⟨_, hq⟩
    · cases hq
    · exact h.no_committer hc c hq
  constructor
  case mem =>
    intro q
    by_cases hq : q = p
    · subst hq; simp
    · rw [Journal.go_ne hq, Finset.mem_insert, h.mem q]; simp [hq]
  case card => exact hcard
  case busy => exact fun hc' => absurd (hl.symm.trans hc') (by simp)
  case single => exact fun q r c d hq => absurd hq (hnone q c)
  case holder => exact fun q c hq => absurd hq (hnone q c)
  case current =>
    intro q vs hq
    rcases Journal.go_procs hq with ⟨_, hq⟩ | ⟨_, hq⟩
    · cases hq
      exact hws
    · exact hgrow (h.current q vs hq)
  case ended => exact fun vs hv => (h.ended vs hv).imp_right hgrow
  case headed => exact fun q c hq => absurd hq (hnone q c)
  case erased => exact fun q hq => absurd hq (hnone q _)
  case quiet => exact fun _ he => absurd he (Finset.insert_ne_empty p A)

theorem enter (hp : j.procs p = .idle ∨ j.procs p = .waiting)
    (hl : beginOp j.log = some l) : Unsplit (j.go l p (.active [])) (insert p A) := by
  obtain ⟨hc, -, rfl⟩ := beginOp_some hl
  have hpA : p ∉ A := h.notMem (by intro ws hws; rcases hp with hp | hp <;> rw [hp] at hws <;> cases hws)
  refine h.active hc hc ?_ (fun hv => hv) fun w hw => absurd hw List.not_mem_nil
  rw [Finset.card_insert_of_notMem hpA, h.card]

theorem write {b ws} (hp : j.procs p = .active ws) (hl : logWrite j.log b = .ok l) :
    Unsplit (j.go l p (.active (ws ++ [(j.commits.length, b)]))) A := by
  obtain ⟨-, rfl⟩ := logWrite_ok hl
  have hc := h.not_committing hp
  have hgrow : ∀ {vs}, j.Pending vs →
      (j.go { j.log with lh := absorb j.log.lh b } p (.active (ws ++ [(j.commits.length, b)]))).Pending vs :=
    fun hv w hw => ⟨(hv w hw).1, mem_absorb.mpr (.inl (hv w hw).2)⟩
  have hpA := Finset.insert_eq_of_mem ((h.mem p).mpr ⟨ws, hp⟩)
  rw [← hpA]
  refine h.active hc hc (hpA.symm ▸ h.card) hgrow fun w hw => ?_
  rcases List.mem_append.mp hw with hw | hw
  · exact hgrow (h.current p ws hp) w hw
  · rw [List.mem_singleton.mp hw]
    exact ⟨rfl, mem_absorb.mpr (.inr rfl)⟩

theorem leave {ws c} (hp : j.procs p = .active ws) (hl : endOp j.log = .ok (l, c)) :
    Unsplit { j.go l p (if c then .committing .start else .idle) with ended := j.ended ++ [ws] }
      (A.erase p) := by
  obtain ⟨hc, hdo, rfl⟩ := endOp_ok hl
  have hpA := (h.mem p).mpr ⟨ws, hp⟩
  have hcard := Finset.card_erase_of_mem hpA
  rw [h.card] at hcard
  -- 最後の操作だけが `commit` に入る。
  have hpos : ∀ q d, ({ j.go { j.log with outstanding := j.log.outstanding - 1, committing := c } p
      (if c then .committing .start else .idle) with ended := j.ended ++ [ws] } : Journal).procs q =
        .committing d → q = p ∧ d = .start ∧ c = true := by
    intro q d hq
    rcases Journal.go_procs hq with ⟨hqp, hq⟩ | ⟨_, hq⟩
    · cases c with
      | true => cases hq; exact ⟨hqp, rfl, rfl⟩
      | false => cases hq
    · exact absurd hq (h.no_committer hc d)
  constructor
  case mem =>
    intro q
    by_cases hq : q = p
    · subst hq
      cases c <;> simp
    · rw [Finset.mem_erase, h.mem q]
      simp [Journal.go_ne hq, hq]
  case card => exact hcard
  case busy =>
    rintro rfl
    simp only [Bool.true_eq, decide_eq_true_eq] at hdo
    exact Finset.card_eq_zero.mp (hcard.trans hdo)
  case single => exact fun q r d d' hq hr => (hpos q d hq).1.trans (hpos r d' hr).1.symm
  case holder => exact fun q d hq => (hpos q d hq).2.2
  case current =>
    intro q vs hq
    rcases Journal.go_procs hq with ⟨_, hq⟩ | ⟨_, hq⟩
    · cases c <;> cases hq
    · exact h.current q vs hq
  case ended =>
    intro vs hv
    rcases List.mem_append.mp hv with hv | hv
    · exact h.ended vs hv
    · rw [List.mem_singleton.mp hv]
      exact .inr (h.current p ws hp)
  case headed =>
    intro q d hq hd
    rw [(hpos q d hq).2.1] at hd
    rcases hd with hd | hd <;> cases hd
  case erased => exact fun q hq => absurd (hpos q _ hq).2.1 (by simp)
  case quiet =>
    rintro rfl he
    simp only [Bool.false_eq, decide_eq_false_iff_not] at hdo
    exact absurd (hcard.symm.trans (Finset.card_eq_zero.mpr he)) hdo

end

theorem moved (h : Unsplit j ∅) {pos} (hp : j.procs p = .committing pos)
    {cs} (hpl : ∀ ws, pl ≠ .active ws) (hout : l.outstanding = j.log.outstanding)
    (hhold : ∀ c, pl = .committing c → l.committing = true)
    (hended : ∀ ws ∈ j.ended, ({ j.go l p pl with commits := cs } : Journal).Committed ws ∨
      ({ j.go l p pl with commits := cs } : Journal).Pending ws)
    (hheaded : ∀ c, pl = .committing c → c.Headed → ∀ ws ∈ j.ended,
      ({ j.go l p pl with commits := cs } : Journal).Committed ws)
    (herased : pl = .committing .done → l.lh = []) (hquiet : l.committing = false → l.lh = []) :
    Unsplit { j.go l p pl with commits := cs } ∅ := by
  have hact : ∀ q ws, (j.go l p pl).procs q ≠ .active ws := by
    intro q ws hq
    rcases Journal.go_procs hq with ⟨_, hq⟩ | ⟨_, hq⟩
    · exact hpl ws hq
    · have := (h.mem q).mpr ⟨ws, hq⟩
      simp at this
  have hcom : ∀ q c, (j.go l p pl).procs q = .committing c → q = p ∧ pl = .committing c := by
    intro q c hq
    rcases Journal.go_procs hq with hq | ⟨hne, hq⟩
    · exact hq
    · exact absurd (h.single q p c pos hq hp) hne
  constructor
  case mem => intro q; simp [hact q]
  case card => exact h.card.trans hout.symm
  case busy => exact fun _ => rfl
  case single => exact fun q r c d hq hr => (hcom q c hq).1.trans (hcom r d hr).1.symm
  case holder => exact fun q c hq => hhold c (hcom q c hq).2
  case current => exact fun q ws hq => absurd hq (hact q ws)
  case ended => exact hended
  case headed => exact fun q c hq => hheaded c (hcom q c hq).2
  case erased => exact fun q hq => herased (hcom q _ hq).2
  case quiet => exact fun hc _ => hquiet hc

/-- 見出しを書いた時に、待っていた書き込みがまとめてコミットされる。 -/
theorem committed_writeHead {ws} (h : j.Committed ws ∨ j.Pending ws)
    (hk : k.commits = j.commits ++ [j.log.lh]) : k.Committed ws := by
  rcases h with ⟨n, bs, hn, hws⟩ | h
  · refine ⟨n, bs, ?_, hws⟩
    rw [hk, List.getElem?_append_left (List.getElem?_eq_some_iff.mp hn).1]
    exact hn
  · exact ⟨j.commits.length, j.log.lh, by rw [hk, List.getElem?_concat_length], h⟩

theorem commit (h : Unsplit j A) {pos} (hp : j.procs p = .committing pos) :
    Unsplit (commitStep j p pos) A := by
  have hc := h.holder p pos hp
  have hA := h.busy hc
  subst hA
  have hflag : j.log.committing = false → j.log.lh = [] := by
    intro hf
    rw [hc] at hf
    cases hf
  cases pos with
  | start =>
    refine h.moved hp (by simp) rfl (fun _ _ => hc) h.ended ?_ ?_ hflag
    · intro c hpl hd
      split at hpl <;> cases hpl <;> rcases hd with hd | hd <;> cases hd
    · intro hpl
      split at hpl
      · cases hpl
      · rename_i hlen
        exact List.eq_nil_of_length_eq_zero (Nat.eq_zero_of_not_pos hlen)
  | writeLog =>
    refine h.moved hp (by simp) rfl (fun _ _ => hc) h.ended ?_ (by simp) hflag
    intro c hpl hd
    cases hpl
    rcases hd with hd | hd <;> cases hd
  | writeHead =>
    have hall := fun ws hws => committed_writeHead (h.ended ws hws)
      (k := { j.go j.log p (.committing .install) with commits := j.commits ++ [j.log.lh] }) rfl
    exact h.moved hp (by simp) rfl (fun _ _ => hc) (fun ws hws => .inl (hall ws hws))
      (fun _ _ _ => hall) (by simp) hflag
  | install =>
    have hall := h.headed p .install hp (.inl rfl)
    exact h.moved hp (by simp) rfl (fun _ _ => hc) h.ended (fun _ _ _ => hall) (by simp) hflag
  | erase =>
    have hall := h.headed p .erase hp (.inr rfl)
    exact h.moved hp (by simp) rfl (fun _ _ => hc) (fun ws hws => .inl (hall ws hws))
      (fun _ _ _ => hall) (fun _ => rfl) (fun _ => rfl)
  | done =>
    have hlh := h.erased p hp
    exact h.moved hp (by simp) rfl (by simp) h.ended (by simp) (fun _ => hlh) (fun _ => hlh)

theorem step (h : Unsplit j A) (hs : Advanced j e k) : ∃ A', Unsplit k A' := by
  cases hs with
  | sleep hp => exact ⟨A, h.sleep hp⟩
  | enter hp hl => exact ⟨_, h.enter hp hl⟩
  | write hp hl => exact ⟨A, h.write hp hl⟩
  | leave hp hl => exact ⟨_, h.leave hp hl⟩
  | commit hp => exact ⟨A, h.commit hp⟩

theorem of_reaches {size} (h : Machine.Reaches Journal.step (.init size) j) : ∃ A, Unsplit j A := by
  refine h.inv (fun j => ∃ A, Unsplit j A) ⟨∅, init size⟩ ?_
  rintro i e k ⟨A, hi⟩ hk
  exact hi.step (Journal.step_ok hk)

/-- 起こりうる `panic` は、大きすぎる操作のものだけである。 -/
theorem step_error (h : Unsplit j A) {m} (he : Journal.step j e = some (.error m)) :
    m = "too big a transaction" := by
  cases e with
  | beginOp p =>
    cases hp : j.procs p <;> simp only [Journal.step, hp] at he <;> try cases he
    all_goals split at he <;> cases he
  | logWrite p b =>
    cases hp : j.procs p with
    | active ws =>
      have hpos : 0 < A.card := Finset.card_pos.mpr ⟨p, (h.mem p).mpr ⟨ws, hp⟩⟩
      rw [h.card] at hpos
      simp only [Journal.step, hp, logWrite] at he
      rw [if_neg (c := j.log.outstanding < 1) (by omega)] at he
      split at he
      · rename_i hl
        split at hl
        · cases hl; cases he; rfl
        · cases hl
      · cases he
    | idle | waiting | committing pos => simp [Journal.step, hp] at he
  | endOp p =>
    cases hp : j.procs p with
    | active ws =>
      have hc := h.not_committing hp
      simp only [Journal.step, hp, endOp, hc, Bool.false_eq_true, if_false] at he
      by_cases h0 : j.log.outstanding - 1 = 0 <;> simp [h0] at he
    | idle | waiting | committing pos => simp [Journal.step, hp] at he
  | commit p => cases hp : j.procs p <;> simp [Journal.step, hp] at he

end Unsplit

end Xv6.Log
