import Xv6.Log.Machine

/-!
# 予約の不変条件
-/

namespace Xv6.Log

open Finset

variable {s t : Sys} {e : Event} {p b : Nat}

def Sys.blocks (s : Sys) (p : Nat) : List Nat :=
  match s.procs p with
  | .active bs => bs
  | _ => []

theorem Sys.blocks_active {bs} (h : s.procs p = .active bs) : s.blocks p = bs := by
  simp [Sys.blocks, h]

theorem Sys.blocks_go (s : Sys) (l : LogState) (p : Nat) (st : Status) :
    (s.go l p st).blocks = Function.update s.blocks p (match st with | .active bs => bs | _ => []) := by
  funext q
  by_cases hq : q = p
  · subst hq
    simp only [Sys.blocks, Sys.go, Function.update_self]
  · simp only [Sys.blocks, Sys.go, Function.update_of_ne hq]

inductive Stepped (s : Sys) : Event → Sys → Prop
  | sleep {p : Nat} (hp : s.procs p = .idle ∨ s.procs p = .waiting) :
      Stepped s (.beginOp p) (s.go s.log p .waiting)
  | enter {p : Nat} {l : LogState} (hp : s.procs p = .idle ∨ s.procs p = .waiting)
      (hl : beginOp s.log = some l) : Stepped s (.beginOp p) (s.go l p (.active []))
  | write {p b bs l} (hp : s.procs p = .active bs)
      (hb : (absorb bs b).length ≤ maxopblocks) (hl : logWrite s.log b = .ok l) :
      Stepped s (.logWrite p b) (s.go l p (.active (absorb bs b)))
  | last {p bs l} (hp : s.procs p = .active bs)
      (hl : endOp s.log = .ok (l, true)) : Stepped s (.endOp p) (s.go l p .committing)
  | leave {p : Nat} {bs : List Nat} {l : LogState} (hp : s.procs p = .active bs)
      (hl : endOp s.log = .ok (l, false)) : Stepped s (.endOp p) (s.go l p .idle)
  | commit {p : Nat} (hp : s.procs p = .committing) :
      Stepped s (.commit p) (s.go (endCommit s.log) p .idle)

theorem step_ok (h : step s e = some (.ok t)) : Stepped s e t := by
  cases e with
  | beginOp p =>
    cases hp : s.procs p with
    | idle =>
      cases hl : beginOp s.log with
      | none => simp [step, hp, hl] at h; subst h; exact .sleep (.inl hp)
      | some l => simp [step, hp, hl] at h; subst h; exact .enter (.inl hp) hl
    | waiting =>
      cases hl : beginOp s.log with
      | none => simp [step, hp, hl] at h; subst h; exact .sleep (.inr hp)
      | some l => simp [step, hp, hl] at h; subst h; exact .enter (.inr hp) hl
    | active bs | committing => simp [step, hp] at h
  | logWrite p b =>
    cases hp : s.procs p with
    | active bs =>
      by_cases hb : (absorb bs b).length ≤ maxopblocks
      · cases hl : logWrite s.log b with
        | error m => simp [step, hp, hb, hl] at h
        | ok l => simp [step, hp, hb, hl] at h; subst h; exact .write hp hb hl
      · simp [step, hp, hb] at h
    | idle | waiting | committing => simp [step, hp] at h
  | endOp p =>
    cases hp : s.procs p with
    | active bs =>
      cases hl : endOp s.log with
      | error m => simp [step, hp, hl] at h
      | ok r =>
        obtain ⟨l, c⟩ := r
        cases c with
        | false => simp [step, hp, hl] at h; subst h; exact .leave hp hl
        | true => simp [step, hp, hl] at h; subst h; exact .last hp hl
    | idle | waiting | committing => simp [step, hp] at h
  | commit p =>
    cases hp : s.procs p with
    | committing => simp [step, hp] at h; subst h; exact .commit hp
    | idle | waiting | active bs => simp [step, hp] at h

theorem beginOp_some {l l'} (h : beginOp l = some l') :
    l.committing = false ∧ l.lh.length + (l.outstanding + 1) * maxopblocks ≤ logsize ∧
      l' = { l with outstanding := l.outstanding + 1 } := by
  unfold beginOp at h
  split at h
  · cases h
  · rename_i hc
    split at h
    · cases h
    · cases h
      exact ⟨by simpa using hc, by omega, rfl⟩

theorem logWrite_ok {l l'} (h : logWrite l b = .ok l') :
    1 ≤ l.outstanding ∧ l' = { l with lh := absorb l.lh b } := by
  unfold logWrite at h
  split at h
  · cases h
  · split at h
    · cases h
    · cases h
      exact ⟨by omega, rfl⟩

theorem endOp_ok {l l' c} (h : endOp l = .ok (l', c)) :
    l.committing = false ∧ c = decide (l.outstanding - 1 = 0) ∧
      l' = { l with outstanding := l.outstanding - 1, committing := c } := by
  unfold endOp at h
  split at h
  · cases h
  rename_i hc
  simp only [Bool.not_eq_true] at hc
  split at h
  · rename_i h0
    cases h
    exact ⟨hc, by simp [h0], rfl⟩
  · rename_i h0
    cases h
    refine ⟨hc, by simp [h0], ?_⟩
    rw [← hc]

/-- 一つの操作に `n` 個の枠を与えたとき、途中の操作 `A` の残りの枠と記録済みのブロック数の和が `bound` を超えない。 -/
structure Reserved (n bound : Nat) (s : Sys) (A : Finset Nat) : Prop where
  mem : ∀ p, p ∈ A ↔ ∃ bs, s.procs p = .active bs
  card : A.card = s.log.outstanding
  logged : ∀ p, s.blocks p ⊆ s.log.lh
  nodup : s.log.lh.Nodup ∧ ∀ p, (s.blocks p).Nodup
  busy : s.log.committing = true → A = ∅
  single : ∀ p q, s.procs p = .committing → s.procs q = .committing → p = q
  holder : ∀ p, s.procs p = .committing → s.log.committing = true
  quiet : s.log.committing = false → A = ∅ → s.log.lh = []
  room : A.Nonempty → s.log.lh.length + ∑ p ∈ A, (n - (s.blocks p).length) ≤ bound

variable {n bound : Nat} {A : Finset Nat}

theorem Reserved.init (n bound : Nat) : Reserved n bound .init ∅ where
  mem p := by simp [Sys.init]
  card := rfl
  logged p := by simp [Sys.init, Sys.blocks]
  nodup := ⟨List.nodup_nil, fun p => by simp [Sys.init, Sys.blocks]⟩
  busy _ := rfl
  single p q h := by simp [Sys.init] at h
  holder p h := by simp [Sys.init] at h
  quiet _ _ := rfl
  room h := by simp at h

theorem absorb_length_le (l : List Nat) (b : Nat) : l.length ≤ (absorb l b).length := by
  by_cases h : b ∈ l
  · rw [absorb_of_mem h]
  · rw [absorb_of_not_mem h]; simp

section Go

variable {l : LogState} {st : Status} {q : Nat}

theorem go_procs_ne (hq : q ≠ p) : (s.go l p st).procs q = s.procs q := by
  simp [Sys.go, hq]

@[simp]
theorem go_procs_self : (s.go l p st).procs p = st := by
  simp [Sys.go]

theorem go_blocks_ne (hq : q ≠ p) : (s.go l p st).blocks q = s.blocks q := by
  simp [Sys.blocks, go_procs_ne hq]

theorem go_committing (hst : st ≠ .committing) (hq : (s.go l p st).procs q = .committing) :
    q ≠ p ∧ s.procs q = .committing := by
  by_cases h : q = p
  · subst h; rw [go_procs_self] at hq; exact absurd hq hst
  · exact ⟨h, by rwa [go_procs_ne h] at hq⟩

end Go

namespace Reserved

theorem notMem (h : Reserved n bound s A) (hp : s.procs p = .idle ∨ s.procs p = .waiting) :
    p ∉ A := by
  intro hm
  obtain ⟨bs, hbs⟩ := (h.mem p).mp hm
  rcases hp with hp | hp <;> rw [hp] at hbs <;> cases hbs

theorem sum_le (h : Reserved n bound s A) :
    ∑ q ∈ A, (n - (s.blocks q).length) ≤ s.log.outstanding * n := by
  rw [← h.card]
  exact sum_le_card_nsmul _ _ _ fun q _ => Nat.sub_le _ _

theorem blocks_idle (hp : s.procs p = .idle ∨ s.procs p = .waiting) : s.blocks p = [] := by
  rcases hp with hp | hp <;> simp [Sys.blocks, hp]

section

variable (h : Reserved n bound s A)
include h

theorem sleep (hp : s.procs p = .idle ∨ s.procs p = .waiting) :
    Reserved n bound (s.go s.log p .waiting) A := by
  have hpA := h.notMem hp
  have hb : (s.go s.log p .waiting).blocks = s.blocks := by
    rw [Sys.blocks_go]
    exact Function.update_eq_self_iff.mpr (blocks_idle hp).symm
  refine ⟨fun q => ?_, h.card, ?_, ?_, h.busy, fun q r hq hr => ?_, fun q hq => ?_, h.quiet, ?_⟩
  · by_cases hq : q = p
    · subst hq; simp [hpA]
    · rw [go_procs_ne hq]; exact h.mem q
  · rw [hb]; exact h.logged
  · rw [hb]; exact h.nodup
  · exact h.single q r (go_committing (by simp) hq).2 (go_committing (by simp) hr).2
  · exact h.holder q (go_committing (by simp) hq).2
  · rw [hb]; exact h.room

/-- 入れるのは、全員が `n` 個まで書いても収まる時だけである。 -/
theorem enter {l}
    (hadm : ∀ k m, m + (k + 1) * maxopblocks ≤ logsize → (k = 0 → m = 0) → m + (k + 1) * n ≤ bound)
    (hp : s.procs p = .idle ∨ s.procs p = .waiting) (hl : beginOp s.log = some l) :
    Reserved n bound (s.go l p (.active [])) (insert p A) := by
  obtain ⟨hc, hroom, hl⟩ := beginOp_some hl
  have hpA := h.notMem hp
  have hb : (s.go l p (.active [])).blocks = s.blocks := by
    rw [Sys.blocks_go]
    exact Function.update_eq_self_iff.mpr (blocks_idle hp).symm
  have hlh : l.lh = s.log.lh := by rw [hl]
  have hlc : l.committing = false := by rw [hl, ← hc]
  refine ⟨fun q => ?_, ?_, ?_, ?_, fun hc' => ?_, fun q r hq hr => ?_, fun q hq => ?_, fun _ he => ?_,
    fun _ => ?_⟩
  · by_cases hq : q = p
    · subst hq; simp
    · rw [go_procs_ne hq, mem_insert, h.mem q]; simp [hq]
  · rw [card_insert_of_notMem hpA, h.card]; simp [Sys.go, hl]
  · rw [hb]; simpa [Sys.go, hlh] using h.logged
  · rw [hb]; simpa [Sys.go, hlh] using h.nodup
  · exact absurd (hlc.symm.trans hc') (by simp)
  · exact h.single q r (go_committing (by simp) hq).2 (go_committing (by simp) hr).2
  · exact absurd (h.holder q (go_committing (by simp) hq).2) (by simp [hc])
  · simp at he
  -- 新しい操作の枠は `begin_op` の検査が残している。
  rw [hb, sum_insert hpA]
  have hz : s.log.outstanding = 0 → s.log.lh.length = 0 := by
    intro h0
    have hA : A = ∅ := card_eq_zero.mp (by rw [h.card, h0])
    rw [h.quiet hc hA]; rfl
  have h1 := hadm _ _ hroom hz
  have h2 := h.sum_le
  have h3 : n - (s.blocks p).length ≤ n := Nat.sub_le _ _
  have h4 : (s.log.outstanding + 1) * n = s.log.outstanding * n + n := Nat.succ_mul _ _
  change l.lh.length + _ ≤ bound
  rw [hlh]
  omega

theorem write {l bs}
    (hp : s.procs p = .active bs) (hn : (absorb bs b).length ≤ n) (hl : logWrite s.log b = .ok l) :
    Reserved n bound (s.go l p (.active (absorb bs b))) A := by
  obtain ⟨_, hl⟩ := logWrite_ok hl
  have hlh : l.lh = absorb s.log.lh b := by rw [hl]
  have hpA : p ∈ A := (h.mem p).mpr ⟨bs, hp⟩
  have hbs : s.blocks p = bs := Sys.blocks_active hp
  have hsub : bs ⊆ s.log.lh := hbs ▸ h.logged p
  have hself : (s.go l p (.active (absorb bs b))).blocks p = absorb bs b :=
    Sys.blocks_active go_procs_self
  refine ⟨fun q => ?_, ?_, fun q => ?_, ⟨?_, fun q => ?_⟩, fun hc => ?_, fun q r hq hr => ?_,
    fun q hq => ?_, fun _ he => ?_, fun hne => ?_⟩
  · by_cases hq : q = p
    · subst hq; simp [hpA]
    · rw [go_procs_ne hq]; exact h.mem q
  · rw [h.card]; simp [Sys.go, hl]
  · intro c hc
    change c ∈ l.lh
    rw [hlh]
    refine mem_absorb.mpr ?_
    by_cases hq : q = p
    · subst hq
      rw [hself] at hc
      exact (mem_absorb.mp hc).imp (@hsub c) id
    · rw [go_blocks_ne hq] at hc
      exact .inl (h.logged q hc)
  · change l.lh.Nodup
    rw [hlh]; exact nodup_absorb h.nodup.1
  · by_cases hq : q = p
    · subst hq; rw [hself]; exact nodup_absorb (hbs ▸ h.nodup.2 q)
    · rw [go_blocks_ne hq]; exact h.nodup.2 q
  · exact h.busy (by simpa [Sys.go, hl] using hc)
  · exact h.single q r (go_committing (by simp) hq).2 (go_committing (by simp) hr).2
  · simpa [Sys.go, hl] using h.holder q (go_committing (by simp) hq).2
  · rw [he] at hpA; simp at hpA
  -- 新しいブロックがログに加わるときは、`p` の残りの枠がちょうど一つ減る。
  have hold := h.room hne
  rw [← add_sum_erase A _ hpA] at hold ⊢
  have hrest : ∑ q ∈ A.erase p, (n - ((s.go l p (.active (absorb bs b))).blocks q).length) =
      ∑ q ∈ A.erase p, (n - (s.blocks q).length) :=
    sum_congr rfl fun q hq => by rw [go_blocks_ne (ne_of_mem_erase hq)]
  rw [hrest, hself]
  rw [hbs] at hold
  change l.lh.length + _ ≤ bound
  rw [hlh]
  by_cases hb : b ∈ s.log.lh
  · rw [absorb_of_mem hb]
    have := absorb_length_le bs b
    omega
  · have hb' : b ∉ bs := fun h => hb (hsub h)
    rw [absorb_of_not_mem hb'] at hn ⊢
    rw [absorb_of_not_mem hb]
    simp only [List.length_append, List.length_singleton] at hn ⊢
    omega

theorem leave {l : LogState} {bs : List Nat} {c : Bool}
    {st : Status} (hst : st = if c then .committing else .idle) (hp : s.procs p = .active bs)
    (hl : endOp s.log = .ok (l, c)) : Reserved n bound (s.go l p st) (A.erase p) := by
  obtain ⟨hnc, hc, hl⟩ := endOp_ok hl
  have hlh : l.lh = s.log.lh := by rw [hl]
  have hlc : l.committing = c := by rw [hl]
  have hpA : p ∈ A := (h.mem p).mpr ⟨bs, hp⟩
  have hcard : (A.erase p).card = s.log.outstanding - 1 := by
    rw [card_erase_of_mem hpA, h.card]
  have hpnil : (s.go l p st).blocks p = [] := by
    subst hst; cases c <;> simp [Sys.blocks]
  have hothers : ∀ q, s.procs q ≠ .committing := fun q hq =>
    absurd (h.holder q hq) (by simp [hnc])
  refine ⟨fun q => ?_, ?_, fun q => ?_, ⟨?_, fun q => ?_⟩, fun hc' => ?_, fun q r hq hr => ?_,
    fun q hq => ?_, fun hc' he => ?_, fun hne => ?_⟩
  · by_cases hq : q = p
    · subst hq; subst hst; cases c <;> simp
    · rw [go_procs_ne hq, mem_erase, h.mem q]; simp [hq]
  · rw [hcard]; simp [Sys.go, hl]
  · change _ ⊆ l.lh
    rw [hlh]
    by_cases hq : q = p
    · subst hq; rw [hpnil]; exact List.nil_subset _
    · rw [go_blocks_ne hq]; exact h.logged q
  · change l.lh.Nodup
    rw [hlh]; exact h.nodup.1
  · by_cases hq : q = p
    · subst hq; rw [hpnil]; exact List.nodup_nil
    · rw [go_blocks_ne hq]; exact h.nodup.2 q
  · have hc' : c = true := hlc.symm.trans hc'
    rw [hc] at hc'
    exact card_eq_zero.mp (by rw [hcard]; exact of_decide_eq_true hc')
  · by_cases hqp : q = p
    · by_cases hrp : r = p
      · rw [hqp, hrp]
      · rw [go_procs_ne hrp] at hr; exact absurd hr (hothers r)
    · rw [go_procs_ne hqp] at hq; exact absurd hq (hothers q)
  · by_cases hqp : q = p
    · subst hqp
      rw [go_procs_self, hst] at hq
      change l.committing = true
      cases c with
      | true => exact hlc
      | false => cases hq
    · rw [go_procs_ne hqp] at hq; exact absurd hq (hothers q)
  · have hc' : c = false := hlc.symm.trans hc'
    rw [hc] at hc'
    exact absurd (by rw [← hcard, he]; rfl) (of_decide_eq_false hc')
  have hold := h.room ⟨p, hpA⟩
  rw [← add_sum_erase A _ hpA] at hold
  have hrest : ∑ q ∈ A.erase p, (n - ((s.go l p st).blocks q).length) =
      ∑ q ∈ A.erase p, (n - (s.blocks q).length) :=
    sum_congr rfl fun q hq => by rw [go_blocks_ne (ne_of_mem_erase hq)]
  rw [hrest]
  change l.lh.length + _ ≤ bound
  rw [hlh]
  omega

theorem commit (hp : s.procs p = .committing) :
    Reserved n bound (s.go (endCommit s.log) p .idle) A := by
  have hA : A = ∅ := h.busy (h.holder p hp)
  have hnil : ∀ q, (s.go (endCommit s.log) p .idle).blocks q = [] := by
    intro q
    have hq : ¬ ∃ bs, s.procs q = .active bs := by rw [← h.mem q, hA]; simp
    by_cases hqp : q = p
    · subst hqp; simp [Sys.blocks]
    · rw [go_blocks_ne hqp]
      simp only [Sys.blocks]
      split
      · rename_i bs hbs; exact absurd ⟨bs, hbs⟩ hq
      · rfl
  have hothers : ∀ q, (s.go (endCommit s.log) p .idle).procs q ≠ .committing := by
    intro q hq
    obtain ⟨hqp, hq⟩ := go_committing (by simp) hq
    exact hqp (h.single q p hq hp)
  refine ⟨fun q => ?_, h.card, fun q => ?_, ⟨List.nodup_nil, fun q => ?_⟩, fun _ => hA,
    fun q r hq => absurd hq (hothers q), fun q hq => absurd hq (hothers q), fun _ _ => rfl,
    fun hne => ?_⟩
  · by_cases hq : q = p
    · subst hq; rw [hA]; simp
    · rw [go_procs_ne hq]; exact h.mem q
  · rw [hnil q]; exact List.nil_subset _
  · rw [hnil q]; exact List.nodup_nil
  · rw [hA] at hne; simp at hne

theorem step (hadm : ∀ k m, m + (k + 1) * maxopblocks ≤ logsize → (k = 0 → m = 0) → m + (k + 1) * n ≤ bound)
    (hn : ∀ p b, e = .logWrite p b → (absorb (s.blocks p) b).length ≤ n) (hs : Stepped s e t) :
    ∃ A', Reserved n bound t A' := by
  cases hs with
  | sleep hp => exact ⟨A, h.sleep hp⟩
  | enter hp hl => exact ⟨_, h.enter hadm hp hl⟩
  | write hp _ hl =>
    have := hn _ _ rfl
    rw [Sys.blocks_active hp] at this
    exact ⟨A, h.write hp this hl⟩
  | last hp hl | leave hp hl => exact ⟨_, h.leave rfl hp hl⟩
  | commit hp => exact ⟨A, h.commit hp⟩

end

end Reserved

end Xv6.Log
