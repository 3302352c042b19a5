import Xv6.Log.Lemmas.Crash
import Xv6.Log.Lemmas.Journal

/-!
# ログの定理
-/

namespace Xv6.Log

variable {s t : Sys} {es : List Event} {A : Finset Nat}

/-! ## 予約 -/

theorem step_error {n bound} (h : Reserved n bound s A) (hz : s.log.size = nlog) {e m} (he : step s e = some (.error m)) :
    ∃ p b, e = .logWrite p b ∧ m = "too big a transaction" ∧ logsize - 1 ≤ s.log.lh.length := by
  have hout : ∀ p bs, s.procs p = .active bs → 1 ≤ s.log.outstanding := by
    intro p bs hp
    rw [← h.card]
    exact Finset.card_pos.mpr ⟨p, (h.mem p).mpr ⟨bs, hp⟩⟩
  cases e with
  | beginOp p =>
    cases hp : s.procs p <;> simp only [step, hp] at he <;> try cases he
    all_goals split at he <;> cases he
  | logWrite p b =>
    cases hp : s.procs p with
    | active bs =>
      simp only [step, hp] at he
      split at he
      · cases hl : logWrite s.log b with
        | ok l => simp [hl] at he
        | error m' =>
          simp only [hl, Option.some.injEq, Except.error.injEq] at he
          subst he
          unfold logWrite at hl
          have := hout p bs hp
          split at hl
          · rename_i hbig
            cases hl
            refine ⟨p, b, rfl, rfl, ?_⟩
            rw [hz] at hbig
            simp only [nlog] at hbig
            omega
          · rw [if_neg (by omega)] at hl; cases hl
      · cases he
    | idle | waiting | committing => simp [step, hp] at he
  | endOp p =>
    cases hp : s.procs p with
    | active bs =>
      simp only [step, hp] at he
      have hnc : s.log.committing = false := by
        cases hc : s.log.committing with
        | false => rfl
        | true => have := (h.mem p).mpr ⟨bs, hp⟩; rw [h.busy hc] at this; simp at this
      cases hl : endOp s.log with
      | error m' =>
        unfold endOp at hl
        rw [hnc] at hl
        simp only [Bool.false_eq_true, if_false] at hl
        split at hl <;> cases hl
      | ok r => obtain ⟨l, c⟩ := r; cases c <;> simp [hl] at he
    | idle | waiting | committing => simp [step, hp] at he
  | commit p => cases hp : s.procs p <;> simp [step, hp] at he

theorem admission_narrow (k m : Nat) (h : m + (k + 1) * maxopblocks ≤ logsize) (hz : k = 0 → m = 0) :
    m + (k + 1) * (maxopblocks - 1) ≤ logsize - 2 := by
  simp only [maxopblocks, logsize] at h ⊢
  rcases Nat.eq_zero_or_pos k with h0 | h0
  · have := hz h0; omega
  · omega

theorem Stepped.size {e} (h : Stepped s e t) : t.log.size = s.log.size := by
  cases h with
  | sleep _ => rfl
  | enter _ hl => simp [Sys.go, (beginOp_some hl).2.2]
  | write _ _ hl => simp [Sys.go, (logWrite_ok hl).2]
  | last _ hl | leave _ hl => simp [Sys.go, (endOp_ok hl).2.2]
  | commit _ => rfl

theorem Stepped.perOp {e} (h : Stepped s e t) {p b} (he : e = .logWrite p b) :
    (absorb (s.blocks p) b).length ≤ maxopblocks := by
  cases h with
  | write hp hb _ => cases he; rwa [Sys.blocks_active hp]
  | _ => cases he

theorem Stepped.fits {e} (h : Stepped s e t) {n} :
    Fits n s.log.lh (e :: es) ↔
      ((∀ p b, e = .logWrite p b → s.log.lh.length < n) ∧ Fits n t.log.lh es) := by
  cases h with
  | sleep _ => simp [Fits, Sys.go]
  | enter _ hl => simp [Fits, Sys.go, (beginOp_some hl).2.2]
  | write _ _ hl => simp [Fits, Sys.go, (logWrite_ok hl).2]
  | last _ hl | leave _ hl => simp [Fits, Sys.go, (endOp_ok hl).2.2]
  | commit _ => simp [Fits, Sys.go, endCommit]

theorem Stepped.perOp_cons {e} (h : Stepped s e t) {n} (hn : PerOp n s.blocks (e :: es)) :
    (∀ p b, e = .logWrite p b → (absorb (s.blocks p) b).length ≤ n) ∧ PerOp n t.blocks es := by
  cases h with
  | sleep hp | enter hp _ =>
    rw [Sys.blocks_go, Function.update_eq_self_iff.mpr (Reserved.blocks_idle hp).symm]
    exact ⟨by simp, hn⟩
  | write hp _ _ =>
    rw [Sys.blocks_go]
    refine ⟨?_, ?_⟩
    · intro p b he; cases he; exact hn.1
    · have := hn.2
      rwa [Sys.blocks_active hp] at this
  | last _ _ | leave _ _ => rw [Sys.blocks_go]; exact ⟨by simp, hn⟩
  | commit hp =>
    rw [Sys.blocks_go, Function.update_eq_self_iff.mpr (by simp [Sys.blocks, hp])]
    exact ⟨by simp, hn⟩

theorem exec_fits_iff (h : Reserved maxopblocks logsize s A) (hz : s.log.size = nlog)
    {r} (hr : exec s es = some r) :
    r ≠ .error "too big a transaction" ↔ Fits (logsize - 1) s.log.lh es := by
  induction es generalizing s A with
  | nil => cases hr; simp [Fits]
  | cons e es ih =>
    simp only [exec] at hr
    cases hs : step s e with
    | none => simp [hs] at hr
    | some r' =>
      cases r' with
      | error m =>
        simp only [hs, Option.some.injEq] at hr
        obtain ⟨p, b, rfl, rfl, hfull⟩ := step_error h hz hs
        subst hr
        simp only [ne_eq, not_true_eq_false, Fits, false_iff, not_and]
        intro hlt; omega
      | ok t =>
        simp only [hs] at hr
        have hst := step_ok hs
        obtain ⟨A', h'⟩ := h.step (fun _ _ hk _ => hk) (fun p b he => hst.perOp he) hst
        rw [ih h' (hst.size.trans hz) hr, hst.fits]
        refine ⟨fun hf => ⟨fun p b he => ?_, hf⟩, And.right⟩
        subst he
        cases hst with
        | write _ _ hl =>
          unfold logWrite at hl
          split at hl
          · cases hl
          · rename_i hbig
            rw [hz] at hbig
            simp only [nlog] at hbig
            omega

theorem exec_fits_of_perOp (h : Reserved (maxopblocks - 1) (logsize - 2) s A)
    {r} (hr : exec s es = some r)
    (hn : PerOp (maxopblocks - 1) s.blocks es) (hz : s.log.size = nlog) :
    Fits (logsize - 1) s.log.lh es := by
  induction es generalizing s A with
  | nil => trivial
  | cons e es ih =>
    have hlt : ∀ p b, e = .logWrite p b → step s e ≠ none → s.log.lh.length < logsize - 1 := by
      intro p b he hne
      subst he
      cases hp : s.procs p with
      | active bs =>
        have := h.room ⟨p, (h.mem p).mpr ⟨bs, hp⟩⟩
        simp only [logsize, maxopblocks] at this ⊢
        omega
      | idle | waiting | committing => simp [step, hp] at hne
    simp only [exec] at hr
    cases hs : step s e with
    | none => simp [hs] at hr
    | some r' =>
      cases r' with
      | error m =>
        obtain ⟨p, b, he, _, hfull⟩ := step_error h hz hs
        have := hlt p b he (by simp [hs])
        omega
      | ok t =>
        simp only [hs] at hr
        have hst := step_ok hs
        obtain ⟨hle, hn'⟩ := hst.perOp_cons hn
        obtain ⟨A', h'⟩ := h.step admission_narrow hle hst
        exact hst.fits.mpr ⟨fun p b he => hlt p b he (by simp [hs]),
          ih h' hr hn' (hst.size.trans hz)⟩

/-- 「トランザクションが大きすぎる」に達しないのは、直前の `commit` の後に記録された互いに異なるブロックが `LOGSIZE - 1`
個になった後に `log_write` が呼ばれないとき、かつそのときに限る。 -/
theorem log_write_not_too_big_iff {r : Except String Sys} (hr : exec .init es = some r) :
    (r ≠ .error "too big a transaction" ↔ Fits (logsize - 1) [] es) ∧
      (PerOp (maxopblocks - 1) (fun _ => []) es → r ≠ .error "too big a transaction") := by
  have hiff := exec_fits_iff (Reserved.init maxopblocks logsize) rfl hr
  refine ⟨hiff, fun hn => hiff.mpr ?_⟩
  exact exec_fits_of_perOp (Reserved.init _ _) hr hn rfl

def twoOps : List Event :=
  .beginOp 0 :: .beginOp 1 ::
    ((List.range 18).map (fun i => Event.logWrite (i / 9) (100 + i))).append
      [.endOp 0, .endOp 1, .commit 1]

theorem log_write_not_too_big_twoOps :
    PerOp (maxopblocks - 1) (fun _ => []) twoOps ∧
      ∃ r, exec .init twoOps = some r ∧ r ≠ .error "too big a transaction" :=
  ⟨by decide, _, rfl, (@log_write_not_too_big_iff twoOps _ rfl).2 (by decide)⟩

def threeFullOps : List Event :=
  .beginOp 0 :: .beginOp 1 :: .beginOp 2 ::
    (List.range 30).map fun i => Event.logWrite (i / 10) (100 + i)

theorem log_write_too_big_threeFullOps :
    PerOp maxopblocks (fun _ => []) threeFullOps ∧
      exec .init threeFullOps = some (.error "too big a transaction") :=
  ⟨by decide, rfl⟩

section Journal

open Xv6.Lib

variable {j k : Journal} {e : Event} {p : Nat} {c : CommitPos}

theorem Unsplit.step_committing (h : Unsplit j A) (hp : j.procs p = .committing c)
    (hs : Advanced j e k) :
    (∀ q ws, k.procs q ≠ .active ws) ∧ (k.log.lh = j.log.lh ∨ (e = .commit p ∧ c = .erase)) := by
  have hc := h.holder p c hp
  have hact : ∀ q ws, j.procs q ≠ .active ws := by
    intro q ws hq
    have hnc := h.not_committing hq
    rw [hc] at hnc
    cases hnc
  have hgo : ∀ q pl, (∀ ws, pl ≠ .active ws) → ∀ r ws, update j.procs q pl r ≠ .active ws := by
    intro q pl hpl r ws hr
    rcases Journal.go_procs hr with ⟨_, hr⟩ | ⟨_, hr⟩
    · exact hpl ws hr
    · exact hact r ws hr
  cases hs with
  | sleep _ => exact ⟨hgo _ _ (by simp), .inl rfl⟩
  | enter _ hl =>
    have hnc := (beginOp_some hl).1
    rw [hc] at hnc
    cases hnc
  | write hq _ | leave hq _ => exact absurd hq (hact _ _)
  | @commit q pos hq =>
    obtain rfl := h.single q p pos c hq hp
    rw [hp] at hq
    cases hq
    cases c with
    | erase => exact ⟨hgo _ _ (by simp), .inr ⟨rfl, rfl⟩⟩
    | start | writeLog | writeHead | install | done => exact ⟨hgo _ _ (by simp), .inl rfl⟩

/-- 動いている操作がなく `commit` も済んでいれば、終わった操作はどれも確定している。 -/
theorem Unsplit.settled (h : Unsplit j A) (hc : j.log.committing = false)
    (ho : j.log.outstanding = 0) : ∀ ws ∈ j.ended, ws ≠ [] → j.Committed ws := by
  intro ws hws hne
  rcases h.ended ws hws with hcom | hpend
  · exact hcom
  · obtain ⟨w, hw⟩ := List.exists_mem_of_ne_nil ws hne
    have hmem := (hpend w hw).2
    rw [h.quiet hc (Finset.card_eq_zero.mp (h.card.trans ho))] at hmem
    simp at hmem

/-- 一つの操作の `log_write` はすべて同じトランザクションに入る。`commit` は途中の操作がないときにだけ行われ、始めたプロセスの歩だけで終わり、終わるまで
`begin_op` は戻らない。`panic` しうるのは、トランザクションが大きすぎるときだけである。 -/
theorem operation_in_one_transaction (size : Nat) (j : Journal)
    (h : Machine.Reaches Journal.step (.init size) j) :
    (∀ p c, j.procs p = .committing c →
        j.log.outstanding = 0 ∧ (∀ q d, j.procs q = .committing d → q = p) ∧
          ∀ e k, Journal.step j e = some (.ok k) →
            (∀ q ws, k.procs q ≠ .active ws) ∧
              (k.log.lh = j.log.lh ∨ (e = .commit p ∧ c = .erase))) ∧
      (∀ p c, j.procs p = .committing c → ∃ n k,
        Machine.exec Journal.step j (List.replicate n (.commit p)) = some (.ok k) ∧
          k.procs p = .idle ∧ k.ended = j.ended ∧ ∀ ws ∈ k.ended, ws ≠ [] → k.Committed ws) ∧
      (∀ p ws, j.procs p = .active ws → j.Pending ws) ∧
      (∀ ws ∈ j.ended, j.Committed ws ∨ j.Pending ws) ∧
      (j.log.committing = false → j.log.outstanding = 0 →
        ∀ ws ∈ j.ended, ws ≠ [] → j.Committed ws) ∧
      ∀ e m, Journal.step j e = some (.error m) → m = "too big a transaction" := by
  obtain ⟨A, hA⟩ := Unsplit.of_reaches h
  have hout : ∀ p c, j.procs p = .committing c → j.log.outstanding = 0 := by
    intro p c hp
    rw [← hA.card, hA.busy (hA.holder p c hp), Finset.card_empty]
  refine ⟨fun p c hp => ⟨hout p c hp, fun q d hq => hA.single q p d c hq hp, fun e k hk =>
    hA.step_committing hp (Journal.step_ok hk)⟩, fun p c hp => ?_, hA.current, hA.ended,
    fun hc ho => hA.settled hc ho, fun e m he => hA.step_error he⟩
  obtain ⟨n, -, k, hk, hidle, hc, ho, hended⟩ := commit_finishes hp
  obtain ⟨B, hB⟩ := Unsplit.of_reaches (h.trans ⟨_, hk⟩)
  exact ⟨n, k, hk, hidle, hended, hB.settled hc (ho.trans (hout p c hp))⟩

def overlapping : List Event :=
  [.beginOp 0, .beginOp 1, .logWrite 0 40, .endOp 0, .logWrite 1 41, .endOp 1, .commit 1, .commit 1,
    .beginOp 2, .commit 1, .commit 1, .commit 1, .commit 1]

/-- 二つの操作の `log_write` は一つのトランザクションで確定し、待っていた操作は `commit` の後で始まる。 -/
theorem operation_in_one_transaction_overlapping :
    ∃ j, Machine.exec Journal.step (.init nlog) overlapping = some (.ok j) ∧
      j.procs 1 = .idle ∧ j.procs 2 = .waiting ∧ j.commits = [[40, 41]] ∧
        j.ended = [[(0, 40)], [(0, 41)]] ∧ (∀ ws ∈ j.ended, ws ≠ [] → j.Committed ws) ∧
          ∃ k, Journal.step j (.beginOp 2) = some (.ok k) ∧ k.procs 2 = .active [] :=
  ⟨_, rfl, rfl, rfl, rfl, rfl, (operation_in_one_transaction nlog _ ⟨overlapping, rfl⟩).2.2.2.2.1
    rfl rfl, _, rfl, rfl⟩

end Journal

/-! ## 停止に対する不可分性 -/

section Crash

open Xv6.Lib Xv6.Lib.Free

variable {G : Geometry} {m : Mach} {d : Nat → Block}

theorem crashCommit_phase (ht : Txn G m.lh) (hempty : readHeader (m.disk G.start) = []) (k : Nat) :
    (Clean G m.disk (crashCommit G m k) ∨ Committed G m.lh m.disk m.content (crashCommit G m k) ∨
        Clean G m.after (crashCommit G m k)) ∧
      (m.lh.length < k → Committed G m.lh m.disk m.content (crashCommit G m k) ∨
        Clean G m.after (crashCommit G m k)) := by
  unfold crashCommit
  rcases exec_cwp (commit_crash ht hempty) k with ⟨t, he, h⟩ | ⟨a, t, he, h⟩
  · have hn : t.nwrites = m.nwrites + k :=
      exec_crashed_count (c := Mach.nwrites) (by rintro (_ | _ | _ | _ | _ | _ | _) s <;> rfl) he
    rw [he]
    rcases Nat.lt_or_ge m.lh.length k with hk | hk
    · have h' : Committed G m.lh m.disk m.content t.disk := h.2 (by simp only [Mach.view]; omega)
      exact ⟨.inr (.inl h'), fun _ => .inl h'⟩
    · have h' : Clean G m.disk t.disk := h.1 (by simp only [Mach.view]; omega)
      exact ⟨.inl h', fun hk' => by omega⟩
  · rw [he]
    have h' : Clean G m.after t.disk := h
    exact ⟨.inr (.inr h'), fun _ => .inr h'⟩

theorem crashRecover_clean {f} (h : Clean G f d) (hs : G.InLog G.start) (k : Nat) :
    Clean G f (crashRecover G d k) := by
  unfold crashRecover
  rcases exec_cwp (recoverFromLog_clean h hs) k with ⟨t, he, h'⟩ | ⟨a, t, he, h'⟩ <;> rw [he] <;>
    exact h'

theorem crashRecover_committed (h : Committed G m.lh m.disk m.content d) (ht : Txn G m.lh) (k : Nat) :
    Committed G m.lh m.disk m.content (crashRecover G d k) ∨ Clean G m.after (crashRecover G d k) := by
  unfold crashRecover
  rcases exec_cwp (recoverFromLog_committed h ht) k with ⟨t, he, h'⟩ | ⟨a, t, he, h'⟩
  · rw [he]; exact .inl h'
  · rw [he]; exact .inr h'

theorem crashRecover_run (ht : Txn G m.lh) (ks : List Nat)
    (h : Committed G m.lh m.disk m.content d ∨ Clean G m.after d) :
    Committed G m.lh m.disk m.content (ks.foldl (crashRecover G) d) ∨
      Clean G m.after (ks.foldl (crashRecover G) d) := by
  induction ks generalizing d with
  | nil => exact h
  | cons k ks ih =>
    rw [List.foldl_cons]
    refine ih ?_
    rcases h with h | h
    · exact crashRecover_committed h ht k
    · exact .inr (crashRecover_clean h ht.start_inLog k)

theorem crashRecover_run_clean {f} (hs : G.InLog G.start) (ks : List Nat)
    (h : Clean G f d) : Clean G f (ks.foldl (crashRecover G) d) := by
  induction ks generalizing d with
  | nil => exact h
  | cons k ks ih =>
    rw [List.foldl_cons]
    exact ih (crashRecover_clean h hs k)

theorem recovered_after (ht : Txn G m.lh) (h : Committed G m.lh m.disk m.content d ∨ Clean G m.after d) :
    ∀ b, ¬ G.InLog b → recovered G d b = m.after b := by
  unfold recovered
  rcases h with h | h
  · obtain ⟨a, t, he, h'⟩ := eval_cwp (recoverFromLog_committed h ht)
    rw [he]; exact h'.home
  · obtain ⟨a, t, he, h'⟩ := eval_cwp (recoverFromLog_clean h ht.start_inLog)
    rw [he]; exact h'.home

/-- `commit` がどこで止まり、続く回復が何度どこで止まっても、最後に回復を終えたディスクは、トランザクションの前のままか、
後の中身である。先頭のブロックを書いた後なら、後の中身である。 -/
theorem commit_crash_atomic (G : Geometry) (m : Mach) (ht : Txn G m.lh)
    (hempty : getLE (m.disk G.start) 0 4 = 0) (k : Nat) (ks : List Nat) :
    ((∀ b, ¬ G.InLog b → survive G m k ks b = m.disk b) ∨
        (∀ b, ¬ G.InLog b → survive G m k ks b = m.after b)) ∧
      (m.lh.length < k → ∀ b, ¬ G.InLog b → survive G m k ks b = m.after b) := by
  have hnil : readHeader (m.disk G.start) = [] := by simp [readHeader, hempty]
  obtain ⟨hphase, hlate⟩ := crashCommit_phase ht hnil k
  unfold survive
  constructor
  swap
  · intro hk
    have hrun := crashRecover_run ht ks (hlate hk)
    exact recovered_after ht hrun
  rcases hphase with h | h
  · have hrun := crashRecover_run_clean ht.start_inLog ks h
    obtain ⟨a, t, he, h'⟩ := eval_cwp (recoverFromLog_clean hrun ht.start_inLog)
    simp only [recovered, he]
    exact .inl h'.home
  · have hrun := crashRecover_run ht ks h
    exact .inr (recovered_after ht hrun)

def twoBlocks : Mach where
  disk := fun _ _ => 0
  cache := fun b => if b = 40 ∨ b = 41 then some (fun _ => 7) else none
  lh := [40, 41]
  nwrites := 0

theorem twoBlocks_txn : Txn ⟨2, nlog⟩ twoBlocks.lh where
  nodup := by decide
  fits := by decide
  small := by decide
  blockno := by decide
  home b hb hl := by
    have : b = 40 ∨ b = 41 := by simpa [twoBlocks] using hb
    simp only [Geometry.InLog, nlog, logsize, maxopblocks] at hl
    omega

theorem commit_crash_atomic_twoBlocks :
    Txn ⟨2, nlog⟩ twoBlocks.lh ∧ getLE (twoBlocks.disk 2) 0 4 = 0 ∧
      ∀ b, ¬ Geometry.InLog ⟨2, nlog⟩ b →
        survive ⟨2, nlog⟩ twoBlocks 3 [1] b = twoBlocks.after b :=
  ⟨twoBlocks_txn, rfl, (commit_crash_atomic ⟨2, nlog⟩ twoBlocks twoBlocks_txn rfl 3 [1]).2 (by decide)⟩

end Crash

end Xv6.Log
