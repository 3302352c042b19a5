import Xv6.Ipc.Pipe

/-!
# パイプの定理
-/

namespace Xv6.Ipc

open Xv6.Lib List

variable {E : Env} {pi pi' : Pipe} {bs : List UInt8} {x : Exit} {sent : List UInt8} {taken i k : Nat}
  {s t : Sys} {p : Nat} {c : Call}

/-- 入れた列が `sent`、取り出した個数が `taken` のときのパイプの領域。 -/
def Pipe.Holds (pi : Pipe) (sent : List UInt8) (taken : Nat) : Prop :=
  Ring pipesize (2 ^ 32) pi.data pi.nread pi.nwrite sent taken

theorem pipesize_lt : pipesize < 2 ^ 32 := by decide

theorem pipesize_dvd : pipesize ∣ 2 ^ 32 := by decide

/-! ## ロックを持つ間の動き -/

section

variable (h : pi.Holds sent taken)
include h

theorem Pipe.Holds.put
    (hfull : pi.nwrite ≠ (pi.nread + pipesize) % 2 ^ 32) (ch : UInt8) : (pi.put ch).Holds (sent ++ [ch]) taken := by
  have hne := (not_congr (h.full_iff pipesize_lt)).mp hfull
  exact h.push pipesize_dvd (Nat.lt_of_le_of_ne h.room hne)

theorem Pipe.Holds.take (hne : pi.nread ≠ pi.nwrite) :
    sent.drop taken = pi.data (pi.nread % pipesize) :: sent.drop (taken + 1) ∧
      Pipe.Holds { pi with nread := (pi.nread + 1) % 2 ^ 32 } sent (taken + 1) := h.next pipesize_lt pipesize_dvd hne

theorem pipewriteLoop_spec (hw : pipewriteLoop E pi i k = (pi', bs, x)) :
    pi'.Holds (sent ++ bs) taken ∧
      match x with
      | .sleep j => j = i + bs.length
      | .ret v _ => v = -1 ∨ v = i + bs.length := by
  induction k generalizing pi sent i bs with
  | zero => cases hw; simpa using h
  | succ k ih =>
    simp only [pipewriteLoop] at hw
    split at hw
    · cases hw; simpa using h
    split at hw
    · cases hw; simpa using h
    rename_i hfull
    cases hc : E.copyin i with
    | none => rw [hc] at hw; cases hw; simpa using h
    | some ch =>
      simp only [hc] at hw
      generalize hr : pipewriteLoop E (pi.put ch) (i + 1) k = r at hw
      obtain ⟨pi1, bs1, x1⟩ := r
      cases hw
      obtain ⟨hring, hx⟩ := ih (h.put hfull ch) hr
      refine ⟨by simpa using hring, ?_⟩
      cases x1 with
      | sleep j | ret v f => simp only [length_cons] at hx ⊢; omega

theorem pipereadLoop_spec (hr : pipereadLoop E pi i k = (pi', bs, x)) :
    pi'.Holds sent (taken + bs.length) ∧ bs = (sent.drop taken).take bs.length ∧
      ∃ v f, x = .ret v f ∧ (f = false → v = i + bs.length) := by
  induction k generalizing pi taken i bs with
  | zero => cases hr; exact ⟨h, by simp, _, _, rfl, by simp⟩
  | succ k ih =>
    simp only [pipereadLoop] at hr
    split at hr
    · cases hr; exact ⟨h, by simp, _, _, rfl, by simp⟩
    rename_i hne
    obtain ⟨hdrop, hpop⟩ := h.take hne
    by_cases hc : E.copyout i
    · rw [if_pos hc] at hr
      generalize hl : pipereadLoop E { pi with nread := (pi.nread + 1) % 2 ^ 32 } (i + 1) k = r at hr
      obtain ⟨pi1, bs1, x1⟩ := r
      cases hr
      obtain ⟨hring, hbs, v, f, rfl, hv⟩ := ih hpop hl
      refine ⟨?_, ?_, v, f, rfl, fun hf => ?_⟩
      · rw [length_cons, Nat.add_comm bs1.length, ← Nat.add_assoc]
        exact hring
      · rw [hdrop, length_cons, take_succ_cons, ← hbs]
      · have := hv hf
        simp only [length_cons]
        omega
    · rw [if_neg hc] at hr
      cases hr
      exact ⟨hpop, by rw [hdrop]; rfl, _, _, rfl, by simp⟩

theorem Pipe.Holds.close {w} (hc : pipeclose pi w = some pi') :
    pi'.Holds sent taken := by
  unfold pipeclose at hc
  cases w with
  | false =>
    simp only [Bool.false_eq_true, if_false, true_and] at hc
    split at hc
    · cases hc
    · cases hc; exact h
  | true =>
    simp only [if_true, and_true] at hc
    split at hc
    · cases hc
    · cases hc; exact h

theorem piperead_spec {n} (hr : piperead E pi n = (pi', bs, x)) :
    pi'.Holds sent (taken + bs.length) ∧ bs = (sent.drop taken).take bs.length ∧
      match x with
      | .sleep j => j = 0 ∧ bs = []
      | .ret v f => v = -1 ∨ (f = false → v = bs.length) := by
  unfold piperead at hr
  split at hr
  · split at hr <;> cases hr <;> exact ⟨h, by simp, by simp⟩
  · obtain ⟨hring, hbs, v, f, rfl, hv⟩ := pipereadLoop_spec h hr
    exact ⟨hring, hbs, .inr (by simpa using hv)⟩

end

/-! ## すべての割り込み方 -/

def Sys.moved (s : Sys) (kind : Kind) (id : Nat) : Nat :=
  match kind with
  | .write => s.put.countP (·.1 = id)
  | .read => s.taken.countP (·.1 = id)

structure Ordered (s : Sys) : Prop where
  order : s.taken.map Prod.snd = (s.put.map Prod.snd).take s.taken.length
  holds : ∀ pi, s.pipe = some pi → pi.Holds (s.put.map Prod.snd) s.taken.length

def Return.Exact (s : Sys) (r : Return) : Prop :=
  0 ≤ r.value → r.failed = false → r.value = s.moved r.kind r.id

structure Fifo (s : Sys) : Prop extends Ordered s where
  fresh : ∀ kind id, s.nextId ≤ id → s.moved kind id = 0
  call : ∀ p c, s.calls p = some c →
    c.id < s.nextId ∧ s.moved c.kind c.id = c.i ∧ (c.kind = .read → c.i = 0)
  apart : ∀ p q c d, s.calls p = some c → s.calls q = some d → c.id = d.id → p = q
  ret : ∀ r ∈ s.returns, r.id < s.nextId ∧ (∀ p c, s.calls p = some c → c.id ≠ r.id) ∧ r.Exact s

structure Midway (s : Sys) (p : Nat) (c : Call) (m : Nat) : Prop extends Ordered s where
  fresh : ∀ kind id, s.nextId ≤ id → s.moved kind id = 0
  id : c.id < s.nextId
  count : s.moved c.kind c.id = m
  call : ∀ q d, q ≠ p → s.calls q = some d →
    d.id < s.nextId ∧ s.moved d.kind d.id = d.i ∧ (d.kind = .read → d.i = 0) ∧ d.id ≠ c.id
  apart : ∀ q r d e, q ≠ p → r ≠ p → s.calls q = some d → s.calls r = some e → d.id = e.id → q = r
  ret : ∀ r ∈ s.returns, r.id < s.nextId ∧ (∀ q d, q ≠ p → s.calls q = some d → d.id ≠ r.id) ∧
    r.id ≠ c.id ∧ r.Exact s

theorem Fifo.init (data : Nat → UInt8) : Fifo (.init data) where
  order := rfl
  holds pi h := by cases h; exact Ring.empty _ _ _
  fresh kind id _ := by cases kind <;> rfl
  call p c h := by cases h
  apart p q c d h := by cases h
  ret r h := by cases h

theorem Fifo.resume (h : Fifo s) (hp : s.calls p = some c) : Midway s p c c.i where
  __ := h
  id := (h.call p c hp).1
  count := (h.call p c hp).2.1
  call q d hq hd :=
    have hc := h.call q d hd
    ⟨hc.1, hc.2.1, hc.2.2, fun he => hq (h.apart q p d c hd hp he)⟩
  apart q r d e _ _ := h.apart q r d e
  ret r hr := ⟨(h.ret r hr).1, fun q d _ => (h.ret r hr).2.1 q d, ((h.ret r hr).2.1 p c hp).symm, (h.ret r hr).2.2⟩

theorem Fifo.start (h : Fifo s) {kind n} :
    Midway { s with nextId := s.nextId + 1 } p ⟨s.nextId, kind, n, 0⟩ 0 where
  toOrdered := ⟨h.order, h.holds⟩
  fresh kind id hid := h.fresh kind id (Nat.le_of_succ_le hid)
  id := Nat.lt_succ_self _
  count := h.fresh kind s.nextId le_rfl
  call q d _ hd :=
    have hc := h.call q d hd
    ⟨Nat.lt_succ_of_lt hc.1, hc.2.1, hc.2.2, Nat.ne_of_lt hc.1⟩
  apart q r d e _ _ := h.apart q r d e
  ret r hr :=
    have hr := h.ret r hr
    ⟨Nat.lt_succ_of_lt hr.1, fun q d _ => hr.2.1 q d, Nat.ne_of_lt hr.1, hr.2.2⟩

theorem Midway.move {m o pu ta} (h : Midway s p c c.i)
    (ho : Ordered { s with pipe := o, put := pu, taken := ta })
    (hself : Sys.moved { s with pipe := o, put := pu, taken := ta } c.kind c.id = c.i + m)
    (hother : ∀ kind id, id ≠ c.id →
      Sys.moved { s with pipe := o, put := pu, taken := ta } kind id = s.moved kind id) :
    Midway { s with pipe := o, put := pu, taken := ta } p c (c.i + m) where
  __ := h
  toOrdered := ho
  fresh kind id hid := by
    rw [hother kind id (Nat.ne_of_gt (Nat.lt_of_lt_of_le h.id hid))]
    exact h.fresh kind id hid
  count := hself
  call q d hq hd := by
    obtain ⟨h1, h2, h3, h4⟩ := h.call q d hq hd
    exact ⟨h1, by rw [hother d.kind d.id h4]; exact h2, h3, h4⟩
  ret r hr := by
    obtain ⟨h1, h2, h3, h4⟩ := h.ret r hr
    refine ⟨h1, h2, h3, fun hv hf => ?_⟩
    rw [hother r.kind r.id h3]
    exact h4 hv hf

theorem countP_tag (l : List (Nat × UInt8)) (bs : List UInt8) (a b : Nat) :
    (l ++ bs.map fun x => (a, x)).countP (·.1 = b) =
      l.countP (·.1 = b) + if a = b then bs.length else 0 := by
  rw [countP_append, countP_map]
  congr 1
  split
  · rename_i h
    rw [countP_eq_length.mpr]
    intro x _
    simpa using h
  · rename_i h
    rw [countP_eq_zero]
    intro x _
    simpa using h

theorem Midway.write (h : Midway s p c c.i) (hk : c.kind = .write) (hpi : s.pipe = some pi)
    (hw : pipewrite E pi c.n c.i = (pi', bs, x)) :
    Midway { s with pipe := some pi', put := s.put ++ bs.map fun b => (c.id, b) } p c (c.i + bs.length) := by
  obtain ⟨hholds, -⟩ := pipewriteLoop_spec (h.holds pi hpi) hw
  have hmap : (s.put ++ bs.map fun b => (c.id, b)).map Prod.snd = s.put.map Prod.snd ++ bs := by
    simp [Function.comp_def]
  refine h.move ⟨?_, ?_⟩ ?_ ?_
  · have hle : s.taken.length ≤ (s.put.map Prod.snd).length := (h.holds pi hpi).le
    simp only [hmap, take_append_of_le_length hle]
    exact h.order
  · intro pi1 hpi1
    cases hpi1
    simpa only [hmap] using hholds
  · have hc := h.count
    simp only [Sys.moved, hk] at hc ⊢
    rw [countP_tag, if_pos rfl, hc]
  · intro kind id hid
    cases kind with
    | write => simp only [Sys.moved, countP_tag, if_neg hid.symm, Nat.add_zero]
    | read => rfl

theorem Midway.read (h : Midway s p c c.i) (hk : c.kind = .read) (hpi : s.pipe = some pi)
    (hr : piperead E pi c.n = (pi', bs, x)) :
    Midway { s with pipe := some pi', taken := s.taken ++ bs.map fun b => (c.id, b) } p c
      (c.i + bs.length) := by
  obtain ⟨hholds, hbs, -⟩ := piperead_spec (h.holds pi hpi) hr
  refine h.move ⟨?_, ?_⟩ ?_ ?_
  · have hmap : (s.taken ++ bs.map fun b => (c.id, b)).map Prod.snd = s.taken.map Prod.snd ++ bs := by
      simp [Function.comp_def]
    simp only [hmap, h.order, length_append, length_map, take_add, ← hbs]
  · intro pi1 hpi1
    cases hpi1
    simpa only [length_append, length_map] using hholds
  · have hc := h.count
    simp only [Sys.moved, hk] at hc ⊢
    rw [countP_tag, if_pos rfl, hc]
  · intro kind id hid
    cases kind with
    | write => rfl
    | read => simp only [Sys.moved, countP_tag, if_neg hid.symm, Nat.add_zero]

theorem Midway.leave {m} (h : Midway s p c m)
    (hx : match x with
      | .sleep j => j = m ∧ (c.kind = .read → j = 0)
      | .ret v f => 0 ≤ v → f = false → v = m) : Fifo (s.leave p c x) := by
  cases x with
  | sleep j =>
    obtain ⟨rfl, hread⟩ := hx
    -- `p` のほかは前のままで、`p` は同じ番号の呼び出しを持つ。
    have hcalls : ∀ q d, (s.leave p c (.sleep j)).calls q = some d →
        (q = p ∧ d = { c with i := j }) ∨ (q ≠ p ∧ s.calls q = some d) := by
      intro q d hd
      by_cases hq : q = p
      · subst hq
        simp only [Sys.leave, update_self, Option.some.injEq] at hd
        exact .inl ⟨rfl, hd.symm⟩
      · simp only [Sys.leave, update_of_ne hq] at hd
        exact .inr ⟨hq, hd⟩
    constructor
    case toOrdered => exact ⟨h.order, h.holds⟩
    case fresh => exact h.fresh
    case call =>
      intro q d hd
      rcases hcalls q d hd with ⟨-, rfl⟩ | ⟨hq, hd⟩
      · exact ⟨h.id, h.count, hread⟩
      · have hc := h.call q d hq hd
        exact ⟨hc.1, hc.2.1, hc.2.2.1⟩
    case apart =>
      intro q r d e hd he hid
      rcases hcalls q d hd with ⟨hq, rfl⟩ | ⟨hq, hd⟩ <;> rcases hcalls r e he with ⟨hr, rfl⟩ | ⟨hr, he⟩
      · exact hq.trans hr.symm
      · exact absurd hid.symm (h.call r e hr he).2.2.2
      · exact absurd hid (h.call q d hq hd).2.2.2
      · exact h.apart q r d e hq hr hd he hid
    case ret =>
      intro r hr
      obtain ⟨h1, h2, h3, h4⟩ := h.ret r hr
      refine ⟨h1, fun q d hd => ?_, h4⟩
      rcases hcalls q d hd with ⟨-, rfl⟩ | ⟨hq, hd⟩
      · exact h3.symm
      · exact h2 q d hq hd
  | ret v f =>
    have hcalls : ∀ q d, (s.leave p c (.ret v f)).calls q = some d → q ≠ p ∧ s.calls q = some d := by
      intro q d hd
      by_cases hq : q = p
      · subst hq
        simp [Sys.leave] at hd
      · simp only [Sys.leave, update_of_ne hq] at hd
        exact ⟨hq, hd⟩
    constructor
    case toOrdered => exact ⟨h.order, h.holds⟩
    case fresh => exact h.fresh
    case call =>
      intro q d hd
      obtain ⟨hq, hd⟩ := hcalls q d hd
      have hc := h.call q d hq hd
      exact ⟨hc.1, hc.2.1, hc.2.2.1⟩
    case apart =>
      intro q r d e hd he
      obtain ⟨hq, hd⟩ := hcalls q d hd
      obtain ⟨hr, he⟩ := hcalls r e he
      exact h.apart q r d e hq hr hd he
    case ret =>
      intro r hr
      rcases mem_append.mp hr with hr | hr
      · obtain ⟨h1, h2, h3, h4⟩ := h.ret r hr
        exact ⟨h1, fun q d hd => h2 q d (hcalls q d hd).1 (hcalls q d hd).2, h4⟩
      · rw [mem_singleton.mp hr]
        refine ⟨h.id, fun q d hd => (h.call q d (hcalls q d hd).1 (hcalls q d hd).2).2.2.2, fun hv hf => ?_⟩
        rw [hx hv hf, ← h.count]
        rfl

theorem Midway.enter (h : Midway s p c c.i) (hread : c.kind = .read → c.i = 0) (hpi : s.pipe = some pi) :
    Fifo (s.enter E pi p c) := by
  unfold Sys.enter
  cases hk : c.kind with
  | write =>
    generalize hw : pipewrite E pi c.n c.i = r
    obtain ⟨pi', bs, x⟩ := r
    refine (h.write hk hpi hw).leave ?_
    have hx := (pipewriteLoop_spec (h.holds pi hpi) hw).2
    cases x with
    | sleep j => exact ⟨hx, by simp [hk]⟩
    | ret v f =>
      intro hv _
      simp only at hx
      omega
  | read =>
    generalize hr : piperead E pi c.n = r
    obtain ⟨pi', bs, x⟩ := r
    refine (h.read hk hpi hr).leave ?_
    have hx := (piperead_spec (h.holds pi hpi) hr).2.2
    rw [hread hk]
    cases x with
    | sleep j =>
      obtain ⟨rfl, rfl⟩ := hx
      exact ⟨rfl, fun _ => rfl⟩
    | ret v f =>
      intro hv hf
      rcases hx with hx | hx
      · omega
      · have := hx hf
        omega

theorem Fifo.step {e} (h : Fifo s) (hs : Sys.step s e = some (.ok t)) : Fifo t := by
  unfold Sys.step at hs
  cases hpi : s.pipe with
  | none => simp [hpi] at hs
  | some pi =>
    cases e with
    | call p kind n E =>
      cases hp : s.calls p with
      | some c => simp [hpi, hp] at hs
      | none =>
        simp only [hpi, hp, Option.some.injEq, Except.ok.injEq] at hs
        subst hs
        exact h.start.enter (fun _ => rfl) hpi
    | resume p E =>
      cases hp : s.calls p with
      | none => simp [hpi, hp] at hs
      | some c =>
        simp only [hpi, hp, Option.some.injEq, Except.ok.injEq] at hs
        subst hs
        exact (h.resume hp).enter (h.call p c hp).2.2 hpi
    | close w =>
      simp only [hpi, Option.some.injEq, Except.ok.injEq] at hs
      subst hs
      exact ⟨⟨h.order, fun pi' hpi' => (h.holds pi hpi).close hpi'⟩, h.fresh, h.call, h.apart, h.ret⟩

theorem Fifo.of_reaches {data} (h : Machine.Reaches Sys.step (.init data) s) : Fifo s :=
  h.inv Fifo (.init data) fun _ _ _ hu hv => hu.step hv

def Pipe.contents (pi : Pipe) : List UInt8 :=
  (List.range ((pi.nwrite + 2 ^ 32 - pi.nread) % 2 ^ 32)).map fun k => pi.data ((pi.nread + k) % pipesize)

def exampleEnv : Env := { killed := fun _ => false, copyin := fun i => some i.toUInt8, copyout := fun _ => true }

def exampleEvents : List Event := [.call 0 .write 3 exampleEnv, .call 1 .read 2 exampleEnv]

structure Pipe.Wide (pi : Pipe) : Prop where
  nread : pi.nread < 2 ^ 32
  nwrite : pi.nwrite < 2 ^ 32

/-- ユーザに渡したバイト。写しに失敗したバイトは渡っていない。 -/
def delivered (r : Pipe × List UInt8 × Exit) : List UInt8 :=
  match r.2.2 with
  | .ret v true => r.2.1.take v.toNat
  | _ => r.2.1

/-- 失敗して `i` を返したなら、渡したのは先頭の `i` バイトで、残りはすべてパイプにある。 -/
def LosesNothing (E : Env) (pi : Pipe) (n : Int) : Prop :=
  ∀ i : Nat, (piperead E pi n).2.2 = .ret i true →
    delivered (piperead E pi n) = pi.contents.take i ∧ (piperead E pi n).1.contents = pi.contents.drop i

section

variable (h : pi.Wide)
include h

theorem Pipe.Wide.contents_cons (hne : pi.nread ≠ pi.nwrite) :
    pi.contents = pi.data (pi.nread % pipesize) :: Pipe.contents { pi with nread := (pi.nread + 1) % 2 ^ 32 } := by
  have h1 := h.nread
  have h2 := h.nwrite
  have hcount : (pi.nwrite + 2 ^ 32 - pi.nread) % 2 ^ 32 =
      (pi.nwrite + 2 ^ 32 - (pi.nread + 1) % 2 ^ 32) % 2 ^ 32 + 1 := by omega
  unfold Pipe.contents
  rw [hcount, range_succ_eq_map, map_cons, map_map]
  refine congrArg₂ _ (by simp) (map_congr_left fun k _ => ?_)
  simp only [Function.comp_apply, pipesize]
  congr 1
  omega

theorem Pipe.Wide.pop : Pipe.Wide { pi with nread := (pi.nread + 1) % 2 ^ 32 } :=
  ⟨Nat.mod_lt _ (by decide), h.nwrite⟩

/-- `copyout` が初めて失敗したのが `j` バイト目なら、そのバイトまでがパイプから出ている。 -/
theorem pipereadLoop_failed {v} (hr : pipereadLoop E pi i k = (pi', bs, .ret v true)) :
    ∃ j : Nat, v = i + j ∧ j < k ∧ j < pi.contents.length ∧ E.copyout (i + j) = false ∧
      (∀ m < j, E.copyout (i + m) = true) ∧ bs = pi.contents.take (j + 1) ∧ pi'.contents = pi.contents.drop (j + 1) := by
  induction k generalizing pi i bs with
  | zero => cases hr
  | succ k ih =>
    simp only [pipereadLoop] at hr
    split at hr
    · cases hr
    rename_i hne
    have hcons := h.contents_cons hne
    split at hr
    · rename_i hcopy
      generalize hl : pipereadLoop E { pi with nread := (pi.nread + 1) % 2 ^ 32 } (i + 1) k = r at hr
      obtain ⟨pi1, bs1, x1⟩ := r
      cases hr
      obtain ⟨j, hv, hjk, hlt, hfail, hbefore, hbs, hrest⟩ := ih h.pop hl
      refine ⟨j + 1, by push_cast at hv ⊢; omega, Nat.succ_lt_succ hjk, ?_, ?_, ?_, ?_, ?_⟩
      · rw [hcons, length_cons]
        exact Nat.succ_lt_succ hlt
      · rwa [show i + (j + 1) = i + 1 + j by omega]
      · rintro (_ | m) hm
        · exact hcopy
        · rw [show i + (m + 1) = i + 1 + m by omega]
          exact hbefore m (Nat.lt_of_succ_lt_succ hm)
      · rw [hcons, take_succ_cons, ← hbs]
      · rw [hcons, drop_succ_cons, hrest]
    rename_i hcopy
    cases hr
    refine ⟨0, by simp, Nat.succ_pos _, ?_, by simpa using hcopy, by simp, ?_, ?_⟩
    · rw [hcons, length_cons]
      exact Nat.succ_pos _
    · rw [hcons, take_succ_cons, take_zero]
    · rw [hcons, drop_succ_cons, drop_zero]

/-- 失敗せずに戻ったなら、取り出したバイトの `copyout` はどれも成功している。 -/
theorem pipereadLoop_copied (hr : ∀ v, (pipereadLoop E pi i k).2.2 ≠ .ret v true) {j} (hj : j < k)
    (hlt : j < pi.contents.length) : E.copyout (i + j) = true := by
  induction k generalizing pi i j with
  | zero => exact absurd hj (Nat.not_lt_zero _)
  | succ k ih =>
    have hne : pi.nread ≠ pi.nwrite := fun he => by simp [Pipe.contents, he] at hlt
    rw [h.contents_cons hne, length_cons] at hlt
    simp only [pipereadLoop, if_neg hne] at hr
    split at hr
    · rename_i hcopy
      cases j with
      | zero => exact hcopy
      | succ j =>
        rw [show i + (j + 1) = i + 1 + j by omega]
        exact ih h.pop hr (Nat.lt_of_succ_lt_succ hj) (Nat.lt_of_succ_lt_succ hlt)
    · exact absurd rfl (hr i)

theorem piperead_failed {n v} (hr : piperead E pi n = (pi', bs, .ret v true)) :
    ∃ j : Nat, v = j ∧ j < n ∧ j < pi.contents.length ∧ E.copyout j = false ∧ (∀ m < j, E.copyout m = true) ∧
      bs = pi.contents.take (j + 1) ∧ pi'.contents = pi.contents.drop (j + 1) := by
  unfold piperead at hr
  split at hr
  · split at hr <;> cases hr
  · obtain ⟨j, hv, hjn, hlt, hfail, hbefore, hj⟩ := pipereadLoop_failed h hr
    simp only [Nat.zero_add] at hfail hbefore
    exact ⟨j, by simpa using hv, by omega, hlt, hfail, hbefore, hj⟩

theorem piperead_copied {n : Int} (hr : ∀ v, (piperead E pi n).2.2 ≠ .ret v true) {j : Nat} (hj : j < n)
    (hlt : j < pi.contents.length) : E.copyout j = true := by
  have hne : pi.nread ≠ pi.nwrite := fun he => by simp [Pipe.contents, he] at hlt
  rw [piperead, if_neg fun hc => hne hc.1] at hr
  simpa using pipereadLoop_copied h hr (j := j) (by omega) hlt

end

/-- `n` バイトまでの読み出しで、パイプにあるバイトのうち `copyout` が初めて失敗するのが `i` バイト目なら、`piperead` は先頭の `i` バイトを渡して
`i` を返し、`i` バイト目をパイプから失う。何も失わないのは、どの `copyout` も成功するときに限る。 -/
theorem piperead_loses_iff (E : Env) (pi : Pipe) (n : Int) (h : pi.Wide) :
    (LosesNothing E pi n ↔ ∀ i : Nat, i < n → i < pi.contents.length → E.copyout i = true) ∧
      ∀ i : Nat, i < n → i < pi.contents.length → E.copyout i = false → (∀ j < i, E.copyout j = true) →
        (piperead E pi n).2.2 = .ret i true ∧ delivered (piperead E pi n) = pi.contents.take i ∧
          (piperead E pi n).1.contents = pi.contents.drop (i + 1) := by
  have hcopied := piperead_copied (E := E) (n := n) h
  generalize hr : piperead E pi n = r at hcopied
  obtain ⟨pi', bs, x⟩ := r
  have hfail : ∀ v, x = .ret v true → ∃ j : Nat, v = j ∧ j < n ∧ j < pi.contents.length ∧ E.copyout j = false ∧
      (∀ m < j, E.copyout m = true) ∧ delivered (pi', bs, x) = pi.contents.take j ∧
        pi'.contents = pi.contents.drop (j + 1) := by
    rintro v rfl
    obtain ⟨j, rfl, hn, hlt, hcopy, hbefore, rfl, hrest⟩ := piperead_failed h hr
    refine ⟨j, rfl, hn, hlt, hcopy, hbefore, ?_, hrest⟩
    simp only [delivered, Int.toNat_natCast, take_take]
    congr 1
    omega
  refine ⟨⟨fun hnone i hn hlt => hcopied (fun v hx => ?_) hn hlt, fun hall i hx => ?_⟩, fun i hn hlt hcopy hbefore => ?_⟩
  · -- 残りの長さが一つ短いので、失ったバイトがある。
    obtain ⟨j, rfl, -, hlt, -, -, -, hrest⟩ := hfail v hx
    have hkeep := (hnone j (by rw [hr]; exact hx)).2
    rw [hr, hrest] at hkeep
    have := congrArg List.length hkeep
    simp only [length_drop] at this
    omega
  · rw [hr] at hx
    obtain ⟨j, -, hn, hlt, hcopy, -⟩ := hfail i hx
    rw [hall j hn hlt] at hcopy
    cases hcopy
  obtain ⟨v, hx⟩ : ∃ v, x = .ret v true := by
    by_contra hnone
    rw [hcopied (fun v hx => hnone ⟨v, hx⟩) hn hlt] at hcopy
    cases hcopy
  obtain ⟨j, rfl, -, -, hcopy', hbefore', hd, hrest⟩ := hfail v hx
  -- 初めて失敗するバイトは一つである。
  obtain rfl : i = j := by
    rcases Nat.lt_trichotomy i j with hlt | heq | hlt
    · rw [hbefore' i hlt] at hcopy
      cases hcopy
    · exact heq
    · rw [hbefore j hlt] at hcopy'
      cases hcopy'
  exact ⟨hx, hd, hrest⟩

def examplePipe : Pipe := { data := fun k => (k + 1).toUInt8, nread := 0, nwrite := 2, readopen := true, writeopen := true }

theorem piperead_loses_iff_delivered : (piperead exampleEnv examplePipe 2).2.2 = .ret 2 false ∧
    LosesNothing exampleEnv examplePipe 2 :=
  ⟨rfl, (piperead_loses_iff exampleEnv examplePipe 2 ⟨by decide, by decide⟩).1.mpr fun _ _ _ => rfl⟩

theorem piperead_loses_first :
    let E : Env := { exampleEnv with copyout := fun _ => false }
    examplePipe.contents = [1, 2] ∧ (piperead E examplePipe 2).2.2 = .ret 0 true ∧
      delivered (piperead E examplePipe 2) = [] ∧ (piperead E examplePipe 2).1.contents = [2] ∧
      ¬LosesNothing E examplePipe 2 := by
  intro E
  have hrest : (piperead E examplePipe 2).1.contents = [2] := by decide +kernel
  refine ⟨by decide +kernel, rfl, by decide +kernel, hrest, fun h => ?_⟩
  have := (h 0 rfl).2
  rw [hrest] at this
  exact absurd this (by decide +kernel)

end Xv6.Ipc
