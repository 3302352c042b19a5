import Xv6.Umalloc.Theorems
import Xv6.Vm.Theorems

/-!
# `malloc` とプロセスの大きさ
-/

namespace Xv6.Umalloc

open Xv6.Lib

def toInt32 (n : Nat) : Int := if n % 2 ^ 32 < 2 ^ 31 then (n % 2 ^ 32 : Nat) else (n % 2 ^ 32 : Nat) - 2 ^ 32

/-- `sys_sbrk(n)` の返す番地と、その後の大きさ。`mem` は、伸ばすページが足りるかどうかである。 -/
def sysSbrk (brk : Nat) (n : Int) (mem : Bool) : Option Nat × Nat :=
  if n > 0 then if mem then (some brk, brk + n.toNat) else (none, brk)
  else if n < 0 then (some brk, min brk ((brk + n) % 2 ^ 64).toNat)
  else (some brk, brk)

/-- 到達できるどの状態でも、`sysSbrk` は、カーネルの `sys_sbrk` の返す値とプロセスの大きさに一致する。ページが足りないのは、その間の `kalloc` が
失敗するときである。 -/
theorem sbrk_sysSbrk {L : Vm.Layout} {s : Vm.Kernel} {p : Fin Vm.nproc} (h : Vm.Reachable L s)
    (hs : (s.proc p).state ≠ .unused) (n : Int) :
    ∃ r s', Vm.sbrk L p n s = .ok (r, s') ∧ sysSbrk (s.proc p).sz n (s'.k.failed = s.k.failed) =
      (if r = -1 then none else some r.toNat, (s'.proc p).sz) := by
  obtain ⟨role, as, own, hi⟩ := h.inv
  obtain ⟨o, ho⟩ := hi.some_of_runnable hs
  have hsz := (hi.of_some ho).2.2.2
  have hneg : ∀ m : Nat, ¬((m : Int) = -1) := fun m => by omega
  refine wp_exists ?_
  simp only [Vm.sbrk, wp_bind, wp_get]
  refine wp_post (Vm.growproc_step hi ho n) ?_
  rintro res s' ⟨role', hstep⟩
  cases hstep with
  | failed hn _ _ _ hf => simp [sysSbrk, hn, Nat.ne_of_gt hf]
  | grown hn hg => simp [sysSbrk, hn, Vm.Kernel.setProc, hsz, hneg, hg.failed]
  | shrunk hn hnew =>
    have hle : ¬0 < n := by omega
    simp [sysSbrk, hn, hle, Vm.Kernel.setProc, hsz, hneg, ← hnew]
  | same hn => simp [sysSbrk, hn, hneg]

/-- 空きページの足りない `sbrk(8192)` は -1 を返し、大きさを変えない。 -/
theorem sbrk_sysSbrk_short : ∃ s s', Vm.Reachable Vm.exampleLayout s ∧
    Vm.sbrk Vm.exampleLayout Vm.exampleProc 8192 s = .ok (-1, s') ∧ s'.k.failed ≠ s.k.failed ∧
    (s'.proc Vm.exampleProc).sz = 4096 := by
  obtain ⟨s, hr, hc⟩ := Vm.example_exists (n := 8) (by decide) (by decide) []
    (fun s => decide ((s.proc Vm.exampleProc).sz = 4096 ∧ (s.proc Vm.exampleProc).state ≠ .unused ∧
      (Vm.sbrk Vm.exampleLayout Vm.exampleProc 8192 s).toOption.map (·.1) = some (-1))) (by decide +kernel)
  obtain ⟨hsz, hs, hres⟩ := of_decide_eq_true hc
  obtain ⟨r, s', hok, hpost⟩ := sbrk_sysSbrk hr hs 8192
  rw [hok] at hres
  obtain rfl : r = -1 := by simpa [Except.toOption] using hres
  rw [hsz, if_pos rfl] at hpost
  by_cases hf : s'.k.failed = s.k.failed
  · simp [sysSbrk, hf] at hpost
  · exact ⟨s, s', hr, hok, hf, by simpa [sysSbrk, hf] using hpost.symm⟩

structure Process where
  heap : Heap
  brk : Nat

/-- `fault` は、写像のない番地に書いたプロセスが殺されることである。 -/
inductive Outcome
  | ret (p : Option Nat)
  | fault
  deriving DecidableEq, Repr

/-- `morecore`。`nu * sizeof(Header)` は `sbrk` の `int` の引数になる。`hp->s.size` は `p + 8` からの 4 バイトで、そこまでの写像があれば、
ほかのヘッダにもある。 -/
def morecoreSys (x : Process) (nu : Nat) (mem : Nat → Bool) (fuel : Nat) : Option (Outcome × Process) :=
  match sysSbrk x.brk (toInt32 (hdr * coreUnits nu)) (mem x.brk) with
  | (none, brk) => some (.ret none, { x with brk })
  | (some p, brk) =>
    if Vm.pgroundup brk < p + 12 then some (.fault, { x with brk })
    else
      match free ({ x.heap with
          top := p + hdr * coreUnits nu
          chunks := (p, coreUnits nu) :: x.heap.chunks }.setSize p (coreUnits nu)) (p + hdr) fuel with
      | none => none
      | some heap => some (.ret (some heap.freep), ⟨heap, brk⟩)

def mallocLoopSys (nunits : Nat) (mem : Nat → Bool) (n : Nat) (x : Process) (prevp p : Nat) : Nat → Option
    (Outcome × Process)
  | 0 => none
  | fuel + 1 =>
    if x.heap.size p ≥ nunits then
      some (.ret (some (x.heap.take prevp p nunits).1), { x with heap := (x.heap.take prevp p nunits).2 })
    else if p = x.heap.freep then
      match morecoreSys x nunits mem n with
      | some (.ret (some p), x) => mallocLoopSys nunits mem n x p (x.heap.ptr p) fuel
      | r => r
    else mallocLoopSys nunits mem n x p (x.heap.ptr p) fuel

def mallocSys (base : Nat) (x : Process) (nbytes : Nat) (mem : Nat → Bool) (fuel : Nat) : Option (Outcome × Process) :=
  let heap := x.heap.prepare base
  mallocLoopSys (nunits nbytes) mem fuel { x with heap } heap.freep (heap.ptr heap.freep) fuel

/-! ## 大きさを持たない `malloc` との対応 -/

variable {base : Nat} {h h' : Heap} {L : List Nat} {n N k pv p q brk brk' : Nat} {os : Nat → Option Nat} {mem : Nat → Bool}

theorem free_top {ap} (hk : free h ap k = some h') : h'.top = h.top := by
  unfold free at hk
  cases hs : searchFree h (ap - hdr) h.freep k with
  | none => simp [hs] at hk
  | some p =>
    simp only [hs, Option.some.injEq] at hk
    subst hk
    unfold Heap.joinPrev Heap.joinNext
    split <;> split <;> rfl

theorem take_top {x} : (h.take pv x n).2.top = h.top := by
  unfold Heap.take
  split <;> rfl

theorem morecore_refused (hos : os h.top = none) : morecore h n os N = some (none, h) := by simp [morecore, sbrk, hos]

/-- `sbrk` を呼ばずに見つかったなら、プロセスの `malloc` も同じブロックを返す。 -/
theorem mallocLoopSys_found (mem : Nat → Bool) (brk : Nat) (hos : os h.top = none)
    (hk : mallocLoop n os N h pv p k = some (some q, h')) :
    mallocLoopSys n mem N ⟨h, brk⟩ pv p k = some (.ret (some q), ⟨h', brk⟩) ∧ h'.top = h.top ∧
      ∃ j, n ≤ h.size (h.ptr^[j] p) := by
  induction k generalizing pv p with
  | zero => cases hk
  | succ k ih =>
    simp only [mallocLoop, mallocLoopSys, morecore_refused hos] at hk ⊢
    split at hk
    · rename_i hfit
      obtain ⟨rfl, rfl⟩ : (h.take pv p n).1 = q ∧ (h.take pv p n).2 = h' := by simpa [Prod.map] using hk
      exact ⟨by rw [if_pos hfit], take_top, 0, hfit⟩
    rename_i hfit
    split at hk
    · cases hk
    · rename_i hp
      obtain ⟨hrun, htop, j, hj⟩ := ih hk
      exact ⟨by rw [if_neg hfit, if_neg hp, hrun], htop, j + 1, hj⟩

def refillSys (n : Nat) (mem : Nat → Bool) (N : Nat) (x : Process) (k : Nat) : Option (Outcome × Process) :=
  match morecoreSys x n mem N with
  | some (.ret (some p), x) => mallocLoopSys n mem N x p (x.heap.ptr p) k
  | r => r

theorem mallocLoopSys_missed (mem : Nat → Bool) (brk : Nat) (hos : os h.top = none)
    (hk : mallocLoop n os N h pv p k = some (none, h')) :
    ∃ j, ∀ M i, mallocLoopSys n mem M ⟨h, brk⟩ pv p (i + j) = refillSys n mem M ⟨h, brk⟩ i := by
  induction k generalizing pv p with
  | zero => cases hk
  | succ k ih =>
    simp only [mallocLoop, morecore_refused hos] at hk
    split at hk
    · cases hk
    rename_i hfit
    split at hk
    · rename_i hp
      refine ⟨1, fun M i => ?_⟩
      simp only [mallocLoopSys, if_neg hfit, if_pos hp]
      rfl
    · rename_i hp
      obtain ⟨j, hj⟩ := ih hk
      refine ⟨j + 1, fun M i => ?_⟩
      rw [← Nat.add_assoc, mallocLoopSys, if_neg hfit, if_neg hp, hj]

/-- 大きさが `brk` のときの、`top` までを使ったヒープへの `sbrk` の答え。 -/
def sbrkAt (top brk a : Nat) : Option Nat := if a = top then some (brk - top) else none

theorem sbrkAt_self (top brk : Nat) : sbrkAt top brk top = some (brk - top) := if_pos rfl

/-- `sbrk` が返した領域を加えるなら、ヒープは大きさを持たない `malloc` と同じに変わる。 -/
theorem refillSys_of_refill (htop : h.top ≤ brk) (hs : sysSbrk brk (toInt32 (hdr * coreUnits n)) (mem brk) = (some brk, brk'))
    (hst : ¬Vm.pgroundup brk' < brk + 12)
    (hk : refill n (sbrkAt h.top brk) N h k = some (some q, h')) :
    refillSys n mem N ⟨h, brk⟩ k = some (.ret (some q), ⟨h', brk'⟩) ∧ h'.top = brk + hdr * coreUnits n := by
  have hpos : 0 < hdr * coreUnits n := by
    simp only [coreUnits, hdr]
    split <;> omega
  simp only [refill, morecore, sbrk, sbrkAt_self, Option.map_some, Nat.add_sub_cancel' htop] at hk
  simp only [refillSys, morecoreSys, hs, if_neg hst]
  cases hf : free ({ h with
      top := brk + hdr * coreUnits n
      chunks := (brk, coreUnits n) :: h.chunks }.setSize brk (coreUnits n)) (brk + hdr) N with
  | none => simp [hf] at hk
  | some h2 =>
    have htop2 : h2.top = brk + hdr * coreUnits n := free_top hf
    simp only [hf] at hk ⊢
    obtain ⟨hrun, htop', -⟩ := mallocLoopSys_found mem brk' (if_neg (by omega)) hk
    exact ⟨hrun, htop'.trans htop2⟩

/-! ## 返した領域 -/

theorem chunks_le_top {cs : List (Nat × Nat)} (hcs : cs.Pairwise fun c d => d.1 + hdr * d.2 ≤ c.1) :
    ∀ {top : Nat}, (∀ c ∈ cs, c.1 + hdr * c.2 ≤ top) → hdr * (cs.map Prod.snd).sum ≤ top := by
  induction cs with
  | nil =>
    intro top _
    exact Nat.zero_le _
  | cons c cs ih =>
    intro top htop
    obtain ⟨h1, h2⟩ := List.pairwise_cons.mp hcs
    have hrest := ih h2 h1
    have hc := htop c List.mem_cons_self
    rw [List.map_cons, List.sum_cons, Nat.mul_add]
    omega

theorem Holds.units_le_top {W : List Nat} (t : Holds base h L W) : hdr * h.units ≤ h.top :=
  chunks_le_top t.apart t.high

theorem Tiled.live_disjoint {W a b} (t : Tiled base h L (b :: W)) (ha : a ∈ W) :
    b + hdr * h.size b ≤ a ∨ a + hdr * h.size a ≤ b := by
  by_contra hc
  have hpa := t.posW a (List.mem_cons_of_mem b ha)
  have hpb := t.posW b List.mem_cons_self
  -- 後から始まる方の先頭は、二つのブロックに含まれる。
  have hboth : inside (max a b) b (h.size b) = 1 ∧ inside (max a b) a (h.size a) = 1 := by
    refine ⟨if_pos ?_, if_pos ?_⟩ <;> simp only [hdr] at hc ⊢ <;> omega
  have hcover := t.cover_le (max a b)
  rw [total_cons, hboth.1] at hcover
  have hle := le_total (f := inside (max a b)) (g := h.size) ha
  simp only [hboth.2] at hle
  omega

/-- 大きさは減らず、返した領域はその下にあって、使用中のブロックと重ならない。 -/
structure Kept (base : Nat) (x : Process) (nbytes : Nat) (r : Outcome) (x' : Process) : Prop where
  inv : Inv base x'.heap
  top : x'.heap.top ≤ x'.brk
  grows : x.brk ≤ x'.brk
  below : ∀ q, r = .ret (some q) → q + nbytes ≤ x'.brk
  apart : ∀ q, r = .ret (some q) → ∀ b ∈ x.heap.live, q + nbytes ≤ b ∨ b + hdr * x.heap.size b ≤ q

theorem Allocated.kept (hn : n < 2 ^ 32) (ha : Allocated base (nunits n) h (some q, h'))
    (hsize : ∀ b ∈ h.live, h'.size b = h.size b) (htop : h'.top ≤ brk') (hle : brk ≤ brk') :
    Kept base ⟨h, brk⟩ n (.ret (some q)) ⟨h', brk'⟩ := by
  obtain _ | @⟨b, _, L', t', hl, hsz⟩ := ha
  have hroom := le_nunits hn
  have hend : b + hdr * nunits n ≤ h'.top := by
    have hlast := (t'.toTiled.chunk_of_cover (x := b + hdr * nunits n - 1) ?_).2
    · simp only [hdr] at hlast hroom ⊢
      omega
    · rw [total_cons, hsz, inside, if_pos (by simp only [hdr] at hroom ⊢; omega)]
      omega
  refine ⟨.inr ⟨L', hl ▸ t'⟩, htop, hle, ?_, ?_⟩
  · rintro _ ⟨⟩
    change b + hdr + n ≤ brk'
    omega
  · rintro _ ⟨⟩ a hlive
    have hdis := t'.toTiled.live_disjoint hlive
    rw [hsz, hsize a hlive] at hdis
    change b + hdr + n ≤ a ∨ a + hdr * h.size a ≤ b + hdr
    omega

/-- `sbrk(i)` が断るか、大きさを変えない `sbrk(i)` の後でヘッダの書き込みが例外になる。 -/
def Harmless (brk : Nat) (i : Int) (mem : Bool) : Prop :=
  0 < i ∧ mem = false ∨ (i = 0 ∨ (brk : Int) + i < 0) ∧ Vm.pgroundup brk < brk + 12

theorem le_pgroundup (a : Nat) : a ≤ Vm.pgroundup a := by
  simp only [Vm.pgroundup, Vm.pgsize]
  omega

theorem sysSbrk_none {i m} (hs : sysSbrk brk i m = (none, brk')) : 0 < i ∧ m = false ∧ brk' = brk := by
  simp only [sysSbrk] at hs
  split_ifs at hs with hpos hm <;> simp only [Prod.mk.injEq, reduceCtorEq, true_and, false_and] at hs
  exact ⟨hpos, by simpa using hm, hs.symm⟩

theorem sysSbrk_some {i m a} (hs : sysSbrk brk i m = (some a, brk')) :
    a = brk ∧ (0 < i ∧ m = true ∧ brk' = brk + i.toNat ∨ i < 0 ∧ brk' = min brk ((brk + i) % 2 ^ 64).toNat ∨
      i = 0 ∧ brk' = brk) := by
  simp only [sysSbrk] at hs
  split_ifs at hs with hpos hm hneg <;> simp only [Prod.mk.injEq, Option.some.injEq, reduceCtorEq, false_and] at hs
  · exact ⟨hs.1.symm, .inl ⟨hpos, hm, hs.2.symm⟩⟩
  · exact ⟨hs.1.symm, .inr (.inl ⟨hneg, hs.2.symm⟩)⟩
  · exact ⟨hs.1.symm, .inr (.inr ⟨by omega, hs.2.symm⟩)⟩

theorem sysSbrk_fair {a} (hn : Fair n) (hs : sysSbrk brk (toInt32 (hdr * coreUnits (nunits n))) (mem brk) = (some a, brk')) :
    brk' = brk + hdr * coreUnits (nunits n) ∧ brk + 12 ≤ Vm.pgroundup brk' := by
  have hlt : hdr * coreUnits (nunits n) < 2 ^ 31 ∧ 16 ≤ hdr * coreUnits (nunits n) := by
    have := hn.2
    simp only [coreUnits, hdr] at this ⊢
    split <;> omega
  have hint : toInt32 (hdr * coreUnits (nunits n)) = (hdr * coreUnits (nunits n) : Nat) := by
    rw [toInt32, Nat.mod_eq_of_lt (by omega), if_pos hlt.1]
  have hcases := (sysSbrk_some hs).2
  have := le_pgroundup brk'
  omega

/-- 引数に収まらない要求の `sbrk` は、大きさを高々ヘッダ一つ分しか増やさない。 -/
theorem sysSbrk_unfair {a} (hn : n < 2 ^ 32) (hfair : ¬Fair n) (hbrk : brk < 2 ^ 30)
    (hs : sysSbrk brk (toInt32 (hdr * coreUnits (nunits n))) (mem brk) = (some a, brk')) :
    brk' < n ∧ (Harmless brk (toInt32 (hdr * coreUnits (nunits n))) (mem brk) ↔
      brk ≤ brk' ∧ Vm.pgroundup brk' < brk + 12) := by
  have hu : nunits n = (n + 15) / 16 + 1 := by
    simp only [nunits, hdr]
    omega
  have hbig : 2 ^ 31 ≤ hdr * nunits n := Nat.not_lt.mp fun hlt => hfair ⟨hn, hlt⟩
  have hint : toInt32 (hdr * coreUnits (nunits n)) = (16 * nunits n : Nat) - 2 ^ 32 := by
    simp only [hdr] at hbig
    rw [coreUnits, if_neg (by omega), toInt32]
    simp only [hdr]
    split_ifs <;> omega
  simp only [hdr] at hbig
  obtain ⟨rfl, ⟨hpos, hm, rfl⟩ | ⟨hneg, hbrk'⟩ | ⟨h0, rfl⟩⟩ := sysSbrk_some hs
  · refine ⟨by omega, iff_of_false ?_ fun hc => ?_⟩
    · rintro (⟨-, hm'⟩ | ⟨h0, -⟩)
      · rw [hm] at hm'
        cases hm'
      · omega
    · have := le_pgroundup (a + (toInt32 (hdr * coreUnits (nunits n))).toNat)
      omega
  · refine ⟨by omega, ⟨?_, fun hc => ?_⟩⟩
    · rintro (⟨hpos, -⟩ | ⟨hstay, hst⟩)
      · omega
      · obtain rfl : brk' = a := by omega
        exact ⟨le_rfl, hst⟩
    · obtain rfl : brk' = a := by omega
      exact .inr ⟨by omega, hc.2⟩
  · refine ⟨by omega, ⟨?_, fun hc => .inr ⟨.inl h0, hc.2⟩⟩⟩
    rintro (⟨hpos, -⟩ | ⟨-, hst⟩)
    · omega
    · exact ⟨le_rfl, hst⟩

theorem mallocLoopSys_kept_iff (hb : 0 < base) (t : Holds base h L h.live) (htop : h.top ≤ brk) (hbrk : brk < 2 ^ 30)
    (hn : n < 2 ^ 32) (mem : Nat → Bool) :
    ∃ K r x', (∀ k, K ≤ k → mallocLoopSys (nunits n) mem k ⟨h, brk⟩ h.freep (h.ptr h.freep) k = some (r, x')) ∧
      (Kept base ⟨h, brk⟩ n r x' ↔
        Fair n ∨ h.Serves (nunits n) ∨ Harmless brk (toInt32 (hdr * coreUnits (nunits n))) (mem brk)) := by
  have hpos := nunits_pos hn
  have hcap : h.units + coreUnits (nunits n) < 2 ^ 32 := by
    have h1 := t.units_le_top
    have h2 : nunits n ≤ 2 ^ 28 + 1 := by
      simp only [nunits, hdr]
      omega
    simp only [hdr] at h1
    unfold coreUnits
    split <;> omega
  obtain ⟨pv, x, hpv, hx, hxL, hfit, hrun⟩ | ⟨hsmall, hrun⟩ := mallocLoop_round (nunits n) (fun _ => none) t
  · -- 空きリストから取れる。
    obtain ⟨b, L', hq, t', hl, -, hsz, hkeep⟩ := take_spec t hpv hx hxL hpos hfit
    have hfound := fun k hk => mallocLoopSys_found (q := (h.take pv x (nunits n)).1) mem brk rfl (hrun k k hk)
    obtain ⟨-, htop', j, hj⟩ := hfound _ le_rfl
    refine ⟨L.length, _, _, fun k hk => (hfound k hk).1, iff_of_true ?_ (.inr (.inl ⟨t.freep_ne hb, j + 1, hj⟩))⟩
    refine Allocated.kept hn ?_ hkeep (htop'.trans_le htop) le_rfl
    rw [hq]
    exact .block t' hl hsz
  -- `sbrk` を呼ぶ。
  obtain ⟨j, hj⟩ := mallocLoopSys_missed mem brk rfl ((hrun 0 0).trans (by rw [refill, morecore_refused rfl]))
  have hend : ∀ {K r x'}, (∀ k, K ≤ k → refillSys (nunits n) mem (k + j) ⟨h, brk⟩ k = some (r, x')) → ∀ k, K + j ≤ k →
      mallocLoopSys (nunits n) mem k ⟨h, brk⟩ h.freep (h.ptr h.freep) k = some (r, x') := by
    intro K r x' hr k hk
    obtain ⟨k, rfl⟩ : ∃ d, k = d + j := ⟨k - j, by omega⟩
    rw [hj, hr k (by omega)]
  have hserve : ¬h.Serves (nunits n) := by
    rintro ⟨-, i, hle⟩
    exact absurd (hsmall _ (t.iterate_mem i)) (Nat.not_lt.mpr hle)
  obtain ⟨o, brk', hs⟩ : ∃ o brk', sysSbrk brk (toInt32 (hdr * coreUnits (nunits n))) (mem brk) = (o, brk') := ⟨_, _, rfl⟩
  cases o with
  | none =>
    obtain ⟨hi, hm, rfl⟩ := sysSbrk_none hs
    refine ⟨_, .ret none, ⟨h, brk'⟩, hend (K := 0) fun k _ => ?_, iff_of_true ?_ (.inr (.inr (.inl ⟨hi, hm⟩)))⟩
    · rw [refillSys, morecoreSys, hs]
    · exact ⟨.inr ⟨L, t⟩, htop, le_rfl, by simp, by simp⟩
  | some a =>
    obtain rfl := (sysSbrk_some hs).1
    rw [or_iff_right hserve]
    by_cases hst : Vm.pgroundup brk' < a + 12
    · have hfair : ¬Fair n := fun hfair => absurd (sysSbrk_fair hfair hs).2 (Nat.not_le.mpr hst)
      refine ⟨_, .fault, ⟨h, brk'⟩, hend (K := 0) fun k _ => ?_, ?_⟩
      · rw [refillSys, morecoreSys, hs]
        simp only [if_pos hst]
      · rw [or_iff_right hfair, (sysSbrk_unfair hn hfair hbrk hs).2]
        exact ⟨fun hk => ⟨hk.grows, hst⟩, fun hc => ⟨.inr ⟨L, t⟩, htop.trans hc.1, hc.1, by simp, by simp⟩⟩
    obtain ⟨b, h', L', K, hrefill, t', hl, hsz, hkeep⟩ :=
      refill_spec t (sbrkAt_self h.top a) hpos hcap
    have hgrown := fun k hk => refillSys_of_refill htop hs hst (hrefill (k + j) k (by omega) hk)
    refine ⟨_, _, ⟨h', brk'⟩, hend (K := K) fun k hk => (hgrown k hk).1, ?_⟩
    obtain ⟨-, htop'⟩ := hgrown K le_rfl
    by_cases hfair : Fair n
    · obtain ⟨rfl, -⟩ := sysSbrk_fair hfair hs
      exact iff_of_true (Allocated.kept hn (.block t' hl hsz) hkeep htop'.le (Nat.le_add_right _ _)) (.inl hfair)
    · obtain ⟨hlt, hharm⟩ := sysSbrk_unfair hn hfair hbrk hs
      rw [or_iff_right hfair, hharm]
      refine iff_of_false (fun hk => ?_) fun hc => hst hc.2
      have : b + hdr + n ≤ brk' := hk.below _ rfl
      omega

/-- `malloc` の返す領域がプロセスの大きさの下にあって使用中のブロックと重ならず、大きさも減らないのは、要求が `sbrk` の `int` の引数に収まるか、
空きリストから取れるか、`sbrk` で得た領域を使わずに終わるときに限る。 -/
theorem malloc_below_break_iff (hb : 0 < base) (hinv : Inv base h) (htop : h.top ≤ brk) (hbrk : brk < 2 ^ 30) (hn : n < 2 ^ 32)
    (mem : Nat → Bool) :
    ∃ K r x', (∀ k, K ≤ k → mallocSys base ⟨h, brk⟩ n mem k = some (r, x')) ∧ (Kept base ⟨h, brk⟩ n r x' ↔
      Fair n ∨ h.Serves (nunits n) ∨ Harmless brk (toInt32 (hdr * coreUnits (nunits n))) (mem brk)) := by
  obtain ⟨L, t, hlive, -, htop'⟩ := hinv.prepare hb
  obtain ⟨K, r, x', hrun, hiff⟩ := mallocLoopSys_kept_iff hb t (htop'.trans_le htop) hbrk hn mem
  rw [prepare_serves (nunits_pos hn)] at hiff
  refine ⟨K, r, x', hrun, Iff.trans ?_ hiff⟩
  have hsize : ∀ b ∈ h.live, (h.prepare base).size b = h.size b := by
    intro b hlb
    unfold Heap.prepare
    split
    · rename_i h0
      obtain hf | ⟨L', t'⟩ := hinv
      · rw [hf.live] at hlb
        cases hlb
      · exact absurd h0 (t'.freep_ne hb)
    · rfl
  refine ⟨fun hk => { hk with apart := fun q hq b hlb => ?_ }, fun hk => { hk with apart := fun q hq b hlb => ?_ }⟩
  · change b ∈ (h.prepare base).live at hlb
    rw [hlive] at hlb
    change _ ∨ b + hdr * (h.prepare base).size b ≤ q
    rw [hsize b hlb]
    exact hk.apart q hq b hlb
  · have := hk.apart q hq b (hlive.symm ▸ hlb)
    change _ ∨ b + hdr * (h.prepare base).size b ≤ q at this
    rwa [hsize b hlb] at this

theorem malloc_below_break_iff_first : ∃ K r x', (∀ k, K ≤ k →
    mallocSys lowBoot.base ⟨lowBoot.heap, 4096⟩ 100 (fun _ => true) k = some (r, x')) ∧
    Kept lowBoot.base ⟨lowBoot.heap, 4096⟩ 100 r x' := by
  obtain ⟨K, r, x', hrun, hiff⟩ := malloc_below_break_iff (h := lowBoot.heap) (n := 100) lowBoot.pos
    (.inl ⟨rfl, rfl, rfl, lowBoot.inside⟩) (show _ ≤ 4096 by decide) (by decide) (by decide) fun _ => true
  exact ⟨K, r, x', hrun, hiff.mpr (.inl (by decide))⟩

/-- 大きさ 4112 での `malloc(2^32 - 16)` では `sbrk` の引数が 0 になり、大きさの外の番地が返る。大きさ 4176 での `malloc(2^32 - 64)` では引数が負に
なり、`malloc` が大きさを減らす。 -/
theorem malloc_past_break :
    (∃ q x', mallocSys lowBoot.base ⟨lowBoot.heap, 4112⟩ (2 ^ 32 - 16) (fun _ => true) 8 = some (.ret (some q), x') ∧
      x'.brk < q) ∧
    ∃ q x', mallocSys lowBoot.base ⟨lowBoot.heap, 4176⟩ (2 ^ 32 - 64) (fun _ => true) 8 = some (.ret (some q), x') ∧
      x'.brk < 4176 := by
  have key : ∀ brk m q c,
      (mallocSys lowBoot.base ⟨lowBoot.heap, brk⟩ m (fun _ => true) 8).map (fun r => (r.1, r.2.brk)) =
        some (.ret (some q), c) →
      ∃ x', mallocSys lowBoot.base ⟨lowBoot.heap, brk⟩ m (fun _ => true) 8 = some (.ret (some q), x') ∧ x'.brk = c := by
    intro brk m q c hrun
    obtain ⟨r, hr, he⟩ := Option.map_eq_some_iff.mp hrun
    simp only [Prod.mk.injEq] at he
    exact ⟨r.2, by rw [hr, ← he.1], he.2⟩
  obtain ⟨x1, h1, hb1⟩ := key 4112 (2 ^ 32 - 16) 4128 4112 (by decide +kernel)
  obtain ⟨x2, h2, hb2⟩ := key 4176 (2 ^ 32 - 64) 4192 4128 (by decide +kernel)
  exact ⟨⟨_, x1, h1, by omega⟩, _, x2, h2, by omega⟩

end Xv6.Umalloc
