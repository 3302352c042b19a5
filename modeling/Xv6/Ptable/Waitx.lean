import Xv6.Ptable.Calls
import Mathlib.Tactic.IntervalCases

/-!
# `sys_waitx`

`kernel/proc.c` の `waitx` と、その結果をユーザに写す `kernel/sysproc.c` の `sys_waitx` を定める。`sys_waitx` の局所変数
`wtime` と `rtime` は初期化されず、`waitx` が書かずに戻ることがある。
-/

namespace Xv6.Ptable

open Xv6.Vm (ProcState nproc)
open Xv6.Lib

/-! ## 定義 -/

/-- `ok a n` は番地 `a` からの `n` バイトに写せること、`moved a n` は、写せないときに途中まで写すバイト数である。 -/
structure Copier where
  ok : Nat → Nat → Bool
  moved : Nat → Nat → Nat

def Copier.count (c : Copier) (dst n : Nat) : Nat := if c.ok dst n then n else min n (c.moved dst n)

def copyout (c : Copier) (m : Bytes) (dst : Nat) (src : Bytes) (n : Nat) : Bytes × Bool :=
  (blit m dst src 0 (c.count dst n), c.ok dst n)

def wordBytes (v : Nat) : Bytes := putLE (fun _ => 0) 0 4 v

structure Locals where
  wtime : Nat
  rtime : Nat

def Locals.of (np : Proc) : Locals where
  wtime := (np.etime + 2 * 2 ^ 32 - np.ctime - np.rtime) % 2 ^ 32
  rtime := np.rtime

structure Outcome where
  table : Table
  mem : Bytes
  value : Int

def Table.zombie (t : Table) (p : Nat) : Option Nat := t.find fun q => q.parent = some p ∧ q.state = .zombie

def Table.hopeless (t : Table) (p : Nat) : Bool := (t.find fun q => q.parent = some p).isNone ∨ (t.procs p).killed

def waitxFound (c : Copier) (t : Table) (addr : Nat) (m : Bytes) (i : Nat) : Outcome :=
  let reaped := t.set i (t.procs i).freeproc
  if addr = 0 then ⟨reaped, m, (t.procs i).pid⟩
  else
    let (m, ok) := copyout c m addr (wordBytes ((t.procs i).xstate % 2 ^ 32).toNat) 4
    if ok then ⟨reaped, m, (t.procs i).pid⟩ else ⟨t, m, -1⟩

/-- `waitx`。`ts` は表を見るたびの表である。眠ったままなら `none` である。 -/
def waitx (c : Copier) (p addr : Nat) (m : Bytes) (x : Locals) : List Table → Option (Outcome × Locals)
  | [] => none
  | t :: ts =>
    match t.zombie p with
    | some i => some (waitxFound c t addr m i, .of (t.procs i))
    | none => if t.hopeless p then some (⟨t, m, -1⟩, x) else waitx c p addr m x ts

structure WaitxArgs where
  addr : Nat
  addr1 : Nat
  addr2 : Nat

structure Copiers where
  status : Copier
  wtime : Copier
  rtime : Copier

def sysWaitxCopy (c : Copiers) (a : WaitxArgs) (o : Outcome) (x : Locals) : Outcome :=
  let (m, ok) := copyout c.wtime o.mem a.addr1 (wordBytes x.wtime) 4
  if ok then
    let (m, ok) := copyout c.rtime m a.addr2 (wordBytes x.rtime) 4
    if ok then ⟨o.table, m, o.value⟩ else ⟨o.table, m, -1⟩
  else ⟨o.table, m, -1⟩

def sysWaitx (c : Copiers) (p : Nat) (a : WaitxArgs) (m : Bytes) (ts : List Table) (x : Locals) : Option Outcome :=
  (waitx c.status p a.addr m x ts).map fun r => sysWaitxCopy c a r.1 r.2

def deciding (p : Nat) (ts : List Table) : Option Table := ts.find? fun t => (t.zombie p).isSome ∨ t.hopeless p

variable {c : Copiers} {p : Nat} {a : WaitxArgs} {m : Bytes} {ts : List Table} {t : Table} {i : Nat} {x y : Locals}

theorem waitx_asleep {d addr} (h : deciding p ts = none) : waitx d p addr m x ts = none := by
  induction ts with
  | nil => rfl
  | cons t ts ih =>
    simp only [deciding, List.find?_cons] at h
    split at h
    · cases h
    · rename_i hd
      simp only [decide_eq_false_iff_not, not_or, Option.not_isSome_iff_eq_none] at hd
      rw [waitx, hd.1]
      simpa [hd.2] using ih h

theorem waitx_deciding {d addr} (h : deciding p ts = some t) :
    waitx d p addr m x ts = match t.zombie p with
      | some i => some (waitxFound d t addr m i, .of (t.procs i))
      | none => some (⟨t, m, -1⟩, x) := by
  induction ts with
  | nil => cases h
  | cons u ts ih =>
    simp only [deciding, List.find?_cons] at h
    split at h
    · rename_i hd
      cases h
      cases hz : t.zombie p with
      | some i => rw [waitx, hz]
      | none =>
        have hh : t.hopeless p = true := by simpa [hz] using hd
        simp [waitx, hz, hh]
    · rename_i hd
      simp only [decide_eq_false_iff_not, not_or, Option.not_isSome_iff_eq_none] at hd
      rw [waitx, hd.1]
      simpa [hd.2] using ih h

theorem sysWaitx_found (h : deciding p ts = some t) (hz : t.zombie p = some i) :
    sysWaitx c p a m ts x = some (sysWaitxCopy c a (waitxFound c.status t a.addr m i) (.of (t.procs i))) := by
  rw [sysWaitx, waitx_deciding h, hz]
  rfl

theorem sysWaitx_none (h : deciding p ts = some t) (hz : t.zombie p = none) :
    sysWaitx c p a m ts x = some (sysWaitxCopy c a ⟨t, m, -1⟩ x) := by
  rw [sysWaitx, waitx_deciding h, hz]
  rfl

/-! ## 初期化されない値 -/

/-- ユーザのメモリと戻る値が、局所変数の初めの値によらない。 -/
def Independent (c : Copiers) (p : Nat) (a : WaitxArgs) (m : Bytes) (ts : List Table) : Prop :=
  ∀ x y, (sysWaitx c p a m ts x).map (fun o => (o.mem, o.value)) = (sysWaitx c p a m ts y).map fun o => (o.mem, o.value)

theorem wordBytes_zero (k : Nat) : wordBytes 0 k = 0 := by
  simp [wordBytes, putLE]

theorem wordBytes_ones {k} (hk : k < 4) : wordBytes 0x01010101 k = 1 := by
  interval_cases k <;> rfl

theorem Copier.count_le {d : Copier} {dst n : Nat} : d.count dst n ≤ n := by
  unfold Copier.count
  split
  · exact le_rfl
  · exact Nat.min_le_left _ _

theorem sysWaitxCopy_mem (c : Copiers) (a : WaitxArgs) (o : Outcome) (x : Locals) :
    (sysWaitxCopy c a o x).mem =
      let m := blit o.mem a.addr1 (wordBytes x.wtime) 0 (c.wtime.count a.addr1 4)
      if c.wtime.ok a.addr1 4 then blit m a.addr2 (wordBytes x.rtime) 0 (c.rtime.count a.addr2 4) else m := by
  unfold sysWaitxCopy copyout
  simp only
  split
  · split <;> rfl
  · rfl

theorem sysWaitxCopy_value (c : Copiers) (a : WaitxArgs) (o : Outcome) (x : Locals) :
    (sysWaitxCopy c a o x).value = if c.wtime.ok a.addr1 4 ∧ c.rtime.ok a.addr2 4 then o.value else -1 := by
  unfold sysWaitxCopy copyout
  simp only
  split
  · rename_i h1
    split
    · rename_i h2
      rw [if_pos ⟨h1, h2⟩]
    · rename_i h2
      rw [if_neg fun h => h2 h.2]
  · rename_i h1
    rw [if_neg fun h => h1 h.1]

theorem sysWaitxCopy_table (c : Copiers) (a : WaitxArgs) (o : Outcome) (x : Locals) :
    (sysWaitxCopy c a o x).table = o.table := by
  unfold sysWaitxCopy copyout
  simp only
  split
  · split <;> rfl
  · rfl

theorem sysWaitxCopy_byte {o : Outcome} {v : Nat} (h : c.wtime.count a.addr1 4 ≠ 0) :
    ∃ k, k < 4 ∧ (sysWaitxCopy c a o ⟨v, v⟩).mem a.addr1 = wordBytes v k := by
  have hfirst : blit o.mem a.addr1 (wordBytes v) 0 (c.wtime.count a.addr1 4) a.addr1 = wordBytes v 0 := by
    rw [blit_in le_rfl (by omega)]
    simp
  rw [sysWaitxCopy_mem]
  simp only
  split
  · have hle : c.rtime.count a.addr2 4 ≤ 4 := Copier.count_le
    -- `addr2` への写しが `addr1` に重なれば `rtime` の、そうでなければ `wtime` のバイトである。
    by_cases hin : a.addr2 ≤ a.addr1 ∧ a.addr1 < a.addr2 + c.rtime.count a.addr2 4
    · exact ⟨a.addr1 - a.addr2, by omega, by rw [blit_in hin.1 hin.2, Nat.zero_add]⟩
    · exact ⟨0, by decide, by rw [blit_out (by omega), hfirst]⟩
  · exact ⟨0, by decide, hfirst⟩

/-- 結果が初期化されない値によらないのは、眠ったままか、終わった子を見つけて二つの値が書かれたか、`wtime` を一バイトも写
せなかったときに限る。 -/
theorem sysWaitx_independent_iff (c : Copiers) (p : Nat) (a : WaitxArgs) (m : Bytes) (ts : List Table) :
    Independent c p a m ts ↔
      ∀ t, deciding p ts = some t → t.zombie p ≠ none ∨ c.wtime.ok a.addr1 4 = false ∧ c.wtime.count a.addr1 4 = 0 := by
  constructor
  · intro h t ht
    by_contra hno
    push Not at hno
    obtain ⟨hz, hcopy⟩ := hno
    have hne : c.wtime.count a.addr1 4 ≠ 0 := by
      intro h0
      cases hok : c.wtime.ok a.addr1 4 with
      | false => exact hcopy hok h0
      | true => simp [Copier.count, hok] at h0
    have heq := h ⟨0, 0⟩ ⟨0x01010101, 0x01010101⟩
    rw [sysWaitx_none ht hz, sysWaitx_none ht hz] at heq
    simp only [Option.map_some, Option.some.injEq, Prod.mk.injEq] at heq
    obtain ⟨k, hk, hzero⟩ := sysWaitxCopy_byte (o := ⟨t, m, -1⟩) (v := 0) hne
    obtain ⟨l, hl, hone⟩ := sysWaitxCopy_byte (o := ⟨t, m, -1⟩) (v := 0x01010101) hne
    rw [heq.1, hone, wordBytes_ones hl, wordBytes_zero] at hzero
    exact absurd hzero (by decide)
  intro h x y
  cases ht : deciding p ts with
  | none => simp [sysWaitx, waitx_asleep ht]
  | some t =>
    cases hz : t.zombie p with
    | some i => rw [sysWaitx_found ht hz, sysWaitx_found ht hz]
    | none =>
      obtain ⟨hok, h0⟩ := (h t ht).resolve_left (fun hne => hne hz)
      rw [sysWaitx_none ht hz, sysWaitx_none ht hz]
      simp [sysWaitxCopy_mem, sysWaitxCopy_value, hok, h0]

/-! ## 失敗したときの子 -/

def waits (p : Nat) (t : Table) : Nat → Table
  | 0 => t
  | k + 1 => waits p (wait t p true).1 k

/-- 後の `wait` が、欄 `i` の子の番号を返し、その終了値を写す。 -/
def Collectable (t : Table) (p i : Nat) : Prop :=
  ∃ k, (waits p t k).zombie p = some i ∧ (waits p t k).procs i = t.procs i ∧
    (wait (waits p t k) p true).2 = some (t.procs i).pid

/-- `-1` を返したなら、終わった子の欄はどれも変わらず、後から集められる。 -/
def AtomicOnError (c : Copiers) (p : Nat) (a : WaitxArgs) (m : Bytes) (ts : List Table) (x : Locals) : Prop :=
  ∀ t o, deciding p ts = some t → sysWaitx c p a m ts x = some o → o.value = -1 →
    ∀ i, i < nproc → (t.procs i).parent = some p → (t.procs i).state = .zombie →
      o.table.procs i = t.procs i ∧ Collectable o.table p i

def StatusOk (c : Copiers) (a : WaitxArgs) : Prop := a.addr = 0 ∨ c.status.ok a.addr 4 = true

theorem Table.zombie_eq_some : t.zombie p = some i ↔
    i < nproc ∧ ((t.procs i).parent = some p ∧ (t.procs i).state = .zombie) ∧
      ∀ j, j < i → ¬((t.procs j).parent = some p ∧ (t.procs j).state = .zombie) := by
  rw [Table.zombie, Table.find, List.find?_range_eq_some]
  simp only [decide_eq_true_eq, List.mem_range, Bool.not_eq_true', decide_eq_false_iff_not]
  tauto

theorem Table.zombie_le (hi : i < nproc) (hz : (t.procs i).parent = some p ∧ (t.procs i).state = .zombie) :
    ∃ j, t.zombie p = some j ∧ j ≤ i := by
  cases hf : t.zombie p with
  | none =>
    have := List.find?_eq_none.mp hf i (List.mem_range.mpr hi)
    simp [hz] at this
  | some j =>
    refine ⟨j, rfl, ?_⟩
    by_contra hlt
    exact (Table.zombie_eq_some.mp hf).2.2 i (by omega) hz

theorem collectable (hi : i < nproc) (hz : (t.procs i).parent = some p ∧ (t.procs i).state = .zombie) :
    Collectable t p i := by
  -- 最初に見つかる子の欄が `i` に近づく。
  obtain ⟨j, hj, hle⟩ := Table.zombie_le hi hz
  induction hd : i - j using Nat.strong_induction_on generalizing t j with
  | _ d ih =>
    have hwait : wait t p true = (t.set j (t.procs j).freeproc, some (t.procs j).pid) := by
      have hfind : (t.find fun q => q.parent = some p ∧ q.state = .zombie) = some j := hj
      rw [wait, hfind]
      rfl
    by_cases hij : i = j
    · subst hij
      exact ⟨0, hj, rfl, by rw [waits, hwait]⟩
    have hsame : (t.set j (t.procs j).freeproc).procs i = t.procs i := by simp [Table.set, hij]
    obtain ⟨j', hj', hle'⟩ := Table.zombie_le (t := t.set j (t.procs j).freeproc) hi (by rwa [hsame])
    have hgt : j < j' := by
      obtain ⟨-, hz', -⟩ := Table.zombie_eq_some.mp hj'
      by_contra hlt
      by_cases hjj : j' = j
      · simp [Table.set, hjj, Proc.freeproc] at hz'
      · simp only [Table.set, update_of_ne hjj] at hz'
        exact (Table.zombie_eq_some.mp hj).2.2 j' (by omega) hz'
    obtain ⟨k, h1, h2, h3⟩ := ih (i - j') (by omega) (by rwa [hsame]) j' hj' hle' rfl
    refine ⟨k + 1, ?_⟩
    simp only [waits, hwait]
    exact ⟨h1, h2.trans hsame, by rw [h3, hsame]⟩

theorem waitxFound_table (hs : StatusOk c a) :
    waitxFound c.status t a.addr m i = ⟨t.set i (t.procs i).freeproc, (waitxFound c.status t a.addr m i).mem,
        (t.procs i).pid⟩ := by
  unfold waitxFound copyout
  simp only
  split
  · rfl
  · rename_i h0
    rw [if_pos (hs.resolve_left h0)]

theorem waitxFound_error (hs : ¬StatusOk c a) :
    waitxFound c.status t a.addr m i = ⟨t, (waitxFound c.status t a.addr m i).mem, -1⟩ := by
  unfold waitxFound copyout
  simp only
  have h0 : a.addr ≠ 0 := fun h => hs (.inl h)
  have hok : ¬c.status.ok a.addr 4 = true := fun h => hs (.inr h)
  rw [if_neg h0, if_neg hok]

/-- 失敗しても子を解放していないのは、見つけた子の終了値を写せたなら二つの時間も写せ、その番号が `-1` でないときに限る。 -/
theorem sysWaitx_atomic_iff (c : Copiers) (p : Nat) (a : WaitxArgs) (m : Bytes) (ts : List Table) (x : Locals) :
    AtomicOnError c p a m ts x ↔
      ∀ t i, deciding p ts = some t → t.zombie p = some i → StatusOk c a →
        c.wtime.ok a.addr1 4 = true ∧ c.rtime.ok a.addr2 4 = true ∧ (t.procs i).pid ≠ -1 := by
  constructor
  · intro h t i ht hz hs
    by_contra hno
    obtain ⟨hi, hzi, -⟩ := Table.zombie_eq_some.mp hz
    have hval : (sysWaitxCopy c a (waitxFound c.status t a.addr m i) (.of (t.procs i))).value = -1 := by
      rw [sysWaitxCopy_value, waitxFound_table hs]
      split
      · rename_i hok
        by_contra hpid
        exact hno ⟨hok.1, hok.2, hpid⟩
      · rfl
    have hkeep := (h t _ ht (sysWaitx_found ht hz) hval i hi hzi.1 hzi.2).1
    rw [sysWaitxCopy_table, waitxFound_table hs] at hkeep
    have hstate := congrArg Proc.state hkeep
    rw [hzi.2] at hstate
    simp [Table.set, Proc.freeproc] at hstate
  intro h t o ht ho hval i hi hp hzi
  obtain ⟨j, hz, -⟩ := Table.zombie_le hi ⟨hp, hzi⟩
  rw [sysWaitx_found ht hz, Option.some.injEq] at ho
  subst ho
  by_cases hs : StatusOk c a
  · obtain ⟨h1, h2, hpid⟩ := h t j ht hz hs
    rw [sysWaitxCopy_value, if_pos ⟨h1, h2⟩, waitxFound_table hs] at hval
    exact absurd hval hpid
  · have htab : (sysWaitxCopy c a (waitxFound c.status t a.addr m j) (.of (t.procs j))).table = t := by
      rw [sysWaitxCopy_table, waitxFound_error hs]
    rw [htab]
    exact ⟨rfl, collectable hi ⟨hp, hzi⟩⟩

/-! ## 例 -/

def oneZombie : Table where
  procs i := if i = 1 then { Proc.init 1 with state := .zombie, parent := some 0, pid := 4, xstate := 7 }
    else { Proc.init i with state := .running }
  nextpid := 5
  ticks := 0
  initproc := 0

def childless : Table := { oneZombie with procs := fun i => { Proc.init i with state := .running } }

def copyAll : Copier := ⟨fun _ _ => true, fun _ _ => 0⟩

def copyLow : Copier := ⟨fun dst _ => dst < 8192, fun _ _ => 0⟩

theorem oneZombie_zombie : oneZombie.zombie 0 = some 1 := by decide +kernel

theorem sysWaitx_independent_iff_oneZombie : Independent ⟨copyAll, copyAll, copyAll⟩ 0 ⟨0, 16, 32⟩
    (fun _ => 0) [oneZombie] :=
  (sysWaitx_independent_iff ..).mpr fun t ht => by
    cases ht
    exact .inl (by simp [oneZombie_zombie])

/-- 子のないプロセスの `waitx` は、初期化されない値をユーザに渡す。 -/
theorem sysWaitx_leaks :
    let c : Copiers := ⟨copyAll, copyAll, copyAll⟩
    let run (v : Nat) := (sysWaitx c 0 ⟨0, 16, 32⟩ (fun _ => 0) [childless] ⟨v, v⟩).map fun o => (o.mem 16, o.value)
    run 0 = some (0, -1) ∧ run 5 = some (5, -1) ∧ ¬Independent c 0 ⟨0, 16, 32⟩ (fun _ => 0) [childless] := by
  intro c run
  refine ⟨by decide +kernel, by decide +kernel, fun h => ?_⟩
  have heq := congrArg (Option.map fun r : Bytes × Int => r.1 16) (h ⟨0, 0⟩ ⟨5, 5⟩)
  exact absurd heq (by decide +kernel)

theorem sysWaitx_atomic_iff_oneZombie :
    AtomicOnError ⟨copyAll, copyAll, copyAll⟩ 0 ⟨0, 16, 32⟩ (fun _ => 0) [oneZombie] ⟨0, 0⟩ :=
  (sysWaitx_atomic_iff ..).mpr fun t i ht hz _ => by
    cases ht
    rw [oneZombie_zombie] at hz
    cases hz
    exact ⟨rfl, rfl, by decide⟩

/-- `addr1` に写せないと、`-1` が返り、子は解放されている。 -/
theorem sysWaitx_reaps_on_error :
    let c : Copiers := ⟨copyLow, copyLow, copyLow⟩
    let run := sysWaitx c 0 ⟨0, 8192, 16⟩ (fun _ => 0) [oneZombie] ⟨0, 0⟩
    (run.map fun o => (o.value, (o.table.procs 1).state)) = some (-1, .unused) ∧ (oneZombie.procs 1).state = .zombie ∧
      ¬AtomicOnError c 0 ⟨0, 8192, 16⟩ (fun _ => 0) [oneZombie] ⟨0, 0⟩ := by
  intro c run
  refine ⟨by decide +kernel, rfl, fun h => ?_⟩
  have hkeep := (h oneZombie _ rfl (sysWaitx_found rfl oneZombie_zombie) rfl 1 (by decide) rfl rfl).1
  exact absurd (congrArg Proc.state hkeep) (by decide)

end Xv6.Ptable
