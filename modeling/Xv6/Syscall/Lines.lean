import Xv6.Syscall.Theorems

/-!
# 追跡の行の中身と、表の範囲
-/

namespace Xv6.Syscall

open Xv6.Lib List

variable {s : Sys} {e : Event} {c : Sysno} {num mask : Int}

/-! ## 追跡の行 -/

def Sysno.params : Sysno → Nat
  | .fork | .getpid | .uptime | .cps => 0
  | .exit | .wait | .pipe | .close | .kill | .unlink | .mkdir | .chdir | .dup | .sbrk | .sleep | .trace => 1
  | .exec | .open | .fstat | .link | .chpr => 2
  | .write | .read | .mknod | .waitx => 3

def value (x : Nat) : Int := (BitVec.ofNat 64 x).toInt

def Event.returned (e : Event) (p : Task) : Nat :=
  if syscalls e.num = some .trace then ofInt (sysTrace p e.frame).2 else e.outcome.ret

/-- 引数のレジスタを書き換えるのは、`a1` に新しいスタックを置く `exec` だけである。 -/
def Event.Handled (e : Event) : Prop := ∀ i, 0 < i → (syscalls e.num = some .exec → i ≠ 1) → e.outcome.a i = e.frame.a i

/-- 呼び出しのとおりの行。入った時の引数を引数の数だけ並べ、返す値を添える。 -/
def Event.line (e : Event) (c : Sysno) (p : Task) : Line :=
  .traced p.pid (some c.name) (some ((List.range c.params).map fun i => value (e.frame.a i))) (value (e.returned p))

def Reported (s : Sys) (e : Event) : Prop :=
  ∀ c, syscalls e.num = some c → ∀ pid name args ret,
    Line.traced pid name args ret ∈ (syscall s.task e.frame e.outcome).2.2 →
      Line.traced pid name args ret = e.line c s.task

/-- 引数の数が表にあり、返す値は `int` に収まる。引数があれば、戻り値は最初の引数と等しく、残りは `int` に収まる。`exec`
は、`a1` を同じ値に書き換える。 -/
structure Printable (s : Sys) (e : Event) (c : Sysno) : Prop where
  listed : c.nargs.isSome
  ret : toInt (e.returned s.task) = value (e.returned s.task)
  first : 0 < c.params → toInt (e.returned s.task) = value (e.frame.a 0)
  rest : ∀ i, 0 < i → i < c.params → toInt (e.frame.a i) = value (e.frame.a i) ∨ c = .exec
  exec : c = .exec → toInt (e.outcome.a 1) = value (e.frame.a 1)

theorem nargs_params {n} (h : c.nargs = some n) : n = c.params := by
  cases c <;> cases h <;> rfl

def Event.regs (e : Event) (p : Task) : Nat → Nat :=
  update (if syscalls e.num = some .trace then e.frame.a else e.outcome.a) 0 (e.returned p)

theorem dispatch_frame {p} (h : syscalls e.num = some c) :
    (dispatch e.num p e.frame e.outcome).2.1.a = e.regs p := by
  unfold Event.regs Event.returned
  by_cases ht : c = .trace
  · subst ht
    simp only [dispatch, call, h, if_true]
  · have hne : syscalls e.num ≠ some .trace := fun hc => ht (Option.some.inj (h.symm.trans hc))
    rw [if_neg hne, if_neg hne]
    simp only [dispatch, call, h]

theorem traced_mem (h : syscalls e.num = some c) {pid name args ret} :
    Line.traced pid name args ret ∈ (syscall s.task e.frame e.outcome).2.2 ↔
      sra (s.after e).task.tracemask e.num ≠ 0 ∧ Line.traced pid name args ret =
        .traced s.task.pid (some c.name) (c.nargs.map fun n => (List.range n).map fun i => toInt (e.regs s.task i))
          (toInt (e.regs s.task 0)) := by
  have ha : (s.after e).task = (dispatch e.num s.task e.frame e.outcome).1 := report_task
  have hpid : (dispatch e.num s.task e.frame e.outcome).1.pid = s.task.pid := by rw [← ha, after_task]
  have hline : traceLine e.num (dispatch e.num s.task e.frame e.outcome).1
      (dispatch e.num s.task e.frame e.outcome).2.1 = .traced s.task.pid (some c.name)
        (c.nargs.map fun n => (List.range n).map fun i => toInt (e.regs s.task i)) (toInt (e.regs s.task 0)) := by
    rw [traceLine, dispatch_frame h, hpid, h, Option.map_some, Option.bind_some]
  rw [ha]
  change _ ∈ (report e.num (dispatch e.num s.task e.frame e.outcome)).2.2 ↔ _
  rw [report]
  split
  case isTrue hm => rw [mem_append, mem_singleton, hline, or_iff_right not_traced_dispatch, and_iff_right hm]
  case isFalse hm => exact iff_of_false not_traced_dispatch fun hc => hm hc.1

theorem Event.regs_rest (hh : e.Handled) (h : syscalls e.num = some c) {p i} (hi : 0 < i)
    (hx : c = .exec → i ≠ 1) : e.regs p i = e.frame.a i := by
  rw [Event.regs, update_of_ne (by omega)]
  split
  · rfl
  · exact hh i hi fun hc => hx (Option.some.inj (h.symm.trans hc))

theorem args_eq_iff (hh : e.Handled) (h : syscalls e.num = some c) {p} :
    ((List.range c.params).map fun i => toInt (e.regs p i)) = (List.range c.params).map (fun i => value (e.frame.a i)) ↔
      (0 < c.params → toInt (e.returned p) = value (e.frame.a 0)) ∧
      (∀ i, 0 < i → i < c.params → toInt (e.frame.a i) = value (e.frame.a i) ∨ c = .exec) ∧
      (c = .exec → toInt (e.outcome.a 1) = value (e.frame.a 1)) := by
  have hzero : e.regs p 0 = e.returned p := update_self ..
  have hexec : c = .exec → e.regs p 1 = e.outcome.a 1 := by
    rintro rfl
    rw [Event.regs, update_of_ne (by decide), if_neg (by rw [h]; decide)]
  rw [map_inj_left]
  constructor
  · intro hall
    refine ⟨fun hp => ?_, fun i hi hlt => ?_, fun hx => ?_⟩
    · rw [← hzero]
      exact hall 0 (mem_range.mpr hp)
    · by_cases hx : c = .exec
      · exact .inr hx
      · refine .inl ?_
        rw [← hall i (mem_range.mpr hlt), Event.regs_rest hh h hi fun hc => absurd hc hx]
    · rw [← hexec hx]
      exact hall 1 (by subst hx; decide)
  rintro ⟨h0, hrest, hx⟩ i hi
  have hlt := mem_range.mp hi
  by_cases hi0 : i = 0
  · subst hi0
    rw [hzero]
    exact h0 hlt
  by_cases hc : c = .exec
  · -- `exec` の引数は二つである。
    subst hc
    obtain rfl : i = 1 := by
      have : i < 2 := hlt
      omega
    rw [hexec rfl]
    exact hx rfl
  · rw [Event.regs_rest hh h (Nat.pos_of_ne_zero hi0) fun hc' => absurd hc' hc]
    exact (hrest i (Nat.pos_of_ne_zero hi0) hlt).resolve_right hc

/-- 追跡される呼び出しの行が呼び出しのとおりであるのは、行を正しく作れるときに限る。 -/
theorem reported_iff_printable (hh : e.Handled) (h : syscalls e.num = some c)
    (ht : sra (s.after e).task.tracemask e.num ≠ 0) : Reported s e ↔ Printable s e c := by
  have hzero : e.regs s.task 0 = e.returned s.task := update_self ..
  have hline : Reported s e ↔ Line.traced s.task.pid (some c.name)
      (c.nargs.map fun n => (List.range n).map fun i => toInt (e.regs s.task i)) (toInt (e.regs s.task 0)) =
        e.line c s.task := by
    constructor
    · exact fun hr => hr c h _ _ _ _ ((traced_mem h).mpr ⟨ht, rfl⟩)
    · intro heq c' hc' pid name args ret hmem
      obtain rfl : c = c' := Option.some.inj (h.symm.trans hc')
      exact ((traced_mem h).mp hmem).2.trans heq
  rw [hline, Event.line, hzero, Line.traced.injEq]
  cases hn : c.nargs with
  | none =>
    refine iff_of_false (fun hc => ?_) fun hp => ?_
    · cases hc.2.2.1
    · have := hp.listed
      rw [hn] at this
      cases this
  | some n =>
    obtain rfl := nargs_params hn
    rw [Option.map_some, Option.some.injEq (List.map _ _), args_eq_iff hh h]
    constructor
    · rintro ⟨-, -, ⟨h0, hrest, hx⟩, hret⟩
      exact ⟨by rw [hn]; rfl, hret, h0, hrest, hx⟩
    · exact fun hp => ⟨rfl, rfl, ⟨hp.first, hp.rest, hp.exec⟩, hp.ret⟩

theorem reported_iff_printable_getpid :
    Reported ((Sys.start 3 "sh").after (callOf 24 (2 ^ 11))) { callOf 11 0 with outcome := ⟨3, fun _ => 0⟩ } := by
  refine (reported_iff_printable (c := .getpid) (fun i _ _ => ?_) (by decide) ?_).mpr ?_
  · simp [callOf]
  · rw [after_task, after_task]
    decide
  · exact ⟨by decide, by decide, by decide, fun i _ hi => absurd hi (Nat.not_lt_zero i), by decide⟩

def writeCall : Event where
  frame := { a := fun k => if k = 0 then 1 else if k = 1 then 4096 else if k = 2 then 5 else 0, a7 := 16 }
  outcome := ⟨5, fun k => if k = 0 then 1 else if k = 1 then 4096 else if k = 2 then 5 else 0⟩

/-- 追跡した `write(1, 4096, 5)` の行には、最初の引数として戻り値の `5` が印字される。 -/
theorem traced_write_prints_result :
    writeCall.Handled ∧ Line.traced 3 (some "write") (some [5, 4096, 5]) 5 ∈
        (syscall ((Sys.start 3 "sh").after (callOf 24 (2 ^ 16))).task writeCall.frame writeCall.outcome).2.2 ∧
      writeCall.line .write ((Sys.start 3 "sh").after (callOf 24 (2 ^ 16))).task =
        .traced 3 (some "write") (some [1, 4096, 5]) 5 ∧
      ¬Reported ((Sys.start 3 "sh").after (callOf 24 (2 ^ 16))) writeCall := by
  have hmem : Line.traced 3 (some "write") (some [5, 4096, 5]) 5 ∈
      (syscall ((Sys.start 3 "sh").after (callOf 24 (2 ^ 16))).task writeCall.frame writeCall.outcome).2.2 := by
    refine (traced_mem (c := .write) (by decide)).mpr ⟨?_, by rfl⟩
    rw [after_task, after_task]
    decide
  refine ⟨fun i _ _ => rfl, hmem, by rfl, fun hr => ?_⟩
  have := hr .write (by decide) _ _ _ _ hmem
  exact absurd this (by simp [Event.line, writeCall, Sysno.params]; decide)

/-! ## 表の範囲 -/

def names : List (Option String) := table.map fun c => c.map Sysno.name

def syscallNosLength : Nat := 25

inductive Access
  | syscalls (i : Int)
  | shift (n : Int)
  | names (i : Int)
  | syscallNos (i : Int)

def accesses (num mask : Int) : List Access :=
  (if 0 < num ∧ num < table.length then [.syscalls num] else []) ++ [.shift num] ++
    if sra mask num ≠ 0 then [.names num, .syscallNos num] else []

/-- 表の読みと桁ずらしを、順に記録する `syscall`。 -/
def syscallLog (p : Task) (f : Frame) (o : Outcome) : (Task × Frame × List Line) × List Access :=
  let num := toInt f.a7
  let found := if 0 < num ∧ num < table.length then (table.getD num.toNat none, [.syscalls num]) else (none, [])
  let called := call found.1 num p f o
  let log := found.2 ++ [Access.shift num]
  if sra called.1.tracemask num ≠ 0 then
    ((called.1, called.2.1, called.2.2 ++ [traceLine num called.1 called.2.1]), log ++ [.names num, .syscallNos num])
  else (called, log)

/-- 記録を除けば `syscall` であり、記録は `accesses` である。 -/
theorem syscallLog_eq (p : Task) (f : Frame) (o : Outcome) : syscallLog p f o =
    (syscall p f o, accesses (toInt f.a7) ((Event.mask ⟨f, o⟩).getD p.tracemask)) := by
  have hmask : (Event.mask ⟨f, o⟩).getD p.tracemask = (syscall p f o).1.tracemask :=
    (after_tracemask (s := ⟨p, none⟩) (e := ⟨f, o⟩)).symm
  have hfound : (if 0 < toInt f.a7 ∧ toInt f.a7 < table.length then (table.getD (toInt f.a7).toNat none,
      [Access.syscalls (toInt f.a7)]) else (none, [])) = (syscalls (toInt f.a7),
      if 0 < toInt f.a7 ∧ toInt f.a7 < table.length then [Access.syscalls (toInt f.a7)] else []) := by
    unfold syscalls
    split <;> rfl
  rw [hmask, syscall, report_task, syscallLog, hfound, accesses, report]
  change (if sra (dispatch _ p f o).1.tracemask _ ≠ 0 then _ else _) = _
  split <;> simp [dispatch]

def Access.Ok : Access → Prop
  | .syscalls i => 0 ≤ i ∧ i < table.length
  | .shift n => 0 ≤ n ∧ n ≤ 31
  | .names i => 0 ≤ i ∧ i < Syscall.names.length ∧ (Syscall.names.getD i.toNat none).isSome
  | .syscallNos i => 0 ≤ i ∧ i < syscallNosLength

def Contained (p : Task) (f : Frame) (o : Outcome) : Prop :=
  ∀ a ∈ (syscallLog p f o).2, a.Ok

theorem names_ok_iff (hn : 0 ≤ num) : Access.Ok (.names num) ↔ (syscalls num).isSome := by
  have hlen : Syscall.names.length = table.length := length_map ..
  have hget : (Syscall.names.getD num.toNat none).isSome = (table.getD num.toNat none).isSome := by
    have hmap := getD_map (n := num.toNat) table none fun c : Option Sysno => c.map Sysno.name
    rw [Syscall.names, ← Option.isSome_map (f := Sysno.name), ← hmap]
    rfl
  rw [Access.Ok, hlen, hget, syscalls]
  by_cases h0 : num = 0
  · subst h0
    decide
  · split
    case isTrue h => exact ⟨fun hc => hc.2.2, fun hc => ⟨hn, h.2, hc⟩⟩
    case isFalse h => exact iff_of_false (fun hc => h ⟨by omega, hc.2.1⟩) (by simp)

/-- 範囲の外を使わないのは、番号が `0` から `31` までで、マスクを番号だけずらして零でなければ、番号が `cps`、`chpr`、
`waitx` でないときに限る。 -/
theorem contained_iff (p : Task) (f : Frame) (o : Outcome) :
    Contained p f o ↔ (0 ≤ toInt f.a7 ∧ toInt f.a7 ≤ 31) ∧
      (sra ((Event.mask ⟨f, o⟩).getD p.tracemask) (toInt f.a7) ≠ 0 →
        (syscalls (toInt f.a7)).isSome ∧ toInt f.a7 ≤ 24) := by
  rw [Contained, syscallLog_eq, accesses]
  generalize toInt f.a7 = num, (Event.mask ⟨f, o⟩).getD p.tracemask = mask
  simp only [mem_append, mem_singleton]
  constructor
  · intro hall
    have hshift : Access.Ok (.shift num) := hall _ (.inl (.inr rfl))
    refine ⟨hshift, fun hm => ⟨?_, ?_⟩⟩
    · exact (names_ok_iff hshift.1).mp (hall _ (.inr (by rw [if_pos hm]; exact mem_cons_self)))
    · have hnos : Access.Ok (.syscallNos num) := hall _ (.inr (by rw [if_pos hm]; simp))
      have h2 : num < 25 := hnos.2
      omega
  rintro ⟨hshift, hm⟩ a ((ha | rfl) | ha)
  · split at ha
    case isTrue h =>
      obtain rfl := mem_singleton.mp ha
      exact ⟨hshift.1, h.2⟩
    case isFalse => cases ha
  · exact hshift
  split at ha
  case isTrue h =>
    obtain ⟨hsome, hle⟩ := hm h
    have hlt : num < 25 := by omega
    rcases mem_cons.mp ha with rfl | ha
    · exact (names_ok_iff hshift.1).mpr hsome
    · obtain rfl := mem_singleton.mp ha
      exact ⟨hshift.1, hlt⟩
  case isFalse => cases ha

theorem contained_iff_getpid :
    Contained ((Sys.start 3 "sh").after (callOf 24 (2 ^ 11))).task (callOf 11 0).frame (callOf 11 0).outcome :=
  (contained_iff _ _ _).mpr ⟨by decide, fun _ => by decide⟩

/-- `trace(1 << 25)` の後の `cps` は、`syscallNos` の範囲の外を読む。 -/
theorem traced_cps_out_of_bounds :
    ¬Contained ((Sys.start 3 "sh").after (callOf 24 (2 ^ 25))).task (callOf 25 0).frame (callOf 25 0).outcome := by
  intro h
  have hmask : sra (((Sys.start 3 "sh").after (callOf 24 (2 ^ 25))).after (callOf 25 0)).task.tracemask 25 ≠ 0 := by
    rw [after_task, after_task]
    decide
  have hmem : Access.syscallNos 25 ∈
      accesses 25 (((Sys.start 3 "sh").after (callOf 24 (2 ^ 25))).after (callOf 25 0)).task.tracemask := by
    rw [accesses, if_pos hmask]
    exact mem_append_right _ (mem_cons_of_mem _ mem_cons_self)
  have hok : Access.Ok (.syscallNos 25) := h _ hmem
  exact absurd hok.2 (by decide)

end Xv6.Syscall
