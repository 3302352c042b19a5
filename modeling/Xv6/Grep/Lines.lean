import Xv6.Grep.Match

/-!
# `grep` の行

`grep` は、ファイルを `buf` へ読み、改行で終わる行を一つずつ照合する。途中の行は `buf` の先頭へ移して、次の読みに続ける。
ファイルは NUL を含まない。
-/

namespace Xv6.Grep

open List

def bufSize : Nat := 1024

def strchr (c : Char) : List Char → Option (List Char × List Char)
  | [] => none
  | d :: p => if d = c then some ([], p) else (strchr c p).map fun (line, q) => (d :: line, q)

theorem strchr_some {c p line q} (h : strchr c p = some (line, q)) :
    p = line ++ c :: q ∧ c ∉ line := by
  induction p generalizing line with
  | nil => cases h
  | cons d p ih =>
    rw [strchr] at h
    split at h
    case isTrue hd =>
      cases h
      exact ⟨congrArg (· :: q) hd, not_mem_nil⟩
    case isFalse hd =>
      obtain ⟨⟨line', q'⟩, hrest, heq⟩ := Option.map_eq_some_iff.mp h
      cases heq
      obtain ⟨rfl, hmem⟩ := ih hrest
      exact ⟨rfl, not_mem_cons_of_ne_of_not_mem (fun h => hd h.symm) hmem⟩

theorem strchr_none {c p} (h : strchr c p = none) : c ∉ p := by
  induction p with
  | nil => exact not_mem_nil
  | cons d p ih =>
    rw [strchr] at h
    split at h
    case isTrue => cases h
    case isFalse hd => exact not_mem_cons_of_ne_of_not_mem (fun h => hd h.symm) (ih (Option.map_eq_none_iff.mp h))

/-- 内側のループ。`buf` の中の行を照合し、書いた行と、残りの `p` を返す。 -/
def scan (re p : List Char) : List (List Char) × List Char :=
  match _h : strchr '\n' p with
  | none => ([], p)
  | some (line, q) =>
    ((if matchRe re line then [line ++ ['\n']] else []) ++ (scan re q).1, (scan re q).2)
termination_by p.length
decreasing_by
  all_goals
    rw [(strchr_some _h).1, length_append, length_cons]
    omega

def read (want n avail : Nat) : Nat := min (max 1 want) (min n avail)

/-- `grep` のループ。`buf` は前の読みの残り、`rest` はファイルの残り、`want` は `i` 回目からの読みの切れ目である。 -/
def grepLoop (re : List Char) (want : Nat → Nat) (i : Nat) (buf rest : List Char) : List (List Char) :=
  let n := read (want i) (bufSize - buf.length - 1) rest.length
  if 0 < n then
    let s := scan re (buf ++ rest.take n)
    s.1 ++ grepLoop re want (i + 1) s.2 (rest.drop n)
  else []
termination_by rest.length
decreasing_by
  rw [length_drop]
  have : read (want i) (bufSize - buf.length - 1) rest.length ≤ rest.length :=
    (Nat.min_le_right ..).trans (Nat.min_le_right ..)
  omega

def grep (re : List Char) (want : Nat → Nat) (content : List Char) : List (List Char) := grepLoop re want 0 [] content

/-! ## ファイルの行 -/

def lines (content : List Char) : List (List Char) := (content.splitOn '\n').dropLast

def matching (re : List Char) (ls : List (List Char)) : List (List Char) :=
  (ls.filter fun line => matchRe re line).map (· ++ ['\n'])

variable {re p buf rest : List Char}

theorem splitOn_ne_nil (x : List Char) : x.splitOn '\n' ≠ [] := splitOnP_ne_nil _ _

theorem splitOn_newline (x y : List Char) : (x ++ '\n' :: y).splitOn '\n' = x.splitOn '\n' ++ y.splitOn '\n' :=
  splitOnP_append_cons x y (by decide)

theorem lines_newline (x y : List Char) : lines (x ++ '\n' :: y) = x.splitOn '\n' ++ lines y := by
  rw [lines, splitOn_newline, dropLast_append_of_ne_nil (splitOn_ne_nil y), lines]

theorem lines_of_not_mem (h : '\n' ∉ p) : lines p = [] := by
  rw [lines, splitOn_eq_singleton h]
  rfl

theorem lines_cons {line q} (h : '\n' ∉ line) : lines (line ++ '\n' :: q) = line :: lines q := by
  rw [lines_newline, splitOn_eq_singleton h]
  rfl

structure Scanned (re p : List Char) (out : List (List Char)) (left : List Char) : Prop where
  out : out = matching re (lines p)
  partly : '\n' ∉ left
  rest : ∀ rest, lines (p ++ rest) = lines p ++ lines (left ++ rest)
  short : ∀ line ∈ lines p, line.length < p.length
  le : left.length ≤ p.length

theorem scan_spec (re p : List Char) : Scanned re p (scan re p).1 (scan re p).2 := by
  induction hn : p.length using Nat.strong_induction_on generalizing p with
  | _ n ih =>
  subst hn
  rw [scan]
  split
  case h_1 hnone =>
    have hno := strchr_none hnone
    have hnil := lines_of_not_mem hno
    refine ⟨?_, hno, fun rest => ?_, ?_, le_rfl⟩
    · rw [hnil]
      rfl
    · rw [hnil, nil_append]
    · rw [hnil]
      nofun
  case h_2 line q hsome =>
    obtain ⟨rfl, hline⟩ := strchr_some hsome
    have hlen : (line ++ '\n' :: q).length = line.length + (q.length + 1) := length_append
    have hq := ih q.length (by omega) q rfl
    have hlines := lines_cons (q := q) hline
    refine ⟨?_, hq.partly, fun rest => ?_, ?_, ?_⟩
    · rw [hlines, hq.out, matching, matching, filter_cons]
      cases matchRe re line <;> rfl
    · rw [hlines, append_assoc, cons_append, lines_cons hline, hq.rest, cons_append]
    · rw [hlines]
      refine forall_mem_cons.mpr ⟨by omega, fun l hl => ?_⟩
      have := hq.short l hl
      omega
    · rw [hlen]
      exact hq.le.trans (by omega)

/-! ## 書かれる行 -/

def short (line : List Char) : Bool := line.length + 1 < bufSize

theorem matching_append (re : List Char) (xs ys : List (List Char)) :
    matching re (xs ++ ys) = matching re xs ++ matching re ys := by
  rw [matching, filter_append, map_append, matching, matching]

theorem takeWhile_short_full (hbuf : '\n' ∉ buf) (hfull : buf.length + 1 = bufSize) :
    (lines (buf ++ rest)).takeWhile short = [] := by
  cases h : strchr '\n' rest with
  | none =>
    rw [lines_of_not_mem, takeWhile_nil]
    exact fun hm => (mem_append.mp hm).elim hbuf (strchr_none h)
  | some v =>
    obtain ⟨rfl, hline⟩ := strchr_some (q := v.2) h
    have hno : '\n' ∉ buf ++ v.1 := fun hm => (mem_append.mp hm).elim hbuf hline
    rw [← append_assoc, lines_cons hno, takeWhile_cons_of_neg]
    rw [short, length_append, decide_eq_true_eq]
    omega

theorem grepLoop_eq (re : List Char) (want : Nat → Nat) (i : Nat) (buf rest : List Char) (hbuf : '\n' ∉ buf)
    (hlen : buf.length + 1 ≤ bufSize) :
    grepLoop re want i buf rest = matching re ((lines (buf ++ rest)).takeWhile short) := by
  induction hn : rest.length using Nat.strong_induction_on generalizing i buf rest with
  | _ n ih =>
  subst hn
  rw [grepLoop]
  set n := read (want i) (bufSize - buf.length - 1) rest.length with hread
  have hn : n ≤ bufSize - buf.length - 1 ∧ n ≤ rest.length ∧
      (n = 0 → bufSize - buf.length - 1 = 0 ∨ rest.length = 0) := by
    rw [hread, read]
    omega
  clear_value n
  simp only []
  split
  case isTrue hpos =>
    have hscan := scan_spec re (buf ++ rest.take n)
    have htake : (buf ++ rest.take n).length = buf.length + n := by
      rw [length_append, length_take, Nat.min_eq_left hn.2.1]
    have hshort : ∀ line ∈ lines (buf ++ rest.take n), short line = true := fun line hl => by
      have := hscan.short line hl
      rw [short, decide_eq_true_eq]
      omega
    have hnext := ih (rest.drop n).length (by rw [length_drop]; omega) (i + 1) _ (rest.drop n) hscan.partly
      (by have := hscan.le; omega) rfl
    have hsplit : buf ++ rest = (buf ++ rest.take n) ++ rest.drop n := by
      rw [append_assoc, take_append_drop]
    rw [hnext, hscan.out, hsplit, hscan.rest, ← matching_append, takeWhile_append_of_pos hshort]
  case isFalse hzero =>
    obtain hfull | hend := hn.2.2 (Nat.eq_zero_of_not_pos hzero)
    · rw [takeWhile_short_full hbuf (by omega)]
      rfl
    · obtain rfl := eq_nil_of_length_eq_zero hend
      rw [append_nil, lines_of_not_mem hbuf]
      rfl

theorem grep_eq (re : List Char) (want : Nat → Nat) (content : List Char) :
    grep re want content = matching re ((lines content).takeWhile short) :=
  grepLoop_eq re want 0 [] content not_mem_nil (by decide)

/-- 合う行がちょうど書かれるのは、改行まで `buf` に入らない最初の行から後ろに、合う行がないときに限る。 -/
theorem grep_prints_matching_iff (re : List Char) (want : Nat → Nat) (content : List Char) :
    grep re want content = matching re (lines content) ↔
      ∀ line ∈ (lines content).dropWhile short, matchRe re line = false := by
  have hsplit : lines content = (lines content).takeWhile short ++ (lines content).dropWhile short :=
    takeWhile_append_dropWhile.symm
  have hmatching : matching re (lines content) = matching re ((lines content).takeWhile short) ++
      matching re ((lines content).dropWhile short) := by rw [← matching_append, ← hsplit]
  rw [grep_eq, hmatching, self_eq_append_right, matching, map_eq_nil_iff, filter_eq_nil_iff]
  simp only [Bool.not_eq_true]

theorem grep_prints_matching_short :
    grep ['a'] (fun _ => 2) ['a', 'b', '\n', 'c', '\n', 'a', '\n'] = [['a', 'b', '\n'], ['a', '\n']] :=
  (grep_prints_matching_iff _ _ _).mpr (by decide)

theorem grep_drops_long_line :
    grep ['a'] (fun _ => 512) (List.replicate 1023 'a' ++ ['\n']) = [] ∧
      matching ['a'] (lines (List.replicate 1023 'a' ++ ['\n'])) = [List.replicate 1023 'a' ++ ['\n']] := by
  have hno : '\n' ∉ List.replicate 1023 'a' := fun h => absurd (eq_of_mem_replicate h) (by decide)
  have hlines : lines (List.replicate 1023 'a' ++ ['\n']) = [List.replicate 1023 'a'] := by
    rw [lines_cons hno, lines_of_not_mem not_mem_nil]
  constructor
  · rw [grep_eq, takeWhile_short_full hno (by rw [length_replicate]; decide)]
    rfl
  · rw [hlines, matching, filter_cons_of_pos]
    · rfl
    · rw [replicate_succ]
      rfl

end Xv6.Grep
