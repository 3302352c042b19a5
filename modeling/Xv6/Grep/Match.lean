import Mathlib.Computability.Language

/-!
# `grep` の照合

`user/grep.c` の `match`、`matchhere`、`matchstar` と、パターンの意味を定める。C の文字列は、終わりの NUL を除いた文字の列で
表す。
-/

namespace Xv6.Grep

open List

open scoped Computability

def matchstar (here : List Char → Bool) (c : Char) : List Char → Bool
  | [] => here []
  | d :: text => here (d :: text) || ((d = c || c = '.') && matchstar here c text)

def matchhere : List Char → List Char → Bool
  | [], _ => true
  | c :: '*' :: re, text => matchstar (fun text => matchhere re text) c text
  | ['$'], text => text.isEmpty
  | _ :: _, [] => false
  | c :: re, d :: text => (c = '.' || c = d) && matchhere re text

def matchLoop (re : List Char) : List Char → Bool
  | [] => matchhere re []
  | d :: text => matchhere re (d :: text) || matchLoop re text

def matchRe : List Char → List Char → Bool
  | '^' :: re, text => matchhere re text
  | re, text => matchLoop re text

/-! ## パターンの意味 -/

/-- パターンの項。`one` は文字か `.`、`star` はその繰り返しである。 -/
inductive Item
  | one (c : Char)
  | star (c : Char)
  deriving DecidableEq, Repr

/-- 左から読んだパターン。`bol` は先頭の `^`、`eol` は末尾の `$` である。 -/
structure Regex where
  bol : Bool
  items : List Item
  eol : Bool
  deriving DecidableEq, Repr

/-- `^` の後ろを読む。`c*` が先に読まれ、`$` は末尾でだけ項でない。 -/
def parseItems : List Char → List Item × Bool
  | [] => ([], false)
  | c :: '*' :: re => (.star c :: (parseItems re).1, (parseItems re).2)
  | ['$'] => ([], true)
  | c :: re => (.one c :: (parseItems re).1, (parseItems re).2)

def parse : List Char → Regex
  | '^' :: re => ⟨true, (parseItems re).1, (parseItems re).2⟩
  | re => ⟨false, (parseItems re).1, (parseItems re).2⟩

def single (c : Char) : Language Char := {w | ∃ d, w = [d] ∧ (c = '.' ∨ c = d)}

def Item.lang : Item → Language Char
  | .one c => single c
  | .star c => (single c)∗

def lang (items : List Item) : Language Char := (items.map Item.lang).prod

/-- `text` の部分列に合う。`^` があれば先頭から、`$` があれば終わりまでである。 -/
def Regex.Found (r : Regex) (text : List Char) : Prop :=
  ∃ a m b, text = a ++ m ++ b ∧ (r.bol → a = []) ∧ (r.eol → b = []) ∧ m ∈ lang r.items

/-! ## 照合 -/

variable {re text : List Char} {c : Char} {here : List Char → Bool}

theorem single_kstar : text ∈ (single c)∗ ↔ ∀ d ∈ text, d = c ∨ c = '.' := by
  rw [Language.mem_kstar]
  constructor
  · rintro ⟨L, rfl, hL⟩ d hd
    obtain ⟨w, hw, hd⟩ := mem_flatten.mp hd
    obtain ⟨d', rfl, hc⟩ := hL w hw
    obtain rfl := mem_singleton.mp hd
    exact hc.symm.imp_left Eq.symm
  · intro h
    refine ⟨text.map fun d => [d], (flatMap_singleton' text).symm, fun w hw => ?_⟩
    obtain ⟨d, hd, rfl⟩ := mem_map.mp hw
    exact ⟨d, rfl, (h d hd).symm.imp_right Eq.symm⟩

theorem matchstar_iff : matchstar here c text = true ↔
    ∃ run rest, text = run ++ rest ∧ (∀ d ∈ run, d = c ∨ c = '.') ∧ here rest = true := by
  induction text with
  | nil =>
    refine ⟨fun h => ⟨[], [], rfl, nofun, h⟩, ?_⟩
    rintro ⟨run, rest, hsplit, -, h⟩
    obtain ⟨rfl, rfl⟩ := append_eq_nil_iff.mp hsplit.symm
    exact h
  | cons d text ih =>
    simp only [matchstar, Bool.or_eq_true, Bool.and_eq_true, decide_eq_true_eq, ih]
    constructor
    · rintro (h | ⟨hd, run, rest, rfl, hrun, h⟩)
      · exact ⟨[], d :: text, rfl, nofun, h⟩
      · exact ⟨d :: run, rest, rfl, forall_mem_cons.mpr ⟨hd, hrun⟩, h⟩
    rintro ⟨run, rest, hsplit, hrun, h⟩
    cases run with
    | nil => exact .inl (hsplit ▸ h)
    | cons d' run =>
      cases hsplit
      obtain ⟨hd, hrun⟩ := forall_mem_cons.mp hrun
      exact .inr ⟨hd, run, rest, rfl, hrun, h⟩

def Here (items : List Item) (eol : Bool) (text : List Char) : Prop :=
  ∃ m b, text = m ++ b ∧ (eol → b = []) ∧ m ∈ lang items

theorem Here.cons_iff {i items eol} :
    Here (i :: items) eol text ↔ ∃ x rest, text = x ++ rest ∧ x ∈ i.lang ∧ Here items eol rest := by
  constructor
  · rintro ⟨m, b, rfl, hb, hm⟩
    obtain ⟨x, hx, y, hy, rfl⟩ := Language.mem_mul.mp hm
    exact ⟨x, y ++ b, append_assoc .., hx, y, b, rfl, hb, hy⟩
  · rintro ⟨x, rest, rfl, hx, y, b, rfl, hb, hy⟩
    exact ⟨x ++ y, b, (append_assoc ..).symm, hb, Language.mem_mul.mpr ⟨x, hx, y, hy, rfl⟩⟩

theorem Here.nil_iff {eol} : Here [] eol text ↔ (eol → text = []) := by
  constructor
  · rintro ⟨m, b, rfl, hb, hm⟩ he
    rw [(Language.mem_one m).mp hm, hb he, append_nil]
  · exact fun h => ⟨[], text, rfl, h, Language.nil_mem_one⟩

theorem matchhere_iff (re text : List Char) :
    matchhere re text = true ↔ Here (parseItems re).1 (parseItems re).2 text := by
  fun_induction matchhere re text with
  | case1 text => simp [parseItems, Here.nil_iff]
  | case2 c re text ih =>
    rw [matchstar_iff, parseItems, Here.cons_iff]
    simp only [Item.lang, single_kstar, ih]
  | case3 text => simp [parseItems, Here.nil_iff]
  | case4 c re hstar hend =>
    rw [parseItems.eq_4 _ _ hstar hend, Here.cons_iff]
    refine iff_of_false (by decide) ?_
    rintro ⟨x, rest, hsplit, ⟨d, rfl, -⟩, -⟩
    cases hsplit
  | case5 c re d text hstar hend ih =>
    rw [parseItems.eq_4 _ _ hstar hend, Here.cons_iff]
    simp only [Bool.and_eq_true, Bool.or_eq_true, decide_eq_true_eq, ih]
    constructor
    · rintro ⟨hc, h⟩
      exact ⟨[d], text, rfl, ⟨d, rfl, hc⟩, h⟩
    · rintro ⟨x, rest, hsplit, ⟨d', rfl, hc⟩, h⟩
      cases hsplit
      exact ⟨hc, h⟩

theorem matchLoop_iff : matchLoop re text = true ↔ ∃ a rest, text = a ++ rest ∧ matchhere re rest = true := by
  induction text with
  | nil =>
    refine ⟨fun h => ⟨[], [], rfl, h⟩, ?_⟩
    rintro ⟨a, rest, hsplit, h⟩
    obtain ⟨rfl, rfl⟩ := append_eq_nil_iff.mp hsplit.symm
    exact h
  | cons d text ih =>
    simp only [matchLoop, Bool.or_eq_true, ih]
    constructor
    · rintro (h | ⟨a, rest, rfl, h⟩)
      · exact ⟨[], d :: text, rfl, h⟩
      · exact ⟨d :: a, rest, rfl, h⟩
    rintro ⟨a, rest, hsplit, h⟩
    cases a with
    | nil => exact .inl (hsplit ▸ h)
    | cons d' a =>
      cases hsplit
      exact .inr ⟨a, rest, rfl, h⟩

/-- `match` が 1 を返すのは、左から読んだパターンに合う部分列があるときに限る。 -/
theorem match_meets_spec (re text : List Char) : matchRe re text = true ↔ (parse re).Found text := by
  fun_cases matchRe re text with
  | case1 re =>
    rw [matchhere_iff]
    constructor
    · rintro ⟨m, b, rfl, hb, hm⟩
      exact ⟨[], m, b, rfl, fun _ => rfl, hb, hm⟩
    · rintro ⟨a, m, b, rfl, ha, hb, hm⟩
      obtain rfl := ha rfl
      exact ⟨m, b, rfl, hb, hm⟩
  | case2 _ _ hbol =>
    have hparse : parse re = ⟨false, (parseItems re).1, (parseItems re).2⟩ := parse.eq_2 _ hbol
    rw [matchLoop_iff, hparse]
    constructor
    · rintro ⟨a, rest, rfl, h⟩
      obtain ⟨m, b, rfl, hb, hm⟩ := (matchhere_iff ..).mp h
      exact ⟨a, m, b, (append_assoc ..).symm, nofun, hb, hm⟩
    · rintro ⟨a, m, b, rfl, -, hb, hm⟩
      exact ⟨a, m ++ b, append_assoc .., (matchhere_iff ..).mpr ⟨m, b, rfl, hb, hm⟩⟩

-- 先頭でない `^`、末尾でない `$`、先頭の `*` はただの文字である。
example : parse ['^', '*', '$', '^', '$', '*', '$'] = ⟨true, [.one '*', .one '$', .one '^', .star '$'], true⟩ := by decide

end Xv6.Grep
