import Mathlib.Data.List.TakeWhile
import Xv6.Sh.Grammar

/-!
# 字句
-/

namespace Xv6.Sh

open List

variable {S s r : Ptr} {t : Token} {ts : List Token} {c : Char} {w : List Char}

def Token.head : Token → Char
  | .word w => w.headD '\x00'
  | .sym c => c
  | .app => '>'

def Token.code : Token → Char
  | .word _ => 'a'
  | .sym c => c
  | .app => '+'

theorem lex_word (hc : wordChar c = true) : lex w (c :: s) = lex (w ++ [c]) s := by
  rw [lex.eq_3, if_pos hc]
  rintro s' rfl
  simp [wordChar, symbols] at hc

theorem lex_space (hc : c ∈ whitespace) : lex w (c :: s) = flush w ++ lex [] s := by
  rw [lex.eq_3, if_neg (by simp [wordChar, hc]), if_pos (contains_iff_mem.mpr hc)]
  rintro s' rfl
  simp [whitespace] at hc

theorem lex_sym (hc : c ∈ symbols) (hgt : c = '>' → deref s ≠ '>') : lex w (c :: s) = flush w ++ .sym c :: lex [] s := by
  have hw : ¬whitespace.contains c = true := by
    simp only [symbols, mem_cons, not_mem_nil, or_false] at hc
    obtain rfl | rfl | rfl | rfl | rfl | rfl | rfl := hc <;> decide
  have hword : ¬wordChar c = true := by simp [wordChar, hc]
  rw [lex.eq_3, if_neg hword, if_neg hw]
  rintro s' rfl hs
  exact hgt rfl (by rw [hs]; rfl)

theorem lex_run {run} (hrun : ∀ c ∈ run, wordChar c = true) : lex w (run ++ s) = lex (w ++ run) s := by
  induction run generalizing w with
  | nil => simp
  | cons c run ih =>
    rw [cons_append, lex_word (hrun c mem_cons_self), ih fun d hd => hrun d (mem_cons_of_mem c hd),
      append_assoc]
    rfl

theorem lex_flush (hs : ∀ c r, s = c :: r → wordChar c = false) : lex w s = flush w ++ lex [] s := by
  cases s with
  | nil => simp [lex, flush]
  | cons c r =>
    have hc := hs c r rfl
    by_cases hw : c ∈ whitespace
    · rw [lex_space hw, lex_space hw]
      simp [flush]
    by_cases hgt : c = '>' ∧ deref r = '>'
    · obtain ⟨rfl, hr⟩ := hgt
      cases r with
      | nil => cases hr
      | cons d r =>
        obtain rfl : d = '>' := hr
        simp [lex, flush]
    · have hsym : c ∈ symbols := by
        by_contra hno
        simp [wordChar, hw, hno] at hc
      rw [lex_sym hsym (fun h1 h2 => hgt ⟨h1, h2⟩), lex_sym hsym (fun h1 h2 => hgt ⟨h1, h2⟩)]
      simp [flush]

theorem tokens_skip : tokens (skip s) = tokens s := by
  induction s with
  | nil => rfl
  | cons c s ih =>
    by_cases hc : c ∈ whitespace
    · have : skip (c :: s) = skip s := dropWhile_cons_of_pos (contains_iff_mem.mpr hc)
      rw [this, ih, tokens, tokens, lex_space hc]
      rfl
    · have : skip (c :: s) = c :: s := dropWhile_cons_of_neg (by simpa using hc)
      rw [this]

theorem skip_head (h : skip s = c :: r) : c ∉ whitespace := by
  have := head?_dropWhile_not (fun c => whitespace.contains c) s
  rw [show s.dropWhile (fun c => whitespace.contains c) = c :: r from h] at this
  simpa using this

theorem skip_suffix : skip s <:+ s := dropWhile_suffix _ 
/-- 語 `w` は、文字列 `S` の中の、語に使える文字の極大な続きである。 -/
structure Word.Ok (S : Ptr) (w : Word) (str : List Char) : Prop where
  suffix : w.q <:+ S
  split : w.q = str ++ w.eq
  chars : ∀ c ∈ str, wordChar c = true
  stop : ∀ c r, w.eq = c :: r → wordChar c = false

structure Reads (S s : Ptr) (t : Token) (ts : List Token) : Prop where
  ret : (gettoken s).ret = t.code
  tokens : tokens (gettoken s).s = ts
  suffix : (gettoken s).s <:+ S
  word : ∀ w, t = .word w → Word.Ok S ⟨(gettoken s).q, (gettoken s).eq⟩ w

def Token.Ok : Token → Prop
  | .word w => w ≠ [] ∧ ∀ c ∈ w, wordChar c = true
  | .sym c => c ∈ symbols
  | .app => True

theorem wordChar_iff : wordChar c = true ↔ c ∉ whitespace ∧ c ∉ symbols := by simp [wordChar]

theorem wordChar_stop (h : s.dropWhile wordChar = c :: r) : wordChar c = false := by
  have := head?_dropWhile_not wordChar s
  rw [h] at this
  simpa using this

theorem tokens_cons (hc : c ∉ whitespace) :
    (c ∈ symbols ∧ ¬(c = '>' ∧ deref r = '>') ∧ tokens (c :: r) = .sym c :: tokens r) ∨
    (c = '>' ∧ deref r = '>' ∧ tokens (c :: r) = .app :: tokens r.tail) ∨
    wordChar c = true ∧ tokens (c :: r) = .word ((c :: r).takeWhile wordChar) :: tokens ((c :: r).dropWhile wordChar) := by
  by_cases hsym : c ∈ symbols
  · by_cases hgt : c = '>' ∧ deref r = '>'
    · refine .inr (.inl ⟨hgt.1, hgt.2, ?_⟩)
      obtain ⟨rfl, hr⟩ := hgt
      cases r with
      | nil => cases hr
      | cons d r =>
        obtain rfl : d = '>' := hr
        rfl
    · exact .inl ⟨hsym, hgt, lex_sym hsym fun h1 h2 => hgt ⟨h1, h2⟩⟩
  have hw : wordChar c = true := wordChar_iff.mpr ⟨hc, hsym⟩
  refine .inr (.inr ⟨hw, ?_⟩)
  have hne : (c :: r).takeWhile wordChar ≠ [] := by simp [hw]
  conv_lhs => rw [← takeWhile_append_dropWhile (p := wordChar) (l := c :: r)]
  rw [tokens, lex_run fun d hd => mem_takeWhile_imp hd, nil_append, lex_flush (fun _ _ => wordChar_stop),
      flush, if_neg hne]
  rfl

theorem tokens_nil_iff : tokens s = [] ↔ skip s = [] := by
  rw [← tokens_skip]
  constructor
  · intro h
    cases hs : skip s with
    | nil => rfl
    | cons c r =>
      rw [hs] at h
      obtain ⟨-, -, h'⟩ | ⟨-, -, h'⟩ | ⟨-, h'⟩ := tokens_cons (r := r) (skip_head hs) <;> rw [h'] at h <;> cases h
  · intro h
    rw [h]
    rfl

theorem gettoken_end (h : tokens s = []) : (gettoken s).ret = '\x00' ∧ (gettoken s).s = [] := by
  have hs := tokens_nil_iff.mp h
  simp only [gettoken, hs]
  exact ⟨trivial, rfl⟩

theorem gettoken_word (hsk : skip s = c :: r) (hc0 : c ≠ '\x00') (hw : wordChar c = true) :
    gettoken s = ⟨'a', c :: r, (c :: r).dropWhile wordChar, skip ((c :: r).dropWhile wordChar)⟩ := by
  obtain ⟨-, hsym⟩ := wordChar_iff.mp hw
  simp only [gettoken, hsk, if_neg hc0]
  rw [if_neg, if_neg]
  · rfl
  · rintro rfl
    exact hsym (by decide)
  · rintro (rfl | rfl | rfl | rfl | rfl | rfl) <;> exact hsym (by decide)

section

variable (hs : s <:+ S) (hnul : '\x00' ∉ S)
include hs hnul

/-- `gettoken` は `tokens` の先頭をちょうど一つ読む。 -/
theorem reads (ht : tokens s = t :: ts) : Reads S s t ts ∧ t.Ok ∧ deref (skip s) = t.head := by
  cases hsk : skip s with
  | nil =>
    rw [tokens_nil_iff.mpr hsk] at ht
    cases ht
  | cons c r =>
    have hsuf : (c :: r) <:+ S := hsk ▸ skip_suffix.trans hs
    have hr : r <:+ S := (suffix_cons c r).trans hsuf
    have hc := skip_head hsk
    have hc0 : c ≠ '\x00' := fun he => hnul (hsuf.subset (he ▸ mem_cons_self))
    rw [← tokens_skip, hsk] at ht
    obtain ⟨hsym, hgt, htok⟩ | ⟨rfl, hgt, htok⟩ | ⟨hw, htok⟩ := tokens_cons (r := r) hc
    · rw [htok] at ht
      cases ht
      -- `>` だけが、次の文字も見る。
      have hget : gettoken s = ⟨c, c :: r, r, skip r⟩ := by
        simp only [gettoken, hsk, if_neg hc0]
        by_cases hcg : c = '>'
        · subst hcg
          rw [if_neg (by decide), if_pos rfl, if_neg fun h => hgt ⟨rfl, h⟩]
        · rw [if_pos]
          simp only [symbols, mem_cons, not_mem_nil, or_false] at hsym
          tauto
      exact ⟨⟨by rw [hget]; rfl, by rw [hget]; exact tokens_skip, by rw [hget]; exact skip_suffix.trans hr, nofun⟩, hsym, rfl⟩
    · rw [htok] at ht
      cases ht
      have hget : gettoken s = ⟨'+', '>' :: r, r.tail, skip r.tail⟩ := by
        simp only [gettoken, hsk]
        rw [if_neg (by decide), if_neg (by decide), if_pos trivial, if_pos hgt]
      exact ⟨⟨by rw [hget]; rfl, by rw [hget]; exact tokens_skip,
        by rw [hget]; exact skip_suffix.trans ((tail_suffix r).trans hr), nofun⟩, trivial, rfl⟩
    rw [htok] at ht
    cases ht
    have hget := gettoken_word hsk hc0 hw
    refine ⟨⟨by rw [hget]; rfl, by rw [hget]; exact tokens_skip,
      by rw [hget]; exact skip_suffix.trans ((dropWhile_suffix _).trans hsuf), ?_⟩, ⟨by simp [hw], ?_⟩, ?_⟩
    · intro w hw'
      cases hw'
      rw [hget]
      refine ⟨hsuf, takeWhile_append_dropWhile.symm, fun d hd => mem_takeWhile_imp hd,
          fun _ _ => wordChar_stop⟩
    · exact fun d hd => mem_takeWhile_imp hd
    · simp [deref, Token.head, hw]

theorem peek_true {l} (ht : tokens s = t :: ts) (hl : t.head ∈ l) :
    peek s l = (true, skip s) := by
  obtain ⟨-, -, hd⟩ := reads hs hnul ht
  have hne : t.head ≠ '\x00' := by
    rw [← hd]
    cases hsk : skip s with
    | nil =>
      rw [tokens_nil_iff.mpr hsk] at ht
      cases ht
    | cons c r =>
      intro he
      exact hnul ((skip_suffix.trans hs).subset (by rw [hsk]; exact he ▸ mem_cons_self))
  simp [peek, hd, hne, hl]

theorem peek_false {l} (h : ∀ t ts, tokens s = t :: ts → t.head ∉ l) :
    peek s l = (false, skip s) := by
  cases ht : tokens s with
  | nil => simp [peek, tokens_nil_iff.mp ht, deref]
  | cons t ts =>
    obtain ⟨-, -, hd⟩ := reads hs hnul ht
    simp [peek, hd, h t ts ht]

end

theorem peek_cases (l : List Char) (hs : s <:+ S) (hnul : '\x00' ∉ S) :
    (∃ t ts, tokens s = t :: ts ∧ t.head ∈ l ∧ peek s l = (true, skip s)) ∨
      (∀ t ts, tokens s = t :: ts → t.head ∉ l) ∧ peek s l = (false, skip s) := by
  by_cases h : ∃ t ts, tokens s = t :: ts ∧ t.head ∈ l
  · obtain ⟨t, ts, ht, hl⟩ := h
    exact .inl ⟨t, ts, ht, hl, peek_true hs hnul ht hl⟩
  · have h' : ∀ t ts, tokens s = t :: ts → t.head ∉ l := fun t ts ht hl => h ⟨t, ts, ht, hl⟩
    exact .inr ⟨h', peek_false hs hnul h'⟩

theorem reads_skip (hs : s <:+ S) (hnul : '\x00' ∉ S) (ht : tokens s = t :: ts) : Reads S (skip s) t ts :=
  (reads (skip_suffix.trans hs) hnul (tokens_skip.trans ht)).1

theorem Token.Ok.eq_sym (ht : t.Ok) (hc : c ∈ symbols) (hgt : c ≠ '>') (h : t.head = c) : t = .sym c := by
  cases t with
  | word w =>
    obtain ⟨hne, hw⟩ := ht
    cases w with
    | nil => exact absurd rfl hne
    | cons d w =>
      obtain rfl : d = c := h
      exact absurd hc (wordChar_iff.mp (hw d mem_cons_self)).2
  | sym d => exact congrArg _ h
  | app => exact absurd h.symm hgt

theorem Token.Ok.head_not_mem {l} (ht : (Token.word w).Ok) (hl : l ⊆ symbols) : (Token.word w).head ∉ l := by
  obtain ⟨hne, hw⟩ := ht
  cases w with
  | nil => exact absurd rfl hne
  | cons d w => exact fun h => (wordChar_iff.mp (hw d mem_cons_self)).2 (hl h)

theorem Token.Ok.code_eq_word (ht : t.Ok) (h : t.code = 'a') : ∃ w, t = .word w := by
  cases t with
  | word w => exact ⟨w, rfl⟩
  | sym c =>
    obtain rfl : c = 'a' := h
    exact absurd (show 'a' ∈ symbols from ht) (by decide)
  | app => exact absurd h (by decide)

theorem Token.Ok.redir_of_head (ht : t.Ok) (h : t.head ∈ ['<', '>']) : ∀ w, ∃ r, t.redir w = some r := by
  simp only [mem_cons, not_mem_nil, or_false] at h
  cases t with
  | word w => exact absurd (by simpa using h) (ht.head_not_mem (l := ['<', '>']) (by decide))
  | sym c =>
    obtain rfl | rfl : c = '<' ∨ c = '>' := h
    · exact fun w => ⟨_, rfl⟩
    · exact fun w => ⟨_, rfl⟩
  | app => exact fun w => ⟨_, rfl⟩

end Xv6.Sh
