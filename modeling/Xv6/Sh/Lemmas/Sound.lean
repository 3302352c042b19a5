import Mathlib.Data.List.Forall2
import Xv6.Lib.Fuel
import Xv6.Sh.Lemmas.Lex

/-!
# 構文解析の健全性
-/

namespace Xv6.Sh

open Xv6.Lib List

variable {S s : Ptr} {α β : Type} {t : Token} {ts : List Token}

structure Redir.Ok (S : Ptr) (r : Redir Word) (r' : Redir (List Char)) : Prop where
  file : r.file.Ok S r'.file
  mode : r.mode = r'.mode
  fd : r.fd = r'.fd

/-- 文字列 `S` の中の語を持つ木 `c` は、構文木 `a` を表す。 -/
inductive Denotes (S : Ptr) : Cmd Word → Ast → Prop
  | exec {ws strs} (words : List.Forall₂ (Word.Ok S) ws strs) : Denotes S (.exec ws)
      (.exec strs)
  | redir {c a r r'} (cmd : Denotes S c a) (redir : r.Ok S r') :
      Denotes S (.redir c r) (.redir a r')
  | pipe {c d a b} (left : Denotes S c a) (right : Denotes S d b) : Denotes S (.pipe c d) (.pipe a b)
  | list {c d a b} (left : Denotes S c a) (right : Denotes S d b) : Denotes S (.list c d) (.list a b)
  | back {c a} (cmd : Denotes S c a) : Denotes S (.back c) (.back a)

theorem Denotes.wrap {c a rs rs'} (h : Denotes S c a)
    (hrs : List.Forall₂ (Redir.Ok S) rs rs') : Denotes S (rs.foldl .redir c) (a.wrap rs') := by
  induction hrs generalizing c a with
  | nil => exact h
  | cons hr _ ih => exact ih (.redir h hr)

theorem Denotes.backs {c a} (h : Denotes S c a) (n : Nat) : Denotes S (c.backs n) (a.backs n) := by
  induction n generalizing c a with
  | zero => exact h
  | succ n ih => exact ih h.back

theorem redirect_eq {mk : α → Redir Word → α} {cmd : α} {w : Word} {str : List Char} {r : Redir (List Char)}
    (h : t.redir str = some r) : redirect mk cmd t.code w = mk cmd ⟨w, r.mode, r.fd⟩ := by
  unfold Token.redir at h
  split at h <;> cases h <;> rfl

theorem redir_file {str r} (h : t.redir str = some r) : r.file = str := by
  unfold Token.redir at h
  split at h <;> cases h <;> rfl

theorem foldl_hole {ret : List Word → Cmd Word} {argv : List Word} {rs : List (Redir Word)} :
    (rs.foldl (fun ret r argv => Cmd.redir (ret argv) r) ret) argv = rs.foldl .redir (ret argv) := by
  induction rs generalizing ret with
  | nil => rfl
  | cons r rs ih => exact ih

def Sound (S s : Ptr) (x : Nat → P (α × Ptr)) (Q : List Token → α → Prop) : Prop :=
  ∃ r, Returns x r ∧ r ≠ .error .bounds ∧
    ∀ c s', r = .ok (c, s') → s' <:+ S ∧ ∃ ts, tokens s = ts ++ tokens s' ∧ Q ts c

namespace Sound

variable {x : Nat → P (α × Ptr)} {f : Nat → α × Ptr → P (β × Ptr)} {Q : List Token → α → Prop} {R : List Token → β → Prop}

theorem succ (h : Sound S s (fun k => x (k + 1)) Q) : Sound S s x Q := by
  obtain ⟨r, hr, hrest⟩ := h
  exact ⟨r, hr.succ, hrest⟩

theorem ret {c} (hs : s <:+ S) (hQ : Q [] c) : Sound S s (fun _ => pure (c, skip s)) Q :=
  ⟨_, .const _, nofun, fun _ _ h => by cases h; exact ⟨skip_suffix.trans hs, [], tokens_skip.symm, hQ⟩⟩

theorem panic {msg} : Sound S s (fun _ => Sh.panic msg) Q := ⟨_, .const _, nofun, nofun⟩

theorem mono {Q'} (h : Sound S s x Q) (hQ : ∀ ts c, Q ts c → Q' ts c) : Sound S s x Q' := by
  obtain ⟨r, hr, hb, hok⟩ := h
  refine ⟨r, hr, hb, fun c s' he => ?_⟩
  obtain ⟨hs, ts, ht, hq⟩ := hok c s' he
  exact ⟨hs, ts, ht, hQ ts c hq⟩

/-- 前半の読んだ語の後に、後半の読んだ語が続く。 -/
theorem bind (h : Sound S s x Q) (hf : ∀ c s' ts, s' <:+ S → tokens s = ts ++ tokens s' → Q ts c →
    Sound S s' (fun k => f k (c, s')) fun us d => R (ts ++ us) d) : Sound S s (fun k => x k >>= f k) R := by
  obtain ⟨r, hr, hb, hok⟩ := h
  cases r with
  | error e => exact ⟨_, hr.bind_error, fun he => hb (by cases he; rfl), nofun⟩
  | ok v =>
    obtain ⟨hs, ts, ht, hq⟩ := hok v.1 v.2 rfl
    obtain ⟨r', hr', hb', hok'⟩ := hf v.1 v.2 ts hs ht hq
    refine ⟨r', hr.bind hr', hb', fun d s'' he => ?_⟩
    obtain ⟨hs'', us, hu, hR⟩ := hok' d s'' he
    exact ⟨hs'', ts ++ us, by rw [ht, hu, append_assoc], hR⟩

theorem token (hread : Reads S s t ts) (ht : tokens s = t :: ts) (h : Sound S (gettoken s).s x fun us c => Q (t :: us) c) :
    Sound S s x Q := by
  obtain ⟨r, hr, hb, hok⟩ := h
  refine ⟨r, hr, hb, fun c s' he => ?_⟩
  obtain ⟨hs, us, hu, hq⟩ := hok c s' he
  exact ⟨hs, t :: us, by rw [ht, ← hread.tokens, hu]; rfl, hq⟩

theorem of_skip (h : Sound S (skip s) x Q) : Sound S s x Q := by
  unfold Sound at h
  rwa [tokens_skip] at h

end Sound

variable (hnul : '\x00' ∉ S)

include hnul

theorem parseredirs_sound {mk : α → Redir Word → α} (n : Nat) (cmd : α) (s : Ptr) (hs : s <:+ S) (hn :
    (tokens s).length ≤ n) :
    Sound S s (parseredirs mk cmd s) fun ts c =>
      ∃ rs rs', Redirs ts rs' ∧ List.Forall₂ (Redir.Ok S) rs rs' ∧ c = rs.foldl mk cmd := by
  induction n using Nat.strong_induction_on generalizing cmd s with
  | _ n ih =>
  apply Sound.succ
  simp only [parseredirs]
  obtain ⟨t, ts, ht, hl, hpeek⟩ | ⟨-, hpeek⟩ := peek_cases ['<', '>'] hs hnul
  · rw [hpeek]
    have hread := reads_skip hs hnul ht
    obtain ⟨-, hok, -⟩ := reads hs hnul ht
    refine Sound.of_skip (Sound.token hread (tokens_skip.trans ht) ?_)
    cases hts : ts with
    | nil =>
      have hend := (gettoken_end (hread.tokens.trans hts)).1
      simp only [hend]
      exact .panic
    | cons t' ts' =>
      have ht' := hread.tokens.trans hts
      obtain ⟨hread', hok', -⟩ := reads hread.suffix hnul ht'
      by_cases hword : t'.code = 'a'
      · obtain ⟨w, rfl⟩ := hok'.code_eq_word hword
        obtain ⟨r, hr⟩ := hok.redir_of_head hl w
        have hcode : (gettoken (gettoken (skip s)).s).ret = 'a' := hread'.ret
        simp only [hcode, hread.ret, ne_eq, not_true_eq_false, if_true, if_false]
        rw [redirect_eq hr]
        refine Sound.token hread' ht' ?_
        have hlen : (tokens (gettoken (gettoken (skip s)).s).s).length < n := by
          rw [hread'.tokens]
          rw [ht, hts] at hn
          simp only [length_cons] at hn
          omega
        refine (ih _ hlen _ _ hread'.suffix le_rfl).mono fun us c => ?_
        rintro ⟨rs, rs', hred, hall, rfl⟩
        refine ⟨_ :: rs, r :: rs', .cons hr hred, .cons ⟨?_, rfl, rfl⟩ hall, rfl⟩
        rw [redir_file hr]
        exact hread'.word w rfl
      · simp only [hread'.ret, ne_eq, hword, not_false_eq_true, if_true]
        exact .panic
  · rw [hpeek]
    exact .ret hs ⟨[], [], .nil, .nil, rfl⟩

theorem execLoop_sound (n : Nat) (ret : List Word → Cmd Word) (argv : List Word) (s : Ptr) (hs : s <:+ S)
    (hn : (tokens s).length ≤ n) (hargv : argv.length < maxargs) :
    Sound S s (execLoop ret argv s) fun ts c => ∃ ws strs rs rs', Args ts strs rs' ∧ List.Forall₂ (Word.Ok S) ws strs ∧
      List.Forall₂ (Redir.Ok S) rs rs' ∧ (argv ++ ws).length < maxargs ∧ c = rs.foldl .redir (ret (argv ++ ws)) := by
  induction n using Nat.strong_induction_on generalizing ret argv s with
  | _ n ih =>
  apply Sound.succ
  simp only [execLoop]
  have hdone : ∃ ws strs rs rs', Args [] strs rs' ∧ List.Forall₂ (Word.Ok S) ws strs ∧ List.Forall₂ (Redir.Ok S) rs rs' ∧
      (argv ++ ws).length < maxargs ∧ ret argv = rs.foldl .redir (ret (argv ++ ws)) :=
    ⟨[], [], [], [], .nil, .nil, .nil, by rwa [append_nil], by rw [append_nil]; rfl⟩
  obtain ⟨t, ts, ht, -, hpeek⟩ | ⟨-, hpeek⟩ := peek_cases ['|', ')', '&', ';'] hs hnul
  · rw [hpeek]
    simp only [finish, hargv, if_true]
    exact .ret hs hdone
  rw [hpeek]
  cases ht : tokens s with
  | nil =>
    obtain ⟨hret, hend⟩ := gettoken_end (tokens_skip.trans ht)
    simp only [hret, hend, finish, hargv, if_true, Bool.false_eq_true, if_false]
    refine ⟨_, .const _, nofun, fun c s' he => ?_⟩
    cases he
    exact ⟨nil_suffix, [], ht, hdone⟩
  | cons t ts =>
    have hread := reads_skip hs hnul ht
    obtain ⟨-, hok, -⟩ := reads hs hnul ht
    by_cases hword : t.code = 'a'
    · obtain ⟨w, rfl⟩ := hok.code_eq_word hword
      have h0 : 'a' ≠ '\x00' := by decide
      simp only [hread.ret, Token.code, h0, Bool.false_eq_true, ne_eq, not_true_eq_false, if_false,
          Nat.not_le.mpr hargv]
      split
      · exact .panic
      rename_i hfew
      refine Sound.of_skip (Sound.token hread (tokens_skip.trans ht) ?_)
      refine Sound.bind (parseredirs_sound hnul _ ret _ hread.suffix le_rfl) fun ret' s' ts' hs' hts' => ?_
      rintro ⟨rs, rs', hred, hall, rfl⟩
      have hlen : (tokens s').length < n := by
        have := hread.tokens
        rw [hts'] at this
        rw [ht, ← this] at hn
        simp only [length_cons, length_append] at hn
        omega
      refine (ih _ hlen _ _ _ hs' le_rfl (Nat.lt_of_not_le hfew)).mono fun us c => ?_
      rintro ⟨ws, strs, rs2, rs2', hargs, hws, hrs2, hcount, rfl⟩
      refine ⟨⟨_, _⟩ :: ws, w :: strs, rs ++ rs2, rs' ++ rs2', .cons hred hargs, .cons (hread.word w rfl) hws,
        rel_append hall hrs2, by simpa using hcount, ?_⟩
      dsimp only
      rw [foldl_append, append_assoc, foldl_hole]
      rfl
    simp only [hread.ret, hword, Bool.false_eq_true, ne_eq, not_false_eq_true, if_true, if_false]
    split
    · rename_i h0
      -- 字句があれば、`gettoken` は 0 を返さない。
      exfalso
      cases t with
      | word w => exact hword rfl
      | sym c =>
        obtain rfl : c = '\x00' := h0
        exact absurd (show '\x00' ∈ symbols from hok) (by decide)
      | app => exact absurd h0 (by decide)
    · exact .panic

theorem backLoop_sound (n : Nat) (cmd : Cmd Word) (s : Ptr) (hs : s <:+ S) (hn : (tokens s).length ≤ n) :
    Sound S s (backLoop cmd s) fun ts c => ∃ m, ts = List.replicate m (.sym '&') ∧ c = cmd.backs m := by
  induction n using Nat.strong_induction_on generalizing cmd s with
  | _ n ih =>
  apply Sound.succ
  simp only [backLoop]
  obtain ⟨t, ts, ht, hl, hpeek⟩ | ⟨-, hpeek⟩ := peek_cases ['&'] hs hnul
  · rw [hpeek]
    have hread := reads_skip hs hnul ht
    obtain ⟨-, hok, -⟩ := reads hs hnul ht
    obtain rfl := hok.eq_sym (c := '&') (by decide) (by decide) (mem_singleton.mp hl)
    refine Sound.of_skip (Sound.token hread (tokens_skip.trans ht) ?_)
    have hlen : (tokens (gettoken (skip s)).s).length < n := by
      rw [hread.tokens]
      rw [ht] at hn
      exact hn
    refine (ih _ hlen _ _ hread.suffix le_rfl).mono fun us c => ?_
    rintro ⟨m, rfl, rfl⟩
    exact ⟨m + 1, rfl, rfl⟩
  · rw [hpeek]
    exact .ret hs ⟨0, rfl, rfl⟩

def Derived (S : Ptr) (C : Cat) (ts : List Token) (c : Cmd Word) : Prop := ∃ a, Derives C ts a ∧ Denotes S c a

section Recursion

variable {n : Nat} (hline : ∀ s, s <:+ S → (tokens s).length < n → Sound S s (parseline s) (Derived S .line))

include hline

theorem parseblock_sound (hs : s <:+ S) (hn : (tokens s).length ≤ n) (hopen : ∃ ts, tokens s = .sym '(' :: ts) :
    Sound S s (parseblock s) (Derived S .command) := by
  obtain ⟨ts, ht⟩ := hopen
  have hread := reads_skip hs hnul ht
  apply Sound.succ
  simp only [parseblock]
  rw [peek_true hs hnul ht (by decide)]
  refine Sound.of_skip (Sound.token hread (tokens_skip.trans ht) ?_)
  refine Sound.bind (hline _ hread.suffix ?_) fun c s' us hs' hus => ?_
  · rw [hread.tokens]
    rw [ht] at hn
    exact hn
  rintro ⟨a, ha, hc⟩
  obtain ⟨t', ts', ht', hl', hpeek'⟩ | ⟨-, hpeek'⟩ := peek_cases [')'] hs' hnul
  · simp only [hpeek']
    have hread' := reads_skip hs' hnul ht'
    obtain ⟨-, hok', -⟩ := reads hs' hnul ht'
    obtain rfl := hok'.eq_sym (c := ')') (by decide) (by decide) (mem_singleton.mp hl')
    refine Sound.of_skip (Sound.token hread' (tokens_skip.trans ht') ?_)
    refine (parseredirs_sound hnul _ c _ hread'.suffix le_rfl).mono fun vs d => ?_
    rintro ⟨rs, rs', hred, hall, rfl⟩
    exact ⟨a.wrap rs', .block ha hred, hc.wrap hall⟩
  · simp only [hpeek']
    exact .panic

theorem parseexec_sound (hs : s <:+ S) (hn : (tokens s).length ≤ n) : Sound S s (parseexec s) (Derived S .command) := by
  apply Sound.succ
  simp only [parseexec]
  obtain ⟨t, ts, ht, hl, hpeek⟩ | ⟨-, hpeek⟩ := peek_cases ['('] hs hnul
  · simp only [hpeek]
    obtain ⟨-, hok, -⟩ := reads hs hnul ht
    obtain rfl := hok.eq_sym (c := '(') (by decide) (by decide) (mem_singleton.mp hl)
    refine Sound.of_skip (parseblock_sound hnul hline (skip_suffix.trans hs) (by rwa [tokens_skip]) ⟨ts, ?_⟩)
    rw [tokens_skip, ht]
  simp only [hpeek]
  refine Sound.of_skip ?_
  refine Sound.bind (parseredirs_sound hnul _ Cmd.exec _ (skip_suffix.trans hs) le_rfl) fun ret s' ts hs' _ => ?_
  rintro ⟨rs, rs', hred, hall, rfl⟩
  refine (execLoop_sound hnul _ _ [] s' hs' le_rfl (by decide)).mono fun us c => ?_
  rintro ⟨ws, strs, rs2, rs2', hargs, hws, hrs2, hcount, rfl⟩
  have hlen : strs.length ≤ maxargs - 1 := by
    rw [← hws.length_eq]
    simp only [nil_append] at hcount
    omega
  refine ⟨(Cmd.exec strs).wrap (rs' ++ rs2'), .exec hred hargs hlen, ?_⟩
  dsimp only
  rw [foldl_hole, ← foldl_append]
  exact (Denotes.exec hws).wrap (rel_append hall hrs2)

theorem parsepipe_sound (m : Nat) (hm : m ≤ n) (s : Ptr) (hs : s <:+ S) (hn : (tokens s).length ≤ m) :
    Sound S s (parsepipe s) (Derived S .pipeline) := by
  induction m using Nat.strong_induction_on generalizing s with
  | _ m ih =>
  apply Sound.succ
  simp only [parsepipe]
  refine Sound.bind (parseexec_sound hnul hline hs (by omega)) fun c s' ts hs' hts => ?_
  rintro ⟨a, ha, hc⟩
  obtain ⟨t, us, ht, hl, hpeek⟩ | ⟨-, hpeek⟩ := peek_cases ['|'] hs' hnul
  · simp only [hpeek]
    have hread := reads_skip hs' hnul ht
    obtain ⟨-, hok, -⟩ := reads hs' hnul ht
    obtain rfl := hok.eq_sym (c := '|') (by decide) (by decide) (mem_singleton.mp hl)
    have hlen : (tokens (gettoken (skip s')).s).length < m := by
      rw [hread.tokens]
      rw [hts, ht] at hn
      simp only [length_append, length_cons] at hn
      omega
    refine Sound.of_skip (Sound.token hread (tokens_skip.trans ht) ?_)
    refine Sound.bind (ih _ hlen (by omega) _ hread.suffix le_rfl) fun d s'' vs hs'' _ => ?_
    rintro ⟨b, hb, hd⟩
    refine ⟨_, .const _, nofun, fun e s3 he => ?_⟩
    cases he
    refine ⟨hs'', [], rfl, .pipe a b, ?_, .pipe hc hd⟩
    rw [append_nil]
    exact .pipe ha hb
  · simp only [hpeek]
    exact .ret hs' ⟨a, by rw [append_nil]; exact .single ha, hc⟩

end Recursion

theorem parseline_sound (n : Nat) (s : Ptr) (hs : s <:+ S) (hn : (tokens s).length ≤ n) :
    Sound S s (parseline s) (Derived S .line) := by
  -- 括弧の中と `;` の後では、残りの字句が減る。
  induction n using Nat.strong_induction_on generalizing s with
  | _ n ih =>
  have hline : ∀ s, s <:+ S → (tokens s).length < n → Sound S s (parseline s) (Derived S .line) :=
    fun s hs hlt => ih _ hlt s hs le_rfl
  apply Sound.succ
  simp only [parseline]
  refine Sound.bind (parsepipe_sound hnul hline n le_rfl s hs hn) fun c s1 ts hs1 hts => ?_
  rintro ⟨a, ha, hc⟩
  refine Sound.bind (backLoop_sound hnul _ c s1 hs1 le_rfl) fun c' s2 us hs2 hus => ?_
  rintro ⟨m, rfl, rfl⟩
  obtain ⟨t, vs, ht, hl, hpeek⟩ | ⟨-, hpeek⟩ := peek_cases [';'] hs2 hnul
  · simp only [hpeek]
    have hread := reads_skip hs2 hnul ht
    obtain ⟨-, hok, -⟩ := reads hs2 hnul ht
    obtain rfl := hok.eq_sym (c := ';') (by decide) (by decide) (mem_singleton.mp hl)
    have hlen : (tokens (gettoken (skip s2)).s).length < n := by
      rw [hread.tokens]
      rw [hts, hus, ht] at hn
      simp only [length_append, length_cons] at hn
      omega
    refine Sound.of_skip (Sound.token hread (tokens_skip.trans ht) ?_)
    refine Sound.bind (hline _ hread.suffix hlen) fun d s3 ws hs3 _ => ?_
    rintro ⟨b, hb, hd⟩
    refine ⟨_, .const _, nofun, fun e s4 he => ?_⟩
    cases he
    refine ⟨hs3, [], rfl, .list (a.backs m) b, ?_, .list (hc.backs m) hd⟩
    rw [append_nil, ← append_assoc]
    exact .list m ha hb
  · simp only [hpeek]
    refine .ret hs2 ⟨a.backs m, ?_, hc.backs m⟩
    rw [append_nil]
    exact .last m ha

end Xv6.Sh
