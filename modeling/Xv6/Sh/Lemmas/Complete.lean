import Xv6.Sh.Lemmas.Sound

/-!
# 構文解析の完全性
-/

namespace Xv6.Sh

open Xv6.Lib List

variable {S s : Ptr} {α β : Type} {t : Token} {ts us : List Token}

def Follow (l : List Char) (us : List Token) : Prop := ∀ t ts, us = t :: ts → t.head ∈ l

theorem Follow.mono {l m} (h : Follow l us) (hlm : l ⊆ m) : Follow m us := fun t ts ht => hlm (h t ts ht)

theorem Follow.cons {l} (h : t.head ∈ l) : Follow l (t :: ts) := by
  rintro t' ts' ht
  cases ht
  exact h

def apart (l m : List Char) : Bool := l.all fun c => !m.contains c

theorem Follow.disjoint {l m} (h : Follow l us) (hlm : apart l m = true) : ∀ t ts, us = t :: ts →
    t.head ∉ m := by
  intro t ts ht
  simpa using all_eq_true.mp hlm _ (h t ts ht)

def Yields (S : Ptr) (x : Nat → P (α × Ptr)) (us : List Token) (Q : α → Prop) : Prop :=
  ∃ c s', Returns x (.ok (c, s')) ∧ s' <:+ S ∧ tokens s' = us ∧ Q c

namespace Yields

variable {x : Nat → P (α × Ptr)} {f : Nat → α × Ptr → P (β × Ptr)} {Q : α → Prop} {R : β → Prop}

theorem succ (h : Yields S (fun k => x (k + 1)) us Q) : Yields S x us Q := by
  obtain ⟨c, s', hr, hrest⟩ := h
  exact ⟨c, s', hr.succ, hrest⟩

theorem ret {c} (hs : s <:+ S) (ht : tokens s = us) (hQ : Q c) : Yields S (fun _ => pure (c, s)) us Q :=
  ⟨c, s, .const _, hs, ht, hQ⟩

theorem mono {Q'} (h : Yields S x us Q) (hQ : ∀ c, Q c → Q' c) : Yields S x us Q' := by
  obtain ⟨c, s', hr, hs, ht, hc⟩ := h
  exact ⟨c, s', hr, hs, ht, hQ c hc⟩

theorem bind (h : Yields S x ts Q)
    (hf : ∀ c s', s' <:+ S → tokens s' = ts → Q c → Yields S (fun k => f k (c, s')) us R) :
    Yields S (fun k => x k >>= f k) us R := by
  obtain ⟨c, s', hr, hs, ht, hc⟩ := h
  obtain ⟨d, s'', hr', hrest⟩ := hf c s' hs ht hc
  exact ⟨d, s'', hr.bind hr', hrest⟩

end Yields

variable (hnul : '\x00' ∉ S)

include hnul

theorem parseredirs_complete {mk rs'} (h : Redirs ts rs') (cmd : α)
    (hs : s <:+ S) (ht : tokens s = ts ++ us) (hus : ∀ t vs, us = t :: vs → t.head ∉ ['<', '>']) :
    Yields S (parseredirs mk cmd s) us fun c => ∃ rs, List.Forall₂ (Redir.Ok S) rs rs' ∧ c = rs.foldl mk cmd := by
  induction h generalizing cmd s with
  | nil =>
    apply Yields.succ
    simp only [parseredirs]
    rw [peek_false hs hnul (by rw [ht]; exact hus)]
    exact .ret (skip_suffix.trans hs) (tokens_skip.trans ht) ⟨[], .nil, rfl⟩
  | @cons t w r ts rs' hr _ ih =>
    have hread := reads_skip hs hnul ht
    obtain ⟨hread', -, -⟩ := reads hread.suffix hnul hread.tokens
    have hhead : t.head ∈ ['<', '>'] := by
      unfold Token.redir at hr
      split at hr <;> first | decide | cases hr
    apply Yields.succ
    simp only [parseredirs]
    rw [peek_true hs hnul ht hhead]
    have hcode : (gettoken (gettoken (skip s)).s).ret = 'a' := hread'.ret
    simp only [hcode, hread.ret, ne_eq, not_true_eq_false, if_true, if_false]
    rw [redirect_eq hr]
    refine (ih _ hread'.suffix hread'.tokens).mono fun c => ?_
    rintro ⟨rs, hall, rfl⟩
    refine ⟨_ :: rs, .cons ⟨?_, rfl, rfl⟩ hall, rfl⟩
    rw [redir_file hr]
    exact hread'.word w rfl

theorem tokens_ok (hs : s <:+ S) : ∀ t ∈ tokens s, t.Ok := by
  generalize ht : tokens s = ts
  induction ts generalizing s with
  | nil => nofun
  | cons t ts ih =>
    obtain ⟨hread, hok, -⟩ := reads hs hnul ht
    intro t' ht'
    obtain rfl | ht' := mem_cons.mp ht'
    · exact hok
    · exact ih hread.suffix hread.tokens t' ht'

omit hnul in
theorem Args.head {vs strs rs l m}
    (h : Args ts strs rs) (hok : ∀ t ∈ ts, t.Ok) (hus : Follow l us) (hlm : apart l m = true) (hm : m ⊆ symbols)
    (he : ts ++ us = t :: vs) : t.head ∉ m := by
  cases h with
  | nil => exact hus.disjoint hlm t vs he
  | cons hred hargs =>
    obtain ⟨rfl, -⟩ := List.cons.inj he
    exact (hok _ mem_cons_self).head_not_mem hm

theorem execLoop_complete {strs rs'} (h : Args ts strs rs')
    (ret : List Word → Cmd Word) (argv : List Word) (hs : s <:+ S) (ht : tokens s = ts ++ us) (hus : Follow ['|',
        ')', '&', ';'] us)
    (hfew : argv.length + strs.length < maxargs) :
    Yields S (execLoop ret argv s) us fun c => ∃ ws rs, List.Forall₂ (Word.Ok S) ws strs ∧
      List.Forall₂ (Redir.Ok S) rs rs' ∧ c = rs.foldl .redir (ret (argv ++ ws)) := by
  induction h generalizing ret argv s with
  | nil =>
    apply Yields.succ
    simp only [execLoop]
    have hlt : argv.length < maxargs := by simpa using hfew
    have hdone : ∃ ws rs, List.Forall₂ (Word.Ok S) ws [] ∧ List.Forall₂ (Redir.Ok S) rs [] ∧
        ret argv = rs.foldl .redir (ret (argv ++ ws)) := ⟨[], [], .nil, .nil, by rw [append_nil]; rfl⟩
    cases us with
    | nil =>
      obtain ⟨hret, hend⟩ := gettoken_end (tokens_skip.trans ht)
      rw [peek_false hs hnul (by rw [ht]; rintro _ _ ⟨⟩)]
      simp only [hret, hend, finish, hlt, if_true, Bool.false_eq_true, if_false]
      exact .ret nil_suffix rfl hdone
    | cons t us =>
      rw [peek_true hs hnul ht (hus t us rfl)]
      simp only [finish, hlt, if_true]
      exact .ret (skip_suffix.trans hs) (tokens_skip.trans ht) hdone
  | @cons w ts vs ws rs' rs2' hred hargs ih =>
    have ht' : tokens s = .word w :: (ts ++ vs ++ us) := by
      rw [ht]
      simp
    have hread := reads_skip hs hnul ht'
    have hok := ht' ▸ tokens_ok hnul hs
    have hlt : argv.length < maxargs := by
      simp only [length_cons] at hfew
      omega
    have hlt' : ¬maxargs ≤ (argv ++ [Word.mk (gettoken (skip s)).q (gettoken (skip s)).eq]).length := by
      simp only [length_append, length_cons, length_nil] at hfew ⊢
      omega
    have h0 : 'a' ≠ '\x00' := by decide
    have hcode : (gettoken (skip s)).ret = 'a' := hread.ret
    apply Yields.succ
    simp only [execLoop]
    rw [peek_false hs hnul (by
      intro t ts'' h
      rw [ht'] at h
      cases h
      exact (hok _ mem_cons_self).head_not_mem (by decide))]
    simp only [hcode, h0, Bool.false_eq_true, ne_eq, not_true_eq_false, if_false, Nat.not_le.mpr hlt, hlt']
    have hvs : ∀ t ∈ vs, t.Ok := fun t h => hok t (by simp [h])
    refine Yields.bind (parseredirs_complete hnul hred ret hread.suffix (by rw [hread.tokens, append_assoc])
      fun t vs' => hargs.head hvs hus (by decide) (by decide))
      fun ret' s' hs' ht'' => ?_
    rintro ⟨rs, hall, rfl⟩
    refine (ih _ _ hs' ht'' ?_).mono fun c => ?_
    · simp only [length_append, length_cons, length_nil] at hfew ⊢
      omega
    · rintro ⟨ws2, rs2, hws, hrs2, rfl⟩
      refine ⟨⟨_, _⟩ :: ws2, rs ++ rs2, .cons (hread.word w rfl) hws, rel_append hall hrs2, ?_⟩
      dsimp only
      rw [foldl_append, append_assoc, foldl_hole]
      rfl

theorem backLoop_complete {n} (cmd : Cmd Word) (hs : s <:+ S) (ht : tokens s = List.replicate n (.sym '&') ++ us)
    (hus : ∀ t vs, us = t :: vs → t.head ∉ ['&']) : Yields S (backLoop cmd s) us fun c => c = cmd.backs n := by
  induction n generalizing cmd s with
  | zero =>
    apply Yields.succ
    simp only [backLoop]
    rw [peek_false hs hnul (by rw [ht]; exact hus)]
    exact .ret (skip_suffix.trans hs) (tokens_skip.trans ht) rfl
  | succ n ih =>
    have hread := reads_skip hs hnul ht
    apply Yields.succ
    simp only [backLoop]
    rw [peek_true hs hnul ht (by decide)]
    exact ih (.back cmd) hread.suffix hread.tokens

omit hnul in
def parser : Cat → Ptr → Nat → P (Cmd Word × Ptr)
  | .line => parseline
  | .pipeline => parsepipe
  | .command => parseexec

omit hnul in
/-- 非終端記号の後に続いてよい字句の、最初の文字。 -/
def follow : Cat → List Char
  | .line => [')']
  | .pipeline => [')', '&', ';']
  | .command => ['|', ')', '&', ';']

/-- 文法から導ける語の列は、後に `follow` の語が続けば解析できる。 -/
theorem parser_complete {C a} (h : Derives C ts a) (hs : s <:+ S) (ht : tokens s = ts ++ us)
    (hus : Follow (follow C) us) : Yields S (parser C s) us fun c => Denotes S c a := by
  induction h generalizing s us with
  | @block ts vs a rs' _ hred ih =>
    have ht' : tokens s = .sym '(' :: (ts ++ .sym ')' :: (vs ++ us)) := by
      rw [ht]
      simp
    have hs' := skip_suffix.trans hs
    have hread := reads_skip hs' hnul (tokens_skip.trans ht')
    apply Yields.succ
    simp only [parser, parseexec]
    rw [peek_true hs hnul ht' (by decide)]
    apply Yields.succ
    simp only [parseblock]
    rw [peek_true hs' hnul (tokens_skip.trans ht') (by decide)]
    refine Yields.bind (ih hread.suffix hread.tokens (.cons (by decide))) fun c s1 hs1 ht1 hc => ?_
    have hread1 := reads_skip hs1 hnul ht1
    simp only [peek_true hs1 hnul ht1 (l := [')']) (by decide)]
    refine (parseredirs_complete hnul hred c hread1.suffix hread1.tokens (hus.disjoint (by decide))).mono fun d => ?_
    rintro ⟨rs, hall, rfl⟩
    exact hc.wrap hall
  | @exec ts vs ws rs' rs2' hred hargs hfew =>
    have hok := ht ▸ tokens_ok hnul hs
    have ht' : tokens s = ts ++ (vs ++ us) := by rw [ht, append_assoc]
    have hnext : ∀ {m : List Char}, apart (follow .command) m = true → m ⊆ symbols → ∀ t us', vs ++ us = t :: us' →
        t.head ∉ m :=
      fun hm hsub t us' => hargs.head (fun t h => hok t (by simp [h])) hus hm hsub
    apply Yields.succ
    simp only [parser, parseexec]
    rw [peek_false hs hnul (by
      intro t us' he
      rw [ht'] at he
      cases hred with
      | nil => exact hnext (by decide) (by decide) t us' he
      | cons hr _ =>
        obtain ⟨rfl, -⟩ := List.cons.inj he
        unfold Token.redir at hr
        split at hr <;> first | decide | cases hr)]
    have hs' := skip_suffix.trans hs
    refine Yields.bind (parseredirs_complete hnul hred Cmd.exec hs' (tokens_skip.trans ht') (hnext
        (by decide) (by decide)))
      fun ret s1 hs1 ht1 => ?_
    rintro ⟨rs, hall, rfl⟩
    refine (execLoop_complete hnul hargs _ [] hs1 ht1 hus (by simp only [maxargs, length_nil] at *; omega)).mono fun c => ?_
    rintro ⟨ws', rs2, hws, hrs2, rfl⟩
    dsimp only
    rw [foldl_hole, ← foldl_append]
    exact (Denotes.exec hws).wrap (rel_append hall hrs2)
  | single _ ih =>
    apply Yields.succ
    simp only [parser, parsepipe]
    refine Yields.bind (ih hs ht (hus.mono (by decide))) fun c s1 hs1 ht1 hc => ?_
    simp only [peek_false hs1 hnul (l := ['|']) (by rw [ht1]; exact hus.disjoint (by decide))]
    exact .ret (skip_suffix.trans hs1) (tokens_skip.trans ht1) hc
  | @pipe ts vs a b _ _ ih ih' =>
    have ht' : tokens s = ts ++ (.sym '|' :: (vs ++ us)) := by
      rw [ht]
      simp
    apply Yields.succ
    simp only [parser, parsepipe]
    refine Yields.bind (ih hs ht' (.cons (by decide))) fun c s1 hs1 ht1 hc => ?_
    have hread := reads_skip hs1 hnul ht1
    simp only [peek_true hs1 hnul ht1 (l := ['|']) (by decide)]
    refine Yields.bind (ih' hread.suffix hread.tokens hus) fun d s2 hs2 ht2 hd => ?_
    exact .ret hs2 ht2 (.pipe hc hd)
  | @last ts a n _ ih =>
    have ht' : tokens s = ts ++ (List.replicate n (.sym '&') ++ us) := by rw [ht, append_assoc]
    have hfollow : Follow (follow .pipeline) (List.replicate n (.sym '&') ++ us) := by
      cases n with
      | zero => exact hus.mono (by decide)
      | succ n => exact .cons (by decide)
    apply Yields.succ
    simp only [parser, parseline]
    refine Yields.bind (ih hs ht' hfollow) fun c s1 hs1 ht1 hc => ?_
    refine Yields.bind (backLoop_complete hnul c hs1 ht1 (hus.disjoint (by decide))) fun c' s2 hs2 ht2 => ?_
    rintro rfl
    simp only [peek_false hs2 hnul (l := [';']) (by rw [ht2]; exact hus.disjoint (by decide))]
    exact .ret (skip_suffix.trans hs2) (tokens_skip.trans ht2) (hc.backs n)
  | @list ts vs a b n _ _ ih ih' =>
    have ht' : tokens s = ts ++ (List.replicate n (.sym '&') ++ (.sym ';' :: (vs ++ us))) := by
      rw [ht]
      simp
    have hfollow : Follow (follow .pipeline) (List.replicate n (.sym '&') ++ (.sym ';' :: (vs ++ us))) := by
      cases n with
      | zero | succ n => exact .cons (by decide)
    apply Yields.succ
    simp only [parser, parseline]
    refine Yields.bind (ih hs ht' hfollow) fun c s1 hs1 ht1 hc => ?_
    refine Yields.bind (backLoop_complete hnul c hs1 ht1 (by rintro t us' he; cases he; decide)) fun c' s2 hs2 ht2 => ?_
    rintro rfl
    have hread := reads_skip hs2 hnul ht2
    simp only [peek_true hs2 hnul ht2 (l := [';']) (by decide)]
    refine Yields.bind (ih' hread.suffix hread.tokens hus) fun d s3 hs3 ht3 hd => ?_
    exact .ret hs3 ht3 (.list (hc.backs n) hd)

end Xv6.Sh
