import Xv6.Sh.Theorems

/-!
# 語と NUL

`nulterminate` は、木のすべての語の終わりに NUL を書く。どの NUL も、ほかの語の文字を壊さない。
-/

namespace Xv6.Sh

open Xv6.Lib List

variable {S s : Ptr} {c : Cmd Word} {a : Ast} {C : Cat} {ts : List Token} {nul : List Ptr} {w : Word} {str : List Char}

def Cmd.words {W : Type} : Cmd W → List W
  | .exec argv => argv
  | .redir cmd r => words cmd ++ [r.file]
  | .pipe left right => words left ++ words right
  | .list left right => words left ++ words right
  | .back cmd => words cmd

def Word.text (w : Word) : List Char := w.q.take (w.q.length - w.eq.length)

/-- `gettoken` が区切った、バッファ `S` の中の語。 -/
structure Delimited (S : Ptr) (w : Word) : Prop where
  suffix : w.q <:+ S
  ret : (gettoken w.q).ret = 'a'
  q : (gettoken w.q).q = w.q
  eq : (gettoken w.q).eq = w.eq

def Word.Covers (w : Word) (e : Ptr) : Prop := e <:+ w.q ∧ w.eq.length < e.length

/-! ## 木の語 -/

theorem nulterminate_eq : nulterminate c = c.words.map Word.eq := by
  induction c with
  | exec argv => rfl
  | redir cmd r ih => rw [nulterminate, Cmd.words, map_append, ih]; rfl
  | pipe left right ih ih' | list left right ih ih' => rw [nulterminate, Cmd.words, map_append, ih, ih']
  | back cmd ih => exact ih

theorem Denotes.words (h : Denotes S c a) : List.Forall₂ (Word.Ok S) c.words a.words := by
  induction h with
  | exec hwords => exact hwords
  | redir _ hr ih => exact rel_append ih (.cons hr.file .nil)
  | pipe _ _ ih ih' | list _ _ ih ih' => exact rel_append ih ih'
  | back _ ih => exact ih

theorem Denotes.words_mem (h : Denotes S c a) (hw : w ∈ c.words) : ∃ str ∈ a.words, w.Ok S str := by
  obtain ⟨hlen, hget⟩ := forall₂_iff_get.mp h.words
  obtain ⟨i, rfl⟩ := get_of_mem hw
  exact ⟨a.words.get ⟨i, hlen ▸ i.isLt⟩, get_mem .., hget i i.isLt (hlen ▸ i.isLt)⟩

theorem Cmd.words_wrap {W : Type} (c : Cmd W) (rs : List (Redir W)) : (c.wrap rs).words = c.words ++ rs.map Redir.file := by
  induction rs generalizing c with
  | nil => exact (append_nil _).symm
  | cons r rs ih => exact (ih (.redir c r)).trans (append_assoc ..)

theorem Cmd.words_backs {W : Type} (c : Cmd W) (n : Nat) : (c.backs n).words = c.words := by
  induction n generalizing c with
  | zero => rfl
  | succ n ih => exact ih (.back c)

theorem Redirs.words {rs} (h : Redirs ts rs) : ∀ w ∈ rs.map Redir.file, Token.word w ∈ ts := by
  induction h with
  | nil => nofun
  | cons hr _ ih =>
    intro w hw
    obtain rfl | hw := mem_cons.mp hw
    · rw [redir_file hr]
      exact mem_cons_of_mem _ mem_cons_self
    · exact mem_cons_of_mem _ (mem_cons_of_mem _ (ih w hw))

theorem Args.words {ws rs} (h : Args ts ws rs) :
    ∀ w ∈ ws ++ rs.map Redir.file, Token.word w ∈ ts := by
  induction h with
  | nil => nofun
  | cons hrs _ ih =>
    intro w hw
    simp only [map_append, mem_append, mem_cons] at hw ih ⊢
    obtain (rfl | hw) | hw | hw := hw
    · exact .inl (.inl rfl)
    · exact .inr (ih w (.inl hw))
    · exact .inl (.inr (hrs.words w hw))
    · exact .inr (ih w (.inr hw))

theorem Derives.words (h : Derives C ts a) : ∀ w ∈ a.words, Token.word w ∈ ts := by
  induction h with
  | block _ hrs ih =>
    intro w hw
    rw [Cmd.words_wrap] at hw
    obtain hw | hw := mem_append.mp hw
    · exact mem_append_left _ (mem_cons_of_mem _ (ih w hw))
    · exact mem_append_right _ (mem_cons_of_mem _ (hrs.words w hw))
  | exec hrs hargs =>
    intro w hw
    rw [Cmd.words_wrap] at hw
    have hargs' := hargs.words w
    simp only [Cmd.words, map_append, mem_append] at hw hargs' ⊢
    obtain hw | hw | hw := hw
    · exact .inr (hargs' (.inl hw))
    · exact .inl (hrs.words w hw)
    · exact .inr (hargs' (.inr hw))
  | single _ ih => exact ih
  | pipe _ _ ih ih' =>
    exact fun w hw => (mem_append.mp hw).elim (fun h => mem_append_left _ (ih w h))
      fun h => mem_append_right _ (mem_cons_of_mem _ (ih' w h))
  | last n _ ih =>
    intro w hw
    rw [Cmd.words_backs] at hw
    exact mem_append_left _ (ih w hw)
  | list n _ _ ih ih' =>
    intro w hw
    rw [Cmd.words, Cmd.words_backs] at hw
    exact (mem_append.mp hw).elim (fun h => mem_append_left _ (mem_append_left _ (ih w h)))
      fun h => mem_append_right _ (mem_cons_of_mem _ (ih' w h))

/-! ## 語の文字 -/

theorem Word.Ok.text_eq (h : w.Ok S str) : w.text = str := by
  rw [Word.text, h.split, length_append, Nat.add_sub_cancel, take_left]

theorem Word.Ok.delimited (h : w.Ok S str) (hne : str ≠ []) (hnul : '\x00' ∉ S) : Delimited S w := by
  obtain ⟨c, str, rfl⟩ := exists_cons_of_ne_nil hne
  have hw := h.chars c mem_cons_self
  have hq : w.q = c :: (str ++ w.eq) := h.split
  have hskip : skip w.q = c :: (str ++ w.eq) := by
    rw [hq, skip, dropWhile_cons_of_neg]
    simpa using (wordChar_iff.mp hw).1
  have hc0 : c ≠ '\x00' := fun he => hnul (h.suffix.subset (hq ▸ he ▸ mem_cons_self))
  have hget := gettoken_word hskip hc0 hw
  -- 語に使える文字は、ちょうど `eq` で途切れる。
  have hdrop : (c :: (str ++ w.eq)).dropWhile wordChar = w.eq := by
    rw [← cons_append, dropWhile_append_of_pos h.chars]
    cases he : w.eq with
    | nil => rfl
    | cons d r => exact dropWhile_cons_of_neg (by rw [h.stop d r he]; decide)
  exact ⟨h.suffix, congrArg Got.ret hget, (congrArg Got.q hget).trans hq.symm, (congrArg Got.eq hget).trans hdrop⟩

theorem Word.Ok.not_covers (h : w.Ok S str) (hnul : Stops nul) : ∀ e ∈ nul, ¬w.Covers e := by
  rintro e he ⟨⟨p, hp⟩, hlen⟩
  obtain ⟨d, r, rfl⟩ : ∃ d r, e = d :: r := exists_cons_of_length_pos (Nat.zero_lt_of_lt hlen)
  have hmem : d ∈ str := by
    have hsplit : p ++ d :: r = str ++ w.eq := hp.trans h.split
    obtain ⟨m, rfl, hm⟩ | ⟨m, rfl, hm⟩ := append_eq_append_iff.mp hsplit
    · cases m with
      | nil =>
        have := congrArg List.length hm
        simp only [nil_append] at this
        omega
      | cons x m =>
        cases hm
        exact mem_append_right _ mem_cons_self
    · have := congrArg List.length hm
      rw [length_append] at this
      omega
  have hno := hnul _ he d r rfl
  rw [h.chars d hmem] at hno
  cases hno

/-- NUL を書いた後も、木のどの語も `gettoken` の区切った文字のままである。どの NUL も、語の文字の上に書かれない。 -/
theorem nulterminate_preserves_tokens (s : CString) (h : Returns (parsecmd s.chars) (.ok (c, nul))) :
    nul = c.words.map Word.eq ∧
      ∀ w ∈ c.words, Delimited s.chars w ∧ cstr nul w.q = w.text ∧ ∀ e ∈ nul, ¬w.Covers e := by
  obtain ⟨r, hr, -, hsound⟩ := parseline_sound s.nonul _ s.chars (suffix_refl _) le_rfl
  cases r with
  | error e => cases h.unique hr.bind_error
  | ok v =>
    obtain ⟨c', s'⟩ := v
    obtain ⟨-, ts, hts, a, ha, hc⟩ := hsound c' s' rfl
    by_cases hs' : tokens s' = []
    case neg => cases h.unique (parsecmd_leftovers hr hs')
    cases h.unique (parsecmd_ok hr hs')
    refine ⟨nulterminate_eq, fun w hw => ?_⟩
    obtain ⟨str, hstr, hok⟩ := hc.words_mem hw
    have hne : str ≠ [] := by
      have htok : Token.word str ∈ tokens s.chars := hts ▸ mem_append_left _ (ha.words str hstr)
      exact (tokens_ok s.nonul (suffix_refl _) _ htok).1
    have hmem : w.eq ∈ nulterminate c := nulterminate_eq ▸ mem_map_of_mem hw
    refine ⟨hok.delimited hne s.nonul, ?_, hok.not_covers hc.stops⟩
    rw [hok.text_eq, hok.cstr_eq hc.stops hmem]

def redirTree : Cmd Word := .redir (.exec [⟨['l', 's', '>', 'x'], ['>', 'x']⟩]) ⟨⟨['x'], []⟩, 0x601, 1⟩

theorem nulterminate_preserves_tokens_redir :
    Returns (parsecmd ['l', 's', '>', 'x']) (.ok (redirTree, [['>', 'x'], []])) ∧
      ∀ w ∈ redirTree.words, cstr [['>', 'x'], []] w.q = w.text := by
  have hrun : Returns (parsecmd ['l', 's', '>', 'x']) (.ok (redirTree, [['>', 'x'], []])) := by
    refine ⟨8, fun k hk => ?_⟩
    obtain ⟨k, rfl⟩ := Nat.exists_eq_add_of_le' hk
    rfl
  exact ⟨hrun, fun w hw => ((nulterminate_preserves_tokens ⟨_, by decide⟩ hrun).2 w hw).2.1⟩

end Xv6.Sh
