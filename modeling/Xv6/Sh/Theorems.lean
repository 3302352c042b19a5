import Xv6.Sh.Lemmas.Complete

/-!
# シェルの構文解析の定理
-/

namespace Xv6.Sh

open Xv6.Lib List

variable {S : Ptr} {c : Cmd Word} {a : Ast} {nul : List Ptr}

structure CString where
  chars : List Char
  nonul : '\x00' ∉ chars

def Cmd.strings (nul : List Ptr) : Cmd Word → Ast
  | .exec argv => .exec (argv.map fun w => cstr nul w.q)
  | .redir cmd r => .redir (strings nul cmd) ⟨cstr nul r.file.q, r.mode, r.fd⟩
  | .pipe left right => .pipe (strings nul left) (strings nul right)
  | .list left right => .list (strings nul left) (strings nul right)
  | .back cmd => .back (strings nul cmd)

def Stops (nul : List Ptr) : Prop := ∀ e ∈ nul, ∀ d r, e = d :: r → wordChar d = false

theorem Word.Ok.cstr_eq {w : Word} {str : List Char} (h : w.Ok S str) (hnul : Stops nul) (hmem : w.eq ∈ nul) :
    cstr nul w.q = str := by
  rw [h.split]
  have hchars := h.chars
  clear h
  induction str with
  | nil =>
    change cstr nul w.eq = []
    cases he : w.eq with
    | nil => rfl
    | cons d r => rw [cstr, if_pos (he ▸ hmem)]
  | cons d str ih =>
    have hd := hchars d mem_cons_self
    -- 語の途中に NUL は書かれない。
    have hno : d :: (str ++ w.eq) ∉ nul := fun hm => by
      rw [hnul _ hm d _ rfl] at hd
      cases hd
    rw [cons_append, cstr, if_neg hno, ih fun x hx => hchars x (mem_cons_of_mem d hx)]

theorem Denotes.stops (h : Denotes S c a) : Stops (nulterminate c) := by
  induction h with
  | exec hwords =>
    induction hwords with
    | nil => nofun
    | cons hw _ ih =>
      intro e he
      obtain rfl | he := mem_cons.mp he
      · exact hw.stop
      · exact ih e he
  | redir _ hr ih =>
    intro e he
    obtain he | he := mem_append.mp he
    · exact ih e he
    · obtain rfl := mem_singleton.mp he
      exact hr.file.stop
  | pipe _ _ ih ih' | list _ _ ih ih' => exact fun e he => (mem_append.mp he).elim (ih e) (ih' e)
  | back _ ih => exact ih

theorem Denotes.strings_eq (h : Denotes S c a) (hsub : nulterminate c ⊆ nul) (hnul : Stops nul) : c.strings nul = a := by
  induction h with
  | exec hwords =>
    rw [Cmd.strings]
    congr 1
    rw [nulterminate] at hsub
    induction hwords with
    | nil => rfl
    | cons hw _ ih =>
      rw [map_cons, hw.cstr_eq hnul (hsub mem_cons_self), ih fun e he => hsub (mem_cons_of_mem _ he)]
  | @redir c a r r' _ hr ih =>
    have hfile := hr.file.cstr_eq hnul (hsub (mem_append_right _ (mem_singleton_self _)))
    rw [Cmd.strings, ih fun e he => hsub (mem_append_left _ he), hfile, hr.mode, hr.fd]
  | pipe _ _ ih ih' | list _ _ ih ih' =>
    rw [Cmd.strings, ih fun e he => hsub (mem_append_left _ he), ih' fun e he => hsub (mem_append_right _ he)]
  | back _ ih => rw [Cmd.strings, ih hsub]

theorem parsecmd_ok {s'} (h : Returns (parseline S) (.ok (c, s'))) (hs' : tokens s' = []) :
    Returns (parsecmd S) (.ok (c, nulterminate c)) := by
  refine h.bind ?_
  have hend : (peek s' []).2 = [] := tokens_nil_iff.mp hs'
  simp only [hend, ne_eq, not_true_eq_false, if_false]
  exact .const _

theorem parsecmd_leftovers {s'} (h : Returns (parseline S) (.ok (c, s'))) (hs' : tokens s' ≠ []) :
    Returns (parsecmd S) (.error (.panic "syntax")) := by
  refine h.bind ?_
  have hend : (peek s' []).2 ≠ [] := fun he => hs' (tokens_nil_iff.mpr he)
  simp only [hend, ne_eq, not_false_eq_true, if_true]
  exact .const _

/-- `parsecmd` は終わる。木を返すのは入力が文法に合うとき、かつそのときに限り、木の文字列は導出の構文木に等しい。配列の範
囲の外は使わない。 -/
theorem parsecmd_accepts_grammar (s : CString) :
    ∃ r, Returns (parsecmd s.chars) r ∧ ((∃ c nul, r = .ok (c, nul)) ∨ ∃ msg, r = .error (.panic msg)) ∧
      ∀ a, (∃ c nul, r = .ok (c, nul) ∧ c.strings nul = a) ↔ Derives .line (tokens s.chars) a := by
  obtain ⟨r, hr, hbounds, hsound⟩ := parseline_sound s.nonul _ s.chars (suffix_refl _) le_rfl
  -- 導出があれば、その木を返す。
  have hcomplete : ∀ a, Derives .line (tokens s.chars) a →
      ∃ c s', r = .ok (c, s') ∧ tokens s' = [] ∧ Denotes s.chars c a := by
    intro a ha
    have hnil : Follow (follow .line) [] := nofun
    obtain ⟨c, s', hret, -, hs', hc⟩ := parser_complete s.nonul ha (suffix_refl s.chars) (append_nil _).symm hnil
    exact ⟨c, s', hr.unique hret, hs', hc⟩
  cases r with
  | error e =>
    have hpanic : ∃ msg, e = .panic msg := by
      cases e with
      | panic msg => exact ⟨msg, rfl⟩
      | bounds => exact absurd rfl hbounds
    obtain ⟨msg, rfl⟩ := hpanic
    refine ⟨_, hr.bind_error, .inr ⟨msg, rfl⟩, fun a => ⟨nofun, fun ha => ?_⟩⟩
    obtain ⟨c, s', he, -⟩ := hcomplete a ha
    cases he
  | ok v =>
    obtain ⟨c, s'⟩ := v
    obtain ⟨-, ts, hts, a, ha, hc⟩ := hsound c s' rfl
    by_cases hs' : tokens s' = []
    · refine ⟨_, parsecmd_ok hr hs', .inl ⟨c, _, rfl⟩, fun b => ⟨?_, fun hb => ?_⟩⟩
      · rintro ⟨c', nul, he, rfl⟩
        cases he
        rw [hts, hs', append_nil, hc.strings_eq (List.Subset.refl _) hc.stops]
        exact ha
      · obtain ⟨c', s'', he, -, hb'⟩ := hcomplete b hb
        cases he
        exact ⟨c, _, rfl, hb'.strings_eq (List.Subset.refl _) hb'.stops⟩
    · refine ⟨_, parsecmd_leftovers hr hs', .inr ⟨_, rfl⟩, fun b => ⟨nofun, fun hb => ?_⟩⟩
      obtain ⟨c', s'', he, hs'', -⟩ := hcomplete b hb
      cases he
      exact absurd hs'' hs'

end Xv6.Sh
