import Xv6.Console.Console

/-!
# コンソールの行編集の定理
-/

namespace Xv6.Console

open Xv6.Lib List

variable {k : Cons} {a : Line} {s t : Sys} {c : UInt8}

theorem dec_mod {n} (hn : 0 < n) : dec (n % word) = (n - 1) % word := by
  simp only [dec, word]
  omega

theorem dec_inc {n} : dec (inc (n % word)) = n % word := by
  simp only [dec, inc, word]
  omega

theorem inputBufSize_lt : inputBufSize < word := by decide

theorem inputBufSize_dvd : inputBufSize ∣ word := by decide

/-! ## 領域の表すもの -/

/-- 領域は組 `a` を表す。`old` は取り出された文字である。編集している行に改行はない。 -/
structure Rep (k : Cons) (old : List UInt8) (a : Line) : Prop where
  ring : Ring inputBufSize word k.buf k.r k.e (old ++ a.queue ++ a.line) old.length
  commit : k.w = (old ++ a.queue).length % word
  clean : newline ∉ a.line

namespace Rep

variable {old : List UInt8}

theorem start (buf : Nat → UInt8) : Rep ⟨buf, 0, 0, 0⟩ [] ⟨[], []⟩ where
  ring := Ring.empty ..
  commit := rfl
  clean := not_mem_nil

section

variable (h : Rep k old a)
include h

theorem committed : Ring inputBufSize word k.buf k.r k.w (old ++ a.queue) old.length := by
  have hcut := h.ring.cut (d := (old ++ a.queue).length) (by simp) (by simp)
  rwa [← h.commit, take_left] at hcut

theorem edited :
    Ring inputBufSize word k.buf k.w k.e (old ++ a.queue ++ a.line) (old ++ a.queue).length := by
  have hadv := h.ring.advance (d := (old ++ a.queue).length) (by simp) (by simp)
  rwa [← h.commit] at hadv

theorem sub_w_r : sub k.w k.r = a.queue.length := by
  rw [sub, h.committed.count inputBufSize_lt, length_append, Nat.add_sub_cancel_left]

theorem sub_e_w : sub k.e k.w = a.line.length := by
  rw [sub, h.edited.count inputBufSize_lt, length_append, Nat.add_sub_cancel_left]

theorem sub_e_r : sub k.e k.r = a.queue.length + a.line.length := by
  rw [sub, h.ring.count inputBufSize_lt, append_assoc, length_append, Nat.add_sub_cancel_left,
    length_append]

theorem room : a.queue.length + a.line.length ≤ inputBufSize := by
  have := h.ring.room
  rw [append_assoc, length_append, length_append] at this
  omega

theorem abs_eq : k.abs = a := by
  have hqueue : k.walk k.r (sub k.w k.r) = a.queue := by
    rw [Cons.walk, sub, ← h.committed.contents inputBufSize_lt inputBufSize_dvd, drop_left]
  have hline : k.walk k.w (sub k.e k.w) = a.line := by
    rw [Cons.walk, sub, ← h.edited.contents inputBufSize_lt inputBufSize_dvd, drop_left]
  rw [Cons.abs, hqueue, hline]

theorem e_eq_w : k.e = k.w ↔ a.line = [] := by
  rw [eq_comm, h.edited.empty_iff inputBufSize_lt, (length_append : (_ ++ a.line).length = _),
    ← length_eq_zero_iff]
  omega

theorem r_eq_w : k.r = k.w ↔ a.queue = [] := by
  rw [h.committed.empty_iff inputBufSize_lt, length_append, ← length_eq_zero_iff]
  omega

end

/-! ### 割り込み -/

section

variable (h : Rep k old a)
include h

theorem erase (hne : a.line ≠ []) :
    Rep { k with e := dec k.e } old { a with line := a.line.dropLast } := by
  have hlen := length_pos_of_ne_nil hne
  have htotal : (old ++ a.queue ++ a.line).length = (old ++ a.queue).length + a.line.length := length_append
  have hold : old.length ≤ (old ++ a.queue).length := by simp
  have hcut := h.ring.cut (d := (old ++ a.queue ++ a.line).length - 1) (by omega) (by omega)
  rw [← dec_mod (by omega), ← h.ring.write, ← dropLast_eq_take, dropLast_append_of_ne_nil hne] at hcut
  exact ⟨hcut, h.commit, fun hm => h.clean ((dropLast_sublist _).subset hm)⟩

theorem last_ne_newline (hne : a.line ≠ []) : k.buf (dec k.e % inputBufSize) ≠ newline := by
  have hlen := length_pos_of_ne_nil hne
  have htotal : (old ++ a.queue ++ a.line).length = (old ++ a.queue).length + a.line.length := length_append
  have hold : old.length ≤ (old ++ a.queue).length := by simp
  have hget : (old ++ a.queue ++ a.line)[(old ++ a.queue ++ a.line).length - 1]? = some (a.line.getLast hne) := by
    rw [← getLast?_eq_getElem?, getLast?_append_of_ne_nil _ hne, getLast?_eq_some_getLast hne]
  have hslot := h.ring.slot _ _ (by omega) hget
  rw [h.ring.write, dec_mod (by omega), Nat.mod_mod_of_dvd _ inputBufSize_dvd, hslot]
  exact fun heq => h.clean (heq ▸ getLast_mem hne)

theorem killLine : Rep (killLine k a.line.length) old { a with line := [] } := by
  generalize hn : a.line.length = n
  induction n generalizing k a with
  | zero =>
    obtain ⟨queue, line⟩ := a
    obtain rfl := eq_nil_of_length_eq_zero hn
    exact h
  | succ n ih =>
    have hne : a.line ≠ [] := ne_nil_of_length_eq_add_one hn
    rw [Console.killLine, if_pos ⟨fun he => hne (h.e_eq_w.mp he), h.last_ne_newline hne⟩]
    refine ih (a := { a with line := a.line.dropLast }) (h.erase hne) ?_
    rw [length_dropLast, hn, Nat.add_sub_cancel]

theorem store (hc : c ≠ newline) (hroom : a.queue.length + a.line.length < inputBufSize) :
    Rep { k with buf := update k.buf (k.e % inputBufSize) c, e := inc k.e } old
      { a with line := a.line ++ [c] } := by
  have hlt : (old ++ a.queue ++ a.line).length < old.length + inputBufSize := by
    rw [append_assoc, length_append, length_append]
    omega
  have hpush := h.ring.push (a := c) inputBufSize_dvd hlt
  rw [append_assoc] at hpush
  refine ⟨hpush, h.commit, fun hm => ?_⟩
  obtain hm | hm := mem_append.mp hm
  · exact h.clean hm
  · exact hc (mem_singleton.mp hm).symm

theorem commitWith (hroom : a.queue.length + a.line.length < inputBufSize) :
    Rep { k with buf := update k.buf (k.e % inputBufSize) c, e := inc k.e, w := inc k.e } old
      ⟨a.queue ++ (a.line ++ [c]), []⟩ := by
  have hlt : (old ++ a.queue ++ a.line).length < old.length + inputBufSize := by
    rw [append_assoc, length_append, length_append]
    omega
  have hpush := h.ring.push (a := c) inputBufSize_dvd hlt
  have hassoc : old ++ a.queue ++ a.line ++ [c] = old ++ (a.queue ++ (a.line ++ [c])) := by simp only [append_assoc]
  rw [hassoc] at hpush
  exact ⟨by rwa [append_nil], hpush.write, not_mem_nil⟩

theorem consoleintr (c : UInt8) : Rep (consoleintr k c) old (a.intr c) := by
  unfold Console.consoleintr Line.intr
  by_cases hp : c = ctrlP
  · subst hp
    exact h
  rw [if_neg hp]
  by_cases hu : c = ctrlU
  · rw [if_pos hu, if_pos hu, h.sub_e_w]
    exact h.killLine
  rw [if_neg hu, if_neg hu]
  by_cases hd : c = ctrlH ∨ c = delete
  · rw [if_pos hd, if_pos hd]
    split
    case isTrue he => exact h.erase fun hnil => he (h.e_eq_w.mpr hnil)
    case isFalse he =>
      have hnil := h.e_eq_w.mp (not_not.mp he)
      obtain ⟨queue, line⟩ := a
      cases hnil
      exact h
  rw [if_neg hd, if_neg hd, h.sub_e_r]
  by_cases hfull : c = 0 ∨ inputBufSize ≤ a.queue.length + a.line.length
  · rw [if_neg fun hc => hfull.elim hc.1 fun hle => by omega, if_pos (hfull.imp_right .inr)]
    exact h
  obtain ⟨hzero, hroom⟩ := not_or.mp hfull
  have hroom : a.queue.length + a.line.length < inputBufSize := Nat.lt_of_not_le hroom
  have hkeep : ¬(c = 0 ∨ c = ctrlP ∨ inputBufSize ≤ a.queue.length + a.line.length) := fun hc =>
    hc.elim hzero fun hc => hc.elim hp (Nat.not_le_of_lt hroom)
  rw [if_pos ⟨hzero, hroom⟩, if_neg hkeep]
  generalize (if c = ret then newline else c) = c'
  -- 加えた後の文字の数。
  have hcount : sub (inc k.e) k.r = a.queue.length + a.line.length + 1 := by
    have := (h.commitWith (c := c') hroom).sub_e_r
    simp only [length_append, length_singleton, length_nil] at this
    omega
  simp only [hcount]
  split
  case isTrue hcommit => exact h.commitWith hroom
  case isFalse hcommit => exact h.store (fun hc => hcommit (.inl hc)) hroom

theorem pop {queue} (hq : a.queue = c :: queue) :
    k.buf (k.r % inputBufSize) = c ∧ Rep { k with r := inc k.r } (old ++ [c]) { a with queue := queue } := by
  have hlist : old ++ a.queue = old ++ [c] ++ queue := by rw [hq, append_assoc]; rfl
  have hpop := h.ring.pop inputBufSize_dvd (by rw [hlist]; simp)
  rw [hlist] at hpop
  refine ⟨?_, ?_, by rw [h.commit, hlist], h.clean⟩
  · have := hpop.1
    simp at this
    exact this.symm
  · rw [(length_append : (_ ++ [c]).length = _)]
    exact hpop.2

theorem readLoop (killed : Bool) (copyout : Nat → Bool) {target n got} (hn : got.length + n = target) :
    (readLoop killed copyout target n k got).2 = (take killed copyout target n a.queue got).2 ∧
      ∃ old', Rep (readLoop killed copyout target n k got).1 old'
        { a with queue := (take killed copyout target n a.queue got).1 } := by
  induction n generalizing k old a got with
  | zero => exact ⟨rfl, old, h⟩
  | succ n ih =>
    rw [Console.readLoop]
    cases hq : a.queue with
    | nil =>
      rw [if_pos (h.r_eq_w.mpr hq), take]
      refine ⟨rfl, old, ?_⟩
      obtain ⟨queue, line⟩ := a
      cases hq
      exact h
    | cons c queue =>
      obtain ⟨hc, hpop⟩ := h.pop hq
      have hne : k.r ≠ k.w := fun he => by rw [h.r_eq_w.mp he] at hq; cases hq
      have hidx : target - (n + 1) = got.length := by omega
      have hlast : target - n = got.length + 1 := by omega
      simp only [if_neg hne, hc, hidx, hlast, take]
      split
      case isTrue =>
        refine ⟨rfl, ?_⟩
        by_cases hgot : got = []
        · have : ¬n + 1 < target := by rw [hgot] at hn; simp at hn; omega
          rw [if_neg this, if_pos hgot]
          exact ⟨_, hpop⟩
        have : n + 1 < target := by have := length_pos_of_ne_nil hgot; omega
        rw [if_pos this, if_neg hgot]
        -- 取った番号を戻すと、元の組に戻る。
        have hback : dec (inc k.r) = k.r := by rw [h.ring.read, dec_inc]
        simp only [hback]
        refine ⟨old, ?_⟩
        obtain ⟨queue', line⟩ := a
        cases hq
        exact h
      case isFalse =>
        split
        case isTrue => exact ⟨rfl, _, hpop⟩
        case isFalse =>
          split
          case isTrue => exact ⟨rfl, _, hpop⟩
          case isFalse => exact ih hpop (by rw [length_append, length_singleton]; omega)

end

end Rep

def Reader.got : Reader → List UInt8
  | .idle => []
  | .asleep _ _ got => got
  | .done _ got => got

/-- 読みは、`queue` の先頭から `bs` を渡し、`lost` を捨てて、`queue'` を残す。 -/
structure Took (copyout : Nat → Bool) (target : Nat) (queue got queue' : List UInt8) (rd : Reader)
    (bs lost : List UInt8) : Prop where
  order : queue = bs ++ (lost ++ queue')
  given : rd.got = got ++ bs
  /-- `C('D')` は渡さず、改行は最後にしか渡さない。 -/
  eof : ctrlD ∉ bs
  line : newline ∉ bs.dropLast
  /-- 捨てるのは、まだ何も渡していないときの `C('D')` と、渡すのに失敗した文字だけである。 -/
  dropped : lost = [] ∨ (lost = [ctrlD] ∧ got ++ bs = []) ∨ ∃ c, lost = [c] ∧ c ≠ ctrlD ∧ copyout (got ++ bs).length = false
  /-- 眠るのは、改行を渡さないまま、確定した文字が尽きたときである。 -/
  asleep : ∀ t n g, rd = .asleep t n g → lost ++ queue' = [] ∧ newline ∉ bs ∧ t = target ∧ g.length + n = target
  done : ∀ r g, rd = .done r g → (r = -1 ∧ lost ++ queue' = []) ∨ (r = (got ++ bs).length ∧
    ((got ++ bs).length = target ∨ newline ∈ bs ∨
      ∃ c rest, lost ++ queue' = c :: rest ∧ (c = ctrlD ∨ copyout (got ++ bs).length = false)))

theorem Took.cons {copyout target queue got queue' bs lost rd}
    (h : Took copyout target queue (got ++ [c]) queue' rd bs lost) (hd : c ≠ ctrlD) (hn : c ≠ newline) :
    Took copyout target (c :: queue) got queue' rd (c :: bs) lost := by
  have hassoc : got ++ [c] ++ bs = got ++ c :: bs := append_assoc ..
  have hline : newline ∈ c :: bs ↔ newline ∈ bs := by
    rw [mem_cons, or_iff_right hn.symm]
  refine ⟨by rw [h.order]; rfl, hassoc ▸ h.given, ?_, ?_, ?_, ?_, ?_⟩
  · exact fun hm => (mem_cons.mp hm).elim (fun he => hd he.symm) h.eof
  · cases bs with
    | nil => exact not_mem_nil
    | cons b bs =>
      rw [dropLast_cons_cons]
      exact fun hm => (mem_cons.mp hm).elim (fun he => hn he.symm) h.line
  · rcases h.dropped with hl | ⟨-, hl⟩ | hl
    · exact .inl hl
    · exact absurd hl (by simp)
    · exact .inr (.inr (hassoc ▸ hl))
  · rw [hline]
    exact h.asleep
  · rw [hline, ← hassoc]
    exact h.done

theorem take_spec (killed : Bool) (copyout : Nat → Bool) {target n} (queue : List UInt8) {got}
    (hn : got.length + n = target) : ∃ bs lost, Took copyout target queue got
      (take killed copyout target n queue got).1 (take killed copyout target n queue got).2 bs lost := by
  induction n generalizing queue got with
  | zero =>
    refine ⟨[], [], rfl, (append_nil got).symm, not_mem_nil, not_mem_nil, .inl rfl, nofun, fun r g h => ?_⟩
    cases h
    rw [append_nil]
    exact .inr ⟨congrArg Nat.cast hn.symm, .inl hn⟩
  | succ n ih =>
    cases queue with
    | nil =>
      refine ⟨[], [], rfl, ?_, not_mem_nil, not_mem_nil, .inl rfl, fun t m g h => ?_, fun r g h => ?_⟩
      · cases killed <;> exact (append_nil got).symm
      · cases killed <;> cases h
        exact ⟨rfl, not_mem_nil, rfl, hn⟩
      · cases killed <;> cases h
        exact .inl ⟨rfl, rfl⟩
    | cons c queue =>
      rw [take]
      split
      case isTrue hd =>
        by_cases hgot : got = []
        · subst hgot
          refine ⟨[], [c], rfl, rfl, not_mem_nil, not_mem_nil,
            .inr (.inl ⟨congrArg (fun x => [x]) hd, rfl⟩), nofun, ?_⟩
          intro r g h
          cases h
          exact .inr ⟨rfl, .inr (.inr ⟨c, queue, rfl, .inl hd⟩)⟩
        rw [if_neg hgot]
        refine ⟨[], [], rfl, (append_nil got).symm, not_mem_nil, not_mem_nil, .inl rfl, nofun, ?_⟩
        intro r g h
        cases h
        rw [append_nil]
        exact .inr ⟨rfl, .inr (.inr ⟨c, queue, rfl, .inl hd⟩)⟩
      case isFalse hd =>
        split
        case isTrue hfail =>
          have hfail' : copyout (got ++ []).length = false := by rwa [append_nil]
          refine ⟨[], [c], rfl, (append_nil got).symm, not_mem_nil, not_mem_nil,
            .inr (.inr ⟨c, rfl, hd, hfail'⟩), nofun, fun r g h => ?_⟩
          cases h
          exact .inr ⟨by rw [append_nil], .inr (.inr ⟨c, queue, rfl, .inr hfail'⟩)⟩
        case isFalse hok =>
          split
          case isTrue hc =>
            refine ⟨[c], [], rfl, rfl, ?_, not_mem_nil, .inl rfl, nofun, fun r g h => ?_⟩
            · exact fun hm => hd (mem_singleton.mp hm).symm
            · cases h
              exact .inr ⟨by simp, .inr (.inl (mem_singleton.mpr hc.symm))⟩
          case isFalse hc =>
            have hlen : (got ++ [c]).length + n = target := by
              rw [length_append, length_singleton]
              omega
            obtain ⟨bs, lost, h⟩ := ih queue hlen
            exact ⟨c :: bs, lost, h.cons hd hc⟩

/-! ## 実行の全体 -/

structure Inv (s : Sys) : Prop where
  rep : ∃ old, Rep s.cons old s.cons.abs
  asleep : ∀ p target n got, s.reader p = .asleep target n got → got.length + n = target

theorem Rep.inv {old a reader} (h : Rep k old a)
    (hr : ∀ p target n got, reader p = .asleep target n got → got.length + n = target) : Inv ⟨k, reader⟩ :=
  ⟨⟨old, by rw [h.abs_eq]; exact h⟩, hr⟩

theorem Inv.read (h : Inv s) (p : Nat) (killed : Bool) (copyout : Nat → Bool) {target n got}
    (hn : got.length + n = target) :
    Inv (s.put p (readLoop killed copyout target n s.cons got)) ∧
      (s.put p (readLoop killed copyout target n s.cons got)).abs =
        s.abs.put p (take killed copyout target n s.abs.cons.queue got) := by
  obtain ⟨old, hrep⟩ := h.rep
  obtain ⟨hreader, old', hrep'⟩ := hrep.readLoop killed copyout hn
  constructor
  · refine hrep'.inv fun q t m g hq => ?_
    obtain ⟨-, hq⟩ | ⟨-, hq⟩ := update_cases (P := fun rd => rd = Reader.asleep t m g) hq
    · obtain ⟨bs, lost, htook⟩ := take_spec killed copyout s.cons.abs.queue hn
      obtain ⟨-, -, rfl, hlen⟩ := htook.asleep t m g (hreader ▸ hq)
      exact hlen
    · exact h.asleep q t m g hq
  · rw [Sys.abs, Sys.put, hrep'.abs_eq, hreader]
    rfl

theorem Inv.took (h : Inv s) (killed : Bool) {copyout target n p got}
    (hn : got.length + n = target) (ht : t = s.put p (readLoop killed copyout target n s.cons got)) :
    ∃ bs lost, Took copyout target s.abs.cons.queue got t.abs.cons.queue (t.reader p) bs lost := by
  have habs := (h.read p killed copyout hn).2
  rw [← ht] at habs
  have hreader : t.reader p = (take killed copyout target n s.abs.cons.queue got).2 :=
    (congrFun (congrArg Abs.reader habs) p).trans (update_self ..)
  rw [hreader, habs]
  exact take_spec killed copyout s.abs.cons.queue hn

theorem Inv.step (h : Inv s) (e : Event) :
    (∀ t, step s e = some (.ok t) → Inv t) ∧ (step s e).map (Except.map Sys.abs) = absStep s.abs e := by
  cases e with
  | intr c =>
    obtain ⟨old, hrep⟩ := h.rep
    have hintr := hrep.consoleintr c
    refine ⟨fun t ht => ?_, ?_⟩
    · cases ht
      exact hintr.inv h.asleep
    · change some (Except.ok (Sys.abs _)) = some (Except.ok _)
      rw [Sys.abs, hintr.abs_eq]
      rfl
  | call p n killed copyout =>
    have hzero : ([] : List UInt8).length + n.toNat = n.toNat := Nat.zero_add n.toNat
    have hcall := h.read p killed copyout hzero
    have habs : s.abs.reader p = s.reader p := rfl
    simp only [Console.step, absStep, habs]
    cases s.reader p with
    | asleep => exact ⟨nofun, rfl⟩
    | idle | done => exact ⟨fun t ht => by cases ht; exact hcall.1, congrArg (fun x => some (Except.ok x)) hcall.2⟩
  | resume p killed copyout =>
    have habs : s.abs.reader p = s.reader p := rfl
    simp only [Console.step, absStep, habs]
    cases hp : s.reader p with
    | asleep target n got =>
      have hread := h.read p killed copyout (h.asleep p target n got hp)
      exact ⟨fun t ht => by cases ht; exact hread.1, congrArg (fun x => some (Except.ok x)) hread.2⟩
    | idle | done => exact ⟨nofun, rfl⟩

theorem Inv.reaches {buf} (h : Console.step.Reaches (start buf) s) : Inv s :=
  h.inv Inv ((Rep.start buf).inv nofun) fun _ e v hu hv => (hu.step e).1 v hv

structure Disciplined (s : Sys) : Prop where
  le : sub s.cons.w s.cons.r ≤ sub s.cons.e s.cons.r
  room : sub s.cons.e s.cons.r ≤ inputBufSize
  /-- どの一歩も、組の上の一歩と一致する。 -/
  refines : ∀ e, (step s e).map (Except.map Sys.abs) = absStep s.abs e
  /-- 割り込みは、確定した文字を変えない。 -/
  kept : ∀ c t, step s (.intr c) = some (.ok t) → s.abs.cons.queue <+: t.abs.cons.queue
  call : ∀ p n killed copyout t, step s (.call p n killed copyout) = some (.ok t) →
    ∃ bs lost, Took copyout n.toNat s.abs.cons.queue [] t.abs.cons.queue (t.reader p) bs lost
  resume : ∀ p killed copyout t target n got, s.reader p = .asleep target n got →
    step s (.resume p killed copyout) = some (.ok t) →
      ∃ bs lost, Took copyout target s.abs.cons.queue got t.abs.cons.queue (t.reader p) bs lost

theorem Line.queue_intr (a : Line) (c : UInt8) : a.queue <+: (a.intr c).queue := by
  unfold Line.intr
  simp only []
  split_ifs <;> first | exact prefix_refl _ | exact prefix_append ..

/-- コンソールのどの実行も、行編集の規律に従う。 -/
theorem console_line_discipline {buf : Nat → UInt8} (h : step.Reaches (start buf) s) : Disciplined s := by
  have hinv := Inv.reaches h
  obtain ⟨old, hrep⟩ := hinv.rep
  refine ⟨?_, ?_, fun e => (hinv.step e).2, ?_, ?_, ?_⟩
  · rw [hrep.sub_w_r, hrep.sub_e_r]
    exact Nat.le_add_right ..
  · rw [hrep.sub_e_r]
    exact hrep.room
  · intro c t ht
    cases ht
    change _ <+: (Cons.abs (consoleintr s.cons c)).queue
    rw [(hrep.consoleintr c).abs_eq]
    exact Line.queue_intr ..
  · intro p n killed copyout t ht
    refine hinv.took killed (Nat.zero_add n.toNat) ?_
    simp only [step] at ht
    split at ht
    · cases ht
    · cases ht
      rfl
  · intro p killed copyout t target n got hp ht
    refine hinv.took killed (hinv.asleep p target n got hp) ?_
    simp only [step, hp] at ht
    cases ht
    rfl

theorem console_line_discipline_eof :
    Disciplined (step.final (start fun _ => 0) [.intr 97, .intr 98, .intr 8, .intr 4, .call 7 3 false fun _ => true]) :=
  console_line_discipline (Machine.reaches_final _)

end Xv6.Console
