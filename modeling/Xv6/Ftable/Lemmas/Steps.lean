import Xv6.Ftable.Lemmas.Inv

/-!
# 命令の一歩
-/

namespace Xv6.Ftable

open Xv6.Lib

/-- プロセス `p` の一歩で `s` から `s'` になり、`p` から見える状態は `v` になった。動いているほかのプロセスから見える状態
は変わらない。 -/
structure Moved (s : Sys) (p : ProcId) (s' : Sys) (v : View) : Prop where
  inv : Inv s'
  view : s'.view p = v
  frame : ∀ q ≠ p, s'.view q = s.view q ∨ (s.view q).state ≠ .live ∧ (s'.view q).Rest

variable {s s' : Sys} {p q np : ProcId} {f : FileId} {pi : Nat} {w : Bool} {v : View}

/-- `p` の一歩。見え方が変わってよいのは、`p` と、生きていない者だけである。 -/
theorem Inv.moved_of (h : Inv s) (hl : v.state = .live) (hview : s'.view p = v) (hframe : ∀ q ≠ p, s'.view q = s.view q ∨
    (s.view q).state ≠ .live ∧ (s'.view q).Rest ∧ Idle (s'.view q)) (hc : Counts s') (he : Ends s') (hk : Kids s') :
    Moved s p s' v where
  inv :=
    { counts := hc
      ends := he
      idle := fun q => by
        by_cases hq : q = p
        · subst hq
          rw [hview]
          exact ⟨fun hn => absurd hl hn, fun hn => absurd hl hn, fun hn => by simp [hl] at hn⟩
        · rcases hframe q hq with he | ⟨_, _, hidle⟩
          · rw [he]
            exact h.idle q
          · exact hidle
      kids := hk }
  view := hview
  frame q hq := (hframe q hq).imp_right fun hc => ⟨hc.1, hc.2.1⟩

theorem Inv.moved (h : Inv s) (hl : v.state = .live) (hview : s'.view p = v) (hframe : ∀ q ≠ p, s'.view q = s.view q)
    (hc : Counts s') (he : Ends s') (hk : Kids s') : Moved s p s' v :=
  h.moved_of hl hview (fun q hq => .inl (hframe q hq)) hc he hk

theorem not_live {st} (hq : (s.proc q).state = st) (hst : st ≠ .live) : (s.view q).state ≠ .live := fun hc =>
  hst (hq.symm.trans hc)

namespace PipeOk

variable {r a b r' a' b' : Option Holder} {x : Pipe} {made : Prop} {o : Holder}

theorem of_same (h : PipeOk r a b x made) (hr : r' = none ↔ r = none) (ha : a' = none ↔ a = none)
    (hb : b' = none ↔ b = none) : PipeOk r' a' b' x made where
  readopen := by rw [h.readopen, Ne, Ne, ha]
  writeopen := by rw [h.writeopen, Ne, Ne, hb]
  closed hr' := by
    rw [ha, hb]
    exact h.closed (by rwa [Ne, ← hr])
  freed hm hr' ha' hb' := h.freed hm (hr.mp hr') (ha.mp ha') (hb.mp hb')
  held hh := h.held (by simpa only [Ne, hr, ha, hb] using hh)
  new := h.new

theorem not_made (h : PipeOk r a b x made) (hm : ¬made) : r = none ∧ a = none ∧ b = none := by
  by_contra hc
  rw [not_and_or, not_and_or] at hc
  exact hm (h.held hc).1

theorem alloc (h : PipeOk r a b x made) (hm : ¬made) : PipeOk (some o) a b x True := by
  obtain ⟨_, rfl, rfl⟩ := h.not_made hm
  exact ⟨h.readopen, h.writeopen, fun _ => ⟨rfl, rfl⟩, nofun, fun _ => ⟨trivial, h.new hm⟩,
    fun hc => absurd trivial hc⟩

theorem init (h : PipeOk (some o) a b x made) :
    PipeOk none (some o) (some o) { x with readopen := true, writeopen := true } made := by
  have hheld := h.held (.inl (by simp))
  exact ⟨by simp, by simp, fun hc => absurd rfl hc, nofun, fun _ => hheld, h.new⟩

theorem closeWrite (h : PipeOk r a (some o) x made) :
    PipeOk (if (x.close true).2 then some o else none) a none (x.close true).1 made := by
  have hr : r = none := by
    by_contra hc
    simpa using (h.closed hc).2
  have hheld := h.held (.inr (.inr (by simp)))
  cases ha : x.readopen with
  | false =>
    have ha' : a = none := by
      have := h.readopen
      simpa [ha] using this
    subst ha'
    simp only [Pipe.close, ha]
    exact ⟨by simp, by simp, fun _ => ⟨rfl, rfl⟩, fun _ hc => (by simp at hc), fun _ => hheld, h.new⟩
  | true =>
    have ha' := h.readopen.mp ha
    simp only [Pipe.close, ha]
    exact ⟨by simpa using ha', by simp, fun hc => absurd rfl hc, fun _ _ hc => absurd hc ha', fun _ => hheld, h.new⟩

theorem closeRead (h : PipeOk r (some o) b x made) :
    PipeOk (if (x.close false).2 then some o else none) none b (x.close false).1 made := by
  have hr : r = none := by
    by_contra hc
    simpa using (h.closed hc).1
  have hheld := h.held (.inr (.inl (by simp)))
  cases hb : x.writeopen with
  | false =>
    have hb' : b = none := by
      have := h.writeopen
      simpa [hb] using this
    subst hb'
    simp only [Pipe.close, hb]
    exact ⟨by simp, by simp, fun _ => ⟨rfl, rfl⟩, fun _ hc => (by simp at hc), fun _ => hheld, h.new⟩
  | true =>
    have hb' := h.writeopen.mp hb
    simp only [Pipe.close, hb]
    exact ⟨by simp, by simpa using hb', fun hc => absurd rfl hc, fun _ _ _ hc => absurd hc hb', fun _ => hheld, h.new⟩

theorem free (h : PipeOk (some o) a b x made) : PipeOk none a b { x with frees := x.frees + 1 } made := by
  obtain ⟨rfl, rfl⟩ := h.closed (by simp)
  obtain ⟨hm, hz⟩ := h.held (.inl (by simp))
  refine ⟨h.readopen, h.writeopen, fun _ => ⟨rfl, rfl⟩, fun _ _ _ _ => by simp [hz], fun hc => ?_, fun hn => absurd hm hn⟩
  simp at hc

end PipeOk

namespace Ends

section

variable (h : Ends s)
include h

theorem of_same (hnone : ∀ t, s'.holder t = none ↔ s.holder t = none)
    (hraw : ∀ pi, s'.holder (.raw pi) = s.holder (.raw pi))
    (hfile : ∀ g pi w, s'.holder (.side pi w) = some (.file g) ↔
      (s'.file g).type = .pipe ∧ (s'.file g).pipe = pi ∧ (s'.file g).writable = w)
    (hpipe : s'.pipe = s.pipe) (hpipes : s'.pipes = s.pipes) : Ends s' where
  file := hfile
  raw g pi := by
    rw [hraw]
    exact h.raw g pi
  pipe pi := by
    rw [hpipe, hpipes]
    exact (h.pipe pi).of_same (hnone _) (hnone _) (hnone _)

theorem at_pipe (pi : Nat) (hfile : s'.file = s.file)
    (hfiles : ∀ g w, s'.holder (.side pi w) = some (.file g) ↔ s.holder (.side pi w) = some (.file g))
    (hraw : ∀ g, s'.holder (.raw pi) ≠ some (.file g))
    (hothers : ∀ pi' ≠ pi, s'.holder (.raw pi') = s.holder (.raw pi') ∧ s'.pipe pi' = s.pipe pi' ∧
      (pi' < s'.pipes ↔ pi' < s.pipes) ∧ ∀ w, s'.holder (.side pi' w) = s.holder (.side pi' w))
    (hpipe : PipeOk (s'.holder (.raw pi)) (s'.holder (.side pi false)) (s'.holder (.side pi true)) (s'.pipe pi)
      (pi < s'.pipes)) : Ends s' where
  file g pi' w := by
    rw [hfile, ← h.file g pi' w]
    by_cases hpi : pi' = pi
    · rw [hpi, hfiles]
    · rw [(hothers pi' hpi).2.2.2 w]
  raw g pi' := by
    by_cases hpi : pi' = pi
    · rw [hpi]
      exact hraw g
    · rw [(hothers pi' hpi).1]
      exact h.raw g pi'
  pipe pi' := by
    by_cases hpi : pi' = pi
    · rw [hpi]
      exact hpipe
    · obtain ⟨h1, h2, h3, h4⟩ := hothers pi' hpi
      rw [h1, h2, h4, h4, h3]
      exact h.pipe pi'

theorem setRef (n : Nat) (hf : s'.file = update s.file f { s.file f with ref := n })
    (hh : s'.holder = s.holder) (hpipe : s'.pipe = s.pipe) (hpipes : s'.pipes = s.pipes) : Ends s' := by
  refine h.of_same (fun t => by rw [hh]) (fun pi => by rw [hh]) (fun g pi w => ?_) hpipe hpipes
  rw [hh, hf, h.file g pi w]
  by_cases hg : g = f
  · simp [hg]
  · simp [hg]

theorem setOther {x} (hx : x.type ≠ .pipe) (hold : (s.file f).type ≠ .pipe)
    (hf : s'.file = update s.file f x) (hh : s'.holder = s.holder) (hpipe : s'.pipe = s.pipe)
    (hpipes : s'.pipes = s.pipes) : Ends s' := by
  refine h.of_same (fun t => by rw [hh]) (fun pi => by rw [hh]) (fun g pi w => ?_) hpipe hpipes
  rw [hh, hf, h.file g pi w]
  by_cases hg : g = f
  · simp [hg, hx, hold]
  · simp [hg]

/-- ファイルの持つ端を、閉じるプロセスの手に移す。 -/
theorem takeSide {x} (hx : x.type ≠ .pipe) (hside : s.holder (.side pi w) = some (.file f))
    (hf : s'.file = update s.file f x)
    (hh : s'.holder = update s.holder (.side pi w) (some (.thread p))) (hpipe : s'.pipe = s.pipe)
    (hpipes : s'.pipes = s.pipes) : Ends s' := by
  refine h.of_same (fun t => ?_) (fun pi => ?_) (fun g pi' w' => ?_) hpipe hpipes
  · rw [hh]
    by_cases ht : t = .side pi w
    · simp [ht, hside]
    · simp [ht]
  · simp [hh]
  have hold := h.file g pi' w'
  rw [hf]
  by_cases hg : g = f
  · have hne : s.holder (.side pi' w') = some (.file f) → .side pi' w' = Token.side pi w := fun hc => by
      obtain ⟨_, h1, h2⟩ := (h.file f pi w).mp hside
      obtain ⟨_, h3, h4⟩ := (h.file f pi' w').mp hc
      rw [← h1, ← h2, h3, h4]
    rw [hh, hg, update_self]
    by_cases ht : Token.side pi' w' = .side pi w
    · simp [ht, hx]
    · simpa [ht, hx] using fun hc => ht (hne hc)
  · rw [update_of_ne hg, ← hold, hh]
    by_cases ht : Token.side pi' w' = .side pi w
    · simp [ht, hside, Ne.symm hg]
    · simp [ht]

theorem giveSide {x} (hx : x.type = .pipe) (hold : (s.file f).type ≠ .pipe)
    (hside : s.holder (.side x.pipe x.writable) = some (.thread p)) (hf : s'.file = update s.file f x)
    (hh : s'.holder = update s.holder (.side x.pipe x.writable) (some (.file f))) (hpipe : s'.pipe = s.pipe)
    (hpipes : s'.pipes = s.pipes) : Ends s' := by
  refine h.of_same (fun t => ?_) (fun pi => ?_) (fun g pi' w' => ?_) hpipe hpipes
  · rw [hh]
    by_cases ht : t = .side x.pipe x.writable
    · simp [ht, hside]
    · simp [ht]
  · simp [hh]
  have hfile := h.file g pi' w'
  rw [hf, hh]
  by_cases ht : Token.side pi' w' = .side x.pipe x.writable
  · rw [ht, update_self]
    cases ht
    by_cases hg : g = f
    · simp [hg, hx]
    · rw [update_of_ne hg, ← hfile, hside]
      simp [Ne.symm hg]
  rw [update_of_ne ht]
  by_cases hg : g = f
  · subst hg
    have ht' : ¬(x.pipe = pi' ∧ x.writable = w') := fun hc => ht (by rw [hc.1, hc.2])
    simp [hfile, hold, hx, ht']
  · rw [update_of_ne hg, hfile]

end

end Ends

namespace Counts

theorem setFile (h : Counts s) {x o} (hf : s'.file = update s.file f x)
    (hb : s'.blank = update s.blank f o) (href : x.ref = ∑ q, s'.own q f)
    (hown : ∀ q, ∀ g ≠ f, s'.own q g = s.own q g) (hfree : x.ref = 0 → x.type = .none)
    (hblank : ∀ q, o = some q → s'.own q f = 1 ∧ x.ref = 1 ∧ x.type = .none) : Counts s' where
  ref g := by
    by_cases hg : g = f
    · rw [hf, hg, update_self, href]
    · rw [hf, update_of_ne hg, h.ref g]
      exact Finset.sum_congr rfl fun q _ => (hown q g hg).symm
  free g := by
    by_cases hg : g = f
    · rw [hf, hg, update_self]
      exact hfree
    · rw [hf, update_of_ne hg]
      exact h.free g
  blank g q := by
    by_cases hg : g = f
    · rw [hf, hb, hg, update_self, update_self]
      exact hblank q
    · rw [hf, hb, update_of_ne hg, update_of_ne hg, hown q g hg]
      exact h.blank g q

end Counts

theorem gain_own_of_ne {g} (hg : g ≠ f) : (s.gain p f).own q g = s.own q g := by
  rw [gain_own_apply, if_neg fun hc => hg hc.2]
  rfl

theorem lose_own_of_ne {g} (hg : g ≠ f) : (s.lose p f).own q g = s.own q g := by
  rw [lose_own_apply, if_neg fun hc => hg hc.2]
  rfl

section

variable (h : Inv s) (hl : (s.view p).state = .live)
include h hl

theorem Inv.filealloc (hf : (s.file f).ref = 0) :
    Moved s p (((s.gain p f).setBlank f (some p)).setFile f { s.file f with ref := 1 })
        (((s.view p).gain f).mark f True) := by
  have hsum := h.counts.sum_gain (p := p) (f := f) f
  rw [hf, if_pos rfl] at hsum
  refine h.moved hl ?_ (fun q hq => ?_) ?_ (h.ends.setRef 1 rfl rfl rfl rfl) { h.kids with }
  · rw [view_setFile, view_setBlank_self, view_gain_self]
  · have hb : ¬(s.view q).blank f := fun hb => by
      have := (h.counts.blank f q hb).2.1
      omega
    rw [view_setFile, view_setBlank_of_ne (by simpa using Ne.symm hq), view_gain_of_ne hq, View.mark_self hb]
  refine h.counts.setFile rfl rfl hsum.symm (fun q g hg => gain_own_of_ne hg) (by simp) fun q hq => ?_
  cases hq
  have hle := h.counts.own_le p f
  refine ⟨?_, rfl, h.counts.free f hf⟩
  change (s.gain p f).own p f = 1
  rw [gain_own_apply, if_pos ⟨rfl, rfl⟩]
  omega

theorem Inv.filedup (ho : 0 < s.own p f) (hb : ¬(s.view p).blank f) :
    Moved s p ((s.gain p f).setFile f { s.file f with ref := (s.file f).ref + 1 }) ((s.view p).gain f) := by
  have hsum := h.counts.sum_gain (p := p) (f := f) f
  rw [if_pos rfl] at hsum
  have hnb : s.blank f = none := by
    cases hq : s.blank f with
    | none => rfl
    | some q =>
      obtain ⟨h1, h2, _⟩ := h.counts.blank f q hq
      obtain rfl := h.counts.sole h2 ho (q := q) (by omega)
      exact absurd hq hb
  refine h.moved hl ((view_setFile _).trans view_gain_self) (fun q hq => (view_setFile _).trans (view_gain_of_ne hq)) ?_
    (h.ends.setRef _ rfl rfl rfl rfl) { h.kids with }
  refine h.counts.setFile (o := none) rfl ?_ hsum.symm (fun q g hg => gain_own_of_ne hg) (by simp) (by simp)
  rw [← hnb, update_eq_self]
  rfl

theorem Inv.unref (ho : 0 < s.own p f) (hr : (s.file f).ref - 1 > 0) :
    Moved s p ((s.lose p f).setFile f { s.file f with ref := (s.file f).ref - 1 }) ((s.view p).dropped f none) := by
  have hsum := h.counts.sum_lose ho f
  rw [if_pos rfl] at hsum
  have hnb : s.blank f = none := by
    cases hq : s.blank f with
    | none => rfl
    | some q =>
      have := (h.counts.blank f q hq).2.1
      omega
  refine h.moved hl ?_ (fun q hq => (view_setFile _).trans (view_lose_of_ne hq)) ?_ (h.ends.setRef _ rfl rfl rfl rfl)
    { h.kids with }
  · rw [view_setFile, view_lose_self, View.dropped]
    refine (View.mark_self ?_).symm
    change s.blank f ≠ some p
    simp [hnb]
  refine h.counts.setFile (o := none) rfl ?_ ?_ (fun q g hg => lose_own_of_ne hg) (fun h0 => ?_) (by simp)
  · rw [← hnb, update_eq_self]
    rfl
  · change (s.file f).ref - 1 = ∑ q, (s.lose p f).own q f
    omega
  · change (s.file f).ref - 1 = 0 at h0
    omega

theorem Inv.release (ho : 0 < s.own p f) (hr : (s.file f).ref = 1) :
    Moved s p (s.release p f) ((s.view p).dropped f (some (s.file f))) := by
  have hsum := h.counts.sum_lose ho f
  rw [if_pos rfl, hr] at hsum
  -- 表の項目とその記録は、パイプでもほかでも同じように片付く
  have hcounts : ∀ s' : Sys, s'.file = update s.file f { s.file f with ref := 0, type := .none } →
      s'.blank = update s.blank f none → s'.own = (s.lose p f).own → Counts s' := by
    intro s' hf hb ho'
    refine h.counts.setFile hf hb ?_ (fun q g hg => ?_) (fun _ => rfl) (by simp)
    · rw [ho']
      change 0 = _
      omega
    · rw [ho']
      exact lose_own_of_ne hg
  have hframe : ∀ q ≠ p, (((s.lose p f).setBlank f none).setFile f
      { s.file f with ref := 0, type := .none }).view q = s.view q := by
    intro q hq
    have hb : ¬(s.view q).blank f := fun hb => by
      obtain ⟨h1, h2, _⟩ := h.counts.blank f q hb
      exact hq (h.counts.sole h2 (p := q) (by omega) ho)
    rw [view_setFile, view_setBlank_of_ne (by simp), view_lose_of_ne hq, View.mark_self hb]
  by_cases ht : (s.file f).type = .pipe
  · have hside := (h.ends.file f (s.file f).pipe (s.file f).writable).mpr ⟨ht, rfl, rfl⟩
    rw [Sys.release, if_pos ht, View.dropped, if_pos ht]
    refine h.moved hl ?_ (fun q hq => ?_) (hcounts _ rfl rfl rfl) ?_ { h.kids with }
    · rw [view_setHolder_self, view_setFile, view_setBlank_of_ne (by simp), view_lose_self]
    · rw [view_setHolder_of_ne (by simpa using Ne.symm hq), hframe q hq, View.hold_self]
      change ¬s.holder _ = _
      simp [hside]
    · exact h.ends.takeSide (by simp) hside rfl rfl rfl rfl
  · rw [Sys.release, if_neg ht, View.dropped, if_neg ht]
    refine h.moved hl ?_ hframe (hcounts _ rfl rfl rfl) ?_ { h.kids with }
    · rw [view_setFile, view_setBlank_of_ne (by simp), view_lose_self]
    · exact h.ends.setOther (by simp) ht rfl rfl rfl rfl

theorem Inv.write (hb : (s.view p).blank f) {x}
    (hx : x.type = .pipe → (s.view p).hand (.side x.pipe x.writable)) :
    Moved s p (s.write f x) (if x.type = .pipe then ((s.view p).mark f False).hold (.side x.pipe x.writable) False
      else (s.view p).mark f False) := by
  obtain ⟨hown, href, htype⟩ := h.counts.blank f p hb
  have hcounts : ∀ s' : Sys, s'.file = update s.file f { x with ref := (s.file f).ref } →
      s'.blank = update s.blank f none → s'.own = s.own → Counts s' := by
    intro s' hf hb ho
    refine h.counts.setFile hf hb ?_ (fun q g _ => by rw [ho]) (fun h0 => ?_) (by simp)
    · rw [ho]
      exact h.counts.ref f
    · change (s.file f).ref = 0 at h0
      omega
  have hframe : ∀ q ≠ p, ((s.setBlank f none).setFile f { x with ref := (s.file f).ref }).view q = s.view q := by
    intro q hq
    rw [view_setFile, view_setBlank_of_ne (by simp), View.mark_self]
    change ¬s.blank f = some q
    rw [show s.blank f = some p from hb]
    simpa using Ne.symm hq
  by_cases ht : x.type = .pipe
  · have hside := hx ht
    rw [Sys.write, if_pos ht, if_pos ht]
    refine h.moved hl ?_ (fun q hq => ?_) (hcounts _ rfl rfl rfl) ?_ { h.kids with }
    · rw [view_setHolder_of_ne (by simp), view_setFile, view_setBlank_of_ne (by simp)]
    · rw [view_setHolder_of_ne (by simp), hframe q hq, View.hold_self]
      change ¬s.holder _ = _
      rw [show s.holder _ = some (.thread p) from hside]
      simpa using Ne.symm hq
    · exact h.ends.giveSide (x := { x with ref := (s.file f).ref }) ht (by simp [htype]) hside rfl rfl rfl rfl
  · rw [Sys.write, if_neg ht, if_neg ht]
    refine h.moved hl ?_ hframe (hcounts _ rfl rfl rfl) ?_ { h.kids with }
    · rw [view_setFile, view_setBlank_of_ne (by simp)]
    · exact h.ends.setOther (x := { x with ref := (s.file f).ref }) ht (by simp [htype]) rfl rfl rfl rfl

end

/-- `p` の手の持ち物だけが動く一歩。 -/
theorem Inv.hands (h : Inv s) (hl : v.state = .live) (hview : s'.view p = v) (hfile : s'.file = s.file)
    (hproc : s'.proc = s.proc)
    (hown : s'.own = s.own) (hblank : s'.blank = s.blank) (hkid : s'.kid = s.kid)
    (hother : ∀ q ≠ p, ∀ t, s'.holder t = some (.thread q) ↔ s.holder t = some (.thread q))
        (he : Ends s') : Moved s p s' v := by
  refine h.moved hl hview (fun q hq => ?_) ?_ he ?_
  · ext1 <;> simp only [Sys.view, hproc, hown, hblank, hkid]
    exact funext fun t => propext (hother q hq t)
  · exact ⟨by rw [hfile, hown]; exact h.counts.ref, by rw [hfile]; exact h.counts.free,
      by rw [hfile, hown, hblank]; exact h.counts.blank⟩
  · exact ⟨by rw [hkid, hproc]; exact h.kids.used, by rw [hkid]; exact h.kids.unique,
      by rw [hkid, hproc]; exact h.kids.parent⟩

section

variable (h : Inv s) (hl : (s.view p).state = .live)
include h hl

theorem Inv.kalloc :
    Moved s p ({ s with pipes := s.pipes + 1 }.setHolder (.raw s.pipes) (some (.thread p)))
      ((s.view p).hold (.raw s.pipes) True) := by
  have hok := h.ends.pipe s.pipes
  obtain ⟨hr, _, _⟩ := hok.not_made (lt_irrefl _)
  refine h.hands hl view_setHolder_self rfl rfl rfl rfl rfl (fun q hq t => ?_) ?_
  · by_cases ht : t = .raw s.pipes
    · simp [ht, hr, hq.symm]
    · simp [ht]
  · refine h.ends.at_pipe s.pipes rfl (by simp) (by simp) (fun pi' hpi => ?_) ?_
    · simp [hpi]
      omega
    · have := hok.alloc (o := .thread p) (lt_irrefl _)
      simpa using this

theorem Inv.initPipe (hr : (s.view p).hand (.raw pi)) :
    Moved s p (s.initPipe p pi)
      ((((s.view p).hold (.raw pi) False).hold (.side pi false) True).hold (.side pi true) True) := by
  have hr : s.holder (.raw pi) = some (.thread p) := hr
  have hok := h.ends.pipe pi
  obtain ⟨ha, hb⟩ := hok.closed (by simp [hr])
  rw [hr] at hok
  refine h.hands hl ?_ rfl rfl rfl rfl rfl (fun q hq t => ?_) ?_
  · rw [Sys.initPipe, view_setHolder_self, view_setHolder_self, view_setHolder_of_ne (by simp), view_setPipe]
  · simp only [Sys.initPipe, Sys.setHolder_holder, Sys.setPipe_holder, update_apply]
    split_ifs with h1 h2 h3
    · simp [h1, hb, hq.symm]
    · simp [h2, ha, hq.symm]
    · simp [h3, hr, hq.symm]
    · rfl
  · refine h.ends.at_pipe pi rfl (fun g w => ?_) (by simp [Sys.initPipe]) (fun pi' hpi => ?_) ?_
    · cases w <;> simp [Sys.initPipe, ha, hb]
    · simp [Sys.initPipe, hpi]
    · simpa [Sys.initPipe] using hok.init

theorem Inv.shut (hs : (s.view p).hand (.side pi w)) :
    Moved s p (s.shut p pi w) (if ((s.pipe pi).close w).2 then ((s.view p).hold (.side pi w) False).hold (.raw pi) True
      else (s.view p).hold (.side pi w) False) := by
  have hs : s.holder (.side pi w) = some (.thread p) := hs
  have hok := h.ends.pipe pi
  have hr : s.holder (.raw pi) = none := by
    by_contra hc
    obtain ⟨ha, hb⟩ := hok.closed hc
    cases w with
    | false => simp [ha] at hs
    | true => simp [hb] at hs
  have hholder : (s.shut p pi w).holder = update (update s.holder (.side pi w) none) (.raw pi)
      (if ((s.pipe pi).close w).2 then some (.thread p) else none) := by
    unfold Sys.shut
    split
    · rfl
    · rw [← hr, ← update_comm (by simp), update_eq_self]
      rfl
  have hrest : (s.shut p pi w).file = s.file ∧ (s.shut p pi w).proc = s.proc ∧ (s.shut p pi w).own = s.own ∧
      (s.shut p pi w).blank = s.blank ∧ (s.shut p pi w).kid = s.kid ∧ (s.shut p pi w).pipes = s.pipes ∧
      (s.shut p pi w).pipe = update s.pipe pi ((s.pipe pi).close w).1 := by
    unfold Sys.shut
    split
    · exact ⟨rfl, rfl, rfl, rfl, rfl, rfl, rfl⟩
    · exact ⟨rfl, rfl, rfl, rfl, rfl, rfl, rfl⟩
  obtain ⟨hfile, hproc, hown, hblank, hkid, hpipes, hpipe⟩ := hrest
  refine h.hands ?_ ?_ hfile hproc hown hblank hkid (fun q hq t => ?_) ?_
  · split <;> exact hl
  · unfold Sys.shut
    split
    · rw [view_setHolder_self, view_setHolder_of_ne (by simp), view_setPipe]
    · rw [view_setHolder_of_ne (by simp), view_setPipe]
  · rw [hholder]
    by_cases h1 : t = .raw pi
    · rw [h1, update_self, hr]
      split <;> simp [hq.symm]
    · by_cases h2 : t = .side pi w
      · simp [h2, hs, hq.symm]
      · simp [h1, h2]
  refine h.ends.at_pipe pi hfile (fun g w' => ?_) (fun g => ?_) (fun pi' hpi => ?_) ?_
  · rw [hholder]
    by_cases hw : w' = w
    · simp [hw, hs]
    · simp [hw]
  · rw [hholder, update_self]
    split <;> simp
  · simp [hholder, hpipe, hpipes, hpi]
  rw [hholder, hpipe, hpipes]
  cases w with
  | false =>
    rw [hs] at hok
    simpa using hok.closeRead
  | true =>
    rw [hs] at hok
    simpa using hok.closeWrite

theorem Inv.kfree (hr : (s.view p).hand (.raw pi)) :
    Moved s p (s.kfree pi) ((s.view p).hold (.raw pi) False) := by
  have hr : s.holder (.raw pi) = some (.thread p) := hr
  have hok := h.ends.pipe pi
  rw [hr] at hok
  refine h.hands hl ?_ rfl rfl rfl rfl rfl (fun q hq t => ?_) ?_
  · rw [Sys.kfree, view_setHolder_of_ne (by simp), view_setPipe]
  · by_cases ht : t = .raw pi
    · simp [Sys.kfree, ht, hr, hq.symm]
    · simp [Sys.kfree, ht]
  · refine h.ends.at_pipe pi rfl (by simp [Sys.kfree]) (by simp [Sys.kfree]) (fun pi' hpi => ?_) ?_
    · simp [Sys.kfree, hpi]
    · simpa [Sys.kfree] using hok.free

end

theorem setOfile_state (fd : Fd) (o : Option FileId) : ((s.setOfile p fd o).proc q).state = (s.proc q).state := by
  by_cases hq : q = p
  · simp [Sys.setOfile, hq]
  · simp [Sys.setOfile, hq]

theorem setState_state_of_ne (hq : q ≠ p) (st : PState) : ((s.setState p st).proc q).state = (s.proc q).state := by
  simp [Sys.setState, hq]

theorem setState_used {st} (hp : (s.proc p).state ≠ .used) (hst : st ≠ .used) (q : ProcId) :
    ((s.setState p st).proc q).state = .used ↔ (s.proc q).state = .used := by
  by_cases hq : q = p
  · simp [Sys.setState, hq, hp, hst]
  · rw [setState_state_of_ne hq]

theorem Kids.of_state (h : Kids s) (hst : ∀ q, (s'.proc q).state = .used ↔ (s.proc q).state = .used)
    (hkid : s'.kid = s.kid) :
    Kids s' where
  used q np hq := (hst np).mpr (h.used q np (hkid ▸ hq))
  unique := hkid ▸ h.unique
  parent np hnp := hkid ▸ h.parent np ((hst np).mp hnp)

theorem Inv.setOfile (h : Inv s) (hl : (s.view p).state = .live) (fd : Fd) (o : Option FileId) :
    Moved s p (s.setOfile p fd o) ((s.view p).setOfile fd o) := by
  have hl : (s.proc p).state = .live := hl
  have hkid : ∀ q, s.kid q ≠ some p := fun q hq => by simpa [hl] using h.kids.used q p hq
  refine h.moved hl (view_setOfile_self (hkid p) o) (fun q hq => view_setOfile_of_ne hq (hkid q) o)
    { h.counts with } { h.ends with }
    (h.kids.of_state (fun q => by rw [setOfile_state]) rfl)

theorem Inv.moved_other (h : Inv s) (hl : v.state = .live) (hview : s'.view p = v) (hnp : (s.view np).state ≠ .live)
    (hrest : (s'.view np).Rest) (hidle : Idle (s'.view np)) (hframe : ∀ q, q ≠ p → q ≠ np → s'.view q = s.view q)
    (hc : Counts s') (he : Ends s') (hk : Kids s') : Moved s p s' v := by
  refine h.moved_of hl hview (fun q hq => ?_) hc he hk
  by_cases hqn : q = np
  · rw [hqn]
    exact .inr ⟨hnp, hrest, hidle⟩
  · exact .inl (hframe q hq hqn)

theorem Idle.setState {st} (h : Idle v) (hv : v.state ≠ .live)
    (hof : st = .unused ∨ st = .zombie → ∀ fd, v.ofile fd = none) : Idle (v.setState st) where
  bare _ := { h.bare hv with }
  own _ := h.own hv
  empty := hof

theorem View.Rest.of_not_live (hv : v.state ≠ .live) : v.Rest := fun hl => absurd hl hv

theorem Inv.allocproc (h : Inv s) (hl : (s.view p).state = .live) (hk : (s.view p).kid = none)
    (hnp : (s.proc np).state = .unused) :
    Moved s p ((s.setState np .used).setKid p (some np)) ((s.view p).setKid (some (np, fun _ => none))) := by
  have hnl := not_live hnp (by decide)
  have hne : p ≠ np := fun he => hnl (he ▸ hl)
  have hview : ((s.setState np .used).setKid p (some np)).view np = (s.view np).setState .used := by
    rw [view_setKid_of_ne hne.symm, view_setState_self]
  have hidle := h.idle np
  have hkp : ∀ np', s.kid p ≠ some np' := fun np' => by simp [Option.map_eq_none_iff.mp hk]
  refine h.moved_other hl ?_ hnl ?_ ?_ (fun q hq hqn => ?_) { h.counts with }
    { h.ends with } ?_
  · rw [view_setKid_self, view_setState_of_ne hne, Option.map_some, setState_ofile]
    rw [show (s.proc np).ofile = fun _ => none from funext (hidle.empty (.inl hnp))]
  · rw [hview]
    exact .of_not_live (by simp)
  · rw [hview]
    exact hidle.setState hnl (by simp)
  · rw [view_setKid_of_ne hq, view_setState_of_ne hqn]
  have hold : ∀ q, s.kid q ≠ some np := fun q hq => by simpa [hnp] using h.kids.used q np hq
  refine ⟨fun q np' hq => ?_, fun q q' np' hq hq' => ?_, fun np' hnp' => ?_⟩
  · rcases update_eq hq with ⟨_, ⟨⟩⟩ | ⟨_, hq⟩
    · simp [Sys.setState]
    have hn : np' ≠ np := by
      rintro rfl
      exact hold q hq
    change ((s.setState np .used).proc np').state = .used
    rw [setState_state_of_ne hn]
    exact h.kids.used q np' hq
  · rcases update_eq hq with ⟨hqp, h1⟩ | ⟨_, h1⟩ <;> rcases update_eq hq' with ⟨hqp', h2⟩ | ⟨_, h2⟩
    · rw [hqp, hqp']
    · exact absurd (h2.trans h1.symm) (hold q')
    · exact absurd (h1.trans h2.symm) (hold q)
    · exact h.kids.unique q q' np' h1 h2
  by_cases hn : np' = np
  · exact ⟨p, by simp [hn]⟩
  · obtain ⟨q, hq⟩ := h.kids.parent np' (by rwa [← setState_state_of_ne hn .used])
    have hqp : q ≠ p := by
      rintro rfl
      exact hkp np' hq
    exact ⟨q, by simpa [Sys.setState, hqp] using hq⟩

theorem Kids.dropKid (h : Kids s) (hk : s.kid p = some np) (hkid : s'.kid = update s.kid p none)
    (hst : ∀ q ≠ np, (s'.proc q).state = (s.proc q).state) (hnp : (s'.proc np).state ≠ .used) : Kids s' where
  used q np' hq := by
    rcases update_eq (hkid ▸ hq) with ⟨_, ⟨⟩⟩ | ⟨hqp, hq⟩
    have hn : np' ≠ np := by
      rintro rfl
      exact hqp (h.unique q p np' hq hk)
    rw [hst np' hn]
    exact h.used q np' hq
  unique q q' np' hq hq' := by
    rcases update_eq (hkid ▸ hq) with ⟨_, ⟨⟩⟩ | ⟨_, hq⟩
    rcases update_eq (hkid ▸ hq') with ⟨_, ⟨⟩⟩ | ⟨_, hq'⟩
    exact h.unique q q' np' hq hq'
  parent np' hnp' := by
    have hn : np' ≠ np := by
      rintro rfl
      exact hnp hnp'
    obtain ⟨q, hq⟩ := h.parent np' (by rwa [← hst np' hn])
    have hqp : q ≠ p := by
      rintro rfl
      exact hn (Option.some.inj (hq.symm.trans hk))
    exact ⟨q, by rwa [hkid, update_of_ne hqp]⟩

section

variable (h : Inv s) (hl : (s.view p).state = .live)
include h hl

theorem Inv.kid_view {o} (hk : (s.view p).kid = some (np, o)) :
    s.kid p = some np ∧ (s.proc np).ofile = o ∧ (s.proc np).state = .used ∧ p ≠ np := by
  obtain ⟨np', hnp', he⟩ := Option.map_eq_some_iff.mp hk
  cases he
  have hu := h.kids.used p np hnp'
  exact ⟨hnp', rfl, hu, fun he => not_live hu (by decide) (he ▸ hl)⟩

theorem Inv.freeproc (hk : (s.view p).kid = some (np, fun _ => none)) :
    Moved s p ((s.setState np .unused).setKid p none) ((s.view p).setKid none) := by
  obtain ⟨hkid, hof, hu, hne⟩ := h.kid_view hl hk
  have hnl := not_live hu (by decide)
  have hview : ((s.setState np .unused).setKid p none).view np = (s.view np).setState .unused := by
    rw [view_setKid_of_ne hne.symm, view_setState_self]
  have hidle := h.idle np
  refine h.moved_other hl ?_ hnl ?_ ?_ (fun q hq hqn => ?_) { h.counts with }
    { h.ends with } (h.kids.dropKid hkid rfl (fun q hq => setState_state_of_ne hq _)
        (by simp [Sys.setState]))
  · rw [view_setKid_self, view_setState_of_ne hne, Option.map_none]
  · rw [hview]
    exact .of_not_live (by simp)
  · rw [hview]
    refine hidle.setState hnl fun _ fd => ?_
    change (s.proc np).ofile fd = none
    rw [hof]
  · rw [view_setKid_of_ne hq, view_setState_of_ne hqn]

theorem Inv.dupOfile {o} (hk : (s.view p).kid = some (np, o)) (fd : Fd) :
    Moved s p (s.setOfile np fd (some f)) ((s.view p).setKid (some (np, update o fd (some f)))) := by
  obtain ⟨hkid, hof, hu, hne⟩ := h.kid_view hl hk
  have hnl := not_live hu (by decide)
  have hidle := h.idle np
  have hnk : s.kid np = none := Option.map_eq_none_iff.mp (hidle.bare hnl).kid
  have hview : (s.setOfile np fd (some f)).view np = (s.view np).setOfile fd (some f) :=
    view_setOfile_self (by simp [hnk]) _
  refine h.moved_other hl ?_ hnl ?_ ?_ (fun q hq hqn => view_setOfile_of_ne hqn (fun hc => ?_) _)
    { h.counts with } { h.ends with }
    (h.kids.of_state (fun q => by rw [setOfile_state]) rfl)
  · rw [view_setOfile_kid hne hkid, hof]
  · rw [hview]
    exact .of_not_live hnl
  · rw [hview]
    refine ⟨fun _ => { hidle.bare hnl with }, fun _ => hidle.own hnl,
        fun hst => ?_⟩
    rw [View.setOfile_state, show (s.view np).state = .used from hu] at hst
    simp at hst
  · exact hq (h.kids.unique q p np hc hkid)

/-- 子が走り始めると、親が複製した参照は子のものになる。 -/
theorem Inv.runnable {o}
    (hk : (s.view p).kid = some (np, o)) (hb : ∀ f, ¬(s.view p).blank f) (ho : ∀ f, occ o (some f) ≤ s.own p f) :
    Moved s p (s.runnable p np) (((s.view p).setKid none).setOwn fun f => s.own p f - occ o (some f)) := by
  obtain ⟨hkid, hof, hu, hne⟩ := h.kid_view hl hk
  have hnl := not_live hu (by decide)
  have hidle := h.idle np
  have hview : (s.runnable p np).view np = ((s.view np).setState .live).setOwn fun f => occ o (some f) := by
    rw [Sys.runnable, view_setOwn_self, view_setOwn_of_ne hne.symm, view_setKid_of_ne hne.symm, view_setState_self, hof]
  have hsum : ∀ f, ∑ q, (s.runnable p np).own q f = ∑ q, s.own q f := by
    intro f
    have h1 := sum_update s.own p (fun f => s.own p f - occ o (some f)) f
    have h2 := sum_update (update s.own p fun f => s.own p f - occ o (some f)) np (fun f => occ o (some f)) f
    have h3 : s.own np f = 0 := hidle.own hnl f
    have h4 := ho f
    rw [update_of_ne hne.symm] at h2
    change ∑ q, update (update s.own p _) np _ q f = _
    rw [hof]
    omega
  refine h.moved_other hl ?_ hnl ?_ ?_ (fun q hq hqn => ?_) ⟨fun f => ?_, h.counts.free, fun f q hq => ?_⟩
    { h.ends with } (h.kids.dropKid hkid rfl (fun q hq => setState_state_of_ne hq _)
        (by simp [Sys.setState, Sys.runnable]))
  · rw [Sys.runnable, view_setOwn_of_ne hne, view_setOwn_self, view_setKid_self, view_setState_of_ne hne,
      Option.map_none, hof]
  · rw [hview]
    refine fun _ => ⟨{ hidle.bare hnl with }, fun f => ?_⟩
    change occ o (some f) = occ (s.proc np).ofile (some f)
    rw [hof]
  · rw [hview]
    exact ⟨fun hn => absurd rfl hn, fun hn => absurd rfl hn, by simp⟩
  · rw [Sys.runnable, view_setOwn_of_ne hqn, view_setOwn_of_ne hq, view_setKid_of_ne hq, view_setState_of_ne hqn]
  · rw [hsum]
    exact h.counts.ref f
  have hqp : q ≠ p := by
    rintro rfl
    exact hb f hq
  have hqn : q ≠ np := by
    rintro rfl
    exact (hidle.bare hnl).blank f hq
  change update (update s.own p _) np _ q f = 1 ∧ _
  rw [update_of_ne hqn, update_of_ne hqp]
  exact h.counts.blank f q hq

theorem Inv.zombie (hb : (s.view p).Bare) (ho : ∀ f, s.own p f = 0)
    (hof : ∀ fd, (s.proc p).ofile fd = none) : Moved s p (s.setState p .zombie) ((s.view p).setState .zombie) where
  inv :=
    { counts := { h.counts with }
      ends := { h.ends with }
      idle := fun q => by
        by_cases hq : q = p
        · rw [hq, view_setState_self]
          exact ⟨fun _ => { hb with }, fun _ => ho, fun _ => hof⟩
        · rw [view_setState_of_ne hq]
          exact h.idle q
      kids := h.kids.of_state (setState_used (by rw [show (s.proc p).state = .live from hl]; decide) (by decide)) rfl }
  view := view_setState_self _
  frame q hq := .inl (view_setState_of_ne hq _)

theorem Inv.reap (hnp : (s.proc np).state = .zombie) :
    Moved s p (s.setState np .unused) (s.view p) := by
  have hnl := not_live hnp (by decide)
  have hne : p ≠ np := fun he => hnl (he ▸ hl)
  have hidle := h.idle np
  refine h.moved_other hl (view_setState_of_ne hne _) hnl ?_ ?_ (fun q _ hqn => view_setState_of_ne hqn _)
    { h.counts with } { h.ends with }
    (h.kids.of_state (setState_used (by rw [hnp]; decide) (by decide)) rfl)
  · rw [view_setState_self]
    exact .of_not_live (by simp)
  · rw [view_setState_self]
    exact hidle.setState hnl fun _ => hidle.empty (.inr hnp)

end

end Xv6.Ftable
