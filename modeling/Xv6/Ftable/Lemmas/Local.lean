import Xv6.Ftable.Table

/-!
# プロセスから見た表
-/

namespace Xv6.Ftable

open Xv6.Lib List
open Xv6.Fs (nofile OMode)

/-- プロセスから見える状態。`kid` は作っている子と、その `ofile` である。 -/
@[ext]
structure View where
  state : PState
  ofile : Fd → Option FileId
  own : FileId → Nat
  blank : FileId → Prop
  hand : Token → Prop
  kid : Option (ProcId × (Fd → Option FileId))

namespace View

@[simps -fullyApplied]
def setOfile (v : View) (fd : Fd) (o : Option FileId) : View := { v with ofile := update v.ofile fd o }

@[simps -fullyApplied]
def setOwn (v : View) (g : FileId → Nat) : View := { v with own := g }

@[simps -fullyApplied]
def mark (v : View) (f : FileId) (b : Prop) : View := { v with blank := update v.blank f b }

@[simps -fullyApplied]
def hold (v : View) (t : Token) (b : Prop) : View := { v with hand := update v.hand t b }

@[simps -fullyApplied]
def setKid (v : View) (o : Option (ProcId × (Fd → Option FileId))) : View := { v with kid := o }

@[simps -fullyApplied]
def setState (v : View) (st : PState) : View := { v with state := st }

@[simps! -fullyApplied]
def gain (v : View) (f : FileId) : View := v.setOwn (update v.own f (v.own f + 1))

@[simps! -fullyApplied]
def lose (v : View) (f : FileId) : View := v.setOwn (update v.own f (v.own f - 1))

def dropped (v : View) (f : FileId) : Option File → View
  | none => (v.lose f).mark f False
  | some ff =>
    if ff.type = .pipe then ((v.lose f).mark f False).hold (.side ff.pipe ff.writable) True
    else (v.lose f).mark f False

structure Bare (v : View) : Prop where
  kid : v.kid = none
  hand : ∀ t, ¬v.hand t
  blank : ∀ f, ¬v.blank f

def Rest (v : View) : Prop := v.state = .live → v.Bare ∧ ∀ f, v.own f = occ v.ofile (some f)

end View

def Harmless (msg : String) : Prop := msg ≠ "filedup" ∧ msg ≠ "fileclose"

/-- 命令ごとの条件。参照を増減するにはその参照を、パイプのページを扱うにはその権利を持つ。 -/
def need : (i : Op) → (i.Resp → View → Prop) → View → Prop
  | .filealloc, Q, v => Q none v ∧ ∀ f, v.own f = 0 → Q (some f) ((v.gain f).mark f True)
  | .filedup f, Q, v => 0 < v.own f ∧ ¬v.blank f ∧ Q () (v.gain f)
  | .last f, Q, v => 0 < v.own f ∧ ∀ r, Q r (v.dropped f r)
  | .write f g, Q, v =>
    v.blank f ∧ ∀ x, if (g x).type = .pipe then v.hand (.side (g x).pipe (g x).writable) ∧
      Q () ((v.mark f False).hold (.side (g x).pipe (g x).writable) False) else Q () (v.mark f False)
  | .ofile fd, Q, v => Q (v.ofile fd) v
  | .setOfile fd o, Q, v => Q () (v.setOfile fd o)
  | .kalloc, Q, v => Q none v ∧ ∀ pi, Q (some pi) (v.hold (.raw pi) True)
  | .initPipe pi, Q, v =>
    v.hand (.raw pi) ∧ Q () (((v.hold (.raw pi) False).hold (.side pi false) True).hold (.side pi true) True)
  | .shut pi w, Q, v =>
    v.hand (.side pi w) ∧ Q false (v.hold (.side pi w) False) ∧ Q true ((v.hold (.side pi w) False).hold (.raw pi) True)
  | .kfree pi, Q, v => v.hand (.raw pi) ∧ Q () (v.hold (.raw pi) False)
  | .copyout, Q, v => ∀ r, Q r v
  | .lookup _, Q, v => ∀ r, Q r v
  | .fs, Q, v => Q () v
  | .allocproc, Q, v => v.kid = none ∧ Q none v ∧ ∀ np, Q (some np) (v.setKid (some (np, fun _ => none)))
  | .uvmcopy, Q, v => ∀ r, Q r v
  | .freeproc np, Q, v => v.kid = some (np, fun _ => none) ∧ Q () (v.setKid none)
  | .dupOfile np fd f, Q, v => ∃ o, v.kid = some (np, o) ∧ Q () (v.setKid (some (np, update o fd (some f))))
  | .runnable np, Q, v =>
    ∃ o, v.kid = some (np, o) ∧ (∀ f, ¬v.blank f) ∧ (∀ f, occ o (some f) ≤ v.own f) ∧
      Q () ((v.setKid none).setOwn fun f => v.own f - occ o (some f))
  | .zombie, Q, v => v.Bare ∧ (∀ f, v.own f = 0) ∧ (∀ fd, v.ofile fd = none) ∧ Q () (v.setState .zombie)
  | .reap, Q, v => Q () v
  | .panic msg, _, _ => Harmless msg

def allow (i : Op) (Q : i.Resp → View → Prop) (v : View) : Prop := v.state = .live ∧ need i Q v

variable {v : View} {f : FileId} {α : Type}

theorem View.hold_hold (t : Token) (b c : Prop) : (v.hold t b).hold t c = v.hold t c := by
  simp [View.hold]

theorem View.hold_self {t} (h : ¬v.hand t) : v.hold t False = v := by
  have he : update v.hand t False = v.hand := by
    rw [← eq_false h, update_eq_self]
  rw [View.hold, he]

theorem pipeclose_spec {pi w Q} (hl : v.state = .live) (hr : ¬v.hand (.raw pi))
    (h : v.hand (.side pi w)) (hQ : Q () (v.hold (.side pi w) False)) : Free.spec allow (pipeclose pi w) Q v := by
  rw [pipeclose, Free.spec_bind]
  refine ⟨hl, h, hQ, hl, by simp, ?_⟩
  rw [View.hold_hold, View.hold_self (by simpa using hr)]
  exact hQ

theorem fileclose_spec {Q} (hl : v.state = .live) (hh : ∀ t, ¬v.hand t) (ho : 0 < v.own f)
    (hQ : Q () ((v.lose f).mark f False)) : Free.spec allow (fileclose f) Q v := by
  rw [fileclose, Free.spec_bind]
  refine ⟨hl, ho, fun r => ?_⟩
  cases r with
  | none => exact hQ
  | some ff =>
    change Free.spec allow (closeLast ff) Q (v.dropped f (some ff))
    simp only [View.dropped, closeLast]
    cases ht : ff.type with
    | none => exact hQ
    | inode | device => exact ⟨hl, hQ⟩
    | pipe =>
      refine pipeclose_spec hl (hh _) (by simp) ?_
      rw [if_pos rfl, View.hold_hold, View.hold_self (v := (v.lose f).mark f False) (hh _)]
      exact hQ

theorem fdallocLoop_spec {Q} (hl : v.state = .live) (hnone : Q none v)
    (hsome : ∀ fd, v.ofile fd = none → Q (some fd) (v.setOfile fd (some f))) (fds : List Fd) :
    Free.spec allow (fdallocLoop f fds) Q v := by
  induction fds with
  | nil => exact hnone
  | cons fd fds ih =>
    rw [fdallocLoop, Free.spec_bind]
    refine ⟨hl, ?_⟩
    simp only [need]
    cases ho : v.ofile fd with
    | none => exact ⟨hl, hsome fd ho⟩
    | some g => exact ih

theorem fdalloc_spec {Q} (hl : v.state = .live) (hnone : Q none v)
    (hsome : ∀ fd, v.ofile fd = none → Q (some fd) (v.setOfile fd (some f))) : Free.spec allow (fdalloc f) Q v :=
  fdallocLoop_spec hl hnone hsome _

/-- `ofile` のほかに、参照 `l` を持つ。種類を決めていない項目は `b` の中にある。 -/
structure Holds (v : View) (l b : List FileId) : Prop where
  live : v.state = .live
  kid : v.kid = none
  hand : ∀ t, ¬v.hand t
  blank : ∀ f, v.blank f → f ∈ b
  own : ∀ f, v.own f = occ v.ofile (some f) + l.count f

namespace Holds

variable {l l' b b' : List FileId} {fd : Fd}

theorem rest (h : Holds v [] []) : v.Rest := fun _ =>
  ⟨⟨h.kid, h.hand, fun f hf => by simpa using h.blank f hf⟩, fun f => by simpa using h.own f⟩

theorem of_rest (hl : v.state = .live) (h : v.Rest) : Holds v [] [] where
  live := hl
  kid := (h hl).1.kid
  hand := (h hl).1.hand
  blank f hf := absurd hf ((h hl).1.blank f)
  own f := by simpa using (h hl).2 f

theorem pos (h : Holds v (f :: l) b) : 0 < v.own f := by
  rw [h.own f, count_cons_self]
  omega

section

variable (h : Holds v l b)
include h

theorem pos_of_ofile (hfd : v.ofile fd = some f) : 0 < v.own f := by
  have := occ_pos.mpr ⟨fd, hfd⟩
  rw [h.own f]
  omega

theorem perm (hp : l.Perm l') : Holds v l' b where
  __ := h
  own f := by rw [h.own f, hp.count_eq]

theorem gain : Holds (v.gain f) (f :: l) b where
  __ := h
  own g := by
    by_cases hg : g = f
    · subst hg
      simp [h.own g]
      omega
    · simp [hg, h.own g, count_cons_of_ne (Ne.symm hg)]

theorem alloc : Holds ((v.gain f).mark f True) (f :: l) (f :: b) where
  __ := h
  blank g hg := by
    by_cases hgf : g = f
    · simp [hgf]
    · simp only [View.mark_blank, update_of_ne hgf] at hg
      exact mem_cons_of_mem f (h.blank g hg)
  own := h.gain.own

theorem unmark (hb : b ⊆ f :: b') : Holds (v.mark f False) l b' where
  __ := h
  blank g hg := by
    by_cases hgf : g = f
    · subst hgf
      simp at hg
    · simp only [View.mark_blank, update_of_ne hgf] at hg
      exact (mem_cons.mp (hb (h.blank g hg))).resolve_left hgf

end

theorem close (h : Holds v (f :: l) b) (hb : b ⊆ f :: b') : Holds ((v.lose f).mark f False) l b' := by
  refine unmark (v := v.lose f) ⟨h.live, h.kid, h.hand, h.blank, fun g => ?_⟩ hb
  have hg := h.own g
  by_cases hgf : g = f
  · subst hgf
    rw [count_cons_self] at hg
    simp only [View.lose_own, View.lose_ofile, update_self]
    omega
  · rw [count_cons_of_ne (Ne.symm hgf)] at hg
    simpa [hgf] using hg

theorem install (h : Holds v (f :: l) b) (hfd : v.ofile fd = none) : Holds (v.setOfile fd (some f)) l b where
  __ := h
  own g := by
    have hocc := occ_update v.ofile fd (some f) (some g)
    have hg := h.own g
    rw [hfd, if_neg (by simp)] at hocc
    by_cases hgf : g = f
    · subst hgf
      rw [count_cons_self] at hg
      rw [if_pos rfl] at hocc
      simp only [View.setOfile_own, View.setOfile_ofile]
      omega
    · rw [count_cons_of_ne (Ne.symm hgf)] at hg
      rw [if_neg (by simpa using Ne.symm hgf)] at hocc
      simp only [View.setOfile_own, View.setOfile_ofile]
      omega

/-- 欄を空にすると、その参照は手元に移る。 -/
theorem remove (h : Holds v l b) (fd : Fd) (hfd : v.ofile fd = some f) : Holds (v.setOfile fd none) (f :: l) b where
  __ := h
  own g := by
    have hocc := occ_update v.ofile fd none (some g)
    have hg := h.own g
    rw [hfd, if_neg (c := none = some g) (by simp)] at hocc
    by_cases hgf : g = f
    · subst hgf
      rw [if_pos rfl] at hocc
      simp only [View.setOfile_own, View.setOfile_ofile, count_cons_self]
      omega
    · rw [if_neg (by simpa using Ne.symm hgf)] at hocc
      simp only [View.setOfile_own, View.setOfile_ofile, count_cons_of_ne (Ne.symm hgf)]
      omega

theorem fileclose {Q} (h : Holds v (f :: l) b) (hb : b ⊆ f :: b')
    (hQ : ∀ v', Holds v' l b' → v'.ofile = v.ofile → Q () v') : Free.spec allow (fileclose f) Q v :=
  fileclose_spec h.live h.hand h.pos (hQ _ (h.close hb) rfl)

end Holds

section

variable {Q : Unit → View → Prop} (h : Holds v [] []) (hQ : ∀ v', Holds v' [] [] → Q () v')

include h hQ

theorem sysDup_spec (fd : Option Fd) : Free.spec allow (sysDup fd) Q v := by
  cases fd with
  | none => exact hQ v h
  | some fd =>
    rw [sysDup, Free.spec_bind, argfd, Free.spec_bind]
    refine ⟨h.live, ?_⟩
    simp only [need]
    cases hfd : v.ofile fd with
    | none => exact hQ v h
    | some f =>
      change Free.spec allow (fdalloc f >>= _) Q v
      rw [Free.spec_bind]
      refine fdalloc_spec h.live (hQ v h) fun fd' hfd' => ?_
      refine ⟨h.live, h.pos_of_ofile hfd, fun hb => by simpa using h.blank f hb, ?_⟩
      exact hQ _ ((h.gain (f := f)).install hfd')

theorem sysClose_spec (fd : Option Fd) : Free.spec allow (sysClose fd) Q v := by
  cases fd with
  | none => exact hQ v h
  | some fd =>
    rw [sysClose, Free.spec_bind, argfd, Free.spec_bind]
    refine ⟨h.live, ?_⟩
    simp only [need]
    cases hfd : v.ofile fd with
    | none => exact hQ v h
    | some f => exact ⟨h.live, (h.remove fd hfd).fileclose (by simp) fun v' hv' _ => hQ v' hv'⟩

theorem openAlloc_spec (ip : Ip) (m : OMode) : Free.spec allow (openAlloc ip m) Q v := by
  rw [openAlloc, Free.spec_bind]
  refine ⟨h.live, ⟨h.live, hQ v h⟩, fun f hf => ?_⟩
  change Free.spec allow (fdalloc f >>= _) Q _
  have hf := h.alloc (f := f)
  rw [Free.spec_bind]
  refine fdalloc_spec hf.live ?_ fun fd hfd => ?_
  · change Free.spec allow (fileclose f >>= _) Q _
    rw [Free.spec_bind]
    exact hf.fileclose (List.Subset.refl _) fun v' hv' _ => ⟨hv'.live, hQ v' hv'⟩
  · refine ⟨h.live, by simp, fun x => ?_⟩
    rw [if_neg (by simp only [openFile]; split <;> simp)]
    exact ⟨h.live, hQ _ ((hf.install hfd).unmark (List.Subset.refl _))⟩

theorem sysOpen_spec (m : OMode) : Free.spec allow (sysOpen m) Q v := by
  rw [sysOpen, Free.spec_bind]
  refine ⟨h.live, fun r => ?_⟩
  cases r with
  | none => exact hQ v h
  | some ip =>
    change Free.spec allow (if _ then _ else if _ then _ else openAlloc ip m) Q v
    rw [Free.spec_ite, Free.spec_ite]
    exact ⟨fun _ => ⟨h.live, hQ v h⟩, fun _ => ⟨fun _ => ⟨h.live, hQ v h⟩, fun _ => openAlloc_spec h hQ ip m⟩⟩

end

theorem write_pipe_spec {pi w Q} (hl : v.state = .live) (hb : v.blank f)
    (hh : v.hand (.side pi w)) (hQ : Q () ((v.mark f False).hold (.side pi w) False)) :
    Free.spec allow (write f (pipeEnd pi w)) Q v := by
  have hx : ∀ x, (pipeEnd pi w x).type = .pipe := fun _ => rfl
  refine ⟨hl, hb, fun x => ?_⟩
  rw [if_pos (hx x)]
  exact ⟨hh, hQ⟩

/-- 二つのファイルを書き終えると、パイプの両端はファイルのものになる。 -/
theorem pipeEnds_spec {f0 f1 pi Q} (h : Holds v [f0, f1] [f0, f1]) (hb0 : v.blank f0) (hb1 : v.blank f1)
    (hne : f0 ≠ f1) (hQ : ∀ v', Holds v' [f0, f1] [] → Q (some (f0, f1)) v') :
    Free.spec allow (pipeEnds f0 f1 pi) Q (v.hold (.raw pi) True) := by
  rw [pipeEnds, Free.spec_bind]
  refine ⟨h.live, by simp, ?_⟩
  simp only [View.hold_hold, View.hold_self (h.hand _)]
  change Free.spec allow (write f0 _ >>= _) Q _
  rw [Free.spec_bind]
  refine write_pipe_spec h.live hb0 (by simp) ?_
  rw [Free.spec_bind]
  refine write_pipe_spec h.live (by simpa [hne.symm] using hb1) (by simp) (hQ _ ?_)
  have hf0 : [f0, f1] ⊆ f0 :: [f1] := List.Subset.refl _
  have hf1 : [f1] ⊆ f1 :: [] := List.Subset.refl _
  have h2 := (h.unmark hf0).unmark hf1
  refine ⟨h2.live, h2.kid, fun t ht => ?_, h2.blank, h2.own⟩
  by_cases hf : t = .side pi false
  · simp [hf] at ht
  by_cases hw : t = .side pi true
  · simp [hw] at ht
  · exact h.hand t (by simpa [hf, hw] using ht)

theorem pipealloc_spec {Q} (h : Holds v [] []) (hnone : ∀ v', Holds v' [] [] → Q none v')
    (hsome : ∀ f0 f1 v', Holds v' [f0, f1] [] → Q (some (f0, f1)) v') : Free.spec allow pipealloc Q v := by
  rw [pipealloc, Free.spec_bind]
  refine ⟨h.live, hnone v h, fun f0 hf0 => ?_⟩
  have h0 := h.alloc (f := f0)
  refine ⟨h.live, ?_, fun f1 hf1 => ?_⟩
  · change Free.spec allow (fileclose f0 >>= _) Q _
    rw [Free.spec_bind]
    exact h0.fileclose (List.Subset.refl _) fun v' hv' _ => hnone v' hv'
  have h1 := h0.alloc (f := f1)
  have hne : f0 ≠ f1 := by
    rintro rfl
    simp at hf1
  have h1 := h1.perm (List.Perm.swap f0 f1 [])
  refine ⟨h.live, ?_, fun pi => ?_⟩
  · change Free.spec allow (fileclose f0 >>= _) Q _
    rw [Free.spec_bind]
    have hb : [f1, f0] ⊆ f0 :: [f1] := by simp
    refine h1.fileclose hb fun v' hv' _ => ?_
    change Free.spec allow (fileclose f1 >>= _) Q _
    rw [Free.spec_bind]
    exact hv'.fileclose (List.Subset.refl _) fun v'' hv'' _ => hnone v'' hv''
  · have hb : Holds ((((v.gain f0).mark f0 True).gain f1).mark f1 True) [f0, f1] [f0, f1] :=
      ⟨h1.live, h1.kid, h1.hand, fun g hg => by simpa [or_comm] using h1.blank g hg, h1.own⟩
    exact pipeEnds_spec hb (by simp [hne]) (by simp) hne (hsome f0 f1)

theorem pipeFail_spec {rf wf Q} (h : Holds v [rf, wf] []) (hQ : ∀ v', Holds v' [] [] → Q () v') :
    Free.spec allow (pipeFail rf wf) Q v := by
  rw [pipeFail, Free.spec_bind]
  exact h.fileclose (nil_subset _) fun v' hv' _ => hv'.fileclose (nil_subset _) fun v'' hv'' _ => hQ v'' hv''

theorem sysPipe_spec {Q} (h : Holds v [] []) (hQ : ∀ v', Holds v' [] [] → Q () v') :
    Free.spec allow sysPipe Q v := by
  rw [sysPipe, Free.spec_bind]
  refine pipealloc_spec h hQ fun rf wf v1 h1 => ?_
  change Free.spec allow (fdalloc rf >>= _) Q v1
  rw [Free.spec_bind]
  refine fdalloc_spec h1.live (pipeFail_spec h1 hQ) fun fd0 hfd0 => ?_
  have h2 := h1.install hfd0
  change Free.spec allow (fdalloc wf >>= _) Q _
  rw [Free.spec_bind]
  refine fdalloc_spec h2.live ⟨h2.live, pipeFail_spec (h2.remove fd0 (by simp)) hQ⟩ fun fd1 hfd1 => ?_
  have h3 := h2.install hfd1
  have hne : fd0 ≠ fd1 := by
    rintro rfl
    simp at hfd1
  have hfail := (h3.remove (f := rf) fd0 (by simp [hne])).remove (f := wf) fd1 (by simp [hne.symm])
  have hfail := pipeFail_spec (hfail.perm (List.Perm.swap rf wf [])) hQ
  change Free.spec allow (copyoutFds >>= _) Q _
  rw [Free.spec_bind, copyoutFds, Free.spec_bind]
  refine ⟨h3.live, fun r => ?_⟩
  cases r with
  | false => exact ⟨h3.live, h3.live, hfail⟩
  | true =>
    refine ⟨h3.live, fun r => ?_⟩
    cases r with
    | false => exact ⟨h3.live, h3.live, hfail⟩
    | true => exact hQ _ h3

/-- `fork` の途中。子の `ofile` にある参照も、親が持つ。 -/
structure Forking (v : View) (np : ProcId) (o : Fd → Option FileId) : Prop where
  live : v.state = .live
  kid : v.kid = some (np, o)
  hand : ∀ t, ¬v.hand t
  blank : ∀ f, ¬v.blank f
  own : ∀ f, v.own f = occ v.ofile (some f) + occ o (some f)

theorem Forking.dup {np o fd} (h : Forking v np o) (ho : o fd = none) :
    Forking ((v.gain f).setKid (some (np, update o fd (some f)))) np (update o fd (some f)) where
  __ := h
  kid := rfl
  own g := by
    have hocc := occ_update o fd (some f) (some g)
    have hg := h.own g
    rw [ho, if_neg (by simp)] at hocc
    simp only [View.setKid_own, View.gain_own, View.setKid_ofile, View.gain_ofile]
    by_cases hgf : g = f
    · subst hgf
      rw [if_pos rfl] at hocc
      rw [update_self]
      omega
    · rw [if_neg (by simpa using Ne.symm hgf)] at hocc
      rw [update_of_ne hgf]
      omega

theorem forkFiles_spec {np Q} (fds : List Fd) (hnd : fds.Nodup) :
    ∀ {v : View} {o : Fd → Option FileId}, Forking v np o → (∀ fd ∈ fds, o fd = none) →
      (∀ v' o', Forking v' np o' → Q () v') → Free.spec allow (forkFiles np fds) Q v := by
  induction fds with
  | nil => exact fun h _ hQ => hQ _ _ h
  | cons fd fds ih =>
    intro v o h ho hQ
    rw [nodup_cons] at hnd
    rw [forkFiles, Free.spec_bind]
    refine ⟨h.live, ?_⟩
    simp only [need]
    cases hfd : v.ofile fd with
    | none => exact ih hnd.2 h (fun fd' hfd' => ho fd' (by simp [hfd'])) hQ
    | some f =>
      have hpos := occ_pos.mpr ⟨fd, hfd⟩
      have hown := h.own f
      refine ⟨h.live, by omega, h.blank f, h.live, o, h.kid, ?_⟩
      refine ih hnd.2 (h.dup (ho fd (by simp))) (fun fd' hfd' => ?_) hQ
      have hne : fd' ≠ fd := by
        rintro rfl
        exact hnd.1 hfd'
      rw [update_of_ne hne]
      exact ho fd' (by simp [hfd'])

theorem fork_spec {Q} (h : Holds v [] []) (hQ : ∀ v', Holds v' [] [] → Q () v') :
    Free.spec allow fork Q v := by
  rw [fork, Free.spec_bind]
  refine ⟨h.live, h.kid, hQ v h, fun np => ?_⟩
  have hblank : ∀ f, ¬v.blank f := fun f hf => by simpa using h.blank f hf
  change Free.spec allow (uvmcopy >>= _) Q _
  rw [Free.spec_bind]
  refine ⟨h.live, fun r => ?_⟩
  cases r with
  | false => exact ⟨h.live, rfl, hQ _ ⟨h.live, rfl, h.hand, h.blank, h.own⟩⟩
  | true =>
    change Free.spec allow (forkFiles np _ >>= _) Q _
    rw [Free.spec_bind]
    have hf : Forking (v.setKid (some (np, fun _ => none))) np (fun _ => none) := by
      refine ⟨h.live, rfl, h.hand, hblank, fun f => ?_⟩
      have hz : occ (fun _ : Fd => (none : Option FileId)) (some f) = 0 := occ_eq_zero.mpr fun _ => by simp
      simpa [hz] using h.own f
    refine forkFiles_spec _ (nodup_finRange _) hf (fun _ _ => rfl) fun v' o hv' => ?_
    refine ⟨hv'.live, hv'.live, o, hv'.kid, hv'.blank, fun f => by rw [hv'.own f]; omega, hQ _ ?_⟩
    exact ⟨hv'.live, rfl, hv'.hand, fun f hb => absurd hb (hv'.blank f), fun f => by simp [hv'.own f]⟩

theorem exitFiles_spec {Q} (fds : List Fd) : ∀ {v : View}, Holds v [] [] →
    (∀ v', Holds v' [] [] → (∀ fd ∈ fds, v'.ofile fd = none) → (∀ fd, v.ofile fd = none → v'.ofile fd = none) → Q () v') →
      Free.spec allow (exitFiles fds) Q v := by
  induction fds with
  | nil => exact fun h hQ => hQ _ h (by simp) fun _ hfd => hfd
  | cons fd fds ih =>
    intro v h hQ
    rw [exitFiles, Free.spec_bind]
    refine ⟨h.live, ?_⟩
    simp only [need]
    cases hfd : v.ofile fd with
    | none =>
      refine ih h fun v' hv' hin hkeep => hQ v' hv' (fun fd' hfd' => ?_) hkeep
      obtain rfl | hfd' := mem_cons.mp hfd'
      · exact hkeep fd' hfd
      · exact hin fd' hfd'
    | some f =>
      change Free.spec allow (fileclose f >>= _) Q v
      rw [Free.spec_bind]
      refine fileclose_spec h.live h.hand (h.pos_of_ofile hfd) ⟨h.live, ?_⟩
      have hclose : Holds (((v.lose f).mark f False).setOfile fd none) [] [] :=
        (h.remove fd hfd).close (nil_subset _)
      refine ih hclose fun v' hv' hin hkeep => hQ v' hv' (fun fd' hfd' => ?_) fun fd' hfd' => hkeep fd' ?_
      · obtain rfl | hfd' := mem_cons.mp hfd'
        · exact hkeep fd' (by simp)
        · exact hin fd' hfd'
      · by_cases he : fd' = fd
        · simp [he]
        · simpa [he] using hfd'

theorem exit_spec {Q} (p : ProcId) (h : Holds v [] []) (hQ : ∀ v', v'.state = .zombie → Q () v') :
    Free.spec allow (exit p) Q v := by
  rw [exit, Free.spec_ite]
  refine ⟨fun _ => ⟨h.live, by decide, by decide⟩, fun _ => ?_⟩
  rw [Free.spec_bind]
  refine exitFiles_spec _ h fun v' hv' hin _ => ⟨hv'.live, hv'.live, ?_⟩
  have hempty : ∀ fd, v'.ofile fd = none := fun fd => hin fd (mem_finRange fd)
  refine ⟨⟨hv'.kid, hv'.hand, fun f hf => by simpa using hv'.blank f hf⟩, fun f => ?_, hempty, hQ _ rfl⟩
  rw [hv'.own f, occ_eq_zero.mpr fun fd => by simp [hempty fd]]
  rfl

/-- どの呼び出しも、手元に参照を残さずに終わる。 -/
theorem Call.spec (c : Call) (p : ProcId) (hl : v.state = .live) (h : v.Rest) :
    Free.spec allow (c.prog p) (fun _ => View.Rest) v := by
  have hv := Holds.of_rest hl h
  cases c with
  | «open» m => exact sysOpen_spec hv (fun _ => Holds.rest) m
  | pipe => exact sysPipe_spec hv fun _ => Holds.rest
  | dup fd => exact sysDup_spec hv (fun _ => Holds.rest) fd
  | close fd => exact sysClose_spec hv (fun _ => Holds.rest) fd
  | fork => exact fork_spec hv fun _ => Holds.rest
  | exit =>
    refine exit_spec p hv fun v' hv' hl' => ?_
    rw [hv'] at hl'
    cases hl'
  | wait => exact ⟨hl, h⟩

end Xv6.Ftable
