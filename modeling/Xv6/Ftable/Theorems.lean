import Xv6.Ftable.Lemmas.Steps

/-!
# 開いたファイルの参照の定理
-/

namespace Xv6.Ftable

open Xv6.Lib
open Xv6.Fs (OMode)

variable {s s' : Sys} {p : ProcId} {ch : Choice} {i : Op}

theorem Moved.pure (h : Inv s) : Moved s p s (s.view p) := ⟨h, rfl, fun _ _ => .inl rfl⟩

theorem Moved.spec {v : View} (h : Moved s p s' v) {q : ProcId} (hq : q ≠ p) {x : Prog Unit}
    (hx : Free.spec allow x (fun _ => View.Rest) (s.view q)) : Free.spec allow x (fun _ => View.Rest) (s'.view q) := by
  obtain he | ⟨hn, hr⟩ := h.frame q hq
  · rwa [he]
  · cases x with
    | ret a => exact hr
    | op i k => exact absurd hx.1 hn

theorem exec_moved {Q} (h : Inv s) (ha : allow i Q (s.view p)) {r}
    (hs : exec s p ch i = some (.ok (r, s'))) : ∃ v, Moved s p s' v ∧ Q r v := by
  obtain ⟨hl, ha⟩ := ha
  cases i with
  | filealloc =>
    simp only [exec] at hs
    split at hs
    · cases hs
      exact ⟨_, .pure h, ha.1⟩
    rename_i f hf
    have hf : (s.file f).ref = 0 := by simpa using List.find?_some hf
    cases hs
    refine ⟨_, h.filealloc hl hf, ha.2 f ?_⟩
    have := h.counts.own_le p f
    change s.own p f = 0
    omega
  | filedup f =>
    simp only [exec] at hs
    split at hs
    · cases hs
    · cases hs
      exact ⟨_, h.filedup hl ha.1 ha.2.1, ha.2.2⟩
  | last f =>
    simp only [exec] at hs
    split at hs
    · cases hs
    split at hs
    · rename_i hr
      cases hs
      exact ⟨_, h.unref hl ha.1 hr, ha.2 none⟩
    · cases hs
      exact ⟨_, h.release hl ha.1 (by omega), ha.2 _⟩
  | write f g =>
    cases hs
    obtain ⟨hb, ha⟩ := ha
    have ha := ha (s.file f)
    refine ⟨_, h.write hl hb fun hx => ?_, ?_⟩
    · rw [if_pos hx] at ha
      exact ha.1
    split at ha
    · rename_i hx
      rw [if_pos hx]
      exact ha.2
    · rename_i hx
      rw [if_neg hx]
      exact ha
  | ofile fd =>
    cases hs
    exact ⟨_, .pure h, ha⟩
  | setOfile fd o =>
    cases hs
    exact ⟨_, h.setOfile hl fd o, ha⟩
  | kalloc =>
    simp only [exec] at hs
    split at hs
    · cases hs
      exact ⟨_, h.kalloc hl, ha.2 _⟩
    · cases hs
      exact ⟨_, .pure h, ha.1⟩
  | initPipe pi =>
    cases hs
    exact ⟨_, h.initPipe hl ha.1, ha.2⟩
  | shut pi w =>
    cases hs
    refine ⟨_, h.shut hl ha.1, ?_⟩
    cases hc : ((s.pipe pi).close w).2 with
    | false => exact ha.2.1
    | true => exact ha.2.2
  | kfree pi =>
    cases hs
    exact ⟨_, h.kfree hl ha.1, ha.2⟩
  | copyout | lookup m =>
    cases hs
    exact ⟨_, .pure h, ha _⟩
  | fs =>
    cases hs
    exact ⟨_, .pure h, ha⟩
  | allocproc =>
    simp only [exec] at hs
    split at hs
    · cases hs
      exact ⟨_, .pure h, ha.2.1⟩
    · split at hs
      · rename_i np _ hnp
        cases hs
        exact ⟨_, h.allocproc hl ha.1 hnp, ha.2.2 np⟩
      · cases hs
  | uvmcopy =>
    cases hs
    exact ⟨_, .pure h, ha _⟩
  | freeproc np =>
    cases hs
    exact ⟨_, h.freeproc hl ha.1, ha.2⟩
  | dupOfile np fd f =>
    cases hs
    obtain ⟨o, hk, ha⟩ := ha
    exact ⟨_, h.dupOfile hl hk fd, ha⟩
  | runnable np =>
    cases hs
    obtain ⟨o, hk, hb, ho, ha⟩ := ha
    exact ⟨_, h.runnable hl hk hb ho, ha⟩
  | zombie =>
    cases hs
    obtain ⟨hb, ho, hof, ha⟩ := ha
    exact ⟨_, h.zombie hl hb ho hof, ha⟩
  | reap =>
    simp only [exec] at hs
    split at hs
    · cases hs
      exact ⟨_, .pure h, ha⟩
    · split at hs
      · rename_i hnp
        cases hs
        exact ⟨_, h.reap hl hnp, ha⟩
      · cases hs
  | panic msg => cases hs

theorem sound : Pool.Sound sem allow Sys.view Inv View.Rest Harmless where
  call {s p c x} h hr hc := by
    simp only [sem] at hc
    split at hc
    · rename_i hl
      cases hc
      exact c.spec p hl hr
    · cases hc
  ok h ha hs := by
    obtain ⟨v, hm, hQ⟩ := exec_moved h ha hs
    refine ⟨hm.inv, ?_, fun q hq x hx => hm.spec hq hx⟩
    rw [hm.view]
    exact hQ
  error {s p ch i msg Q} h ha hs := by
    obtain ⟨hl, ha⟩ := ha
    have href : ∀ f, 0 < (s.view p).own f → ¬(s.file f).ref < 1 := fun f hf hc => by
      have hle := h.counts.own_le p f
      have hf : 0 < s.own p f := hf
      omega
    cases i with
    | filealloc =>
      simp only [sem, exec] at hs
      split at hs <;> cases hs
    | filedup f =>
      simp only [sem, exec, if_neg (href f ha.1)] at hs
      cases hs
    | last f =>
      simp only [sem, exec, if_neg (href f ha.1)] at hs
      split at hs <;> cases hs
    | kalloc =>
      simp only [sem, exec] at hs
      split at hs <;> cases hs
    | allocproc | reap =>
      simp only [sem, exec] at hs
      split at hs
      · cases hs
      · split at hs <;> cases hs
    | panic msg =>
      cases hs
      exact ha
    | _ => cases hs

/-! ## 到達できる状態 -/

theorem boot_bare (p : ProcId) : (boot.shared.view p).Bare := ⟨rfl, fun _ => nofun, fun _ => nofun⟩

theorem boot_inv : Inv boot.shared where
  counts := ⟨fun f => by simp [boot], fun _ _ => rfl, fun _ _ => nofun⟩
  ends := by
    refine ⟨fun f pi w => by simp [boot], fun f pi => by simp [boot], fun pi => ?_⟩
    exact ⟨by simp [boot], by simp [boot], fun h => absurd rfl h, by simp [boot], by simp [boot], fun _ => rfl⟩
  idle p := ⟨fun _ => boot_bare p, fun _ _ => rfl, fun _ _ => rfl⟩
  kids := by
    refine ⟨fun _ _ => nofun, fun _ _ _ => nofun, fun np h => ?_⟩
    simp only [boot] at h
    split at h <;> cases h

theorem boot_safe : Pool.Safe allow Sys.view Inv View.Rest boot where
  inv := boot_inv
  spec p _ := ⟨boot_bare p, fun f => (occ_eq_zero.mpr fun fd => by simp [Sys.view, boot]).symm⟩

def Sys.Refers (s : Sys) (pi : Nat) (x : ProcId × Fd) : Prop :=
  ∃ f, (s.proc x.1).ofile x.2 = some f ∧ (s.file f).type = .pipe ∧ (s.file f).pipe = pi

theorem quiet_own (h : Inv s) (hr : ∀ p, (s.view p).Rest) (p : ProcId) :
    (s.view p).Bare ∧ ∀ f, s.own p f = occ (s.proc p).ofile (some f) := by
  have hbare : ∀ q, (s.view q).Bare := fun q => by
    by_cases hl : (s.view q).state = .live
    · exact (hr q hl).1
    · exact (h.idle q).bare hl
  refine ⟨hbare p, fun f => ?_⟩
  by_cases hl : (s.view p).state = .live
  · exact (hr p hl).2 f
  have hempty : ∀ fd, (s.proc p).ofile fd = none := by
    refine (h.idle p).empty ?_
    cases hst : (s.view p).state with
    | unused => exact .inl rfl
    | zombie => exact .inr rfl
    | live => exact absurd hst hl
    | used =>
      obtain ⟨q, hq⟩ := h.kids.parent p hst
      exact absurd (hbare q).kid (by simp [Sys.view, hq])
  rw [show s.own p f = 0 from (h.idle p).own hl f, occ_eq_zero.mpr fun fd => by simp [hempty fd]]

theorem PipeOk.frees_cases {r a b x made} (h : PipeOk r a b x made) :
    x.frees = 0 ∨ made ∧ x.frees = 1 ∧ r = none ∧ a = none ∧ b = none := by
  by_cases hh : r ≠ none ∨ a ≠ none ∨ b ≠ none
  · exact .inl (h.held hh).2
  · simp only [ne_eq, not_or, not_not] at hh
    by_cases hm : made
    · exact .inr ⟨hm, h.freed hm hh.1 hh.2.1 hh.2.2, hh⟩
    · exact .inl (h.new hm)

theorem Inv.freed_not_refers (h : Inv s) {pi} (hf : (s.pipe pi).frees = 1) (x : ProcId × Fd) : ¬s.Refers pi x := by
  rintro ⟨f, _, ht, hpi⟩
  have hside := (h.ends.file f pi (s.file f).writable).mpr ⟨ht, hpi, rfl⟩
  obtain h0 | ⟨_, _, _, ha, hb⟩ := (h.ends.pipe pi).frees_cases
  · omega
  · cases hw : (s.file f).writable with
    | false => simp [hw, ha] at hside
    | true => simp [hw, hb] at hside

theorem Inv.refers_of_quiet (h : Inv s) (hr : ∀ p, (s.view p).Rest) {pi} (hpi : pi < s.pipes)
    (hf : (s.pipe pi).frees ≠ 1) : ∃ x, s.Refers pi x := by
  have hok := h.ends.pipe pi
  -- 権利の持ち主はプロセスではないので、項目である
  have hfile : ∀ t o, s.holder t = some o → ∃ f, o = .file f := fun t o ho => by
    cases o with
    | file f => exact ⟨f, rfl⟩
    | thread p => exact absurd ho ((quiet_own h hr p).1.hand t)
  have hside : ∃ w, s.holder (.side pi w) ≠ none := by
    by_contra hc
    push Not at hc
    refine hf (hok.freed hpi ?_ (hc false) (hc true))
    cases hraw : s.holder (.raw pi) with
    | none => rfl
    | some o =>
      obtain ⟨f, rfl⟩ := hfile _ o hraw
      exact absurd hraw (h.ends.raw f pi)
  obtain ⟨w, hw⟩ := hside
  obtain ⟨o, ho⟩ := Option.ne_none_iff_exists'.mp hw
  obtain ⟨f, rfl⟩ := hfile _ o ho
  obtain ⟨ht, hp, _⟩ := (h.ends.file f pi w).mp ho
  -- 種類が決まっている項目には参照があり、参照は `ofile` にある
  have href : (s.file f).ref ≠ 0 := fun h0 => by simp [h.counts.free f h0] at ht
  rw [h.counts.ref f] at href
  obtain ⟨p, _, hp'⟩ := Finset.exists_ne_zero_of_sum_ne_zero href
  rw [(quiet_own h hr p).2 f] at hp'
  obtain ⟨fd, hfd⟩ := occ_pos.mp (Nat.pos_of_ne_zero hp')
  exact ⟨(p, fd), f, hfd, ht, hp⟩

/-- どう交互に進んでも、`filedup` と `fileclose` は `panic` せず、パイプのページは、どの `ofile` からも指されなくなってから一度だけ `kfree` される。
誰も呼び出しの途中でなければ、`ref` は項目を指す `ofile` の数である。 -/
theorem open_file_references {s : Pool Sys ProcId Op Op.Resp} (h : (Pool.step sem).Reaches boot s) :
    (∀ e msg, Pool.step sem s e = some (.error msg) → msg ≠ "filedup" ∧ msg ≠ "fileclose") ∧
    (∀ pi, (s.shared.pipe pi).frees ≤ 1 ∧ ((s.shared.pipe pi).frees = 1 → ∀ x, ¬s.shared.Refers pi x)) ∧
    (s.Quiet →
      (∀ f, (s.shared.file f).ref = occ (fun x : ProcId × Fd => (s.shared.proc x.1).ofile x.2) (some f)) ∧
      (∀ f, (s.shared.file f).ref = 0 → (s.shared.file f).type = .none) ∧
      ∀ pi < s.shared.pipes, (s.shared.pipe pi).frees = 1 ↔ ∀ x, ¬s.shared.Refers pi x) := by
  have hsafe := sound.reaches boot_safe h
  refine ⟨fun e msg he => sound.panics hsafe he, fun pi => ⟨?_, hsafe.inv.freed_not_refers⟩, fun hq => ?_⟩
  · obtain h0 | ⟨_, h1, _⟩ := (hsafe.inv.ends.pipe pi).frees_cases <;> omega
  have hr := hsafe.rest hq
  refine ⟨fun f => ?_, hsafe.inv.counts.free, fun pi hpi => ⟨hsafe.inv.freed_not_refers, fun hn => ?_⟩⟩
  · rw [occ_uncurry fun p => (s.shared.proc p).ofile, hsafe.inv.counts.ref f]
    exact Finset.sum_congr rfl fun p _ => (quiet_own hsafe.inv hr p).2 f
  · by_contra hf
    obtain ⟨x, hx⟩ := hsafe.inv.refers_of_quiet hr hpi hf
    exact hn x hx

def exampleCall (c : Call) (n : Nat) : List (Pool.Ev ProcId Call Choice) :=
  .start initproc c :: List.replicate n (.step initproc ⟨true, none, none⟩)

def exampleRun : Pool Sys ProcId Op Op.Resp :=
  (Pool.step sem).final boot (List.flatten [exampleCall .pipe 13, exampleCall (.dup (some ⟨1, by decide⟩)) 6,
    exampleCall (.close (some ⟨0, by decide⟩)) 4, exampleCall (.close (some ⟨1, by decide⟩)) 3,
    exampleCall (.close (some ⟨2, by decide⟩)) 5])

theorem open_file_references_pipe : exampleRun.Quiet ∧ (exampleRun.shared.pipe 0).frees = 1 ∧
    (∀ x, ¬exampleRun.shared.Refers 0 x) ∧ ∀ f, (exampleRun.shared.file f).ref = 0 := by
  have hq : exampleRun.Quiet := Pool.quiet_of_idle (by decide +kernel)
  have hf : (exampleRun.shared.pipe 0).frees = 1 := by decide +kernel
  obtain ⟨_, hpipe, hquiet⟩ := open_file_references (s := exampleRun) (Machine.reaches_final _)
  exact ⟨hq, hf, (hpipe 0).2 hf, by decide +kernel⟩

end Xv6.Ftable
