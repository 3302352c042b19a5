import Xv6.Virtio.Lemmas.Desc
import Mathlib.Data.List.Perm.Subperm

/-!
# 要求のやり取りの不変条件
-/

namespace Xv6.Virtio

open Xv6.Lib List

variable {s t : Sys} {d' : Disk} {p q b h : Nat} {c e : Chain} {pos : Pos}

def Pos.chain : Pos → Option Chain
  | .filled c | .waiting c => some c
  | _ => none

def Pos.buf : Pos → Option Nat
  | .full b _ _ => some b
  | .filled c | .waiting c => some c.b
  | .idle => none

theorem Pos.buf_of_chain (h : pos.chain = some c) : pos.buf = some c.b := by
  cases pos with
  | idle | full b n w => cases h
  | filled c | waiting c => cases h; rfl

def Sys.pending (s : Sys) : List Nat :=
  s.submitted.drop s.taken ++ (s.working ++ (s.reported ++ s.completed.drop s.processed))

structure Sound (s : Sys) : Prop where
  linked : ∀ p c, (s.procs p).chain = some c → Linked s.d c
  apart : ∀ p q c e, (s.procs p).chain = some c → (s.procs q).chain = some e →
    ∀ i ∈ c.descs, i ∈ e.descs → p = q
  busy : ∀ p b, (s.procs p).buf = some b → s.busy b = true
  alone : ∀ p q b, (s.procs p).buf = some b → (s.procs q).buf = some b → p = q
  owner : ∀ p c, (s.procs p).chain = some c → s.owner c.i0 = c.req
  filled : ∀ p c, s.procs p = .filled c → s.lock = some (.proc p) ∧ s.disk c.b = true ∧
    s.d.avail.ring (s.d.avail.idx % num) = c.i0
  avail : Ring num (2 ^ 16) s.d.avail.ring s.seen s.d.avail.idx s.submitted s.taken
  used : Ring num (2 ^ 16) s.d.used.ring s.d.usedIdx s.d.used.idx s.completed s.processed
  nodup : s.pending.Nodup
  pend : ∀ h, h ∈ s.pending ↔ ∃ p c, s.procs p = .waiting c ∧ c.i0 = h ∧ s.disk c.b = true
  done : ∀ h ∈ s.completed.drop s.processed, s.owner h ∈ s.finished
  clear : ∀ p c, s.procs p = .waiting c → s.disk c.b = false → c.req ∈ s.finished

theorem num_lt : num < 2 ^ 16 := by decide

theorem num_dvd : num ∣ 2 ^ 16 := by decide

theorem Chain.head_mem (c : Chain) : c.i0 ∈ c.descs := by simp [Chain.descs]

namespace Sound

theorem init : Sound .init where
  linked p c h := by cases h
  apart p q c e h := by cases h
  busy p b h := by cases h
  alone p q b h := by cases h
  owner p c h := by cases h
  filled p c h := by cases h
  avail := Ring.empty _ _ _
  used := Ring.empty _ _ _
  nodup := nodup_nil
  pend h := by simp [Sys.init, Sys.pending]
  done h hh := by simp [Sys.init] at hh
  clear p c h := by cases h

theorem pending_lt (hs : Sound s) (hh : h ∈ s.pending) : h < num := by
  obtain ⟨p, c, hp, rfl, -⟩ := (hs.pend h).mp hh
  exact (hs.linked p c (by rw [hp]; rfl)).lt c.i0 c.head_mem

theorem length_le_num {l : List Nat} (hn : l.Nodup) (hlt : ∀ x ∈ l, x < num) : l.length ≤ num := by
  have hsub : l ⊆ List.range num := fun x hx => mem_range.mpr (hlt x hx)
  simpa using (hn.subperm hsub).length_le

theorem pending_length (hs : Sound s) : s.pending.length ≤ num :=
  length_le_num hs.nodup fun _ hx => hs.pending_lt hx

theorem pending_lengths (s : Sys) : s.pending.length = (s.submitted.length - s.taken) +
    (s.working.length + (s.reported.length + (s.completed.length - s.processed))) := by
  simp [Sys.pending]

section

variable (hs : Sound s)
include hs

/-- 途中でない記述子があれば、`avail` の環に空きがある。 -/
theorem room (hh : h < num) (hmem : h ∉ s.pending) : s.submitted.length < s.taken + num := by
  have hlen := length_le_num (nodup_cons.mpr ⟨hmem, hs.nodup⟩) (by simpa using ⟨hh, fun _ => hs.pending_lt⟩)
  rw [length_cons, pending_lengths] at hlen
  omega

/-- 連鎖の先頭が未処理の列にあるのは、持ち主が待っている間だけである。 -/
theorem head_not_pending (hc : (s.procs p).chain = some c) (hw : s.procs p ≠ .waiting c) :
    c.i0 ∉ s.pending := by
  intro hmem
  obtain ⟨q, e, hq, he, -⟩ := (hs.pend _).mp hmem
  have hpq := hs.apart p q c e hc (by rw [hq]; rfl) c.i0 c.head_mem (he ▸ e.head_mem)
  subst hpq
  rw [hq] at hc hw
  cases hc
  exact hw rfl

/-- 位置を変えない一歩。輪と未処理の列の並びだけが動いてよい。 -/
theorem same (hprocs : t.procs = s.procs) (hbusy : t.busy = s.busy) (hdisk : t.disk = s.disk)
    (howner : t.owner = s.owner) (hlock : ∀ p c, s.procs p = .filled c → t.lock = s.lock)
    (hlink : ∀ c, Linked s.d c → Linked t.d c) (havail : t.d.avail = s.d.avail) (hperm : t.pending.Perm s.pending)
    (ha : Ring num (2 ^ 16) s.d.avail.ring t.seen s.d.avail.idx t.submitted t.taken)
    (hu : Ring num (2 ^ 16) t.d.used.ring t.d.usedIdx t.d.used.idx t.completed t.processed)
    (hdone : ∀ h ∈ t.completed.drop t.processed, s.owner h ∈ t.finished)
    (hfin : s.finished ⊆ t.finished) : Sound t where
  linked := by rw [hprocs]; exact fun p c hp => hlink c (hs.linked p c hp)
  apart := by rw [hprocs]; exact hs.apart
  busy := by rw [hprocs, hbusy]; exact hs.busy
  alone := by rw [hprocs]; exact hs.alone
  owner := by rw [hprocs, howner]; exact hs.owner
  filled := by
    rw [hprocs, hdisk, havail]
    intro p c hp
    rw [hlock p c hp]
    exact hs.filled p c hp
  avail := by rw [havail]; exact ha
  used := hu
  nodup := hperm.nodup_iff.mpr hs.nodup
  pend := by intro h; rw [hperm.mem_iff, hprocs, hdisk]; exact hs.pend h
  done := by rw [howner]; exact hdone
  clear := by rw [hprocs, hdisk]; exact fun p c hp hd => hfin (hs.clear p c hp hd)

theorem setLock {l} (hl : ∀ p c, s.procs p ≠ .filled c) :
    Sound { s with lock := l } :=
  hs.same rfl rfl rfl rfl (fun p c hp => absurd hp (hl p c)) (fun _ hc => hc) rfl (List.Perm.refl _) hs.avail
    hs.used hs.done (List.Subset.refl _)

theorem not_filled (hl : ∀ p, s.lock ≠ some (.proc p)) (p : Nat) (c : Chain) :
    s.procs p ≠ .filled c :=
  fun hp => hl p (hs.filled p c hp).1

theorem devTake (hne : s.seen ≠ s.d.avail.idx) :
    Sound { s with
      seen := (s.seen + 1) % 2 ^ 16
      working := s.working ++ [s.d.avail.ring (s.seen % num)]
      taken := s.taken + 1 } := by
  obtain ⟨hdrop, hring⟩ := hs.avail.next num_lt num_dvd hne
  refine hs.same rfl rfl rfl rfl (fun _ _ _ => rfl) (fun _ hc => hc) rfl ?_ hring hs.used hs.done
    (List.Subset.refl _)
  refine perm_iff_count.mpr fun a => ?_
  simp only [Sys.pending, hdrop, count_append, count_cons, count_nil]
  omega

theorem devStatus (hw : h ∈ s.working) (i st : Nat) :
    Sound { s with d := s.d.setStatus i st, working := s.working.erase h, reported := s.reported ++ [h] } := by
  refine hs.same rfl rfl rfl rfl (fun _ _ _ => rfl) (fun c hc => ?_) rfl ?_ hs.avail hs.used hs.done
    (List.Subset.refl _)
  · refine hc.frame (fun _ _ => rfl) (fun _ _ => rfl) ?_
    simp only [Disk.setStatus, update_apply]
    split
    · rename_i heq; rw [heq]
    · rfl
  · refine perm_iff_count.mpr fun a => ?_
    have hcount := (perm_cons_erase hw).count_eq a
    simp only [Sys.pending, count_append, count_cons, count_nil] at hcount ⊢
    omega

/-- 終えた連鎖の先頭を `used` の輪に載せる。 -/
theorem devUsed (hr : h ∈ s.reported) :
    Sound { s with
      d := { s.d with used :=
        { idx := (s.d.used.idx + 1) % 2 ^ 16, ring := update s.d.used.ring (s.d.used.idx % num) h } }
      reported := s.reported.erase h
      completed := s.completed ++ [h]
      finished := s.finished ++ [s.owner h] } := by
  have hroom : s.completed.length < s.processed + num := by
    have h1 := hs.pending_length
    rw [pending_lengths] at h1
    have h2 := length_pos_of_mem hr
    have h3 := hs.used.le
    omega
  have hdrop : (s.completed ++ [h]).drop s.processed = s.completed.drop s.processed ++ [h] :=
    drop_append_of_le_length hs.used.le
  refine hs.same rfl rfl rfl rfl (fun _ _ _ => rfl) (fun c hc => ?_) rfl ?_ hs.avail
    (hs.used.push num_dvd hroom) ?_ (subset_append_left _ _)
  · exact hc.frame (fun _ _ => rfl) (fun _ _ => rfl) rfl
  · refine perm_iff_count.mpr fun a => ?_
    have hcount := (perm_cons_erase hr).count_eq a
    simp only [Sys.pending, hdrop, count_append, count_cons, count_nil] at hcount ⊢
    omega
  intro k hk
  rw [hdrop] at hk
  rcases mem_append.mp hk with hk | hk
  · exact mem_append_left _ (hs.done k hk)
  · rw [mem_singleton.mp hk]
    exact mem_append_right _ (mem_singleton.mpr rfl)

/-- `used` の次の要素は、待っているプロセスの連鎖の先頭である。 -/
theorem used_entry (hne : s.d.usedIdx ≠ s.d.used.idx) :
    s.completed.drop s.processed =
        s.d.used.ring (s.d.usedIdx % num) :: s.completed.drop (s.processed + 1) ∧
      Ring num (2 ^ 16) s.d.used.ring ((s.d.usedIdx + 1) % 2 ^ 16) s.d.used.idx s.completed (s.processed + 1) ∧
      ∃ p c, s.procs p = .waiting c ∧ c.i0 = s.d.used.ring (s.d.usedIdx % num) ∧ s.disk c.b = true := by
  obtain ⟨hdrop, hring⟩ := hs.used.next num_lt num_dvd hne
  refine ⟨hdrop, hring, (hs.pend _).mp ?_⟩
  simp [Sys.pending, hdrop]

theorem clearDisk (hne : s.d.usedIdx ≠ s.d.used.idx) (hp : s.procs p = .waiting c)
    (hh : c.i0 = s.d.used.ring (s.d.usedIdx % num)) (hfill : ∀ q e, s.procs q ≠ .filled e) :
    Sound { s with
      disk := update s.disk c.b false
      d := { s.d with usedIdx := (s.d.usedIdx + 1) % 2 ^ 16 }
      processed := s.processed + 1 } := by
  obtain ⟨hdrop, hring, -⟩ := hs.used_entry hne
  have hpc : (s.procs p).chain = some c := by rw [hp]; rfl
  have hperm : s.pending.Perm (c.i0 :: Sys.pending { s with
      disk := update s.disk c.b false
      d := { s.d with usedIdx := (s.d.usedIdx + 1) % 2 ^ 16 }
      processed := s.processed + 1 }) := by
    refine perm_iff_count.mpr fun a => ?_
    simp only [Sys.pending, hdrop, ← hh, count_append, count_cons]
    omega
  have hnd := hperm.nodup_iff.mp hs.nodup
  -- 同じバッファを使う要求は一つしかないので、下ろすのはこの要求のものだけである。
  have hother : ∀ q e, s.procs q = .waiting e → q ≠ p → e.b ≠ c.b := by
    intro q e hq hne' he
    refine hne' (hs.alone q p c.b ?_ ?_)
    · rw [hq]; exact congrArg some he
    · rw [hp]; rfl
  refine { hs with
    linked := fun q e hq => (hs.linked q e hq).frame (fun _ _ => rfl) (fun _ _ => rfl) rfl
    filled := fun q e hq => absurd hq (hfill q e), used := hring, nodup := (nodup_cons.mp hnd).2
    pend := ?pend, done := ?done, clear := ?clear }
  case pend =>
    intro h
    constructor
    · intro hmem
      obtain ⟨q, e, hq, rfl, hd⟩ := (hs.pend h).mp (hperm.mem_iff.mpr (mem_cons_of_mem _ hmem))
      have hqp : q ≠ p := by
        rintro rfl
        rw [hp] at hq
        cases hq
        exact (nodup_cons.mp hnd).1 hmem
      exact ⟨q, e, hq, rfl, by simp only [update_of_ne (hother q e hq hqp), hd]⟩
    rintro ⟨q, e, hq, rfl, hd⟩
    have hne' : e.b ≠ c.b := by
      intro he
      simp [he] at hd
    simp only [update_of_ne hne'] at hd
    rcases mem_cons.mp (hperm.mem_iff.mp ((hs.pend _).mpr ⟨q, e, hq, rfl, hd⟩)) with he | hmem
    · have hqp := hs.apart q p e c (by rw [hq]; rfl) hpc e.i0 e.head_mem (he ▸ c.head_mem)
      subst hqp
      rw [hp] at hq
      cases hq
      exact absurd rfl hne'
    · exact hmem
  case done => exact fun k hk => hs.done k (by rw [hdrop]; exact mem_cons_of_mem _ hk)
  case clear =>
    intro q e hq hd
    by_cases hqp : q = p
    · subst hqp
      rw [hp] at hq
      cases hq
      rw [← hs.owner q c hpc]
      exact hs.done c.i0 (by rw [hdrop, hh]; exact mem_cons_self)
    · simp only [update_of_ne (hother q e hq hqp)] at hd
      exact hs.clear q e hq hd

end

theorem go_chain (h : (update s.procs p pos q).chain = some e) :
    (q = p ∧ pos.chain = some e) ∨ (q ≠ p ∧ (s.procs q).chain = some e) :=
  update_cases (P := fun x : Pos => x.chain = some e) h

theorem go_buf (h : (update s.procs p pos q).buf = some b) :
    (q = p ∧ pos.buf = some b) ∨ (q ≠ p ∧ (s.procs q).buf = some b) :=
  update_cases (P := fun x : Pos => x.buf = some b) h

theorem go_waiting (hp : (s.procs p).chain = none) (hpos : ∀ e, pos ≠ .waiting e) :
    update s.procs p pos q = .waiting e ↔ s.procs q = .waiting e := by
  by_cases hq : q = p
  · subst hq
    rw [update_self]
    exact iff_of_false (hpos e) fun h => by rw [h] at hp; cases hp
  · rw [update_of_ne hq]

theorem go_pos {x} (h : update s.procs p pos q = x) :
    (q = p ∧ pos = x) ∨ (q ≠ p ∧ s.procs q = x) :=
  update_cases (P := fun y => y = x) h

section

variable (hs : Sound s)
include hs

theorem go_busy (hpos : pos.buf = some b) (hb : s.busy b = true) :
    ∀ q x, (update s.procs p pos q).buf = some x → s.busy x = true := by
  intro q x hq
  rcases go_buf hq with ⟨-, hq⟩ | ⟨-, hq⟩
  · rw [hpos] at hq
    cases hq
    exact hb
  · exact hs.busy q x hq

theorem go_alone (hpos : pos.buf = some b) (halone : ∀ q, (s.procs q).buf = some b → q = p) :
    ∀ q r x, (update s.procs p pos q).buf = some x → (update s.procs p pos r).buf = some x → q = r := by
  intro q r x hq hr
  rcases go_buf hq with ⟨hqp, hq⟩ | ⟨-, hq⟩ <;> rcases go_buf hr with ⟨hrp, hr⟩ | ⟨-, hr⟩
  · exact hqp.trans hrp.symm
  · rw [hpos] at hq
    cases hq
    exact hqp.trans (halone r hr).symm
  · rw [hpos] at hr
    cases hr
    exact (halone q hq).trans hrp.symm
  · exact hs.alone q r x hq hr

theorem setBusy (b : Nat) : Sound { s with busy := update s.busy b true } := by
  refine { hs with busy := fun p x hp => ?_ }
  simp only [update_apply]
  split
  · rfl
  · exact hs.busy p x hp

/-- 記述子が足りなければ、一つも持たずに待つ。 -/
theorem toFull (hp : (s.procs p).chain = none) (hb : s.busy b = true)
    (halone : ∀ q, (s.procs q).buf = some b → q = p) (hd : SameUsed s.d d') (n : Nat) (w : Bool) :
    Sound ({ s with d := d' }.go p (.full b n w)) := by
  have hback : ∀ q e, (update s.procs p (.full b n w) q).chain = some e → (s.procs q).chain = some e := by
    intro q e hq
    rcases go_chain hq with ⟨-, hq⟩ | ⟨-, hq⟩
    · cases hq
    · exact hq
  have hwait : ∀ q e, update s.procs p (.full b n w) q = .waiting e ↔ s.procs q = .waiting e := fun _ _ =>
    go_waiting hp nofun
  constructor
  case linked =>
    intro q e hq
    have hl := hs.linked q e (hback q e hq)
    exact hl.frame (fun i hi => hd.desc i (hl.used i hi)) (fun i _ => congrFun hd.free i)
      (congrArg (fun f => (f e.i0).b) hd.info)
  case apart => exact fun q r e f hq hr => hs.apart q r e f (hback q e hq) (hback r f hr)
  case busy => exact hs.go_busy rfl hb
  case alone => exact hs.go_alone rfl halone
  case owner => exact fun q e hq => hs.owner q e (hback q e hq)
  case filled =>
    intro q e hq
    rcases go_pos hq with ⟨-, hq⟩ | ⟨-, hq⟩
    · cases hq
    · obtain ⟨h1, h2, h3⟩ := hs.filled q e hq
      exact ⟨h1, h2, by simpa only [Sys.go, hd.avail] using h3⟩
  case avail => simpa only [Sys.go, hd.avail] using hs.avail
  case used => simpa only [Sys.go, hd.used, hd.usedIdx] using hs.used
  case nodup => exact hs.nodup
  case pend => intro h; simp only [Sys.go, hwait]; exact hs.pend h
  case done => exact hs.done
  case clear => exact fun q e hq => hs.clear q e ((hwait q e).mp hq)

/-- 三つの記述子を取って連鎖を書く。まだ装置には見せない。 -/
theorem fill {i0 i1 i2 : Nat} (hp : (s.procs p).chain = none) (hlock : s.lock = none)
    (hb : s.busy b = true) (halone : ∀ q, (s.procs q).buf = some b → q = p) (ht : Taken3 s.d d' i0 i1 i2)
    (n : Nat) (w : Bool) :
    Sound ({ s with
      d := format d' ⟨b, i0, i1, i2, s.nextReq⟩ n w
      disk := update s.disk b true
      lock := some (.proc p)
      nextReq := s.nextReq + 1
      owner := update s.owner i0 s.nextReq }.go p (.filled ⟨b, i0, i1, i2, s.nextReq⟩)) := by
  obtain ⟨hlt, hnd, hfree, htaken, hother, hrest⟩ := ht
  have hnf := hs.not_filled (by simp [hlock])
  -- 途中の要求の記述子は空きではなかったので、取った三つとは異なる。
  have hdisj : ∀ q e, (s.procs q).chain = some e → ∀ i ∈ e.descs, i ∉ [i0, i1, i2] := by
    intro q e hq i hi hmem
    have h1 := (hs.linked q e hq).used i hi
    rw [hfree i hmem] at h1
    cases h1
  have hbuf : ∀ q e, (s.procs q).chain = some e → e.b ≠ b := by
    rintro q e hq rfl
    have hqp := halone q (Pos.buf_of_chain hq)
    subst hqp
    rw [hp] at hq
    cases hq
  have hchain : ∀ q e, s.procs q = .waiting e → (s.procs q).chain = some e := by
    intro q e hq
    rw [hq]
    rfl
  have hnp : i0 ∉ s.pending := by
    intro hmem
    obtain ⟨q, e, hq, he, -⟩ := (hs.pend i0).mp hmem
    exact hdisj q e (hchain q e hq) e.i0 e.head_mem (by simp [he])
  have hroom := hs.room (hlt i0 (by simp)) hnp
  have hwait : ∀ q e, update s.procs p (.filled ⟨b, i0, i1, i2, s.nextReq⟩) q = .waiting e ↔ s.procs q = .waiting e :=
    fun _ _ => go_waiting hp nofun
  have hdisk : ∀ q e, s.procs q = .waiting e → update s.disk b true e.b = s.disk e.b :=
    fun q e hq => update_of_ne (hbuf q e (hchain q e hq)) ..
  constructor
  case linked =>
    intro q e hq
    rcases go_chain hq with ⟨-, hq⟩ | ⟨-, hq⟩
    · cases hq
      exact format_linked (c := ⟨b, i0, i1, i2, s.nextReq⟩) hlt hnd htaken n w
    have hl := hs.linked q e hq
    refine hl.frame (fun i hi => ?_) (fun i hi => hother i (hdisj q e hq i hi)) ?_
    · rw [hrest]
      exact format_desc_ne (hdisj q e hq i hi) n w
    · have hne : e.i0 ≠ i0 := fun he => hdisj q e hq e.i0 e.head_mem (by simp [he])
      rw [hrest]
      simp [Sys.go, format, update_of_ne hne]
  case apart =>
    intro q r e f hq hr i hi hi'
    rcases go_chain hq with ⟨hqp, hq⟩ | ⟨-, hq⟩ <;> rcases go_chain hr with ⟨hrp, hr⟩ | ⟨-, hr⟩
    · exact hqp.trans hrp.symm
    · cases hq; exact absurd hi (hdisj r f hr i hi')
    · cases hr; exact absurd hi' (hdisj q e hq i hi)
    · exact hs.apart q r e f hq hr i hi hi'
  case busy => exact hs.go_busy rfl hb
  case alone => exact hs.go_alone rfl halone
  case owner =>
    intro q e hq
    rcases go_chain hq with ⟨-, hq⟩ | ⟨-, hq⟩
    · cases hq
      simp [Sys.go]
    · have hne : e.i0 ≠ i0 := fun he => hdisj q e hq e.i0 e.head_mem (by simp [he])
      simpa [Sys.go, update_of_ne hne] using hs.owner q e hq
  case filled =>
    intro q e hq
    rcases go_pos hq with ⟨hqp, hq⟩ | ⟨-, hq⟩
    · cases hq
      subst hqp
      simp [Sys.go, format]
    · exact absurd hq (hnf q e)
  case avail => rw [hrest]; exact hs.avail.poke num_dvd hroom
  case used => rw [hrest]; exact hs.used
  case nodup => exact hs.nodup
  case pend =>
    intro h
    simp only [Sys.go, hwait]
    refine (hs.pend h).trans ⟨?_, ?_⟩
    · rintro ⟨q, e, hq, he, hd⟩
      exact ⟨q, e, hq, he, (hdisk q e hq).trans hd⟩
    · rintro ⟨q, e, hq, he, hd⟩
      exact ⟨q, e, hq, he, (hdisk q e hq).symm.trans hd⟩
  case done =>
    intro k hk
    have hne : k ≠ i0 := by
      rintro rfl
      exact hnp (by simp only [Sys.pending, mem_append]; exact .inr (.inr (.inr hk)))
    simpa [Sys.go, update_of_ne hne] using hs.done k hk
  case clear =>
    intro q e hq hd
    have hq := (hwait q e).mp hq
    exact hs.clear q e hq ((hdisk q e hq).symm.trans hd)

/-- `avail` の番号を進めて、書いた連鎖を装置に見せる。 -/
theorem publish (hp : s.procs p = .filled c) :
    Sound ({ s with
      d := { s.d with avail := { s.d.avail with idx := (s.d.avail.idx + 1) % 2 ^ 16 } }
      lock := none
      submitted := s.submitted ++ [c.i0] }.go p (.waiting c)) := by
  obtain ⟨hlock, hdisk, hslot⟩ := hs.filled p c hp
  have hpc : (s.procs p).chain = some c := by rw [hp]; rfl
  have hnp : c.i0 ∉ s.pending := hs.head_not_pending hpc (by simp [hp])
  have hroom := hs.room ((hs.linked p c hpc).lt c.i0 c.head_mem) hnp
  have hchain : ∀ q e, (update s.procs p (.waiting c) q).chain = some e → (s.procs q).chain = some e := by
    intro q e hq
    rcases go_chain hq with ⟨hqp, hq⟩ | ⟨-, hq⟩
    · cases hq
      rw [hqp]
      exact hpc
    · exact hq
  have hbuf : ∀ q x, (update s.procs p (.waiting c) q).buf = some x → (s.procs q).buf = some x := by
    intro q x hq
    rcases go_buf hq with ⟨hqp, hq⟩ | ⟨-, hq⟩
    · cases hq
      rw [hqp]
      exact Pos.buf_of_chain hpc
    · exact hq
  have hdrop : (s.submitted ++ [c.i0]).drop s.taken = s.submitted.drop s.taken ++ [c.i0] :=
    drop_append_of_le_length hs.avail.le
  have hperm : (Sys.pending ({ s with
      d := { s.d with avail := { s.d.avail with idx := (s.d.avail.idx + 1) % 2 ^ 16 } }
      lock := none
      submitted := s.submitted ++ [c.i0] }.go p (.waiting c))).Perm (c.i0 :: s.pending) := by
    refine perm_iff_count.mpr fun a => ?_
    simp only [Sys.pending, Sys.go, hdrop, count_append, count_cons, count_nil]
    omega
  constructor
  case linked => exact fun q e hq => (hs.linked q e (hchain q e hq)).frame (fun _ _ => rfl) (fun _ _ => rfl) rfl
  case apart => exact fun q r e f hq hr => hs.apart q r e f (hchain q e hq) (hchain r f hr)
  case busy => exact fun q x hq => hs.busy q x (hbuf q x hq)
  case alone => exact fun q r x hq hr => hs.alone q r x (hbuf q x hq) (hbuf r x hr)
  case owner => exact fun q e hq => hs.owner q e (hchain q e hq)
  case filled =>
    -- ロックを持つのは `p` だけなので、ほかに載せる前の要求はない。
    intro q e hq
    rcases go_pos hq with ⟨-, hq⟩ | ⟨hqp, hq⟩
    · cases hq
    · have hl := (hs.filled q e hq).1
      rw [hlock] at hl
      cases hl
      exact absurd rfl hqp
  case avail => exact hs.avail.bump num_dvd hroom hslot
  case used => exact hs.used
  case nodup => exact hperm.nodup_iff.mpr (nodup_cons.mpr ⟨hnp, hs.nodup⟩)
  case pend =>
    intro h
    rw [hperm.mem_iff, mem_cons]
    constructor
    · rintro (rfl | hmem)
      · exact ⟨p, c, by simp [Sys.go], rfl, hdisk⟩
      · obtain ⟨q, e, hq, he, hd⟩ := (hs.pend h).mp hmem
        have hqp : q ≠ p := by rintro rfl; rw [hp] at hq; cases hq
        exact ⟨q, e, by simpa only [Sys.go, update_of_ne hqp] using hq, he, hd⟩
    · rintro ⟨q, e, hq, rfl, hd⟩
      rcases go_pos hq with ⟨-, hq⟩ | ⟨-, hq⟩
      · cases hq; exact .inl rfl
      · exact .inr ((hs.pend _).mpr ⟨q, e, hq, rfl, hd⟩)
  case done => exact hs.done
  case clear =>
    intro q e hq hd
    rcases go_pos hq with ⟨-, hq⟩ | ⟨-, hq⟩
    · cases hq
      rw [show s.disk c.b = false from hd] at hdisk
      cases hdisk
    · exact hs.clear q e hq hd

/-- 起きたプロセスは、自分の連鎖を `panic` せずに解放できる。 -/
theorem reap (hp : s.procs p = .waiting c) (hd : s.disk c.b = false) :
    ∃ d', freeChain (s.d.setB c.i0 none) c.i0 = .ok d' ∧
      Sound ({ s with d := d', busy := update s.busy c.b false }.go p .idle) := by
  have hpc : (s.procs p).chain = some c := by rw [hp]; rfl
  obtain ⟨d', hrun, hother, havail, hused, husedIdx, hinfo⟩ := freeChain_spec (hs.linked p c hpc)
  refine ⟨d', hrun, ?_⟩
  have hchain : ∀ q e, (update s.procs p .idle q).chain = some e →
      q ≠ p ∧ (s.procs q).chain = some e := by
    intro q e hq
    rcases go_chain hq with ⟨-, hq⟩ | hq
    · cases hq
    · exact hq
  have hbuf : ∀ q x, (update s.procs p .idle q).buf = some x → q ≠ p ∧ (s.procs q).buf = some x := by
    intro q x hq
    rcases go_buf hq with ⟨-, hq⟩ | hq
    · cases hq
    · exact hq
  have hpos : ∀ q x, x ≠ .idle → update s.procs p .idle q = x → q ≠ p ∧ s.procs q = x := by
    intro q x hx hq
    rcases go_pos hq with ⟨-, hq⟩ | hq
    · exact absurd hq.symm hx
    · exact hq
  constructor
  case linked =>
    intro q e hq
    obtain ⟨hqp, hq⟩ := hchain q e hq
    have hout : ∀ i ∈ e.descs, i ∉ c.descs := fun i hi hi' => hqp (hs.apart q p e c hq hpc i hi hi')
    refine (hs.linked q e hq).frame (fun i hi => (hother i (hout i hi)).2) (fun i hi => (hother i (hout i hi)).1) ?_
    have hne : e.i0 ≠ c.i0 := fun he => hout e.i0 e.head_mem (he ▸ c.head_mem)
    simp only [Sys.go, hinfo, Disk.setB, update_of_ne hne]
  case apart => exact fun q r e f hq hr => hs.apart q r e f (hchain q e hq).2 (hchain r f hr).2
  case busy =>
    intro q x hq
    obtain ⟨hqp, hq⟩ := hbuf q x hq
    have hne : x ≠ c.b := by
      rintro rfl
      exact hqp (hs.alone q p c.b hq (Pos.buf_of_chain hpc))
    simpa only [Sys.go, update_of_ne hne] using hs.busy q x hq
  case alone => exact fun q r x hq hr => hs.alone q r x (hbuf q x hq).2 (hbuf r x hr).2
  case owner => exact fun q e hq => hs.owner q e (hchain q e hq).2
  case filled =>
    intro q e hq
    obtain ⟨h1, h2, h3⟩ := hs.filled q e (hpos q _ (by simp) hq).2
    exact ⟨h1, h2, by simpa only [Sys.go, havail] using h3⟩
  case avail => simpa only [Sys.go, havail] using hs.avail
  case used => simpa only [Sys.go, hused, husedIdx] using hs.used
  case nodup => exact hs.nodup
  case pend =>
    intro h
    refine (hs.pend h).trans ⟨?_, ?_⟩
    · rintro ⟨q, e, hq, he, hd'⟩
      have hqp : q ≠ p := by
        rintro rfl
        rw [hp] at hq
        cases hq
        rw [hd] at hd'
        cases hd'
      exact ⟨q, e, by simpa only [Sys.go, update_of_ne hqp] using hq, he, hd'⟩
    · rintro ⟨q, e, hq, he, hd'⟩
      exact ⟨q, e, (hpos q _ (by simp) hq).2, he, hd'⟩
  case done => exact hs.done
  case clear => exact fun q e hq => hs.clear q e (hpos q _ (by simp) hq).2

end

end Sound

end Xv6.Virtio
