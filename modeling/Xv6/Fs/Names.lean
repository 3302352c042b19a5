import Xv6.Fs.Lemmas.Create

/-!
# 失敗した名前の操作
-/

namespace Xv6.Fs

open Xv6.Lib

variable {sb : Superblock} {u : User} {s s0 s' : Store} {i j n p x : Nat} {l : List Nat} {name : Name}

theorem Held.putBack (hs : Sound sb s0) (h : Held sb s0 (i :: l) s) (hi : i < sb.ninodes) :
    wp (exec u (do Fs.iunlockput sb i; endOp; return (-1 : Int))) (fun r s' => r = -1 → Held sb s0 l s') (fun _ => True) s := by
  rw [exec_bind]
  exact wp_post (h.iunlockput hs hi) fun _ s' h' => wp_pure.mpr fun _ => h'.1

theorem Held.isdiremptyLoop (hs : Sound sb s0) (h : Held sb s0 l s) (ho : Opened sb s0 i s) (fuel : Nat) :
    ∀ {y : Nat}, wp (exec u (isdiremptyLoop sb i (direntSize * y) fuel)) (fun _ s' => s' = s) (fun _ => True) s := by
  induction fuel with
  | zero => exact fun {_} => wp_pure.mpr rfl
  | succ fuel ih =>
    intro y
    rw [Fs.isdiremptyLoop, exec_bind, exec_inode, ho.d, exec_ite]
    refine ⟨fun hsz => ?_, fun _ => wp_pure.mpr rfl⟩
    rw [exec_bind]
    refine h.readDirent hs ho hsz fun _ => ?_
    rw [exec_ite]
    exact ⟨fun _ => wp_pure.mpr rfl, fun _ => ih (y := y + 1)⟩

theorem Held.unlinkEntry {dp off} (hs : Sound sb s0) (h : Held sb s0 [i, dp] s) (hi : i < sb.ninodes)
    (hdp : dp < sb.ninodes) :
    wp (exec u (unlinkEntry sb dp i off)) (fun r s' => r = -1 → Held sb s0 [] s') (fun _ => True) s := by
  rw [Fs.unlinkEntry, exec_bind]
  refine wp_post h.ilock fun _ s1 ⟨h1, hl1, _⟩ => ?_
  rw [exec_bind, exec_inode, hl1.d, exec_ite]
  refine ⟨fun _ => trivial, fun _ => ?_⟩
  have hempty : wp (exec u (if (s0.ino sb i).type = tDir then isdirempty sb i else pure true)) (fun _ s' => s' = s1)
      (fun _ => True) s1 := by
    rw [exec_ite]
    refine ⟨fun hdir => ?_, fun _ => wp_pure.mpr rfl⟩
    rw [isdirempty, exec_bind, exec_inode, Nat.mul_comm]
    exact h1.isdiremptyLoop hs ⟨hl1, hi, hdir⟩ _
  rw [exec_bind]
  refine wp_post hempty ?_
  rintro empty _ rfl
  rw [exec_ite]
  refine ⟨fun _ => ?_, fun _ => ?_⟩
  · rw [exec_bind]
    exact wp_post (h1.iunlockput hs hi) fun _ s2 ⟨h2, _⟩ => h2.putBack hs hdp
  -- 成功すれば、返す値は零である。
  rw [exec_bind]
  refine wp_of_ok fun r s2 _ => ?_
  rw [exec_ite]
  refine ⟨fun _ => trivial, fun _ => ?_⟩
  simp only [unlinkDone, exec_bind]
  refine wp_of_ok fun _ _ _ => wp_of_ok fun _ _ _ => wp_of_ok fun _ _ _ => wp_of_ok fun _ _ _ => ?_
  refine wp_of_ok fun _ _ _ => wp_of_ok fun _ _ _ => wp_of_ok fun _ _ _ => wp_pure.mpr fun hc => ?_
  cases hc

theorem unlink_held (hs : Sound sb s) (path : Option (List UInt8)) :
    wp (exec u (sysUnlink sb p path)) (fun r s' => r = -1 → Held sb s [] s') (fun _ => True) s := by
  cases path with
  | none => exact wp_pure.mpr fun _ => Held.refl s
  | some path =>
    rw [sysUnlink, exec_bind]
    refine wp_pure.mpr ?_
    rw [exec_bind, nameiparent]
    refine wp_post ((Held.refl s).namex hs path true) ?_
    rintro (_ | ⟨dp, name⟩) s1 hr
    · exact wp_pure.mpr fun _ => hr.lost rfl
    obtain ⟨h1, hdp, _⟩ := hr.found dp name rfl
    simp only [exec_bind]
    refine wp_post h1.ilock ?_
    rintro _ s2 ⟨h2, hl2, _⟩
    rw [exec_ite]
    refine ⟨fun _ => h2.putBack hs hdp, fun _ => ?_⟩
    rw [exec_bind]
    refine wp_post (h2.dirlookup hs hl2 hdp) ?_
    rintro (_ | ⟨off, ip⟩) s3 ⟨_, hlook⟩
    · obtain ⟨rfl, _⟩ := hlook.miss rfl
      exact h2.putBack hs hdp
    · obtain ⟨h3, hip, _⟩ := hlook.hit off ip rfl
      exact h3.unlinkEntry hs hip hdp

/-! ## `link` -/

theorem Dinode.linkDown_linkUp {d : Dinode} (h : d.nlink < 2 ^ 16) (a : Nat → Nat) :
    { d.linkUp with addrs := a }.linkDown = { d with addrs := a } := by
  have hn : ((d.nlink + 1) % 2 ^ 16 + 2 ^ 16 - 1) % 2 ^ 16 = d.nlink := by omega
  simp only [Dinode.linkUp, Dinode.linkDown, hn]

theorem Retitled.linkDown {d} (h : d.type ≠ 0) : Retitled d d.linkDown where
  type := by
    rw [Dinode.linkDown]
    exact h
  addrs := by rw [Dinode.linkDown]

/-- `link` の途中。`ip` のリンクの数だけが一つ多い。 -/
structure Raised (sb : Superblock) (s0 : Store) (ip : Nat) (l : List Nat) (s : Store) : Prop where
  move : Move sb ip s0 s
  ref : ∀ i, (s.k.itab i).ref = (s0.k.itab i).ref + l.count i
  title : ∃ a, s.ino sb ip = { (s0.ino sb ip).linkUp with addrs := a }
  slot : ∀ k, k < nslots → (s.ino sb ip).slot s.blk k = (s0.ino sb ip).slot s0.blk k
  byte : ∀ q, s0.Mapped sb ip q → s.byte sb ip q = s0.byte sb ip q

namespace Raised

variable {ip : Nat}

theorem type (h : Raised sb s0 ip l s) : (s.ino sb ip).type = (s0.ino sb ip).type := by
  obtain ⟨a, ha⟩ := h.title
  rw [ha]
  rfl

theorem step {l'} (h : Raised sb s0 ip l s) (hl : sb.Live (s0.ino sb) ip) (hdir : (s0.ino sb ip).type ≠ tDir)
    (hs : Still sb s s') (hr : ∀ i, (s'.k.itab i).ref = (s0.k.itab i).ref + l'.count i) : Raised sb s0 ip l' s' := by
  have hsame := hs.same (i := ip) ⟨hl.1, by rw [h.type]; exact hl.2⟩
  have hslot : ∀ k, k < nslots → (s'.ino sb ip).slot s'.blk k = (s.ino sb ip).slot s.blk k := fun k hk =>
    (hsame.slot k hk).resolve_right fun hc => hdir (h.type ▸ hc.1)
  refine ⟨h.move.trans (hs ip), hr, ?_, fun k hk => (hslot k hk).trans (h.slot k hk), fun q hq => ?_⟩
  · obtain ⟨a, ha⟩ := h.title
    obtain ⟨a', ha'⟩ := hsame.title
    exact ⟨a', by rw [ha', ha]⟩
  · refine (hsame.byte q ⟨hq.1, ?_⟩).trans (h.byte q hq)
    rw [Dinode.block, h.slot _ (slotOf_lt hq.1)]
    exact hq.2

theorem sound (h : Raised sb s0 ip l s) (hs : Sound sb s0) (hdir : (s0.ino sb ip).type ≠ tDir) (hmem : ip ∈ l) :
    Sound sb s := by
  refine h.move.sound hs (fun i => by rw [h.ref]; omega) ?_ fun hc => absurd (h.type ▸ hc) hdir
  have := List.count_pos_iff.mpr hmem
  have := h.ref ip
  omega

theorem linkBad (h : Raised sb s0 ip [ip] s) (hs : Sound sb s0) (hy : Synced sb s0) (hl : sb.Live (s0.ino sb) ip)
    (hdir : (s0.ino sb ip).type ≠ tDir) :
    wp (exec u (linkBad sb ip)) (fun r s' => r = -1 → Still sb s0 s') (fun _ => True) s := by
  rw [Fs.linkBad, exec_bind]
  refine wp_post (Held.refl s).ilock ?_
  rintro _ s1 ⟨h1, hl1, _⟩
  have hr1 : Raised sb s0 ip [ip] s1 := h.step hl hdir (h1.still h.move.still_self) fun i => by
    rw [h1.ref, h.ref]
    rfl
  have hlive : sb.Live (s.ino sb) ip := ⟨hl.1, by rw [h.type]; exact hl.2⟩
  have hi1 := hl1.cached_of hlive
  obtain ⟨a, ha⟩ := hr1.title
  have hst := hy.storable hl.1
  have hdown : (s1.k.itab ip).d.linkDown = { s0.ino sb ip with addrs := a } := by
    rw [← hi1.ino_eq, ha]
    exact Dinode.linkDown_linkUp (d := s0.ino sb ip) hst.nlink a
  have hd : Retitled (s1.k.itab ip).d (s1.k.itab ip).d.linkDown := .linkDown hi1.type
  simp only [exec_bind, exec_inode, exec_setInode, exec_iupdate]
  have haddr : a = (s1.ino sb ip).addrs := by rw [ha]
  have hm2 : Move sb ip s1 ((s1.setD ip (s1.k.itab ip).d.linkDown).iupdated sb ip) := by
    refine move_update hs.ok hi1 hd (hr1.move.still_self ip) ?_
    rw [hdown]
    exact .of_live hs.ok hr1.move.owned hi1.live haddr hst.type hst.major hst.minor hst.nlink hst.size
  set s2 := (s1.setD ip (s1.k.itab ip).d.linkDown).iupdated sb ip with hs2
  have hi2 : (s1.setD ip (s1.k.itab ip).d.linkDown).Cached sb ip := hi1.setD hd.type
  have hino2 : s2.ino sb ip = { s0.ino sb ip with addrs := a } := by
    rw [hs2, iupdated_ino hi2, setD_ino hi1 hd, hdown]
  have hslot2 : ∀ k, (s2.ino sb ip).slot s2.blk k = (s1.ino sb ip).slot s1.blk k := fun k => by
    rw [hs2, iupdated_slot hs.ok hi2 (setD_owned hi1 hd hr1.move.owned) hi2.live, setD_slot hi1 hd]
  have hsame : Same sb ip s0 s2 := by
    refine ⟨⟨a, hino2⟩, fun k hk => .inl ((hslot2 k).trans (hr1.slot k hk)), fun q hq => ?_⟩
    have hq1 : s1.Mapped sb ip q := ⟨hq.1, by rw [Dinode.block, hr1.slot _ (slotOf_lt hq.1)]; exact hq.2⟩
    rw [← hr1.byte q hq, Store.byte, Store.byte, Dinode.byte, Dinode.byte, Dinode.block, hslot2, ← Dinode.block]
    have := (hr1.move.owned.region ip _ hi1.live (slotOf_lt hq1.1) hq1.2).1
    have hstart := Superblock.Ok.bmapstart_lt sb
    rw [hs2, Dinode.block, iupdated_blk hs.ok hi2 (by omega), setD_blk]
  have hlive2 : sb.Live (s2.ino sb) ip := ⟨hl.1, by rw [hino2]; exact hl.2⟩
  have hstill : Still sb s0 s2 := (hr1.move.trans hm2).other ⟨fun _ => hl, fun _ => hlive2⟩ fun _ => hsame
  refine wp_post (iunlockput_still hs (hstill ip).still_self hl hsame.nlink ?_) ?_
  · rw [hs2, update_ref, hr1.ref]
    simp
  · rintro _ s3 ⟨h3, _⟩
    exact wp_pure.mpr fun _ => hstill.trans h3

end Raised

theorem raised_update {ip} (hw : Settled sb s0) (h : Held sb s0 [ip] s) (hl : sb.Live (s0.ino sb) ip)
    (hi : s.Cached sb ip) :
    Raised sb s0 ip [ip] ((s.setD ip (s.k.itab ip).d.linkUp).iupdated sb ip) := by
  have hm := (h.still hw.still) ip
  have hd : Retitled (s.k.itab ip).d (s.k.itab ip).d.linkUp := ⟨hi.type, rfl⟩
  have hi2 : (s.setD ip (s.k.itab ip).d.linkUp).Cached sb ip := hi.setD hd.type
  have hdino : (s.k.itab ip).d = s0.ino sb ip := by rw [← hi.ino_eq, h.ino]
  have hst := hw.synced.storable hl.1
  have hslot : ∀ k, (((s.setD ip (s.k.itab ip).d.linkUp).iupdated sb ip).ino sb ip).slot
      ((s.setD ip (s.k.itab ip).d.linkUp).iupdated sb ip).blk k = (s0.ino sb ip).slot s0.blk k := fun k => by
    rw [iupdated_slot hw.ok hi2 (setD_owned hi hd hm.owned) hi2.live, setD_slot hi hd, h.ino, h.blk]
  refine ⟨hm.trans (move_update hw.ok hi hd (hm.still_self ip) ?_), fun i => ?_, ⟨(s0.ino sb ip).addrs, ?_⟩,
    fun k _ => hslot k, fun q hq => ?_⟩
  · rw [hdino]
    refine .of_live hw.ok hw.owned hl rfl hst.type hst.major hst.minor ?_ hst.size
    exact Nat.mod_lt _ (by decide)
  · rw [← h.ref i, update_ref]
  · rw [iupdated_ino hi2, setD_ino hi hd, hdino]
    rfl
  · have := (hw.owned.region ip _ hl (slotOf_lt hq.1) hq.2).1
    have hstart := Superblock.Ok.bmapstart_lt sb
    rw [Store.byte, Dinode.byte, Dinode.block, hslot, iupdated_blk hw.ok hi2 (by omega), setD_blk, h.blk]
    rfl

theorem Raised.linkInto {ip} (h : Raised sb s0 ip [ip] s) (hs : Sound sb s0) (hy : Synced sb s0)
    (hl : sb.Live (s0.ino sb) ip) (hdir : (s0.ino sb ip).type ≠ tDir) (new : List UInt8) :
    wp (exec u (linkInto sb p ip new)) (fun r s' => r = -1 → Still sb s0 s') (fun _ => True) s := by
  have hsound := h.sound hs hdir (List.mem_singleton_self ip)
  rw [Fs.linkInto, exec_bind, nameiparent]
  refine wp_post ((Held.refl s).namex hsound new true) ?_
  rintro (_ | ⟨dp, name⟩) s1 hr
  · have h1 := hr.lost rfl
    exact (h.step hl hdir (h1.still h.move.still_self) fun i => by rw [h1.ref, h.ref]; rfl).linkBad hs hy hl hdir
  obtain ⟨h1, hdp, htype⟩ := hr.found dp name rfl
  have htype := htype rfl
  have hne : dp ≠ ip := fun hc => hdir (by rw [← h.type, ← hc, htype])
  have hldp : sb.Live (s0.ino sb) dp := (h.move.live dp hne).mp ⟨hdp, by rw [htype]; decide⟩
  simp only [exec_bind]
  refine wp_post h1.ilock ?_
  rintro _ s2 ⟨h2, hl2, _⟩
  have hr2 : Raised sb s0 ip [dp, ip] s2 := h.step hl hdir (h2.still h.move.still_self) fun i => by
    rw [h2.ref, h.ref]
    simp only [List.count_cons, List.count_nil]
    omega
  have hsound2 := hr2.sound hs hdir (by simp)
  have hi2 : s2.Cached sb dp := hl2.cached_of ⟨hdp, by rw [htype]; decide⟩
  refine wp_post (dirlink_linked hsound2 hr2.move.still_self hi2) fun ok s3 h3 => ?_
  rw [exec_ite]
  refine ⟨fun _ => ?_, fun hno => ?_⟩
  · -- 成功すれば、返す値は零である。
    simp only [exec_bind]
    refine wp_of_ok fun _ _ _ => wp_of_ok fun _ _ _ => wp_of_ok fun _ _ _ => wp_pure.mpr fun hc => ?_
    cases hc
  have hstill := h3.failed (by simpa using hno)
  have hr3 : Raised sb s0 ip [dp, ip] s3 := hr2.step hl hdir hstill fun i => by rw [h3.ref, hr2.ref]
  rw [exec_bind]
  refine wp_post (iunlockput_still hs hr3.move.still_self hldp (hr3.move.file dp hne hldp).nlink ?_) ?_
  · rw [hr3.ref, List.count_cons_self]
    omega
  rintro _ s4 ⟨h4, hk4⟩
  refine (hr3.step hl hdir h4 fun i => ?_).linkBad hs hy hl hdir
  rw [hk4]
  by_cases hii : i = dp
  · subst hii
    have := hr3.ref i
    rw [List.count_cons_self] at this
    simp only [update_self]
    omega
  · rw [update_of_ne hii, hr3.ref, List.count_cons_of_ne (Ne.symm hii)]

theorem link_still (hw : Settled sb s) (old new : Option (List UInt8)) :
    wp (exec u (sysLink sb p old new)) (fun r s' => r = -1 → Still sb s s') (fun _ => True) s := by
  cases old with
  | none => exact wp_pure.mpr fun _ => hw.still
  | some old =>
  cases new with
  | none => exact wp_pure.mpr fun _ => hw.still
  | some new =>
    rw [sysLink, exec_bind]
    refine wp_pure.mpr ?_
    rw [exec_bind]
    refine wp_post ((Held.refl s).namei hw.toSound old) ?_
    rintro (_ | ip) s1 ⟨hnone, hsome⟩
    · exact wp_pure.mpr fun _ => (hnone rfl).still hw.still
    obtain ⟨h1, hip⟩ := hsome ip rfl
    simp only [exec_bind]
    refine wp_post h1.ilock ?_
    rintro _ s2 ⟨h2, hl2, _⟩
    have hlive := hw.live h2 hl2 hip
    rw [exec_inode, exec_ite]
    refine ⟨fun _ => ?_, fun hdir => ?_⟩
    · exact wp_post (h2.putBack hw.toSound hip) fun _ s3 h3 hr => (h3 hr).still hw.still
    · rw [hl2.d] at hdir
      have hr := raised_update hw h2 hlive (hl2.cached_of hlive)
      simp only [exec_bind, exec_setInode, exec_iupdate, iunlock, exec_getK, exec_ite]
      exact ⟨fun _ => trivial, fun _ => hr.linkInto hw.toSound hw.synced hlive hdir new⟩

/-! ## `mkdir` と `mknod` -/

section Make

variable {type major minor : Nat} (hw : Settled sb s0) (htype : type ≠ 0) (hsmall : type < 2 ^ 16)
  (hmajor : major < 2 ^ 16) (hminor : minor < 2 ^ 16)

include hw htype hsmall hmajor hminor in
theorem makeNode_still (path : Option (List UInt8)) :
    wp (exec u (makeNode sb p path type major minor)) (fun r s' => r = -1 → Still sb s0 s') (fun _ => True) s0 := by
  unfold makeNode
  rw [exec_bind]
  refine wp_pure.mpr ?_
  cases path with
  | none => exact wp_pure.mpr fun _ => hw.still
  | some path =>
    simp only [exec_bind]
    refine wp_post (create_spec hw htype hsmall hmajor hminor path) ?_
    rintro (_ | ip) s1 ⟨h1, -⟩
    · exact wp_pure.mpr fun _ => h1 rfl
    · simp only [exec_bind]
      refine wp_of_ok fun _ _ _ => wp_pure.mpr fun hc => ?_
      cases hc

end Make

/-! ## 失敗した呼び出し -/

inductive NameCall where
  | mkdir (path : Option (List UInt8))
  | mknod (path : Option (List UInt8)) (major minor : Nat)
  | link (old new : Option (List UInt8))
  | unlink (path : Option (List UInt8))

def NameCall.run (sb : Superblock) (p : Nat) : NameCall → FsM Int
  | .mkdir path => sysMkdir sb p path
  | .mknod path major minor => sysMknod sb p path major minor
  | .link old new => sysLink sb p old new
  | .unlink path => sysUnlink sb p path

def Store.entries (sb : Superblock) (s : Store) (i : Nat) : Set (Name × Nat) :=
  { e | ∃ y, direntSize * (y + 1) ≤ (s.ino sb i).size ∧ direntInum (s.direntAt sb i y) 0 ≠ 0 ∧
    e = (direntName (s.direntAt sb i y) 0, direntInum (s.direntAt sb i y) 0) }

/-- ディレクトリの項目、割り当てられた inode と、その種類、リンクの数、大きさ、中身が同じである。ディレクトリは、空の間接
ブロックを得てもよい。 -/
structure Intact (sb : Superblock) (s s' : Store) : Prop where
  live : ∀ i, sb.Live (s'.ino sb) i ↔ sb.Live (s.ino sb) i
  title : ∀ i, sb.Live (s.ino sb) i → ∃ a, s'.ino sb i = { s.ino sb i with addrs := a }
  slot : ∀ i k, sb.Live (s.ino sb) i → k < nslots → (s'.ino sb i).slot s'.blk k = (s.ino sb i).slot s.blk k ∨
    (s.ino sb i).type = tDir ∧ k = ndirect ∧ (s.ino sb i).slot s.blk k = 0
  byte : ∀ i q, sb.Live (s.ino sb) i → s.Mapped sb i q → s'.byte sb i q = s.byte sb i q
  entries : ∀ i, sb.Live (s.ino sb) i → (s.ino sb i).type = tDir → s'.entries sb i = s.entries sb i
  owned : ∀ b, sb.datastart ≤ b → b < sb.size → sb.used s'.blk b = true →
    ∃ i k, sb.Live (s'.ino sb) i ∧ k < nslots ∧ (s'.ino sb i).slot s'.blk k = b

theorem Still.intact (h : Still sb s s') (hs : Sound sb s) : Intact sb s s' where
  live := h.live
  title i hi := (h.same hi).title
  slot i k hi := (h.same hi).slot k
  byte i q hi := (h.same hi).byte q
  entries i hi hdir := by
    have hsame := h.same hi
    have hfull := hs.full i hi.1 hdir
    refine Set.ext fun e => exists_congr fun y => ?_
    rw [hsame.size]
    refine and_congr_right fun hy => ?_
    rw [hsame.direntAt hfull hy]
  owned := (h 0).tight

/-- 名前の操作が -1 を返せば、ディレクトリの項目も、inode も、その中身も変わっていない。 -/
theorem failed_name_call_intact (hw : Settled sb s) (c : NameCall) (hok : exec u (c.run sb p) s = .ok (-1, s')) :
    Intact sb s s' := by
  have hpost : wp (exec u (c.run sb p)) (fun r s' => r = -1 → Still sb s s') (fun _ => True) s := by
    cases c with
    | mkdir path => exact makeNode_still hw (by decide) (by decide) (by decide) (by decide) path
    | mknod path major minor =>
      exact makeNode_still hw (by decide) (by decide) (Nat.mod_lt _ (by decide)) (Nat.mod_lt _ (by decide)) path
    | link old new => exact link_still hw old new
    | unlink path => exact wp_post (unlink_held hw.toSound path) fun _ s' h hr => (h hr).still hw.still
  rw [wp, hok] at hpost
  exact (hpost rfl).intact hw.toSound

/-! ## 例 -/

def exampleRoot : Dinode := ⟨tDir, 0, 0, 1, 32, fun k => if k = 0 then 6 else 0⟩

def exampleTree : Store where
  blk b :=
    if b = 2 then putDinode (fun _ => 0) (dinodeOff 1) exampleRoot
    else if b = 5 then fun i => if i = 0 then 127 else 0
    else if b = 6 then blit (direntBytes dot 1) 16 (direntBytes dotdot 1) 0 16
    else fun _ => 0
  k :=
    { itab := fun i => if i = 1 then ⟨2, true, exampleRoot⟩ else ⟨0, false, .empty 0⟩
      files := fun f => if f = 0 then ⟨.inode, 16, true, false, 1, 0, 0⟩ else ⟨.none, 0, false, false, 0, 0, 0⟩
      procs := fun p => if p = 0 then ⟨true, fun _ => some 0, some 1⟩ else ⟨false, fun _ => none, none⟩ }
  umem := fun _ => 0

theorem exampleTree_type : ∀ i < 32, i ≠ 1 → (exampleTree.ino exampleSb i).type = 0 := by decide +kernel

theorem exampleTree_dir (hi : i < exampleSb.ninodes) (hd : (exampleTree.ino exampleSb i).type = tDir) : i = 1 := by
  by_contra hne
  rw [exampleTree_type i hi hne] at hd
  cases hd

theorem exampleTree_sound : Sound exampleSb exampleTree where
  ok := ⟨by decide, by decide⟩
  owned := by
    refine owned_single 1 (fun i hi => ?_) rfl (by decide) (by decide +kernel) fun b hb _ => ?_
    · by_contra hne
      exact hi.2 (exampleTree_type i hi.1 hne)
    · have hb : b < 6 := hb
      interval_cases b <;> decide +kernel
  full i hi hd bn hlt := by
    obtain rfl := exampleTree_dir hi hd
    have hbn : bn = 0 := by
      change bn * 1024 < 32 at hlt
      omega
    rw [hbn, Dinode.block, single_slot rfl]
    decide
  small i hi hd := by
    obtain rfl := exampleTree_dir hi hd
    decide
  whole i hi hd := by
    obtain rfl := exampleTree_dir hi hd
    decide
  entry i y hi hd hy _ := by
    obtain rfl := exampleTree_dir hi hd
    have hy : y < 2 := by
      change 16 * (y + 1) ≤ 32 at hy
      omega
    interval_cases y <;> decide +kernel
  links i hi ht := by
    by_cases he : i = 1
    · subst he
      exact .inl (by decide)
    · exact absurd (exampleTree_type i hi he) ht
  root := by decide
  cwd p i hp := by
    by_cases h0 : p = 0
    · subst h0
      cases hp
      decide
    · simp [exampleTree, h0] at hp
  files f hf := by
    by_cases h0 : f = 0
    · subst h0
      cases hf
    · simp [exampleTree, h0]

theorem exampleTree_settled : Settled exampleSb exampleTree where
  toSound := exampleTree_sound
  synced i hi := by
    by_cases he : i = 1
    · subst he
      refine getDinode_put_cut (d := exampleRoot) ⟨by decide, by decide, by decide, by decide, by decide, fun k => ?_,
        fun k hk => if_neg (by omega)⟩
      simp only [Dinode.cut, exampleRoot]
      split_ifs <;> decide
    · rw [Store.ino, if_neg (by simp [exampleTree, he]), getDinode_cut]
  tight b h1 h2 hu := by
    have hb : b = 6 := by
      by_contra hne
      have hlt : ∀ b < 64, 6 ≤ b → b ≠ 6 → exampleSb.used exampleTree.blk b = false := by decide +kernel
      rw [hlt b h2 h1 hne] at hu
      cases hu
    exact ⟨1, 0, ⟨by decide, by decide⟩, by decide, hb.symm⟩
  refs i hi hr := by
    by_cases he : i = 1
    · subst he
      decide
    · simp [exampleTree, he] at hr

/-- 空いたブロックが一つもないディスク。 -/
def fullSb : Superblock := { exampleSb with size := 7 }

theorem fullSb_packed : fullSb.Packed exampleTree.blk := show ∀ b < 7, fullSb.used exampleTree.blk b = true by decide +kernel

theorem exampleTree_full : Settled fullSb exampleTree :=
  { exampleTree_settled with
    ok := ⟨by decide, by decide⟩
    owned := by
      refine owned_single 1 (fun i hi => ?_) rfl (by decide) (by decide +kernel) fun b _ hb => fullSb_packed b hb
      by_contra hne
      exact hi.2 (exampleTree_type i hi.1 hne)
    tight := fun b h1 h2 => exampleTree_settled.tight b h1 (Nat.lt_trans h2 (by decide)) }

/-- 空いたブロックがないので、`mkdir` は割り当てた inode を手放す。 -/
theorem failed_name_call_intact_full : Settled fullSb exampleTree ∧ fullSb.Packed exampleTree.blk ∧
    exampleTree.entryOf fullSb rootino [97] = none ∧ (exampleTree.ino fullSb 2).type = 0 ∧
    ∃ s', exec exampleUser ((NameCall.mkdir (some [47, 97])).run fullSb 0) exampleTree = .ok (-1, s') ∧
      Intact fullSb exampleTree s' := by
  refine ⟨exampleTree_full, fullSb_packed, by decide +kernel, by decide +kernel, ?_⟩
  have hrun : (match exec exampleUser ((NameCall.mkdir (some [47, 97])).run fullSb 0) exampleTree with
      | .ok (r, _) => decide (r = -1)
      | .error _ => false) = true := by decide +kernel
  split at hrun
  · rename_i r s' hok
    obtain rfl := of_decide_eq_true hrun
    exact ⟨s', hok, failed_name_call_intact exampleTree_full _ hok⟩
  · cases hrun

end Xv6.Fs
