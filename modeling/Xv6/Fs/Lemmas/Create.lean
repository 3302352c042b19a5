import Xv6.Fs.Lemmas.Linked
import Xv6.Fs.Lemmas.Discard
import Mathlib.Data.List.Find

/-!
# `create`
-/

namespace Xv6.Fs

open Xv6.Lib

variable {sb : Superblock} {u : User} {s s0 s' : Store} {i j n p x : Nat} {l : List Nat} {name : Name}

/-- 整っていて、メモリの inode はディスクと同じであり、使用中のブロックは inode が持ち、参照される inode は割り当てられて
いる。 -/
structure Settled (sb : Superblock) (s : Store) : Prop extends Sound sb s where
  synced : Synced sb s
  tight : Tight sb s
  refs : ∀ i, i < sb.ninodes → 0 < (s.k.itab i).ref → (s.ino sb i).type ≠ 0

theorem Settled.still (h : Settled sb s) : Still sb s s := .refl h.owned h.tight h.synced

/-- 空いている inode を指す表の欄は無い。 -/
theorem Settled.ref_zero (h : Settled sb s) (hi : i < sb.ninodes) (hz : (s.ino sb i).type = 0) : (s.k.itab i).ref = 0 := by
  by_contra hpos
  exact h.refs i hi (Nat.pos_of_ne_zero hpos) hz

theorem Settled.live (hw : Settled sb s0) (h : Held sb s0 l s) (hl : Locked sb s0 i s) (hi : i < sb.ninodes) :
    sb.Live (s0.ino sb) i := by
  refine ⟨hi, ?_⟩
  by_cases hz : (s0.k.itab i).ref = 0
  · exact h.loaded i hz hl.ref hl.valid
  · exact hw.refs i hi (by omega)

theorem Locked.cached_of (h : Locked sb s0 i s) (hl : sb.Live (s0.ino sb) i) : s.Cached sb i :=
  ⟨hl.1, h.ref, h.valid, by rw [h.d]; exact hl.2⟩

theorem Held.sameFile (h : Held sb s0 l s) : SameFile sb i s0 s where
  ino := h.ino i
  slot l _ := by rw [h.ino, h.blk]
  data _ _ _ _ _ := by rw [h.blk]

section Room

variable (h : SameFile sb i s s') (hf : (s.ino sb i).Full s.blk)

include h hf in
theorem SameFile.direntAt {y} (hy : y ∈ List.range ((s.ino sb i).size / direntSize)) :
    s'.direntAt sb i y = s.direntAt sb i y :=
  (Same.of_sameFile h).direntAt hf (lt_entries.mp (List.mem_range.mp hy))

include h hf in
theorem SameFile.entryOf : s'.entryOf sb i name = s.entryOf sb i name := by
  unfold Store.entryOf
  rw [h.ino]
  refine List.find?_congr fun y hy => decide_eq_decide.mpr ?_
  rw [Named, Named, h.direntAt hf hy]

include h hf in
theorem SameFile.gap : s'.gap sb i = s.gap sb i := by
  unfold Store.gap
  rw [h.ino, List.find?_congr fun y hy => by rw [h.direntAt hf hy]]

include h hf in
theorem SameFile.dirRoom (hu : ∀ c, sb.used s'.blk c = sb.used s.blk c) : s'.DirRoom sb i ↔ s.DirRoom sb i := by
  unfold Store.DirRoom
  rw [h.gap hf]
  refine and_congr_right fun hle => ?_
  have hk : slotOf (direntSize * s.gap sb i / bsize) < nslots := slotOf_lt (by
    simp only [direntSize, bsize, maxfile, ndirect, nindirect] at *
    omega)
  simp only [Store.Spares, h.slot _ hk, hu]
  rw [h.ino]

end Room

/-- 元から握っている者がいるので、手放しても inode は消えない。 -/
theorem iunlockput_still (hs : Sound sb s0) (hm : Still sb s s) (hl : sb.Live (s0.ino sb) i)
    (hnlink : (s.ino sb i).nlink = (s0.ino sb i).nlink) (href : (s0.k.itab i).ref < (s.k.itab i).ref) :
    wp (exec u (iunlockput sb i)) (fun _ s' => Still sb s s' ∧ s'.k.itab =
      update s.k.itab i { s.k.itab i with ref := (s.k.itab i).ref - 1 }) (fun _ => True) s := by
  simp only [iunlockput, iunlock, exec_bind, exec_getK, exec_ite]
  refine ⟨fun _ => trivial, fun _ => still_iput hm hl.1 ?_⟩
  rintro ⟨h1, hv, hn⟩
  have hone : (s.k.itab i).ref = 1 := h1
  rcases hs.links i hl.1 hl.2 with hnz | hpos
  · refine hnz ?_
    rw [← hnlink, Store.ino, if_pos ⟨by omega, hv⟩, hn]
  · omega

structure Fresh (sb : Superblock) (s0 : Store) (ip dp : Nat) (s : Store) : Prop where
  move : Move sb ip s0 s
  ref : ∀ i, (s.k.itab i).ref = (s0.k.itab i).ref + [ip, dp].count i
  cached : s.Cached sb ip
  parent : s.Cached sb dp
  dir : (s.ino sb ip).type = tDir → DirOk sb s ip

structure Vacant (sb : Superblock) (s0 : Store) (ip dp : Nat) : Prop where
  free : (s0.ino sb ip).type = 0
  live : sb.Live (s0.ino sb) dp

theorem Vacant.ne {ip dp} (h : Vacant sb s0 ip dp) : dp ≠ ip := fun hc => h.live.2 (by rw [hc, h.free])

namespace Fresh

variable {ip dp type major minor : Nat}

section

variable (h : Fresh sb s0 ip dp s)
include h

theorem sound (hs : Sound sb s0) : Sound sb s :=
  h.move.sound hs (fun i => by rw [h.ref]; omega) h.cached.ref h.dir

theorem step (hst : Still sb s s') (hr : ∀ j, (s'.k.itab j).ref = (s.k.itab j).ref)
    (hc : ∀ j, s.Cached sb j → s'.Cached sb j) : Fresh sb s0 ip dp s' where
  move := h.move.trans (hst ip)
  ref i := by rw [hr, h.ref]
  cached := hc ip h.cached
  parent := hc dp h.parent
  dir ht := by
    have hsame := hst.same h.cached.live
    exact hsame.dirOk (h.dir (by rw [← hsame.type, ht]))

theorem dirlink (hs : Sound sb s0) (hdir : (s.ino sb ip).type = tDir) (hn : n < sb.ninodes) :
    wp (exec u (dirlink sb ip name n)) (fun _ s' => Fresh sb s0 ip dp s' ∧ (s'.ino sb ip).type = tDir) (fun _ => True) s := by
  refine wp_post (dirlink_linked (h.sound hs) h.move.still_self h.cached) fun r s' h' => ?_
  cases r with
  | false =>
    have hst := h'.failed rfl
    exact ⟨h.step hst h'.ref h'.cached, by rw [(hst.same h.cached.live).type, hdir]⟩
  | true =>
    obtain ⟨y, hy⟩ := h'.done rfl
    obtain ⟨a, ha⟩ := hy.title
    refine ⟨⟨h.move.trans h'.move, fun i => by rw [h'.ref, h.ref], h'.cached ip h.cached, h'.cached dp h.parent,
      fun _ => hy.dirOk (h.dir hdir) hn⟩, ?_⟩
    rw [ha]
    exact hdir

/-- 失敗した `create` は、作りかけの inode を消して元に戻す。 -/
theorem createFail (hw : Settled sb s0) (hv : Vacant sb s0 ip dp) :
    wp (exec u (createFail sb dp ip)) (fun r s' => r = none ∧ Still sb s0 s') (fun _ => True) s := by
  have hne := hv.ne
  have hz := hw.ref_zero h.cached.lt hv.free
  have hd : Retitled (s.k.itab ip).d { (s.k.itab ip).d with nlink := 0 } := ⟨h.cached.type, rfl⟩
  have hst := h.move.synced.storable h.cached.lt
  rw [h.cached.ino_eq] at hst
  have hm1 : Move sb ip s ((s.setD ip { (s.k.itab ip).d with nlink := 0 }).iupdated sb ip) :=
    move_update hw.ok h.cached hd (h.move.still_self ip) (.of_live hw.ok h.move.owned h.cached.live
      (by rw [h.cached.ino_eq]) hst.type hst.major hst.minor (Nat.two_pow_pos _) hst.size)
  have hi1 : ((s.setD ip { (s.k.itab ip).d with nlink := 0 }).iupdated sb ip).Cached sb ip :=
    Store.Cached.of_k (h.cached.setD hd.type) rfl
  have hr1 : ∀ j, (((s.setD ip { (s.k.itab ip).d with nlink := 0 }).iupdated sb ip).k.itab j).ref = (s.k.itab j).ref :=
    update_ref _
  have hn1 : (((s.setD ip { (s.k.itab ip).d with nlink := 0 }).iupdated sb ip).k.itab ip).d.nlink = 0 := by
    simp [Store.iupdated]
  rw [Fs.createFail, exec_bind, exec_inode, exec_bind, exec_setInode, exec_bind, exec_iupdate, exec_bind]
  generalize (s.setD ip { (s.k.itab ip).d with nlink := 0 }).iupdated sb ip = s1 at hm1 hi1 hr1 hn1
  have hm01 := h.move.trans hm1
  have hone : (s1.k.itab ip).ref = 1 := by
    rw [hr1, h.ref, hz]
    simp [hne]
  refine wp_post (iunlockput_freed hw.ok hm1.owned hi1 hone hn1) fun _ s2 h2 => ?_
  obtain ⟨hm2, hdead⟩ := h2.move hm1.still_self hi1.live
  have hstill : Still sb s0 s2 := (hm01.trans hm2).other
    ⟨fun hl => absurd hdead hl.2, fun hl => absurd hv.free hl.2⟩ fun hl => absurd hv.free hl.2
  have hdp : (s0.k.itab dp).ref < (s2.k.itab dp).ref := by
    rw [h2.itab dp hne, hr1, h.ref]
    simp
  rw [exec_bind]
  refine wp_post (iunlockput_still hw.toSound hm2.still_self hv.live (hstill.same hv.live).nlink hdp) ?_
  exact fun _ s3 h3 => wp_pure.mpr ⟨rfl, hstill.trans h3.1⟩

theorem createDots (hs : Sound sb s0) (htype : (s.ino sb ip).type = type) :
    wp (exec u (createDots sb dp ip type)) (fun ok s' => Fresh sb s0 ip dp s' ∧ (type ≠ tDir → ok = true ∧ s' = s))
      (fun _ => True) s := by
  rw [Fs.createDots, exec_ite]
  refine ⟨fun hdir => ?_, fun _ => wp_pure.mpr ⟨h, fun _ => ⟨rfl, rfl⟩⟩⟩
  rw [exec_bind]
  refine wp_post (h.dirlink hs (htype.trans hdir) h.cached.lt) fun ok s1 ⟨h1, hdir1⟩ => ?_
  rw [exec_ite]
  exact ⟨fun _ => wp_post (h1.dirlink hs hdir1 h.parent.lt) fun _ s2 h2 => ⟨h2.1, fun hc => absurd hdir hc⟩,
    fun _ => wp_pure.mpr ⟨h1, fun hc => absurd hdir hc⟩⟩

end

end Fresh

/-- `create` が作った inode。空いていた inode を割り当て、リンクの数は零でない。 -/
structure Made (sb : Superblock) (s0 : Store) (type ip : Nat) (s : Store) : Prop where
  still : Still sb s s
  cached : s.Cached sb ip
  type : (s.ino sb ip).type = type
  nlink : (s.ino sb ip).nlink ≠ 0
  free : (s0.ino sb ip).type = 0
  files : s.k.files = s0.k.files
  procs : s.k.procs = s0.k.procs

/-- 親のディレクトリに最後の名前の項目がなく、inode と、項目を書く空きがある。 -/
def Creates (u : User) (sb : Superblock) (p : Nat) (path : List UInt8) (s : Store) : Prop :=
  ∃ dp name s1, exec u (nameiparent sb p path) s = .ok (some (dp, name), s1) ∧ s.entryOf sb dp name = none ∧
    (∃ i, 0 < i ∧ i < sb.ninodes ∧ (s.ino sb i).type = 0) ∧ s.DirRoom sb dp

section Create

variable {ip dp type major minor : Nat} (hw : Settled sb s0) (htype : type ≠ 0) (hsmall : type < 2 ^ 16)
  (hmajor : major < 2 ^ 16) (hminor : minor < 2 ^ 16)

include hw htype hsmall hmajor hminor in
theorem createNode_spec {s1} (h1 : Held sb s0 [dp] s1) (hl1 : Locked sb s0 dp s1) (hv : Vacant sb s0 ip dp)
    (hdir : (s0.ino sb dp).type = tDir) (hmiss : s0.entryOf sb dp name = none) (hip : ip < sb.ninodes)
    (hb : Born sb ip type s1 s) :
    wp (exec u (createNode sb dp ip name type major minor)) (fun r s' => (r = none → Still sb s0 s') ∧
      (type ≠ tDir → r = none ∧ ¬s0.DirRoom sb dp ∨ r = some ip ∧ s0.DirRoom sb dp ∧ Made sb s0 type ip s'))
      (fun _ => True) s := by
  have hne := hv.ne
  have hm : Move sb ip s0 s := ((h1.still hw.still) ip).trans hb.move
  have hdp : s.Cached sb dp := (hl1.cached_of hv.live).of_itab (hb.itab dp hne)
  rw [createNode, exec_bind]
  refine wp_post (Held.refl s).ilock ?_
  rintro _ s2 ⟨h2, hl2, hkeep⟩
  have hi2 : s2.Cached sb ip := hl2.cached_of ⟨hip, by rw [hb.ino]; exact htype⟩
  have hdp2 : s2.Cached sb dp := (hkeep dp (.of_cached hdp)).cached hdp
  have hm2 := hm.trans ((h2.still hm.still_self) ip)
  have hempty : (s2.k.itab ip).d = .empty type := by rw [hl2.d, hb.ino]
  set d : Dinode := { (s2.k.itab ip).d with major := major, minor := minor, nlink := 1 } with hd
  have hr : Retitled (s2.k.itab ip).d d := ⟨hi2.type, rfl⟩
  have hi3 : (s2.setD ip d).Cached sb ip := hi2.setD hr.type
  have hdeq : d = ⟨type, major, minor, 1, 0, fun _ => 0⟩ := by rw [hd, hempty]; rfl
  have hino : ((s2.setD ip d).iupdated sb ip).ino sb ip = d := by rw [iupdated_ino hi3, setD_ino hi2 hr]
  have hfresh : Fresh sb s0 ip dp ((s2.setD ip d).iupdated sb ip) := by
    refine ⟨hm2.trans (move_update hw.ok hi2 hr (hm2.still_self ip) ?_), fun i => ?_, Store.Cached.of_k hi3 rfl, ?_, ?_⟩
    · refine .of_live hw.ok hm2.owned hi2.live (by rw [hi2.ino_eq]) ?_ hmajor hminor ?_ ?_
      · rw [hdeq]; exact hsmall
      · rw [hdeq]; exact (by decide : 1 < 2 ^ 16)
      · rw [hdeq]; exact Nat.two_pow_pos _
    · rw [update_ref, h2.ref]
      by_cases hii : i = ip
      · subst hii
        rw [hb.ref, hw.ref_zero hip hv.free]
        simp [hne]
      · rw [hb.itab i hii, h1.ref, List.count_cons_of_ne (Ne.symm hii)]
        rfl
    · exact hdp2.of_itab (by simp [Store.iupdated, hne])
    intro _
    have hsize : (((s2.setD ip d).iupdated sb ip).ino sb ip).size = 0 := by rw [hino, hdeq]
    refine ⟨fun bn hlt => absurd hlt (by rw [hsize]; omega), by rw [hsize]; decide, by rw [hsize]; rfl,
      fun y hy => absurd hy ?_⟩
    rw [hsize]
    simp only [direntSize]
    omega
  -- 親のディレクトリと、使用中のブロックは、まだ元のままである。
  have hsame : SameFile sb dp s0 ((s2.setD ip d).iupdated sb ip) := by
    have hlive1 : sb.Live (s1.ino sb) dp := by
      rw [h1.ino_eq]
      exact hv.live
    exact (((h1.sameFile.trans (hb.file dp hlive1)).trans h2.sameFile).trans (setD_sameFile hne)).trans
      (iupdated_sameFile hw.ok hi3 (setD_owned hi2 hr hm2.owned) ((setD_live hi2 hr).mpr hdp2.live))
  have hused : ∀ c, sb.used ((s2.setD ip d).iupdated sb ip).blk c = sb.used s0.blk c := fun c => by
    rw [Superblock.used, iupdated_blk hw.ok hi3 (Superblock.Ok.le_bblock sb c), setD_blk, h2.blk, ← Superblock.used, hb.used,
      h1.blk]
  have hroom := hsame.dirRoom (hw.full dp hv.live.1 hdir) hused
  have hentry : _ = none := (hsame.entryOf (hw.full dp hv.live.1 hdir)).trans hmiss
  simp only [exec_bind, exec_inode, exec_setInode, exec_iupdate]
  refine wp_post (hfresh.createDots hw.toSound (by rw [hino, hdeq])) ?_
  rintro ok s4 ⟨h4, hdots⟩
  rw [exec_ite]
  refine ⟨fun _ => ?_, fun hno => wp_post (h4.createFail hw hv) fun _ s5 h5 =>
    ⟨fun _ => h5.2, fun htd => absurd (hdots htd).1 hno⟩⟩
  rw [exec_bind]
  refine wp_post (dirlink_linked (h4.sound hw.toSound) h4.move.still_self h4.parent) fun ok s5 h5 => ?_
  rw [exec_ite]
  refine ⟨fun hyes => ?_, fun hno => ?_⟩
  · by_cases htd : type = tDir
    · rw [exec_bind]
      refine wp_of_ok fun _ _ _ => ?_
      rw [exec_bind]
      exact wp_of_ok fun _ _ _ => wp_pure.mpr ⟨by simp, fun hc => absurd htd hc⟩
    obtain rfl := (hdots htd).2
    obtain ⟨y, hy⟩ := h5.done hyes
    obtain ⟨a, ha⟩ := hy.title
    have hdp5 : (s5.ino sb dp).nlink = (s0.ino sb dp).nlink := by rw [ha, hsame.ino]
    have hfile := h5.move.file ip hne.symm h4.cached.live
    rw [if_neg htd, exec_bind]
    refine wp_pure.mpr ?_
    rw [exec_bind]
    refine wp_post (iunlockput_still hw.toSound h5.move.still_self hv.live hdp5 ?_) ?_
    · rw [h5.ref, h4.ref]
      simp
    rintro _ s6 ⟨h6, hk6⟩
    have hip6 : s6.Cached sb ip := (h5.cached ip h4.cached).of_itab (by rw [hk6, update_of_ne hne.symm])
    have hfile6 := h6.same (h5.cached ip h4.cached).live
    refine wp_pure.mpr ⟨by simp, fun _ => .inr ⟨rfl, hroom.mp (h5.room.mp hyes).2, ?_⟩⟩
    refine ⟨(h6 ip).still_self, hip6, ?_, ?_, hv.free, ?_, ?_⟩
    · rw [hfile6.type, hfile.type, hino, hdeq]
    · rw [hfile6.nlink, hfile.nlink, hino, hdeq]
      exact Nat.one_ne_zero
    · rw [(h6 ip).files, h5.move.files, h4.move.files]
    · rw [(h6 ip).procs, h5.move.procs, h4.move.procs]
  · have h5' := h4.step (h5.failed (by simpa using hno)) h5.ref h5.cached
    refine wp_post (h5'.createFail hw hv) fun _ s6 h6 => ⟨fun _ => h6.2, fun htd => .inl ⟨h6.1, fun hc => hno ?_⟩⟩
    obtain rfl := (hdots htd).2
    exact h5.room.mpr ⟨hentry, hroom.mpr hc⟩

include hw htype hsmall hmajor hminor in
theorem create_spec (path : List UInt8) :
    wp (exec u (create sb p path type major minor)) (fun r s' => (r = none → Still sb s0 s') ∧
      (type ≠ tDir → (Creates u sb p path s0 → ∃ ip, r = some ip ∧ Made sb s0 type ip s') ∧
        (¬Creates u sb p path s0 → ∀ ip, r = some ip → Held sb s0 [ip] s' ∧ ip < sb.ninodes))) (fun _ => True) s0 := by
  rw [create, exec_bind]
  refine wp_post (wp_run ((Held.refl s0).namex hw.toSound path true)) ?_
  rintro (_ | ⟨dp, name⟩) s1 ⟨hrun, hr⟩
  · refine wp_pure.mpr ⟨fun _ => (hr.lost rfl).still hw.still, fun _ => ⟨?_, by simp⟩⟩
    rintro ⟨dp, name, t, hok, -⟩
    rw [hrun] at hok
    cases hok
  obtain ⟨h1, hdp, hdir⟩ := hr.found dp name rfl
  have hcreates : Creates u sb p path s0 ↔ s0.entryOf sb dp name = none ∧
      (∃ i, 0 < i ∧ i < sb.ninodes ∧ (s0.ino sb i).type = 0) ∧ s0.DirRoom sb dp := by
    refine ⟨?_, fun h => ⟨dp, name, s1, hrun, h⟩⟩
    rintro ⟨dp', name', t, hok, h⟩
    rw [hrun] at hok
    cases hok
    exact h
  rw [hcreates]
  have hldp : sb.Live (s0.ino sb) dp := ⟨hdp, by rw [hdir rfl]; decide⟩
  simp only [exec_bind]
  refine wp_post h1.ilock ?_
  rintro _ s2 ⟨h2, hl2, _⟩
  refine wp_post (h2.dirlookup hw.toSound hl2 hdp) ?_
  rintro (_ | ⟨off, ip⟩) s3 ⟨_, hlook⟩
  · obtain ⟨rfl, hmiss⟩ := hlook.miss rfl
    have hst3 := h2.still hw.still
    have hroot := hw.root
    have hdisk : ∀ i, i < sb.ninodes → (getDinode (s3.blk (sb.iblock i)) (dinodeOff i)).type = (s0.ino sb i).type := by
      intro i hi
      rw [(hst3 0).synced i hi, h2.ino]
      rfl
    simp only [exec_bind, ialloc]
    refine wp_post (iallocLoop_spec (Q := fun r s' => r = none ∧ s' = s3 ∧
      (¬∃ i, 0 < i ∧ i < sb.ninodes ∧ (s0.ino sb i).type = 0) ∨ ∃ ip, r = some ip ∧ 0 < ip ∧ ip < sb.ninodes ∧
      Vacant sb s0 ip dp ∧ Born sb ip type s3 s') (fun ip hpos hip hz => ?_) _ _ Nat.one_pos (by omega) fun hall => ?_) ?_
    · -- ディスクで空いている inode は、メモリでも空いていて、参照されない。
      have hfree : (s0.ino sb ip).type = 0 := by rw [← hdisk ip hip, hz]
      have hfree3 : (s3.ino sb ip).type = 0 := by rw [h2.ino, hfree]
      have hne : dp ≠ ip := fun hc => hldp.2 (by rw [hc, hfree])
      have href : (s3.k.itab ip).ref = 0 := by
        rw [h2.ref, List.count_cons_of_ne hne, hw.ref_zero hip hfree]
        rfl
      exact wp_post (blank_born hw.ok ((hst3 0).still_self) hip hfree3 href hsmall) fun _ s4 h4 =>
        .inr ⟨ip, rfl, hpos, hip, ⟨hfree, hldp⟩, h4⟩
    · refine .inl ⟨rfl, rfl, ?_⟩
      rintro ⟨i, hpos, hi, hz⟩
      exact hall i hpos (by omega) ((hdisk i hi).trans hz)
    rintro r s4 (⟨rfl, rfl, hfull⟩ | ⟨ip, rfl, hpos, hip, hv, hb⟩)
    · simp only [exec_bind]
      refine wp_post (h2.iunlockput hw.toSound hdp) fun _ s5 h5 => wp_pure.mpr ⟨fun _ => h5.1.still hw.still, fun _ => ?_⟩
      exact ⟨fun hc => absurd hc.2.1 hfull, by simp⟩
    refine wp_post (createNode_spec hw htype hsmall hmajor hminor h2 hl2 hv (hdir rfl) hmiss hip hb) ?_
    rintro r s5 ⟨hnone, hfile⟩
    refine ⟨hnone, fun htd => ?_⟩
    rcases hfile htd with ⟨rfl, hno⟩ | ⟨rfl, hyes, hmade⟩
    · exact ⟨fun hc => absurd hc.2.2 hno, by simp⟩
    · exact ⟨fun _ => ⟨ip, rfl, hmade⟩, fun hc => absurd ⟨hmiss, ⟨ip, hpos, hip, hv.free⟩, hyes⟩ hc⟩
  obtain ⟨h3, hip, hhit⟩ := hlook.hit off ip rfl
  simp only [exec_bind]
  refine wp_post ((h3.perm (.swap dp ip [])).iunlockput hw.toSound hdp) fun _ s4 h4 => ?_
  refine wp_post h4.1.ilock ?_
  rintro _ s5 ⟨h5, _, _⟩
  rw [exec_inode, exec_ite]
  refine ⟨fun _ => wp_pure.mpr ⟨by simp, fun _ => ⟨fun hc => absurd hc.1 hhit, fun _ => ?_⟩⟩, fun _ => ?_⟩
  · rintro _ ⟨⟩
    exact ⟨h5, hip⟩
  · rw [exec_bind]
    refine wp_post (h5.iunlockput hw.toSound hip) fun _ s6 h6 => wp_pure.mpr ⟨fun _ => h6.1.still hw.still, fun _ => ?_⟩
    exact ⟨fun hc => absurd hc.1 hhit, by simp⟩

end Create

end Xv6.Fs
