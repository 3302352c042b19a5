import Xv6.Fs.Lemmas.Bmap

/-!
# `readi` と `writei`
-/

namespace Xv6.Fs

open Xv6.Lib

variable {sb : Superblock} {u : User} {E : String → Prop} {s s' : Store} {i j off tot n : Nat} {W : Nat → Prop}

def Store.Mapped (sb : Superblock) (s : Store) (i p : Nat) : Prop :=
  p / bsize < maxfile ∧ (s.ino sb i).block s.blk (p / bsize) ≠ 0

def Store.byte (sb : Superblock) (s : Store) (i p : Nat) : UInt8 := (s.ino sb i).byte s.blk p

def chunk (off n : Nat) : Nat := min n (bsize - off % bsize)

theorem chunk_le : chunk off n ≤ n := Nat.min_le_left _ _

theorem chunk_pos (h : 0 < n) : 0 < chunk off n := by
  have : off % bsize < bsize := Nat.mod_lt _ (by decide)
  unfold chunk
  omega

theorem chunk_div (off n : Nat) {x} (h : x < chunk off n) : (off + x) / bsize = off / bsize ∧
    (off + x) % bsize = off % bsize + x := by
  unfold chunk bsize at *
  omega

theorem chunk_mem (off n o : Nat) (hin : off % bsize ≤ o ∧ o < off % bsize + chunk off n) :
    off ≤ off / bsize * bsize + o ∧ off / bsize * bsize + o < off + chunk off n := by
  unfold chunk bsize at *
  omega

theorem Grows.mapped (h : Grows sb i W s s') (hj : sb.Live (s.ino sb) j) {p} (hp : s.Mapped sb j p) :
    s'.Mapped sb j p := by
  refine ⟨hp.1, ?_⟩
  rw [Dinode.block, h.slot_kept hj (slotOf_lt hp.1) hp.2]
  exact hp.2

/-- 書く範囲 `W` の外のバイトは、どのファイルでも変わらない。 -/
theorem Grows.byte (h : Grows sb i W s s') (hj : sb.Live (s.ino sb) j) {p} (hp : s.Mapped sb j p)
    (hW : j = i → ¬W p) : s'.byte sb j p = s.byte sb j p := by
  have hpos : p / bsize * bsize + p % bsize = p := by
    rw [Nat.mul_comm]
    exact Nat.div_add_mod p bsize
  have hdata := h.data j (p / bsize) (p % bsize) hj hp.1 hp.2 (Nat.mod_lt _ (by decide)) (by rwa [hpos])
  unfold Store.byte Dinode.byte
  rw [Dinode.block, h.slot_kept hj (slotOf_lt hp.1) hp.2]
  exact hdata

theorem Grows.mono {W'} (h : Grows sb i W s s') (hW : ∀ p, W p → W' p) : Grows sb i W' s s' :=
  { h with data := fun j bn o hj hbn hne ho hn => h.data j bn o hj hbn hne ho fun hji hw => hn hji (hW _ hw) }

section Read

variable {Q : Option Nat × Bytes → Store → Prop} {user : Bool} {dst : Nat}

def User.Writable (u : User) (user : Bool) (dst n : Nat) : Prop := user = true → ∀ x m, x + m ≤ n → u.ok (dst + x) m = true

def Store.deliver (s : Store) (user : Bool) (dst : Nat) (d : Bytes) (o n : Nat) : Store :=
  if user then { s with umem := blit s.umem dst d o n } else s

@[simp] theorem deliver_blk {d : Bytes} {o : Nat} : (s.deliver user dst d o n).blk = s.blk := by
  unfold Store.deliver
  split <;> rfl

@[simp] theorem deliver_k {d : Bytes} {o : Nat} : (s.deliver user dst d o n).k = s.k := by
  unfold Store.deliver
  split <;> rfl

theorem ino_deliver {d o} : (s.deliver user dst d o n).ino sb = s.ino sb := by
  funext j
  simp [Store.ino]

/-- 二度に分けて届けても、一度に届けたのと同じである。 -/
theorem deliver_append {d d' o o' m} (hm : m ≤ n) (h : ∀ x, x < m → d' (o' + x) = d (o + x)) :
    (s.deliver user dst d' o' m).deliver user (dst + m) d (o + m) (n - m) = s.deliver user dst d o n := by
  cases user with
  | false => rfl
  | true => simp [Store.deliver, blit_append hm h]

theorem deliver_zero {d o} : s.deliver user dst d o 0 = s := by
  cases user <;> simp [Store.deliver]

theorem copyout_spec {d o m Q} (hok : u.Writable user dst m)
    (hQ : Q true (s.deliver user dst d o m)) : wp (exec u (if user then copyout dst d o m else pure true)) Q E s := by
  cases user with
  | false => exact hQ
  | true =>
    have h := hok rfl 0 m (by omega)
    rw [Nat.add_zero] at h
    change Q (u.ok dst m) { s with umem := blit s.umem dst d o (if u.ok dst m then m else min m (u.moved dst m)) }
    rw [h]
    exact hQ

theorem readiLoop_spec {acc fuel} (hsb : sb.Ok) (ho : Owned sb s.blk (s.ino sb)) (hi : s.Cached sb i)
    (hmapped : ∀ p, off ≤ p → p < off + (n - tot) → s.Mapped sb i p) (htot : tot ≤ n) (hfuel : n - tot ≤ fuel)
    (hok : u.Writable user dst (n - tot))
    (hQ : Q (some n, blit acc tot (s.byte sb i) off (n - tot)) (s.deliver user dst (s.byte sb i) off (n - tot))) :
    wp (exec u (readiLoop sb i user dst off tot n acc fuel)) Q E s := by
  induction fuel generalizing s dst off tot acc with
  | zero =>
    obtain rfl : tot = n := by omega
    rw [Nat.sub_self, blit_zero, deliver_zero] at hQ
    exact hQ
  | succ fuel ih =>
    rw [readiLoop, exec_ite]
    refine ⟨fun hlt => ?_, fun hge => ?_⟩
    · have hm := hmapped off le_rfl (by omega)
      rw [exec_bind]
      refine wp_post (bmap_spec (W := fun _ => False) hsb ho hi hm.1) fun addr s1 h1 => ?_
      obtain ⟨rfl, rfl⟩ := h1.old hm.2
      have hne : (s1.ino sb i).slot s1.blk (slotOf (off / bsize)) ≠ 0 := hm.2
      rw [if_neg hne, exec_bind, exec_bread]
      -- 一回り分を写して、残りに帰納法の仮定を使う。
      change wp (exec u (_ >>= _)) Q E s1
      rw [exec_bind]
      change wp (exec u (if user = true then copyout dst _ _ (chunk off (n - tot)) else pure true)) _ E s1
      set m := chunk off (n - tot) with hmdef
      have hmle : m ≤ n - tot := chunk_le
      have hmpos : 0 < m := chunk_pos (by omega)
      have hbytes : ∀ x, x < m →
          s1.blk ((s1.ino sb i).slot s1.blk (slotOf (off / bsize))) (off % bsize + x) = s1.byte sb i (off + x) := by
        intro x hx
        obtain ⟨hdiv, hmod⟩ := chunk_div _ _ (hmdef ▸ hx)
        rw [Store.byte, Dinode.byte, hdiv, hmod, Dinode.block]
      have hsub : n - (tot + m) = n - tot - m := by omega
      refine copyout_spec (fun hu x y hxy => hok hu x y (by omega)) ?_
      rw [exec_bind, exec_brelse]
      change wp (exec u (readiLoop sb i user (dst + m) (off + m) (tot + m) n (blit acc tot _ _ m) fuel)) Q E _
      have hbyte : (s1.deliver user dst (s1.blk ((s1.ino sb i).slot s1.blk (slotOf (off / bsize)))) (off % bsize) m).byte
          sb i = s1.byte sb i := by
        funext p
        rw [Store.byte, ino_deliver, deliver_blk]
        rfl
      refine ih ?_ (hi.of_k (by simp)) (fun p h1 h2 => ?_) (by omega) (by omega) (fun hu x y hxy => ?_) ?_
      · rw [ino_deliver, deliver_blk]
        exact ho
      · have := hmapped p (by omega) (by omega)
        rw [Store.Mapped, ino_deliver, deliver_blk]
        exact this
      · rw [Nat.add_assoc]
        exact hok hu (m + x) y (by omega)
      · rw [hbyte, hsub, blit_append hmle hbytes, deliver_append hmle hbytes]
        exact hQ
    · obtain rfl : tot = n := by omega
      rw [Nat.sub_self, blit_zero, deliver_zero] at hQ
      exact hQ

def readLen (size off n : Nat) : Nat := if off > size ∨ 2 ^ 32 ≤ off + n then 0 else min n (size - off)

theorem readi_mapped (hsb : sb.Ok) (ho : Owned sb s.blk (s.ino sb)) (hi : s.Cached sb i)
    (hmapped : ∀ p, off ≤ p → p < off + readLen (s.ino sb i).size off n → s.Mapped sb i p)
    (hok : u.Writable user dst (readLen (s.ino sb i).size off n))
    (hQ : Q (some (readLen (s.ino sb i).size off n),
        blit (fun _ => 0) 0 (s.byte sb i) off (readLen (s.ino sb i).size off n))
      (s.deliver user dst (s.byte sb i) off (readLen (s.ino sb i).size off n))) :
    wp (exec u (readi sb i user dst off n)) Q E s := by
  rw [readi, exec_bind, exec_inode, ← hi.ino_eq]
  unfold readLen at *
  split
  · rename_i h
    rw [if_pos h, blit_zero, deliver_zero] at hQ
    exact hQ
  rename_i h
  have hlen : (if off + n > (s.ino sb i).size then (s.ino sb i).size - off else n) = min n ((s.ino sb i).size - off) := by
    split <;> omega
  rw [if_neg h] at hok hQ hmapped
  rw [hlen]
  exact readiLoop_spec hsb ho hi (by simpa using hmapped) (Nat.zero_le _) (by omega) (by simpa using hok) (by simpa using hQ)

theorem readLen_le (size off n : Nat) : off + readLen size off n ≤ max off size := by
  unfold readLen
  split <;> omega

theorem readi_spec (hsb : sb.Ok) (ho : Owned sb s.blk (s.ino sb)) (hi : s.Cached sb i)
    (hfull : (s.ino sb i).Full s.blk) (hok : u.Writable user dst (readLen (s.ino sb i).size off n))
    (hQ : Q (some (readLen (s.ino sb i).size off n),
        blit (fun _ => 0) 0 (s.byte sb i) off (readLen (s.ino sb i).size off n))
      (s.deliver user dst (s.byte sb i) off (readLen (s.ino sb i).size off n))) :
    wp (exec u (readi sb i user dst off n)) Q E s := by
  refine readi_mapped hsb ho hi (fun p h1 h2 => ?_) hok hQ
  have hle := readLen_le (s.ino sb i).size off n
  have := Nat.div_mul_le_self p bsize
  exact hfull (p / bsize) (by omega)

end Read

def Src.data (umem : Bytes) : Src → Bytes
  | .kernel d => d
  | .user a => fun x => umem (a + x)

def Src.Readable (u : User) (n : Nat) : Src → Prop
  | .kernel _ => True
  | .user a => ∀ x m, x + m ≤ n → u.ok (a + x) m = true

theorem copy_spec {src : Src} {b o m : Nat} {Q : Bool → Store → Prop} (htot : tot + m ≤ n)
    (hdone : Q true (s.setBlk b (blit (s.blk b) o (src.data s.umem) tot m)))
    (hfail : ∀ x, ¬src.Readable u n → (∀ y, y < o ∨ o + m ≤ y → x y = s.blk b y) → Q false (s.setBlk b x)) :
    wp (exec u (src.copy b (s.blk b) o tot m)) Q E s := by
  cases src with
  | kernel d => exact hdone
  | user a =>
    change wp (exec u (copyin b o (a + tot) m >>= _)) Q E s
    rw [exec_bind]
    change wp (exec u (if u.ok (a + tot) m = true then _ else _)) Q E _
    cases hok : u.ok (a + tot) m with
    | true =>
      have hdata : blit (s.blk b) o s.umem (a + tot) m = blit (s.blk b) o ((Src.user a).data s.umem) tot m := by
        funext y
        simp only [blit, Src.data, Nat.add_assoc]
      rw [← hdata] at hdone
      simpa [hok] using hdone
    | false =>
      refine hfail _ (fun h => ?_) fun y hy => ?_
      · rw [h tot m htot] at hok
        cases hok
      · exact blit_out (by simp only [Bool.false_eq_true, if_false]; omega)

theorem Grows.write {bn x} (hsb : sb.Ok) (ho : Owned sb s.blk (s.ino sb)) (hi : s.Cached sb i)
    (hbn : bn < maxfile) (hne : (s.ino sb i).block s.blk bn ≠ 0)
    (hx : ∀ o, o < bsize → ¬W (bn * bsize + o) → x o = s.blk ((s.ino sb i).block s.blk bn) o) :
    Grows sb i W s (s.setBlk ((s.ino sb i).block s.blk bn) x) := by
  set b := (s.ino sb i).block s.blk bn with hb
  obtain ⟨hdata, hsize⟩ := ho.region i _ hi.live (slotOf_lt hbn) hne
  change sb.datastart ≤ b at hdata
  have hstart := Superblock.Ok.bmapstart_lt sb
  have hlow : ∀ c, c < sb.datastart → (s.setBlk b x).blk c = s.blk c := fun c hc => by
    have : c ≠ b := by omega
    simp [this]
  have hino : ∀ j, j < sb.ninodes → (s.setBlk b x).ino sb j = s.ino sb j := fun j hj =>
    ino_low hsb (fun c hc => hlow c (by omega)) hj rfl
  have hused : ∀ c, c < sb.size → sb.used (s.setBlk b x).blk c = sb.used s.blk c := fun c hc => by
    rw [Superblock.used, Superblock.used, hlow _ (Superblock.Ok.bblock_lt hc)]
  -- データのブロックは間接ブロックではないので、欄は変わらない。
  have hslot : ∀ j l, sb.Live (s.ino sb) j → ((s.setBlk b x).ino sb j).slot (s.setBlk b x).blk l =
      (s.ino sb j).slot s.blk l := by
    intro j l hj
    rw [hino j hj.1]
    refine Dinode.slot_congr (fun hind => ?_) l
    have hdiff : (s.ino sb j).addrs ndirect ≠ b := fun h => by
      have hu := ho.unique j ndirect i (slotOf bn) hj hi.live ndirect_lt_nslots (slotOf_lt hbn)
      rw [Dinode.slot_addr le_rfl] at hu
      exact slotOf_ne bn (hu hind h).2.symm
    simp [hdiff]
  have hlive : ∀ j, sb.Live ((s.setBlk b x).ino sb) j ↔ sb.Live (s.ino sb) j := live_congr fun j hj => by rw [hino j hj]
  constructor
  case owned => exact ho.of_slots hlive hslot hused
  case umem => rfl
  case addrs => exact ⟨(s.k.itab i).d.addrs, by simp [Store.setD, Store.setK, Kernel.setI]⟩
  case low => exact fun c hc => hlow c (by omega)
  case slot => exact fun j l hj _ => .inl (hslot j l hj)
  case data =>
    intro j bm o hj hbm hjb ho' hW
    by_cases heq : (s.ino sb j).block s.blk bm = b
    · obtain ⟨rfl, hbm'⟩ := ho.unique j (slotOf bm) i (slotOf bn) hj hi.live (slotOf_lt hbm) (slotOf_lt hbn) hjb heq
      obtain rfl := slotOf_inj hbm'
      rw [heq]
      simpa using hx o ho' (hW rfl)
    · simp [heq]
  case fresh => exact fun c hc h => .inl (by rwa [hused c hc] at h)
  case keep => exact fun c hc h => by rwa [hused c hc]

structure Written (sb : Superblock) (u : User) (i : Nat) (src : Src) (off tot n : Nat) (s : Store) (r : Nat × Nat)
    (s' : Store) : Prop where
  grows : Grows sb i (fun p => off ≤ p ∧ p < off + (n - tot) ∧ (src.Readable u n → p < r.1)) s s'
  le : tot ≤ r.2
  le_n : r.2 ≤ n
  pos : r.1 = off + (r.2 - tot)
  mapped : ∀ p, off ≤ p → p < r.1 → s'.Mapped sb i p
  byte : ∀ p, off ≤ p → p < r.1 → s'.byte sb i p = src.data s.umem (tot + (p - off))
  short : r.2 < n → src.Readable u n → sb.Packed s'.blk

theorem Written.stop {src} (h : Grows sb i (fun p => off ≤ p ∧ p < off + (n - tot) ∧ (src.Readable u n →
    p < off)) s s')
    (htot : tot ≤ n) (hshort : tot < n → src.Readable u n → sb.Packed s'.blk) :
    Written sb u i src off tot n s (off, tot) s' where
  grows := h
  le := le_rfl
  le_n := htot
  pos := by simp
  mapped p h1 h2 := absurd h2 (by simpa using h1)
  byte p h1 h2 := absurd h2 (by simpa using h1)
  short := hshort

def Store.copied (sb : Superblock) (s : Store) (i : Nat) (d : Bytes) (off tot m : Nat) : Store :=
  s.setBlk ((s.ino sb i).block s.blk (off / bsize))
    (blit (s.blk ((s.ino sb i).block s.blk (off / bsize))) (off % bsize) d tot m)

section Copied

variable {d : Bytes} (hsb : sb.Ok) (ho : Owned sb s.blk (s.ino sb)) (hi : s.Cached sb i) (hm : s.Mapped sb i off)

include hsb ho hi hm in
theorem copied_grows (hW : ∀ p, off ≤ p → p < off + chunk off n → W p) :
    Grows sb i W s (s.copied sb i d off tot (chunk off n)) := by
  refine .write hsb ho hi hm.1 hm.2 fun o _ hno => blit_out ?_
  by_contra hin
  obtain ⟨h1, h2⟩ := chunk_mem off n o (by omega)
  exact hno (hW _ h1 h2)

include hsb ho hi hm in
theorem copied_byte (tot : Nat) {p} (h1 : off ≤ p) (h2 : p < off + chunk off n) :
    (s.copied sb i d off tot (chunk off n)).Mapped sb i p ∧
      (s.copied sb i d off tot (chunk off n)).byte sb i p = d (tot + (p - off)) := by
  have hg : Grows sb i (fun _ => True) s (s.copied sb i d off tot
      (chunk off n)) := copied_grows hsb ho hi hm fun _ _ _ => trivial
  obtain ⟨hdiv, hmod⟩ := chunk_div off n (x := p - off) (by omega)
  rw [Nat.add_sub_cancel' h1] at hdiv hmod
  have hmp : s.Mapped sb i p := by rwa [Store.Mapped, hdiv]
  refine ⟨hg.mapped hi.live hmp, ?_⟩
  rw [Store.byte, Dinode.byte, Dinode.block, hg.slot_kept hi.live (slotOf_lt hmp.1) hmp.2, hdiv]
  change update s.blk _ _ _ _ = _
  rw [← Dinode.block, update_self, blit_in (by omega) (by omega), hmod, Nat.add_sub_cancel_left]

end Copied

/-- 一つのブロックに書いてから、残りを書く。 -/
theorem Written.next {src s1 s3 r} (hsb : sb.Ok) (hi : s.Cached sb i) (hlt : tot < n)
    (h1 : Grows sb i (fun _ => False) s s1) (hm : s1.Mapped sb i off)
    (h3 : Written sb u i src (off + chunk off (n - tot)) (tot + chunk off (n - tot)) n
      (s1.copied sb i (src.data s.umem) off tot (chunk off (n - tot))) r s3) : Written sb u i src off tot n s r s3 := by
  have hi1 := h1.cached hi
  have hmle : chunk off (n - tot) ≤ n - tot := chunk_le
  have hle := h3.le
  have hpos := h3.pos
  have hg : Grows sb i (fun p => off ≤ p ∧ p < off + (n - tot) ∧ (src.Readable u n → p < r.1)) s1
      (s1.copied sb i (src.data s.umem) off tot (chunk off (n - tot))) :=
    copied_grows hsb h1.owned hi1 hm fun p hp1 hp2 => ⟨hp1, by omega, fun _ => by omega⟩
  have hlive : sb.Live ((s1.copied sb i (src.data s.umem) off tot (chunk off (n - tot))).ino sb) i := (hg.cached hi1).live
  constructor
  case grows =>
    refine (h1.mono fun _ => False.elim).trans hsb hi (hg.trans hsb hi1 (h3.grows.mono fun p hp => ?_))
    exact ⟨by omega, by omega, hp.2.2⟩
  case le => omega
  case le_n => exact h3.le_n
  case pos => omega
  case mapped =>
    intro p hp1 hp2
    by_cases hp : p < off + chunk off (n - tot)
    · exact h3.grows.mapped hlive (copied_byte hsb h1.owned hi1 hm tot hp1 hp).1
    · exact h3.mapped p (by omega) hp2
  case byte =>
    intro p hp1 hp2
    by_cases hp : p < off + chunk off (n - tot)
    · obtain ⟨hmp, hbyte⟩ := copied_byte (d := src.data s.umem) hsb h1.owned hi1 hm tot hp1 hp
      rw [h3.grows.byte hlive hmp fun _ hW => by omega, hbyte]
    · rw [h3.byte p (by omega) hp2]
      change src.data s1.umem _ = _
      rw [h1.umem]
      congr 1
      omega
  case short => exact h3.short

theorem writeiLoop_spec {src : Src} {fuel : Nat} (hsb : sb.Ok) (ho : Owned sb s.blk (s.ino sb)) (hi : s.Cached sb i)
    (hmax : off + (n - tot) ≤ maxfile * bsize) (htot : tot ≤ n) (hfuel : n - tot ≤ fuel) :
    wp (exec u (writeiLoop sb i src off tot n fuel)) (Written sb u i src off tot n s) E s := by
  induction fuel generalizing s off tot with
  | zero => exact .stop (.refl ho) htot fun hlt => absurd hlt (by omega)
  | succ fuel ih =>
    rw [writeiLoop, exec_ite]
    refine ⟨fun hlt => ?_, fun hge => .stop (.refl ho) htot fun hlt => absurd hlt hge⟩
    have hbn : off / bsize < maxfile := Nat.div_lt_of_lt_mul (by rw [Nat.mul_comm]; omega)
    have hmle : chunk off (n - tot) ≤ n - tot := chunk_le
    have hmpos : 0 < chunk off (n - tot) := chunk_pos (by omega)
    rw [exec_bind]
    refine wp_post (bmap_spec (W := fun _ => False) hsb ho hi hbn) fun addr s1 h1 => ?_
    rw [exec_ite]
    refine ⟨fun hz => .stop (h1.grows.mono fun _ => False.elim) htot fun _ _ => h1.full hz, fun hne => ?_⟩
    obtain rfl := h1.slot hne
    have ho1 := h1.grows.owned
    have hi1 := h1.grows.cached hi
    have hm : s1.Mapped sb i off := ⟨hbn, hne⟩
    rw [exec_bind, exec_bread]
    change wp (exec u (src.copy _ _ (off % bsize) tot (chunk off (n - tot)) >>= _)) _ E s1
    rw [exec_bind]
    refine copy_spec (n := n) (by omega) ?_ fun x hnot hx => ?_
    · have hg : Grows sb i (fun _ => True) s1 (s1.copied sb i (src.data s1.umem) off tot (chunk off (n - tot))) :=
        copied_grows hsb ho1 hi1 hm fun _ _ _ => trivial
      change wp (exec u (writeiLoop sb i src (off + chunk off (n - tot)) (tot + chunk off (n - tot)) n fuel)) _ E
        (s1.copied sb i (src.data s1.umem) off tot (chunk off (n - tot)))
      refine wp_post (ih hg.owned (hg.cached hi1) (by omega) (by omega) (by omega)) fun r s3 h3 => ?_
      rw [h1.grows.umem] at h3
      exact .next hsb hi hlt h1.grows hm h3
    -- 写せなければ、一回り分の範囲の中だけが変わりうる。
    refine .stop ((h1.grows.mono fun _ => False.elim).trans hsb hi ?_) htot fun _ h => absurd h hnot
    refine .write hsb ho1 hi1 hbn hne fun o ho' hno => hx o ?_
    by_contra hin
    obtain ⟨h2, h3⟩ := chunk_mem off (n - tot) o (by omega)
    exact hno ⟨h2, by omega, fun h => absurd h hnot⟩

end Xv6.Fs
