import Xv6.Fs.Lemmas.File

/-!
# `iupdate` と `writei`
-/

namespace Xv6.Fs

open Xv6.Lib

variable {sb : Superblock} {u : User} {E : String → Prop} {s s' s'' : Store} {i j off n : Nat}

structure SameFile (sb : Superblock) (j : Nat) (s s' : Store) : Prop where
  ino : s'.ino sb j = s.ino sb j
  slot : ∀ l, l < nslots → (s'.ino sb j).slot s'.blk l = (s.ino sb j).slot s.blk l
  data : ∀ bn o, bn < maxfile → (s.ino sb j).block s.blk bn ≠ 0 → o < bsize →
    s'.blk ((s.ino sb j).block s.blk bn) o = s.blk ((s.ino sb j).block s.blk bn) o

namespace SameFile

theorem refl : SameFile sb j s s := ⟨rfl, fun _ _ => rfl, fun _ _ _ _ _ => rfl⟩

section

variable (h : SameFile sb j s s')
include h

theorem block {bn} (hbn : bn < maxfile) :
    (s'.ino sb j).block s'.blk bn = (s.ino sb j).block s.blk bn := h.slot _ (slotOf_lt hbn)

theorem trans (h' : SameFile sb j s' s'') : SameFile sb j s s'' where
  ino := h'.ino.trans h.ino
  slot l hl := (h'.slot l hl).trans (h.slot l hl)
  data bn o hbn hne ho := by
    have h2 := h'.data bn o hbn (by rwa [h.block hbn]) ho
    rw [h.block hbn] at h2
    exact h2.trans (h.data bn o hbn hne ho)

theorem full (hf : (s.ino sb j).Full s.blk) : (s'.ino sb j).Full s'.blk := fun bn hlt => by
  rw [h.ino] at hlt
  obtain ⟨hbn, hne⟩ := hf bn hlt
  exact ⟨hbn, by rwa [h.block hbn]⟩

theorem byte {p} (hp : s.Mapped sb j p) : s'.byte sb j p = s.byte sb j p := by
  rw [Store.byte, Dinode.byte, h.block hp.1]
  exact h.data _ _ hp.1 hp.2 (Nat.mod_lt _ (by decide))

end

end SameFile

theorem Grows.sameFile {W} (h : Grows sb i W s s') (hsb : sb.Ok) (hj : sb.Live (s.ino sb) j) (hne : j ≠ i) :
    SameFile sb j s s' where
  ino := h.ino_other hsb hj.1 hne
  slot l hl := by
    rcases h.slot j l hj hl with heq | ⟨hji, -⟩
    · exact heq
    · exact absurd hji hne
  data bn o hbn hnz ho := h.data j bn o hj hbn hnz ho fun hji => absurd hji hne

structure Retitled (d d' : Dinode) : Prop where
  type : d'.type ≠ 0
  addrs : d'.addrs = d.addrs

theorem Retitled.slot {d d'} (h : Retitled d d') (blk : Nat → Block) (l : Nat) : d'.slot blk l = d.slot blk l := by
  rw [Dinode.slot, Dinode.slot, h.addrs]

section Set

variable {d : Dinode} (hi : s.Cached sb i) (hd : Retitled (s.k.itab i).d d)

include hi hd in
theorem setD_ino : (s.setD i d).ino sb i = d := by
  rw [(hi.setD hd.type).ino_eq]
  simp

include hi hd in
theorem setD_live : sb.Live ((s.setD i d).ino sb) j ↔ sb.Live (s.ino sb) j := by
  by_cases hji : j = i
  · subst hji
    exact ⟨fun _ => hi.live, fun _ => (hi.setD hd.type).live⟩
  · rw [Superblock.Live, Superblock.Live, ino_setD hji]

include hi hd in
theorem setD_slot (l : Nat) : ((s.setD i d).ino sb j).slot (s.setD i d).blk l = (s.ino sb j).slot s.blk l := by
  by_cases hji : j = i
  · subst hji
    rw [setD_ino hi hd, hi.ino_eq]
    exact hd.slot _ _
  · rw [ino_setD hji]
    rfl

include hi hd in
theorem setD_owned (ho : Owned sb s.blk (s.ino sb)) : Owned sb (s.setD i d).blk ((s.setD i d).ino sb) :=
  ho.of_slots (fun _ => setD_live hi hd) (fun _ l _ => setD_slot hi hd l) fun _ _ => rfl

theorem setD_sameFile (hne : j ≠ i) : SameFile sb j s (s.setD i d) where
  ino := ino_setD hne
  slot l _ := by
    rw [ino_setD hne]
    rfl
  data _ _ _ _ _ := rfl

end Set

def Store.iupdated (sb : Superblock) (s : Store) (i : Nat) : Store :=
  s.setBlk (sb.iblock i) (putDinode (s.blk (sb.iblock i)) (dinodeOff i) (s.k.itab i).d)

@[simp]
theorem exec_iupdate {Q} : wp (exec u (iupdate sb i)) Q E s ↔ Q () (s.iupdated sb i) := Iff.rfl

section Iupdate

variable (hsb : sb.Ok) (hi : s.Cached sb i)

theorem iupdated_disk (hji : j ≠ i) : getDinode ((s.iupdated sb i).blk (sb.iblock j)) (dinodeOff j) =
    getDinode (s.blk (sb.iblock j)) (dinodeOff j) := by
  by_cases hb : sb.iblock j = sb.iblock i
  · rw [Store.iupdated, setBlk_blk, hb, update_self]
    refine getDinode_put_of_ne fun h => hji ?_
    simp only [Superblock.iblock, ipb] at hb h
    omega
  · rw [Store.iupdated, setBlk_blk, update_of_ne hb]

include hi in
/-- `iupdate` はディスクに写すだけで、inode の見え方を変えない。 -/
theorem iupdated_ino : (s.iupdated sb i).ino sb j = s.ino sb j := by
  by_cases hji : j = i
  · subst hji
    rw [(Store.Cached.of_k hi (show (s.iupdated sb j).k = s.k from rfl)).ino_eq, hi.ino_eq]
    rfl
  · rw [Store.ino, iupdated_disk hji]
    rfl

include hsb hi in
theorem iupdated_blk {c} (hc : sb.bmapstart ≤ c) : (s.iupdated sb i).blk c = s.blk c := by
  have := hsb.iblock_lt hi.lt
  have hne : c ≠ sb.iblock i := by omega
  simp [Store.iupdated, hne]

include hsb hi in
theorem iupdated_slot (ho : Owned sb s.blk (s.ino sb)) (hj : sb.Live (s.ino sb) j) (l : Nat) :
    ((s.iupdated sb i).ino sb j).slot (s.iupdated sb i).blk l = (s.ino sb j).slot s.blk l := by
  rw [iupdated_ino hi]
  have h2 := Superblock.Ok.bmapstart_lt sb
  exact ho.slot_congr hj (fun c hc => iupdated_blk hsb hi (by omega)) l

include hsb hi in
theorem iupdated_owned (ho : Owned sb s.blk (s.ino sb)) :
    Owned sb (s.iupdated sb i).blk ((s.iupdated sb i).ino sb) := by
  refine ho.of_slots (live_congr fun j _ => by rw [iupdated_ino hi]) (fun j l hj => iupdated_slot hsb hi ho hj l) fun c _ => ?_
  rw [Superblock.used, Superblock.used, iupdated_blk hsb hi (Superblock.Ok.le_bblock sb _)]

include hsb hi in
theorem iupdated_sameFile (ho : Owned sb s.blk (s.ino sb)) (hj : sb.Live (s.ino sb) j) :
    SameFile sb j s (s.iupdated sb i) where
  ino := iupdated_ino hi
  slot l _ := iupdated_slot hsb hi ho hj l
  data bn o hbn hne _ := by
    have h1 := (ho.region j _ hj (slotOf_lt hbn) hne).1
    have h2 := Superblock.Ok.bmapstart_lt sb
    rw [Dinode.block, iupdated_blk hsb hi (by omega)]

end Iupdate

theorem update_ref (d : Dinode) (j : Nat) : (((s.setD i d).iupdated sb i).k.itab j).ref = (s.k.itab j).ref := by
  by_cases hj : j = i
  · subst hj
    simp [Store.iupdated]
  · simp [Store.iupdated, hj]

structure Wrote (sb : Superblock) (u : User) (i : Nat) (src : Src) (off n : Nat) (s : Store) (r : Nat)
    (s' : Store) : Prop where
  le : r ≤ n
  start : off ≤ (s.ino sb i).size
  fits : off + n ≤ maxfile * bsize
  owned : Owned sb s'.blk (s'.ino sb)
  itab : ∀ j, j ≠ i → s'.k.itab j = s.k.itab j
  cached : s'.Cached sb i
  umem : s'.umem = s.umem
  size : (s'.ino sb i).size = max (s.ino sb i).size (off + r)
  mapped : ∀ p, s.Mapped sb i p ∨ off ≤ p ∧ p < off + r → s'.Mapped sb i p
  new : ∀ p, off ≤ p → p < off + r → s'.byte sb i p = src.data s.umem (p - off)
  old : src.Readable u n → ∀ p, s.Mapped sb i p → p < off ∨ off + r ≤ p → s'.byte sb i p = s.byte sb i p
  others : ∀ j, sb.Live (s.ino sb) j → j ≠ i → SameFile sb j s s'
  short : r < n → src.Readable u n → sb.Packed s'.blk

namespace Wrote

variable {src : Src} {r : Nat}

theorem full (h : Wrote sb u i src off n s r s') (hf : (s.ino sb i).Full s.blk) : (s'.ino sb i).Full s'.blk := by
  intro bn hlt
  rw [h.size] at hlt
  have hm : s.Mapped sb i (bn * bsize) ∨ off ≤ bn * bsize ∧ bn * bsize < off + r := by
    by_cases hold : bn * bsize < (s.ino sb i).size
    · rw [Store.Mapped, Nat.mul_div_cancel bn (by decide)]
      exact .inl (hf bn hold)
    · have := h.start
      exact .inr (by omega)
  have := h.mapped _ hm
  rwa [Store.Mapped, Nat.mul_div_cancel bn (by decide)] at this

/-- 書いた範囲は送り元の、それ以外は元のバイトである。 -/
theorem byte (h : Wrote sb u i src off n s r s') (hf : (s.ino sb i).Full s.blk) (hsrc : src.Readable u n) {p}
    (hp : p < (s'.ino sb i).size) :
    s'.byte sb i p = if off ≤ p ∧ p < off + r then src.data s.umem (p - off) else s.byte sb i p := by
  split
  · rename_i hin
    exact h.new p hin.1 hin.2
  · rename_i hout
    rw [h.size] at hp
    have hstart := h.start
    have hle := Nat.div_mul_le_self p bsize
    exact h.old hsrc p (hf _ (by omega)) (by omega)

end Wrote

theorem setD_self : s.setD i (s.k.itab i).d = s := by simp [Store.setD, Store.setK, Kernel.setI]

theorem Retitled.byte {d p} (hsb : sb.Ok) (hi : s.Cached sb i) (ho : Owned sb s.blk (s.ino sb))
    (hr : Retitled (s.k.itab i).d d) (hp : s.Mapped sb i p) :
    ((s.setD i d).iupdated sb i).Mapped sb i p ∧ ((s.setD i d).iupdated sb i).byte sb i p = s.byte sb i p := by
  have hi2 : (s.setD i d).Cached sb i := hi.setD hr.type
  have hfile : SameFile sb i (s.setD i d) ((s.setD i d).iupdated sb i) :=
    iupdated_sameFile hsb hi2 (setD_owned hi hr ho) hi2.live
  have hmap : (s.setD i d).Mapped sb i p := ⟨hp.1, by rw [Dinode.block, setD_slot hi hr]; exact hp.2⟩
  refine ⟨⟨hp.1, by rw [hfile.block hp.1]; exact hmap.2⟩, ?_⟩
  rw [hfile.byte hmap, Store.byte, Dinode.byte, Dinode.block, setD_slot hi hr]
  rfl

theorem Written.wrote {src s1 r} (hsb : sb.Ok) (hi : s.Cached sb i)
    (hoff : off ≤ (s.ino sb i).size) (hmax : off + n ≤ maxfile * bsize) (h : Written sb u i src off 0 n s r s1) :
    Wrote sb u i src off n s r.2
      ((s1.setD i { (s1.k.itab i).d with size := max (s1.k.itab i).d.size r.1 }).iupdated sb i) := by
  have hi1 := h.grows.cached hi
  have hpos := h.pos
  set d := { (s1.k.itab i).d with size := max (s1.k.itab i).d.size r.1 } with hd
  have hr : Retitled (s1.k.itab i).d d := ⟨hi1.type, rfl⟩
  have hi2 : (s1.setD i d).Cached sb i := hi1.setD hr.type
  have ho2 := setD_owned hi1 hr h.grows.owned
  have hbyte : ∀ p, s1.Mapped sb i p → _ := fun p hp => hr.byte (p := p) hsb hi1 h.grows.owned hp
  constructor
  case le => exact h.le_n
  case start => exact hoff
  case fits => exact hmax
  case owned => exact iupdated_owned hsb hi2 ho2
  case itab =>
    intro j hj
    change (s1.setD i d).k.itab j = _
    rw [setD_itab, update_of_ne hj, h.grows.itab_other hj]
  case cached => exact hi2.of_k rfl
  case umem => exact h.grows.umem
  case size =>
    obtain ⟨a, ha⟩ := h.grows.itab_self
    rw [iupdated_ino hi2, setD_ino hi1 hr, hi.ino_eq, hd, ha]
    simp only
    congr 1
  case mapped =>
    intro p hp
    rcases hp with hp | hp
    · exact (hbyte p (h.grows.mapped hi.live hp)).1
    · exact (hbyte p (h.mapped p hp.1 (by omega))).1
  case new =>
    intro p h1 h2
    rw [(hbyte p (h.mapped p h1 (by omega))).2, h.byte p h1 (by omega), Nat.zero_add]
  case old =>
    intro hsrc p hp hout
    rw [(hbyte p (h.grows.mapped hi.live hp)).2, h.grows.byte hi.live hp fun _ hW => ?_]
    have := hW.2.2 hsrc
    omega
  case others =>
    intro j hj hne
    have h1 := h.grows.sameFile hsb hj hne
    have hj1 := (h.grows.live hsb hi j).mpr hj
    exact (h1.trans (setD_sameFile hne)).trans (iupdated_sameFile hsb hi2 ho2 ((setD_live hi1 hr).mpr hj1))
  case short =>
    intro hlt hsrc b hb
    rw [Superblock.used, iupdated_blk hsb hi2 (Superblock.Ok.le_bblock sb _)]
    exact h.short hlt hsrc b hb

theorem writei_written {src Q} (hsb : sb.Ok) (ho : Owned sb s.blk (s.ino sb))
    (hi : s.Cached sb i) (hnone : off > (s.ino sb i).size ∨ maxfile * bsize < off + n → Q none s)
    (hsome : ∀ r s1, off ≤ (s.ino sb i).size → off + n ≤ maxfile * bsize → Written sb u i src off 0 n s r s1 →
      Q (some r.2) ((s1.setD i { (s1.k.itab i).d with size := max (s1.k.itab i).d.size r.1 }).iupdated sb i)) :
    wp (exec u (writei sb i src off n)) Q E s := by
  rw [writei, exec_bind, exec_inode, ← hi.ino_eq, exec_ite]
  have hbig : maxfile * bsize < 2 ^ 32 := by decide
  refine ⟨fun h => hnone (by omega), fun hoff => ?_⟩
  rw [exec_ite]
  refine ⟨fun h => hnone (.inr h), fun hmax => ?_⟩
  rw [exec_bind]
  refine wp_post (writeiLoop_spec hsb ho hi (by omega) (Nat.zero_le _) (Nat.sub_le _ _)) fun r s1 h1 => ?_
  have hw := hsome _ _ (by omega) (by omega) h1
  obtain ⟨off', tot⟩ := r
  change wp (exec u (inode i >>= _)) Q E s1
  rw [exec_bind, exec_inode, exec_bind, exec_ite]
  refine ⟨fun hgt => ?_, fun hle => ?_⟩
  · rw [Nat.max_eq_right (by omega)] at hw
    exact hw
  · rw [Nat.max_eq_left (by omega)] at hw
    change Q _ ((s1.setD i (s1.k.itab i).d).iupdated sb i) at hw
    rw [setD_self] at hw
    exact hw

theorem writei_spec {src Q} (hsb : sb.Ok) (ho : Owned sb s.blk (s.ino sb))
    (hi : s.Cached sb i) (hnone : off > (s.ino sb i).size ∨ maxfile * bsize < off + n → Q none s)
    (hsome : ∀ r s', Wrote sb u i src off n s r s' → Q (some r) s') : wp (exec u (writei sb i src off n)) Q E s :=
  writei_written hsb ho hi hnone fun _ _ hoff hmax h => hsome _ _ (h.wrote hsb hi hoff hmax)

end Xv6.Fs
