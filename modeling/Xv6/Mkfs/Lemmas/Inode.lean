import Xv6.Mkfs.Lemmas.Append

/-!
# inode とファイル
-/

namespace Xv6.Mkfs

open Xv6.Lib
open Xv6.Fs

variable {img img' : Img} {d din din' : Dinode} {i j n type : Nat} {l : List UInt8}

/-- ブロックの持ち方が正しく、まだ渡していないブロックは零である。 -/
structure Sane (img : Img) : Prop where
  owned : Owned sb img.vblk (img.disk.ino sb)
  low : nmeta ≤ img.freeblock
  high : img.freeblock ≤ fssize
  zero : ∀ b, img.freeblock ≤ b → img.blk b = fun _ => 0
  given : ∀ b, b ∈ img.given ↔ nmeta ≤ b ∧ b < img.freeblock
  super : img.blk 1 = sbBlock

structure Holds (img : Img) (i type : Nat) (l : List UInt8) : Prop where
  lt : i < ninodes
  live : type ≠ 0
  type : (img.disk.ino sb i).type = type
  nlink : (img.disk.ino sb i).nlink = 1
  size : (img.disk.ino sb i).size = l.length
  le : l.length ≤ maxfile * bsize
  exact : Exact (img.disk.ino sb i) img.vblk l.length
  byte : ∀ p, p < l.length → img.disk.byte sb i p = l.getD p 0

theorem Exact.full {blk} (h : Exact d blk n) (hn : n ≤ maxfile * bsize) {bn} (hbn : bn * bsize < n) :
    bn < maxfile ∧ d.block blk bn ≠ 0 := by
  have hlt : bn < maxfile := Nat.lt_of_mul_lt_mul_right (Nat.lt_of_lt_of_le hbn hn)
  exact ⟨hlt, (h _ (slotOf_lt hlt)).mpr (by rwa [start_slotOf])⟩

namespace Holds

theorem full (h : Holds img i type l) : (img.disk.ino sb i).Full img.vblk := fun _ hbn => h.exact.full h.le (h.size ▸ hbn)

theorem isLive (h : Holds img i type l) : sb.Live (img.disk.ino sb) i := ⟨h.lt, by rw [h.type]; exact h.live⟩

theorem same (h : Holds img i type l) (hs : SameFile sb i img.disk img'.disk) : Holds img' i type l where
  __ := h
  type := by rw [hs.ino, h.type]
  nlink := by rw [hs.ino, h.nlink]
  size := by rw [hs.ino, h.size]
  exact k hk := by
    have := hs.slot k hk
    rw [show (img'.disk.ino sb i).slot img'.vblk k = (img.disk.ino sb i).slot img.vblk k from this]
    exact h.exact k hk
  byte p hp := by
    have hle := Nat.div_mul_le_self p bsize
    rw [hs.byte (h.exact.full h.le (by omega)), h.byte p hp]

end Holds

theorem rinode_eq (hi : i < ninodes) : img.rinode i = some (img.disk.ino sb i) := by
  have hlt : sb.iblock i < fssize := Nat.lt_trans (iblock_lt_nmeta hi) (by decide)
  simp only [Img.rinode, rsect_of_lt hlt, Option.bind_eq_bind, Option.bind_some, disk_ino, vblk_of_ne (iblock_ne hi)]
  rfl

def Img.setIno (img : Img) (i : Nat) (d : Dinode) : Img :=
  img.wsect (sb.iblock i) (putDinode (img.blk (sb.iblock i)) (dinodeOff i) d)

section

variable (hi : i < ninodes)
include hi

theorem winode_eq : img.winode i d = some (img.setIno i d) := by
  have hlt : sb.iblock i < fssize := Nat.lt_trans (iblock_lt_nmeta hi) (by decide)
  simp only [Img.winode, rsect_of_lt hlt, Option.bind_eq_bind, Option.bind_some]
  rfl

theorem vblk_setIno {c} (hc : c ≠ sb.iblock i) : (img.setIno i d).vblk c = img.vblk c := by
  rw [Img.setIno, vblk_wsect (iblock_ne hi), update_of_ne hc]

theorem setIno_self (hd : Storable d) : (img.setIno i d).disk.ino sb i = d := by
  rw [disk_ino, Img.setIno, vblk_wsect (iblock_ne hi), update_self, getDinode_put_self hd]

theorem setIno_other (hne : j ≠ i) : (img.setIno i d).disk.ino sb j = img.disk.ino sb j := by
  rw [disk_ino, disk_ino]
  by_cases hb : sb.iblock j = sb.iblock i
  · rw [hb, Img.setIno, vblk_wsect (iblock_ne hi), update_self, ← vblk_of_ne (iblock_ne hi)]
    refine getDinode_put_of_ne fun h => hne ?_
    simp only [Superblock.iblock, ipb] at *
    omega
  · rw [vblk_setIno hi hb]

theorem used_setIno {c} : sb.used (img.setIno i d).vblk c = sb.used img.vblk c := by
  have h1 := Superblock.Ok.le_bblock sb c
  have h2 := sb_ok.iblock_lt hi
  rw [Superblock.used, Superblock.used, vblk_setIno hi (by omega)]

end

theorem Sane.slot_setIno (h : Sane img) (hi : i < ninodes) (hj : sb.Live (img.disk.ino sb) j) (k : Nat) :
    (img.disk.ino sb j).slot (img.setIno i d).vblk k = (img.disk.ino sb j).slot img.vblk k := by
  refine Dinode.slot_congr (fun hne => vblk_setIno hi ?_) k
  have hr := h.owned.region j ndirect hj ndirect_lt_nslots
  rw [Dinode.slot_addr le_rfl] at hr
  have h1 := (hr hne).1
  have h2 := iblock_lt_nmeta hi
  rw [datastart_eq] at h1
  omega

theorem Sane.setIno_sameFile (h : Sane img) (hi : i < ninodes) (hj : sb.Live (img.disk.ino sb) j) (hne : j ≠ i) :
    SameFile sb j img.disk (img.setIno i d).disk where
  ino := setIno_other hi hne
  slot k _ := by
    rw [setIno_other hi hne]
    exact h.slot_setIno hi hj k
  data bn o hbn hnz _ := by
    have h1 := (h.owned.region j _ hj (slotOf_lt hbn) hnz).1
    have h2 := iblock_lt_nmeta hi
    have hne : (img.disk.ino sb j).block img.vblk bn ≠ sb.iblock i := Nat.ne_of_gt (Nat.lt_of_lt_of_le h2 h1)
    exact congrFun (vblk_setIno hi hne) o

theorem setIno_blk_one : (img.setIno i d).blk 1 = img.blk 1 := by
  have hne : 1 ≠ sb.iblock i := by
    have : 32 ≤ sb.iblock i := Nat.le_add_left _ _
    omega
  simp [Img.setIno, Img.wsect, hne]

theorem setIno_blk_data (hi : i < ninodes) {b} (hb : nmeta ≤ b) : (img.setIno i d).blk b = img.blk b := by
  have := iblock_lt_nmeta hi
  exact update_of_ne (by omega) _ _

theorem Sane.setIno (h : Sane img) (hi : i < ninodes)
    (ho : Owned sb (img.setIno i d).vblk ((img.setIno i d).disk.ino sb)) : Sane (img.setIno i d) where
  __ := h
  owned := ho
  zero b hb := by
    have hb : img.freeblock ≤ b := hb
    have hlow := h.low
    rw [setIno_blk_data hi (by omega), h.zero b hb]
  super := by rw [setIno_blk_one, h.super]

section Retitle

variable (h : Sane img) (hi : sb.Live (img.disk.ino sb) i) (hd : Storable d) (hr : Retitled (img.disk.ino sb i) d)

include h hi hd hr in
theorem retitle_slot (hj : sb.Live (img.disk.ino sb) j) (k : Nat) :
    ((img.setIno i d).disk.ino sb j).slot (img.setIno i d).vblk k = (img.disk.ino sb j).slot img.vblk k := by
  rw [← h.slot_setIno (d := d) hi.1 hj k]
  by_cases hji : j = i
  · subst hji
    rw [setIno_self hi.1 hd]
    exact hr.slot _ _
  · rw [setIno_other hi.1 hji]

include h hi hd hr in
theorem retitle_sane (ht : d.type = (img.disk.ino sb i).type) : Sane (img.setIno i d) := by
  refine h.setIno hi.1 (h.owned.of_slots (live_congr fun j _ => ?_) (fun j k hj => retitle_slot h hi hd hr hj k)
    fun _ _ => used_setIno hi.1)
  by_cases hji : j = i
  · rw [hji, setIno_self hi.1 hd, ht]
  · rw [setIno_other hi.1 hji]

include h hi hd hr in
theorem retitle_byte {p} (hp : img.disk.Mapped sb i p) :
    (img.setIno i d).disk.Mapped sb i p ∧ (img.setIno i d).disk.byte sb i p = img.disk.byte sb i p := by
  have hs := retitle_slot h hi hd hr hi (slotOf (p / bsize))
  have hlow := Nat.lt_of_lt_of_le (iblock_lt_nmeta hi.1) (h.owned.region i _ hi (slotOf_lt hp.1) hp.2).1
  refine ⟨⟨hp.1, ?_⟩, ?_⟩
  · change ((img.setIno i d).disk.ino sb i).slot (img.setIno i d).vblk _ ≠ 0
    rw [hs]
    exact hp.2
  · change (img.setIno i d).vblk (((img.setIno i d).disk.ino sb i).slot (img.setIno i d).vblk _) _ = _
    rw [hs, vblk_setIno hi.1 (Nat.ne_of_gt hlow)]
    rfl

end Retitle

/-- まだ何も指さない inode を書いても、像は健全なままである。 -/
theorem Sane.birth (h : Sane img) (hi : i < ninodes) (hd : Storable d) (hz : ∀ k, d.addrs k = 0) :
    Sane (img.setIno i d) := by
  have hslot : ∀ blk k, d.slot blk k = 0 := fun blk k => by
    unfold Dinode.slot
    split
    · exact hz k
    · rw [if_pos (hz _)]
  -- 欄のある inode は、元から生きていた別の inode である。
  have hold : ∀ j k, sb.Live ((img.setIno i d).disk.ino sb) j →
      ((img.setIno i d).disk.ino sb j).slot (img.setIno i d).vblk k ≠ 0 →
      sb.Live (img.disk.ino sb) j ∧
        ((img.setIno i d).disk.ino sb j).slot (img.setIno i d).vblk k = (img.disk.ino sb j).slot img.vblk k := by
    intro j k hj hne
    by_cases hji : j = i
    · subst hji
      rw [setIno_self hi hd, hslot] at hne
      exact absurd rfl hne
    · have hj' : sb.Live (img.disk.ino sb) j := ⟨hj.1, by have := hj.2; rwa [setIno_other hi hji] at this⟩
      refine ⟨hj', ?_⟩
      rw [setIno_other hi hji, h.slot_setIno hi hj' k]
  refine h.setIno hi ⟨fun j k hj hk hne => ?_, fun j k hj hk hne => ?_, fun j k j' k' hj hj' hk hk' hne heq => ?_,
    fun b hb hlt => ?_⟩
  · obtain ⟨hj', hs⟩ := hold j k hj hne
    rw [hs] at hne ⊢
    exact h.owned.region j k hj' hk hne
  · obtain ⟨hj', hs⟩ := hold j k hj hne
    rw [hs] at hne ⊢
    rw [used_setIno hi]
    exact h.owned.used j k hj' hk hne
  · obtain ⟨hl, hs⟩ := hold j k hj hne
    obtain ⟨hl', hs'⟩ := hold j' k' hj' (heq ▸ hne)
    rw [hs] at hne heq
    rw [hs'] at heq
    exact h.owned.unique j k j' k' hl hl' hk hk' hne heq
  · rw [used_setIno hi]
    exact h.owned.kept b hb hlt

def Unborn (img : Img) : Prop := ∀ j, img.freeinode ≤ j → j < ninodes → (img.disk.ino sb j).type = 0

theorem ialloc_spec (h : Sane img) (hu : Unborn img) (hi : img.freeinode < ninodes) (ht : type ≠ 0) (ht' : type < 2 ^ 16) :
    ∃ img', img.ialloc type = some (img.freeinode, img') ∧ Sane img' ∧ Unborn img' ∧ Holds img' img.freeinode type [] ∧
      (∀ j t l, j ≠ img.freeinode → Holds img j t l → Holds img' j t l) ∧ img'.freeinode = img.freeinode + 1 ∧
      img'.freeblock = img.freeblock := by
  let img1 : Img := { img with freeinode := img.freeinode + 1 }
  have h1 : Sane img1 := ⟨h.owned, h.low, h.high, h.zero, h.given, h.super⟩
  have hd : Storable ⟨type, 0, 0, 1, 0, fun _ => 0⟩ :=
    ⟨ht', Nat.two_pow_pos _, Nat.two_pow_pos _, Nat.one_lt_two_pow (by decide), Nat.two_pow_pos _,
      fun _ => Nat.two_pow_pos _, fun _ _ => rfl⟩
  have hself : (img1.setIno img.freeinode _).disk.ino sb img.freeinode = _ := setIno_self hi hd
  refine ⟨img1.setIno img.freeinode ⟨type, 0, 0, 1, 0, fun _ => 0⟩, ?_, h1.birth hi hd fun _ => rfl, fun j hj hlt => ?_, ?_,
    fun j t l hne hj => ?_, rfl, rfl⟩
  · rw [Img.ialloc, winode_eq hi]
    rfl
  · have hj : img.freeinode + 1 ≤ j := hj
    rw [setIno_other hi (by omega)]
    exact hu j (by omega) hlt
  · refine ⟨hi, ht, by rw [hself], by rw [hself], by rw [hself]; rfl, Nat.zero_le _, fun k _ => ?_, nofun⟩
    rw [hself]
    simp [Dinode.slot]
  · exact (show Holds img1 j t l from ⟨hj.lt, hj.live, hj.type, hj.nlink, hj.size, hj.le, hj.exact, hj.byte⟩).same
      (h1.setIno_sameFile hi hj.isLive hne)

theorem store_ino (h : img.disk.ino sb i = din) : (img.store i din).ino sb = img.disk.ino sb := by
  funext j
  by_cases hji : j = i
  · rw [hji, store_ino_self, h]
  · exact store_ino_of_ne hji

theorem Sane.ready (h : Sane img) (hi : Holds img i type l) : Ready img i (img.disk.ino sb i) where
  __ := h
  lt := hi.lt
  type := hi.isLive.2
  owned := by
    rw [store_ino rfl]
    exact h.owned

theorem store_setIno (hi : i < ninodes) : (img.setIno i din).store i din = ((img.store i d).setD i din).iupdated sb i := by
  rw [store_setD, Store.iupdated, store_itab, store_blk, Img.setIno, store_wsect (iblock_ne hi), vblk_of_ne (iblock_ne hi)]

theorem sameFile_disk (h : img.disk.ino sb i = din) (h' : img'.disk.ino sb i = din')
    (hs : SameFile sb j (img.store i din) (img'.store i din')) : SameFile sb j img.disk img'.disk := by
  obtain ⟨h1, h2, h3⟩ := hs
  rw [store_ino h] at h1 h2 h3
  rw [store_ino h'] at h1 h2
  exact ⟨h1, h2, h3⟩

theorem Appended.addrs {p off tot} (h : Appended img i din p off tot n img' din') :
    ∃ a, din' = { din with addrs := a } := by
  obtain ⟨a, ha⟩ := (h.written ⟨fun _ _ => true, fun _ _ => 0⟩).grows.itab_self
  refine ⟨a, ?_⟩
  have := congrArg MInode.d ha
  rwa [store_itab, store_itab] at this

theorem Ready.storable (h : Ready img i din) (hn : ∀ k, ndirect < k → din.addrs k = 0)
    (k : Nat) : din.addrs k < 2 ^ 32 := by
  by_cases hk : k ≤ ndirect
  · have hr := h.region (Nat.lt_of_le_of_lt hk ndirect_lt_nslots)
    rw [Dinode.slot_addr hk] at hr
    have hhigh := h.high
    simp only [fssize] at hhigh
    by_cases hz : din.addrs k = 0
    · omega
    · have := (hr hz).2
      omega
  · rw [hn k (by omega)]
    decide

theorem getD_append_map {p : Bytes} (x : Nat) (hx : x < l.length + n) :
    (l ++ (List.range n).map p).getD x 0 = if x < l.length then l.getD x 0 else p (x - l.length) := by
  split
  · rename_i hlt
    exact List.getD_append _ _ _ _ hlt
  · rename_i hge
    rw [List.getD_append_right _ _ _ _ (by omega)]
    simp [List.getD, show x - l.length < n by omega]

theorem store_byte (h : img.disk.ino sb i = din) : (img.store i din).byte sb i = img.disk.byte sb i := by
  funext x
  rw [Store.byte, store_ino h]
  rfl

theorem Ready.slot_setIno (h : Ready img i din) (k : Nat) : din.slot (img.setIno i d).vblk k = din.slot img.vblk k := by
  refine Dinode.slot_congr (fun hne => vblk_setIno h.lt ?_) k
  have hr := h.region ndirect_lt_nslots
  rw [Dinode.slot_addr le_rfl] at hr
  have h1 := (hr hne).1
  have h2 := iblock_lt_nmeta h.lt
  omega

/-- inode `i` の中身を `l` から `l'` に延ばし、ほかのファイルを変えていない。 -/
structure Stretched (img : Img) (i type : Nat) (l l' : List UInt8) (img' : Img) : Prop where
  sane : Sane img'
  unborn : Unborn img → Unborn img'
  holds : Holds img' i type l'
  others : ∀ j t m, j ≠ i → Holds img j t m → Holds img' j t m
  inode : img'.freeinode = img.freeinode
  block : img'.freeblock + blocks l.length = img.freeblock + blocks l'.length

/-- `iappend` はファイルの末尾に `p` の先頭 `n` バイトを足す。 -/
theorem iappend_spec {p} (h : Sane img) (hi : Holds img i type l) (hmax : l.length + n ≤ maxfile * bsize)
    (hroom : img.freeblock + blocks (l.length + n) ≤ fssize + blocks l.length) :
    ∃ img', img.iappend i p n = some img' ∧ Stretched img i type l (l ++ (List.range n).map p) img' := by
  have hr := h.ready hi
  have hsize := hi.size
  obtain ⟨img1, din1, hrun, ha⟩ := iappendLoop_spec (p := p) hr hi.exact (show l.length +
      (n - 0) ≤ maxfile * bsize from hmax)
    (Nat.zero_le _) le_rfl hroom
  rw [Nat.sub_zero] at hrun
  obtain ⟨a, hdin⟩ := ha.addrs
  obtain ⟨hready, hwritten, hexact, habove, hblock, hinode, hsuper⟩ := ha
  rw [Nat.sub_zero] at hexact hblock
  have hs1 : din1.size = l.length := by rw [hdin, ← hsize]
  set din2 : Dinode := { din1 with size := l.length + n } with hdin2
  have hold := getDinode_storable (img.vblk (sb.iblock i)) (dinodeOff i)
  rw [← disk_ino] at hold
  have hnone : ∀ k, ndirect < k → din1.addrs k = 0 := fun k hk => (habove k hk).trans (hold.none k hk)
  have hst : Storable din2 := by
    have hbig : maxfile * bsize < 2 ^ 32 := by decide
    refine ⟨?_, ?_, ?_, ?_, show l.length + n < 2 ^ 32 by omega, hready.storable hnone, hnone⟩
    all_goals rw [hdin2, hdin]
    · exact hold.type
    · exact hold.major
    · exact hold.minor
    · exact hold.nlink
  -- カーネルから見れば、`writei` の後と同じである。
  have hw : Wrote sb ⟨fun _ _ => true, fun _ _ => 0⟩ i (.kernel p) l.length n (img.store i (img.disk.ino sb i)) n
      ((img1.setIno i din2).store i din2) := by
    have := (hwritten ⟨fun _ _ => true, fun _ _ => 0⟩).wrote sb_ok hr.cached (by rw [store_ino rfl, hsize]) hmax
    rw [store_itab, Nat.sub_zero, hs1, Nat.max_eq_right (by omega)] at this
    rw [store_setIno (d := din1) hr.lt]
    exact this
  have hself : (img1.setIno i din2).disk.ino sb i = din2 := setIno_self hr.lt hst
  have hino : ∀ j, j < ninodes → j ≠ i → (img1.setIno i din2).disk.ino sb j = img.disk.ino sb j := fun j hj hne => by
    have := (hwritten ⟨fun _ _ => true, fun _ _ => 0⟩).grows.ino_other sb_ok hj hne
    rw [store_ino_of_ne hne, store_ino_of_ne hne] at this
    rw [setIno_other hr.lt hne, this]
  refine ⟨img1.setIno i din2, ?_, ?_, ?_, ?_, ?_, hinode, ?_⟩
  · simp only [Img.iappend, rinode_eq hr.lt, Option.bind_eq_bind, Option.bind_some, hsize, hrun]
    exact winode_eq hr.lt
  · refine ⟨?_, hready.low, hready.high, fun b hb => ?_, hready.given, ?_⟩
    · rw [← store_ino hself]
      exact hw.owned
    · have hb : img1.freeblock ≤ b := hb
      have hlow := hready.low
      rw [setIno_blk_data hr.lt (by omega), hready.zero b hb]
    · rw [setIno_blk_one, hsuper, h.super]
  · intro hu j hj hlt
    have hj : img1.freeinode ≤ j := hj
    by_cases hji : j = i
    · exact absurd (hu i (by omega) hr.lt) hr.type
    · rw [hino j hlt hji]
      exact hu j (by omega) hlt
  · refine ⟨hr.lt, hi.live, ?_, ?_, ?_, ?_, fun k hk => ?_, fun x hx => ?_⟩
    · rw [hself, hdin2, hdin]
      exact hi.type
    · rw [hself, hdin2, hdin]
      exact hi.nlink
    · rw [hself, hdin2]
      simp
    · simpa using hmax
    · rw [hself, List.length_append, List.length_map, List.length_range, ← hexact k hk, ← hready.slot_setIno k]
      rfl
    have hx' : x < l.length + n := by simpa using hx
    have hb := hw.byte (by rw [store_ino rfl]; exact hi.full) trivial (by rwa [store_ino_self])
    rw [store_byte hself, store_byte rfl] at hb
    rw [hb, getD_append_map x hx']
    split
    · rename_i hin
      rw [if_neg (by omega)]
      rfl
    · rename_i hout
      rw [if_pos (by omega)]
      exact hi.byte x (by omega)
  · intro j t l' hne hj
    refine hj.same (sameFile_disk rfl hself (hw.others j ?_ hne))
    rw [store_ino rfl]
    exact hj.isLive
  · rw [List.length_append, List.length_map, List.length_range]
    exact hblock

end Xv6.Mkfs
