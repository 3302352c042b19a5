import Xv6.Mkfs.Lemmas.View

/-!
# `iappend`
-/

namespace Xv6.Mkfs

open Xv6.Lib
open Xv6.Fs

variable {img img' : Img} {din din' : Dinode} {i j k off tot n : Nat} {u : User}

def start (l : Nat) : Nat := (if l ≤ ndirect then l else l - 1) * bsize

def blocks (n : Nat) : Nat := (n + (bsize - 1)) / bsize + if ndirect * bsize < n then 1 else 0

def Exact (d : Dinode) (blk : Nat → Block) (n : Nat) : Prop := ∀ l, l < nslots → (d.slot blk l ≠ 0 ↔ start l < n)

theorem start_slotOf (bn : Nat) : start (slotOf bn) = bn * bsize := by
  simp only [start, slotOf]
  congr 1
  split <;> split <;> omega

theorem start_ndirect : start ndirect = ndirect * bsize := rfl

theorem start_low {l} (h : l ≤ ndirect) : start l = l * bsize := by rw [start, if_pos h]

theorem start_high {l} (h : ¬l ≤ ndirect) : start l = (l - 1) * bsize := by rw [start, if_neg h]

theorem start_dvd (l : Nat) : start l % bsize = 0 := Nat.mul_mod_left _ _

theorem chunk_in : off % bsize + chunk off n ≤ bsize := by
  have : off % bsize < bsize := Nat.mod_lt _ (by decide)
  simp only [chunk]
  omega

theorem min_chunk : min n ((off / bsize + 1) * bsize - off) = chunk off n := by
  simp only [chunk, bsize]
  omega

theorem blocks_mono {m n} (h : m ≤ n) : blocks m ≤ blocks n := by
  unfold blocks
  have h1 : (m + (bsize - 1)) / bsize ≤ (n + (bsize - 1)) / bsize := Nat.div_le_div_right (by omega)
  split <;> split <;> omega

theorem blocks_same {m} (h1 : 0 < m) (h2 : off % bsize + m ≤ bsize) : blocks (off + m) = blocks (off + 1) := by
  simp only [blocks, bsize, ndirect] at *
  have hd : (off + m + (1024 - 1)) / 1024 = (off + 1 + (1024 - 1)) / 1024 := by omega
  rw [hd]
  congr 1
  exact if_congr (by omega) rfl rfl

theorem start_same {l m} (h1 : 0 < m) (h2 : off % bsize + m ≤ bsize) : start l < off + m ↔ start l < off + 1 := by
  have := start_dvd l
  simp only [bsize] at *
  omega

structure Ready (img : Img) (i : Nat) (din : Dinode) : Prop where
  lt : i < ninodes
  type : din.type ≠ 0
  owned : Owned sb img.vblk ((img.store i din).ino sb)
  low : nmeta ≤ img.freeblock
  high : img.freeblock ≤ fssize
  zero : ∀ b, img.freeblock ≤ b → img.blk b = fun _ => 0
  given : ∀ b, b ∈ img.given ↔ nmeta ≤ b ∧ b < img.freeblock

namespace Ready

theorem cached (h : Ready img i din) : (img.store i din).Cached sb i := store_cached h.lt h.type

theorem spare (h : Ready img i din) (hb : img.freeblock < fssize) : Spare sb img.vblk img.freeblock where
  data := h.low
  lt := hb
  free := by rw [used_vblk (lt_bpb hb), decide_eq_false (Nat.lt_irrefl _)]

theorem region (h : Ready img i din) {l} (hl : l < nslots) (hne : din.slot img.vblk l ≠ 0) :
    nmeta ≤ din.slot img.vblk l ∧ din.slot img.vblk l < img.freeblock := by
  have hlive := h.cached.live
  have h1 := h.owned.region i l hlive hl
  have h2 := h.owned.used i l hlive hl
  rw [store_ino_self] at h1 h2
  obtain ⟨hlo, hhi⟩ := h1 hne
  have := h2 hne
  rw [used_vblk (lt_bpb hhi), decide_eq_true_eq] at this
  exact ⟨hlo, this⟩

end Ready

theorem ne_bmapstart {b} (h : nmeta ≤ b) : b ≠ sb.bmapstart := by
  have := bmapstart_lt_nmeta
  omega

structure Gave (img : Img) (i : Nat) (din : Dinode) (k : Nat) (img' : Img) (din' : Dinode) : Prop where
  ready : Ready img' i din'
  grows : Grows sb i (fun _ => False) (img.store i din) (img'.store i din')
  slot : ∀ l, l < nslots → din'.slot img'.vblk l = if l = k then img.freeblock else din.slot img.vblk l
  above : ∀ l, ndirect < l → din'.addrs l = din.addrs l
  block : img'.freeblock = img.freeblock + 1
  inode : img'.freeinode = img.freeinode
  super : img'.blk 1 = img.blk 1

/-- カーネルの `bmap` で示した `Extended` から、`mkfs` の割り当てを得る。 -/
theorem Gave.of_extended (h : Ready img i din) (hb : img.freeblock < fssize)
    (hgrows : Grows sb i (fun _ => False) (img.store i din) (img'.store i din'))
    (hext : Extended sb i k img.freeblock img.vblk img'.vblk ((img.store i din).ino sb) ((img'.store i din').ino sb))
    (htype : din'.type = din.type) (habove : ∀ l, ndirect < l → din'.addrs l = din.addrs l)
        (hblock : img'.freeblock = img.freeblock + 1)
    (hinode : img'.freeinode = img.freeinode) (hgiven : img'.given = img.freeblock :: img.given)
    (hzero : ∀ b, img.freeblock ≤ b → img'.blk b = img.blk b) (hsuper : img'.blk 1 = img.blk 1) :
    Gave img i din k img' din' where
  ready :=
    { lt := h.lt
      type := by rw [htype]; exact h.type
      owned := hgrows.owned
      low := by have := h.low; omega
      high := by omega
      zero := fun b hlt => by rw [hzero b (by omega), h.zero b (by omega)]
      given := fun b => by
        have := h.low
        rw [hgiven, List.mem_cons, h.given b, hblock]
        omega }
  grows := hgrows
  slot l hl := by
    have := hext.slot i l h.cached.live hl
    rw [store_ino_self, store_ino_self] at this
    simpa using this
  above := habove
  block := hblock
  inode := hinode
  super := hsuper

theorem mapAddr_gave (h : Ready img i din) (hk : k ≤ ndirect) (hz : din.addrs k = 0) (hb : img.freeblock < fssize) :
    Gave img i din k (img.mapAddr din k).1 (img.mapAddr din k).2 := by
  have hs := h.spare hb
  have hzero : ((img.store i din).ino sb i).addrs k = 0 := by rwa [store_ino_self]
  have heq : img.take.store i { din with addrs := update din.addrs k img.freeblock } =
      (img.store i din).growAddr sb i k img.freeblock := by
    rw [Store.growAddr, store_itab, ← store_take h.low hb (h.zero _ le_rfl), store_setD]
  have hg := growAddr_grows (W := fun _ => False) sb_ok h.owned h.cached hs hk hzero
  have he := growAddr_extended sb_ok h.owned h.cached hs hk hzero
  rw [← heq] at hg he
  rw [Img.mapAddr, if_pos hz]
  exact .of_extended h hb hg he rfl (fun l hl => update_of_ne (by omega) _ _) rfl rfl rfl (fun _ _ => rfl) rfl

theorem rsect_of_lt {b} (h : b < fssize) : img.rsect b = some (img.blk b) := if_pos h

theorem mapEntry_gave {ind} (h : Ready img i din) (hind : din.addrs ndirect = ind) (hne : ind ≠ 0)
    (hn : n < nindirect)
    (hz : indirect (img.vblk ind) n = 0) (hb : img.freeblock < fssize) :
    ∃ img', img.mapEntry ind n = some (img', img.freeblock) ∧ Gave img i din (ndirect + 1 + n) img' din := by
  have hs := h.spare hb
  have hind' : ((img.store i din).ino sb i).addrs ndirect = ind := by rwa [store_ino_self]
  have hreg : nmeta ≤ ind ∧ ind < img.freeblock := by
    have := h.region ndirect_lt_nslots
    rw [Dinode.slot_addr le_rfl, hind] at this
    exact this hne
  have hbm := ne_bmapstart hreg.1
  rw [vblk_of_ne hbm] at hz
  have hb32 : img.freeblock < 2 ^ 32 := by
    simp only [fssize] at hb
    omega
  have heq : (img.take.wsect ind (putLE (img.blk ind) (4 * n) 4 img.freeblock)).store i din =
      (img.store i din).growEntry sb ind n img.freeblock := by
    rw [store_wsect hbm, store_take h.low hb (h.zero _ le_rfl), Store.growEntry, store_blk, vblk_of_ne hbm]
  have hg := growEntry_grows (W := fun _ => False) sb_ok h.owned h.cached hs hind' hne hn
      (by rwa [store_blk, vblk_of_ne hbm])
  have he := growEntry_extended (n := n) sb_ok h.owned h.cached hs hind' hne
  rw [← heq] at hg he
  refine ⟨_, ?_, .of_extended h hb hg he rfl (fun _ _ => rfl) rfl rfl rfl (fun b hlt => ?_) ?_⟩
  · simp only [Img.mapEntry, rsect_of_lt (show ind < fssize by omega), Option.bind_eq_bind, Option.bind_some, if_pos hz,
      indirect_put hb32, if_true]
    rfl
  · exact update_of_ne (by omega) _ _
  · have : 1 < nmeta := by decide
    exact update_of_ne (by omega) _ _

theorem mapAddr_found (hne : din.addrs k ≠ 0) : img.mapAddr din k = (img, din) := if_neg hne

theorem mapEntry_found {ind} (h : Ready img i din) (hind : din.addrs ndirect = ind) (hne : ind ≠ 0)
    (hz : indirect (img.vblk ind) n ≠ 0) : img.mapEntry ind n = some (img, indirect (img.vblk ind) n) := by
  have hreg : nmeta ≤ ind ∧ ind < img.freeblock := by
    have := h.region ndirect_lt_nslots
    rw [Dinode.slot_addr le_rfl, hind] at this
    exact this hne
  have hhigh := h.high
  rw [vblk_of_ne (ne_bmapstart hreg.1)] at hz ⊢
  simp only [Img.mapEntry, rsect_of_lt (show ind < fssize by omega), Option.bind_eq_bind, Option.bind_some, if_neg hz]
  rfl

structure Placed (img : Img) (i : Nat) (din : Dinode) (off : Nat) (img' : Img) (din' : Dinode) (x : Nat) : Prop where
  ready : Ready img' i din'
  grows : Grows sb i (fun _ => False) (img.store i din) (img'.store i din')
  slot : din'.slot img'.vblk (slotOf (off / bsize)) = x
  pos : x ≠ 0
  exact : Exact din' img'.vblk (off + 1)
  above : ∀ l, ndirect < l → din'.addrs l = din.addrs l
  block : img'.freeblock + blocks off = img.freeblock + blocks (off + 1)
  inode : img'.freeinode = img.freeinode
  super : img'.blk 1 = img.blk 1

theorem Gave.slot_ne (hg : Gave img i din k img' din') (h : Ready img i din) {l} (hl : l < nslots) :
    din'.slot img'.vblk l ≠ 0 ↔ l = k ∨ din.slot img.vblk l ≠ 0 := by
  have hlow := h.low
  have hmeta : 0 < nmeta := by decide
  rw [hg.slot l hl]
  split
  · rename_i hlk
    exact ⟨fun _ => .inl hlk, fun _ => by omega⟩
  · rename_i hlk
    exact ⟨.inr, fun hor => hor.resolve_left hlk⟩

theorem slotOf_direct {bn} (h : bn < ndirect) : slotOf bn = bn := if_pos h

theorem slotOf_indirect {bn} (h : ¬bn < ndirect) : slotOf bn = ndirect + 1 + (bn - ndirect) := by
  rw [slotOf, if_neg h]
  omega

theorem blocks_inside (hoff : off % bsize ≠ 0) : blocks (off + 1) = blocks off := by
  have hd : (off + 1 + (bsize - 1)) / bsize = (off + (bsize - 1)) / bsize := by
    simp only [bsize] at *
    omega
  have hc : ndirect * bsize < off + 1 ↔ ndirect * bsize < off := by
    simp only [bsize, ndirect] at *
    omega
  rw [blocks, blocks, hd, if_congr hc rfl rfl]

theorem blocks_fresh (hoff : off % bsize = 0) :
    blocks (off + 1) = blocks off + 1 + if off / bsize = ndirect then 1 else 0 := by
  have hd : (off + 1 + (bsize - 1)) / bsize = (off + (bsize - 1)) / bsize + 1 := by
    simp only [bsize] at *
    omega
  rw [blocks, blocks, hd]
  by_cases h1 : ndirect * bsize < off
  · have h2 : off / bsize ≠ ndirect := by
      simp only [bsize, ndirect] at *
      omega
    rw [if_pos h1, if_pos (by omega), if_neg h2]
  · have h2 : ndirect * bsize < off + 1 ↔ off / bsize = ndirect := by
      simp only [bsize, ndirect] at *
      omega
    rw [if_neg h1, if_congr h2 rfl rfl]

theorem start_inside {l} (hoff : off % bsize ≠ 0) : start l < off + 1 ↔ start l < off := by
  have := start_dvd l
  simp only [bsize] at *
  omega

/-- ブロックの境目に書くと、`off` のスロットと、要るなら間接ブロックが増える。 -/
theorem start_fresh {l} (hoff : off % bsize = 0) :
    start l < off + 1 ↔ start l < off ∨ l = slotOf (off / bsize) ∨ l = ndirect ∧ off / bsize = ndirect := by
  by_cases h1 : l ≤ ndirect <;> by_cases h2 : off / bsize < ndirect
  · rw [start_low h1, slotOf_direct h2]
    simp only [bsize, ndirect] at *
    omega
  · rw [start_low h1, slotOf_indirect h2]
    simp only [bsize, ndirect] at *
    omega
  · rw [start_high h1, slotOf_direct h2]
    simp only [bsize, ndirect] at *
    omega
  · rw [start_high h1, slotOf_indirect h2]
    simp only [bsize, ndirect] at *
    omega

section Place

variable (h : Ready img i din) (he : Exact din img.vblk off) (hbn : off / bsize < maxfile)

include he hbn in
theorem slot_inside (hoff : off % bsize ≠ 0) : din.slot img.vblk (slotOf (off / bsize)) ≠ 0 := by
  rw [he _ (slotOf_lt hbn), start_slotOf]
  simp only [bsize] at *
  omega

include he hbn in
theorem slot_fresh (hoff : off % bsize = 0) : din.slot img.vblk (slotOf (off / bsize)) = 0 := by
  by_contra hne
  rw [← ne_eq, he _ (slotOf_lt hbn), start_slotOf] at hne
  simp only [bsize] at *
  omega

include he in
/-- 間接ブロックは、直接の分を書き終えた後にだけある。 -/
theorem indirect_iff : din.addrs ndirect ≠ 0 ↔ ndirect * bsize < off := by
  have := he ndirect ndirect_lt_nslots
  rwa [Dinode.slot_addr le_rfl, start_ndirect] at this

include h he hbn in
theorem map_inside (hoff : off % bsize ≠ 0) :
    ∃ x, img.map din (off / bsize) = some (img, din, x) ∧ Placed img i din off img din x := by
  have hslot := slot_inside he hbn hoff
  refine ⟨din.slot img.vblk (slotOf (off / bsize)), ?_, h, .refl h.owned, rfl, hslot, fun l hl => ?_, fun _ _ => rfl,
      ?_, rfl, rfl⟩
  · unfold Img.map
    by_cases hd : off / bsize < ndirect
    · rw [slotOf_direct hd, Dinode.slot_addr (Nat.le_of_lt hd)] at hslot ⊢
      rw [if_pos hd, mapAddr_found hslot]
    have hind : din.addrs ndirect ≠ 0 := by
      rw [indirect_iff he]
      simp only [bsize, ndirect] at *
      omega
    rw [slotOf_indirect hd, Dinode.slot_entry (by omega) hind, Nat.add_sub_cancel_left] at hslot ⊢
    rw [if_neg hd, mapAddr_found hind]
    simp only [mapEntry_found h rfl hind hslot, Option.bind_eq_bind, Option.bind_some]
    rfl
  · rw [he l hl, start_inside hoff]
  · rw [blocks_inside hoff]

include h he hbn in
theorem Gave.placed (hg : Gave img i din (slotOf (off / bsize)) img' din') (hoff : off % bsize = 0)
    (hd : off / bsize ≠ ndirect) : Placed img i din off img' din' img.freeblock where
  __ := hg
  slot := by rw [hg.slot _ (slotOf_lt hbn), if_pos rfl]
  pos := by
    have hlow := h.low
    have hmeta : 0 < nmeta := by decide
    omega
  exact l hl := by
    rw [hg.slot_ne h hl, start_fresh hoff, ← he l hl]
    omega
  block := by
    rw [hg.block, blocks_fresh hoff, if_neg hd]
    omega

include h he hbn in
theorem map_direct (hoff : off % bsize = 0) (hd : off / bsize < ndirect) (hroom : img.freeblock < fssize) :
    ∃ img' din' x, img.map din (off / bsize) = some (img', din', x) ∧ Placed img i din off img' din' x := by
  have hzero := slot_fresh he hbn hoff
  have hs := slotOf_direct hd
  rw [hs, Dinode.slot_addr (Nat.le_of_lt hd)] at hzero
  have hg := mapAddr_gave h (Nat.le_of_lt hd) hzero hroom
  rw [← hs] at hg
  have hp := Gave.placed h he hbn hg hoff (by omega)
  refine ⟨_, _, _, ?_, hp⟩
  have hx := hp.slot
  rw [hs, Dinode.slot_addr (Nat.le_of_lt hd)] at hx
  rw [Img.map, if_pos hd, ← hx, hs]

omit he in
include h hbn in
theorem mapEntry_slot (hd : ndirect ≤ off / bsize) (hind : din.addrs ndirect ≠ 0)
    (hzero : din.slot img.vblk (slotOf (off / bsize)) = 0) (hroom : img.freeblock < fssize) :
    ∃ img', img.mapEntry (din.addrs ndirect) (off / bsize - ndirect) = some (img', img.freeblock) ∧
      Gave img i din (slotOf (off / bsize)) img' din := by
  have hn : off / bsize - ndirect < nindirect := by
    simp only [maxfile] at hbn
    omega
  rw [slotOf_indirect (by omega)] at hzero ⊢
  rw [Dinode.slot_entry (by omega) hind, Nat.add_sub_cancel_left] at hzero
  exact mapEntry_gave h rfl hind hn hzero hroom

include h he hbn in
theorem map_entry (hoff : off % bsize = 0) (hd : ndirect < off / bsize) (hroom : img.freeblock < fssize) :
    ∃ img' din' x, img.map din (off / bsize) = some (img', din', x) ∧ Placed img i din off img' din' x := by
  have hind : din.addrs ndirect ≠ 0 := by
    rw [indirect_iff he]
    simp only [bsize, ndirect] at *
    omega
  obtain ⟨img', hrun, hg⟩ := mapEntry_slot h hbn (Nat.le_of_lt hd) hind (slot_fresh he hbn hoff) hroom
  refine ⟨img', din, img.freeblock, ?_, Gave.placed h he hbn hg hoff (by omega)⟩
  rw [Img.map, if_neg (by omega), mapAddr_found hind]
  simp only [hrun, Option.bind_eq_bind, Option.bind_some]
  rfl

include h he hbn in
theorem map_indirect (hoff : off % bsize = 0) (hd : off / bsize = ndirect) (hroom : img.freeblock + 1 < fssize) :
    ∃ img' din' x, img.map din (off / bsize) = some (img', din', x) ∧ Placed img i din off img' din' x := by
  have hz0 : din.addrs ndirect = 0 := by
    by_contra hne
    rw [← ne_eq, indirect_iff he] at hne
    simp only [bsize, ndirect] at *
    omega
  have hg := mapAddr_gave h le_rfl hz0 (by omega)
  rw [Img.map, if_neg (by omega)]
  generalize img.mapAddr din ndirect = m at hg
  obtain ⟨img1, din1⟩ := m
  have hg : Gave img i din ndirect img1 din1 := hg
  have hb1 := hg.block
  have hne : din1.addrs ndirect ≠ 0 := by
    have := (hg.slot_ne h ndirect_lt_nslots).mpr (.inl rfl)
    rwa [Dinode.slot_addr le_rfl] at this
  have hz1 : din1.slot img1.vblk (slotOf (off / bsize)) = 0 := by
    rw [hg.slot _ (slotOf_lt hbn), if_neg (slotOf_ne _), slot_fresh he hbn hoff]
  obtain ⟨img', hrun, hg'⟩ := mapEntry_slot hg.ready hbn (Nat.le_of_eq hd.symm) hne hz1 (by omega)
  refine ⟨img', din1, img1.freeblock, ?_, hg'.ready, hg.grows.trans sb_ok h.cached hg'.grows, ?_, by omega, fun l hl => ?_,
    fun l hl => (hg'.above l hl).trans (hg.above l hl), ?_, hg'.inode.trans hg.inode, hg'.super.trans hg.super⟩
  · simp only [hrun, Option.bind_eq_bind, Option.bind_some]
    rfl
  · rw [hg'.slot _ (slotOf_lt hbn), if_pos rfl]
  · rw [hg'.slot_ne hg.ready hl, hg.slot_ne h hl, start_fresh hoff, ← he l hl]
    omega
  · rw [hg'.block, blocks_fresh hoff, if_pos hd]
    omega

include h he hbn in
/-- 空きが足りれば、`map` は `off` のブロックを置いて成功する。 -/
theorem map_spec (hroom : img.freeblock + blocks (off + 1) ≤ fssize + blocks off) :
    ∃ img' din' x, img.map din (off / bsize) = some (img', din', x) ∧ Placed img i din off img' din' x := by
  by_cases hoff : off % bsize = 0
  · have hcount := blocks_fresh hoff
    rcases Nat.lt_trichotomy (off / bsize) ndirect with hd | hd | hd
    · exact map_direct h he hbn hoff hd (by omega)
    · rw [if_pos hd] at hcount
      exact map_indirect h he hbn hoff hd (by omega)
    · exact map_entry h he hbn hoff hd (by omega)
  · obtain ⟨x, hrun, hp⟩ := map_inside h he hbn hoff
    exact ⟨img, din, x, hrun, hp⟩

end Place

structure Appended (img : Img) (i : Nat) (din : Dinode) (p : Bytes) (off tot n : Nat) (img' : Img)
    (din' : Dinode) : Prop where
  ready : Ready img' i din'
  written : ∀ u, Written sb u i (.kernel p) off tot n (img.store i din) (off + (n - tot), n) (img'.store i din')
  exact : Exact din' img'.vblk (off + (n - tot))
  above : ∀ l, ndirect < l → din'.addrs l = din.addrs l
  block : img'.freeblock + blocks off = img.freeblock + blocks (off + (n - tot))
  inode : img'.freeinode = img.freeinode
  super : img'.blk 1 = img.blk 1

theorem Appended.stop {p} (h : Ready img i din) (he : Exact din img.vblk off) :
    Appended img i din p off n n img din := by
  have hz : off + (n - n) = off := by omega
  refine ⟨h, fun u => ?_, by rwa [hz], fun _ _ => rfl, by rw [hz], rfl, rfl⟩
  rw [hz]
  exact .stop (.refl h.owned) le_rfl fun hlt => absurd hlt (Nat.lt_irrefl n)

namespace Placed

variable {p : Bytes} {x m : Nat} (hp : Placed img i din off img' din' x) (hbn : off / bsize < maxfile)

def fillIn (img : Img) (p : Bytes) (off o x m : Nat) : Img :=
  img.wsect x (blit (img.blk x) (off - off / bsize * bsize) p o m)

include hp hbn in
theorem region : nmeta ≤ x ∧ x < img'.freeblock := by
  have h := hp.ready.region (slotOf_lt hbn) (hp.slot ▸ hp.pos)
  rwa [hp.slot] at h

include hp hbn in
theorem mapped : (img'.store i din').Mapped sb i off :=
  ⟨hbn, by rw [Dinode.block, store_ino_self, store_blk, hp.slot]; exact hp.pos⟩

include hp hbn in
/-- カーネルから見ると、書いたかたまりは `writei` の一回の書き込みと同じである。 -/
theorem store_fillIn (o : Nat) : (fillIn img' p off o x m).store i din' = (img'.store i din').copied sb i p off o m := by
  have hne := ne_bmapstart (hp.region hbn).1
  have hmod : off - off / bsize * bsize = off % bsize := by
    simp only [bsize]
    omega
  rw [fillIn, store_wsect hne, Store.copied, Dinode.block, store_ino_self, store_blk, hp.slot, vblk_of_ne hne, hmod]

include hp hbn in
theorem fillIn_ready (o : Nat) : Ready (fillIn img' p off o x (chunk off n)) i din' := by
  have hr := hp.ready
  have hreg := hp.region hbn
  have hg : Grows sb i (fun _ => True) (img'.store i din') ((img'.store i din').copied sb i p off o (chunk off n)) :=
    copied_grows sb_ok hr.owned hr.cached (hp.mapped hbn) fun _ _ _ => trivial
  rw [← hp.store_fillIn hbn o] at hg
  exact
    { lt := hr.lt
      type := hr.type
      owned := hg.owned
      low := hr.low
      high := hr.high
      zero := fun b hlt => by
        have hlt : img'.freeblock ≤ b := hlt
        exact (update_of_ne (by omega) _ _).trans (hr.zero b hlt)
      given := hr.given }

include hp hbn in
theorem fillIn_exact (o : Nat) (hpos : 0 < m) (hin : off % bsize + m ≤ bsize) :
    Exact din' (fillIn img' p off o x m).vblk (off + m) := by
  intro l hl
  rw [start_same hpos hin, ← hp.exact l hl, Dinode.slot_congr fun hne => ?_]
  have hdiff : din'.addrs ndirect ≠ x := fun heq => by
    have hlive := hp.ready.cached.live
    have hu := hp.ready.owned.unique i ndirect i (slotOf (off / bsize)) hlive hlive ndirect_lt_nslots (slotOf_lt hbn)
    rw [store_ino_self, Dinode.slot_addr le_rfl, hp.slot] at hu
    exact slotOf_ne _ (hu hne heq).2.symm
  rw [fillIn, vblk_wsect (ne_bmapstart (hp.region hbn).1), update_of_ne hdiff]

include hp hbn in
theorem fillIn_super (o : Nat) : (fillIn img' p off o x m).blk 1 = img'.blk 1 := by
  have hreg := hp.region hbn
  have : 1 < nmeta := by decide
  exact update_of_ne (by omega) _ _

end Placed

/-- 空きと大きさが足りれば、繰り返しは残りの全てを書き終える。 -/
theorem iappendLoop_spec {p fuel} (h : Ready img i din) (he : Exact din img.vblk off)
    (hmax : off + (n - tot) ≤ maxfile * bsize) (htot : tot ≤ n) (hfuel : n - tot ≤ fuel)
    (hroom : img.freeblock + blocks (off + (n - tot)) ≤ fssize + blocks off) :
    ∃ img' din', iappendLoop p img din off tot (n - tot) fuel = some (img', din', off + (n - tot)) ∧
      Appended img i din p off tot n img' din' := by
  induction fuel generalizing img din off tot with
  | zero =>
    obtain rfl : tot = n := by omega
    exact ⟨img, din, by rw [iappendLoop, Nat.sub_self, Nat.add_zero], .stop h he⟩
  | succ fuel ih =>
    rw [iappendLoop]
    by_cases hz : tot = n
    · subst hz
      exact ⟨img, din, by rw [Nat.sub_self, if_neg (by omega), Nat.add_zero], .stop h he⟩
    have hbn : off / bsize < maxfile := Nat.div_lt_of_lt_mul (by rw [Nat.mul_comm]; omega)
    have hmono : blocks (off + 1) ≤ blocks (off + (n - tot)) := blocks_mono (by omega)
    obtain ⟨img1, din1, x, hrun, hp⟩ := map_spec h he hbn (by omega)
    have hblock := hp.block
    have hhigh := hp.ready.high
    have hx := (hp.region hbn).2
    have hle : chunk off (n - tot) ≤ n - tot := chunk_le
    have hpos : 0 < chunk off (n - tot) := chunk_pos (by omega)
    have hin : off % bsize + chunk off (n - tot) ≤ bsize := chunk_in
    have hsub : n - tot - chunk off (n - tot) = n - (tot + chunk off (n - tot)) := by omega
    have hend : off + chunk off (n - tot) + (n - (tot + chunk off (n - tot))) = off + (n - tot) := by omega
    have hsame := blocks_same hpos hin
    have hroom1 : img1.freeblock + blocks (off + chunk off (n - tot) + (n - (tot + chunk off (n - tot)))) ≤
        fssize + blocks (off + chunk off (n - tot)) := by
      rw [hend, hsame]
      omega
    simp only [if_pos (show 0 < n - tot by omega), if_pos hbn, hrun, Option.bind_eq_bind, Option.bind_some, min_chunk,
      rsect_of_lt (show x < fssize by omega), hsub]
    obtain ⟨img2, din2, hrun2, h2⟩ := ih (hp.fillIn_ready hbn tot) (hp.fillIn_exact hbn tot hpos hin)
        (by omega) (by omega)
      (by omega) hroom1
    rw [hend] at hrun2
    refine ⟨img2, din2, hrun2, h2.ready, fun u => ?_, ?_, fun l hl => (h2.above l hl).trans (hp.above l hl), ?_,
      h2.inode.trans hp.inode, (h2.super.trans (hp.fillIn_super hbn tot)).trans hp.super⟩
    · have hw := h2.written u
      rw [hend, hp.store_fillIn hbn tot] at hw
      exact .next sb_ok h.cached (by omega) hp.grows (hp.mapped hbn) hw
    · have := h2.exact
      rwa [hend] at this
    · have hb2 : img2.freeblock + blocks (off + chunk off (n - tot)) = img1.freeblock + _ := h2.block
      rw [hend, hsame] at hb2
      omega

end Xv6.Mkfs
