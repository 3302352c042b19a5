import Xv6.Mkfs.Lemmas.Build

/-!
# 終わった `mkfs`
-/

namespace Xv6.Mkfs

open Xv6.Lib List
open Xv6.Fs

variable {img img' : Img} {din din' : Dinode} {i n tot off x type inum : Nat} {l : List UInt8} {fs : List Input} {f : Input}

theorem lt_of_rsect {b buf} (h : img.rsect b = some buf) : b < fssize ∧ buf = img.blk b := by
  rw [Img.rsect] at h
  split at h
  case isTrue hb => exact ⟨hb, (Option.some.inj h).symm⟩
  case isFalse => cases h

theorem mapEntry_gives {ind j} (h : img.mapEntry ind j = some (img', x)) (hz : indirect (img.blk ind) j = 0)
    (hlt : img.freeblock < 2 ^ 32) : ind < fssize ∧ x = img.freeblock := by
  obtain ⟨a, ha, h⟩ := Option.bind_eq_some_iff.mp h
  obtain ⟨hind, rfl⟩ := lt_of_rsect ha
  rw [if_pos hz] at h
  cases h
  exact ⟨hind, by rw [indirect_put hlt, if_pos rfl]⟩

section Room

variable (h : Ready img i din) (he : Exact din img.vblk off) (hbn : off / bsize < maxfile)
  (hrun : img.map din (off / bsize) = some (img', din', x)) (hx : x < fssize)

include he hbn hrun hx in
theorem map_room_direct (hoff : off % bsize = 0) (hd : off / bsize < ndirect) : img.freeblock < fssize := by
  have hzero := slot_fresh he hbn hoff
  rw [slotOf_direct hd, Dinode.slot_addr (Nat.le_of_lt hd)] at hzero
  rw [Img.map, if_pos hd, Img.mapAddr, if_pos hzero] at hrun
  cases hrun
  have hx : update din.addrs (off / bsize) img.freeblock (off / bsize) < fssize := hx
  rwa [update_self] at hx

include h he hbn hrun hx in
theorem map_room_entry (hoff : off % bsize = 0) (hd : ndirect < off / bsize) : img.freeblock < fssize := by
  have hhigh := h.high
  have hbig : fssize < 2 ^ 32 := by decide
  have hind : din.addrs ndirect ≠ 0 := by
    rw [indirect_iff he]
    simp only [bsize, ndirect] at *
    omega
  have hzero := slot_fresh he hbn hoff
  rw [slotOf_indirect (by omega), Dinode.slot_entry (by omega) hind, Nat.add_sub_cancel_left] at hzero
  have hreg := h.region ndirect_lt_nslots (by rw [Dinode.slot_addr le_rfl]; exact hind)
  rw [Dinode.slot_addr le_rfl] at hreg
  rw [vblk_of_ne (ne_bmapstart hreg.1)] at hzero
  rw [Img.map, if_neg (by omega), mapAddr_found hind] at hrun
  obtain ⟨⟨img1, y⟩, hentry, heq⟩ := Option.bind_eq_some_iff.mp hrun
  cases heq
  have := (mapEntry_gives hentry hzero (by omega)).2
  omega

include h he hrun hx in
theorem map_room_indirect (hoff : off % bsize = 0) (hd : off / bsize = ndirect) : img.freeblock + 1 < fssize := by
  have hhigh := h.high
  have hbig : fssize + 1 < 2 ^ 32 := by decide
  have hz0 : din.addrs ndirect = 0 := by
    by_contra hne
    rw [← ne_eq, indirect_iff he] at hne
    simp only [bsize, ndirect] at *
    omega
  rw [Img.map, if_neg (by omega)] at hrun
  obtain ⟨⟨img1, y⟩, hentry, heq⟩ := Option.bind_eq_some_iff.mp hrun
  cases heq
  have haddr : (img.mapAddr din ndirect).2.addrs ndirect = img.freeblock := by
    rw [Img.mapAddr, if_pos hz0]
    exact update_self ndirect img.freeblock din.addrs
  have hblk : (img.mapAddr din ndirect).1.blk = img.blk ∧ (img.mapAddr din ndirect).1.freeblock = img.freeblock + 1 := by
    rw [Img.mapAddr, if_pos hz0]
    exact ⟨rfl, rfl⟩
  have hentry : (img.mapAddr din ndirect).1.mapEntry img.freeblock (off / bsize - ndirect) = some (img', x) :=
    haddr ▸ hentry
  have hempty : indirect ((img.mapAddr din ndirect).1.blk img.freeblock) (off / bsize - ndirect) = 0 := by
    rw [hblk.1, h.zero _ le_rfl]
    exact getLE_zero _ _
  have hlast := hblk.2
  have := (mapEntry_gives hentry hempty (by omega)).2
  omega

include h he hbn hrun hx in
/-- `map` が成功したなら、空きは足りていた（`map_spec` の逆）。 -/
theorem map_room : img.freeblock + blocks (off + 1) ≤ fssize + blocks off := by
  have hhigh := h.high
  by_cases hoff : off % bsize = 0
  · have hcount := blocks_fresh hoff
    rcases Nat.lt_trichotomy (off / bsize) ndirect with hd | hd | hd
    · rw [if_neg (by omega)] at hcount
      have := map_room_direct he hbn hrun hx hoff hd
      omega
    · rw [if_pos hd] at hcount
      have := map_room_indirect h he hrun hx hoff hd
      omega
    · rw [if_neg (by omega)] at hcount
      have := map_room_entry h he hbn hrun hx hoff hd
      omega
  · rw [blocks_inside hoff]
    omega

end Room

theorem iappendLoop_room {p fuel r} (h : Ready img i din)
    (he : Exact din img.vblk off) (hoff : off ≤ maxfile * bsize) (htot : tot ≤ n) (hfuel : n - tot ≤ fuel)
    (hrun : iappendLoop p img din off tot (n - tot) fuel = some r) :
    off + (n - tot) ≤ maxfile * bsize ∧ img.freeblock + blocks (off + (n - tot)) ≤ fssize + blocks off := by
  have hhigh := h.high
  induction fuel generalizing img din off tot with
  | zero =>
    have hz : n - tot = 0 := by omega
    rw [hz]
    exact ⟨hoff, by rw [Nat.add_zero]; omega⟩
  | succ fuel ih =>
    by_cases hz : tot = n
    · rw [hz, Nat.sub_self]
      exact ⟨hoff, by rw [Nat.add_zero]; omega⟩
    have hpos0 : 0 < n - tot := by omega
    rw [iappendLoop] at hrun
    simp only [if_pos hpos0] at hrun
    split at hrun
    case isFalse => cases hrun
    case isTrue hbn =>
      obtain ⟨⟨img1, din1, x⟩, hmap, hrun⟩ := Option.bind_eq_some_iff.mp hrun
      obtain ⟨buf, hbuf, hrun⟩ := Option.bind_eq_some_iff.mp hrun
      obtain ⟨hx, rfl⟩ := lt_of_rsect hbuf
      have hroom := map_room h he hbn hmap hx
      obtain ⟨img1', din1', x', hmap', hp⟩ := map_spec h he hbn hroom
      cases hmap.symm.trans hmap'
      have hpos : 0 < chunk off (n - tot) := chunk_pos (by omega)
      have hle : chunk off (n - tot) ≤ n - tot := chunk_le
      have hin : off % bsize + chunk off (n - tot) ≤ bsize := chunk_in
      have hsub : n - tot - chunk off (n - tot) = n - (tot + chunk off (n - tot)) := by omega
      have hend : off + chunk off (n - tot) + (n - (tot + chunk off (n - tot))) = off + (n - tot) := by omega
      have hmax : off + chunk off (n - tot) ≤ maxfile * bsize := by
        have := Nat.mul_le_mul_right bsize hbn
        simp only [bsize] at *
        omega
      rw [min_chunk, hsub] at hrun
      obtain ⟨h1, h2⟩ := ih (hp.fillIn_ready hbn tot) (hp.fillIn_exact hbn tot hpos hin) hmax (by omega) (by omega) hrun
        hp.ready.high
      rw [hend] at h1 h2
      have hb : (Placed.fillIn img1 p off tot x (chunk off (n - tot))).freeblock = img1.freeblock := rfl
      have hblock := hp.block
      rw [hb, blocks_same hpos hin] at h2
      exact ⟨h1, by omega⟩

/-- 成功した `iappend` には、大きさと空きの条件が要る。 -/
theorem iappend_done {p} (h : Sane img) (hi : Holds img i type l) (hrun : img.iappend i p n = some img') :
    l.length + n ≤ maxfile * bsize ∧ img.freeblock + blocks (l.length + n) ≤ fssize + blocks l.length ∧
      Stretched img i type l (l ++ (List.range n).map p) img' := by
  have hloop := hrun
  simp only [Img.iappend, rinode_eq hi.lt, Option.bind_eq_bind, Option.bind_some] at hloop
  obtain ⟨r, hloop, -⟩ := Option.bind_eq_some_iff.mp hloop
  rw [hi.size] at hloop
  obtain ⟨hmax, hroom⟩ := iappendLoop_room (h.ready hi) hi.exact hi.le (Nat.zero_le n) le_rfl hloop
  obtain ⟨img'', hrun', hs⟩ := iappend_spec (p := p) h hi hmax hroom
  cases hrun.symm.trans hrun'
  exact ⟨hmax, hroom, hs⟩

theorem copy_done (cs : List (List UInt8)) (h : Sane img) (hi : Holds img i type l) (hrun : img.copy i cs = some img') :
    l.length + cs.flatten.length ≤ maxfile * bsize ∧
      img.freeblock + blocks (l.length + cs.flatten.length) ≤ fssize + blocks l.length := by
  induction cs generalizing img l with
  | nil =>
    have := h.high
    have := hi.le
    simp only [flatten_nil, length_nil, Nat.add_zero]
    omega
  | cons c cs ih =>
    obtain ⟨img1, hrun1, hrun⟩ := Option.bind_eq_some_iff.mp hrun
    obtain ⟨-, -, h1⟩ := iappend_done h hi hrun1
    rw [map_bytesOf] at h1
    have hblock := h1.block
    obtain ⟨hmax, hroom⟩ := ih h1.sane h1.holds hrun
    rw [length_append] at hmax hroom hblock
    rw [flatten_cons, length_append, ← Nat.add_assoc]
    exact ⟨hmax, by omega⟩

theorem add_done (h : Built img fs) (hlen : (fs ++ [f]).length + 2 ≤ ninodes) (hrun : img.add f = some img') :
    Built img' (fs ++ [f]) := by
  have hadd := hrun
  have hinode := h.inode
  have hblock := h.block
  have hneed := need_append fs f
  have hroot := rootBytes_length fs
  rw [length_append, length_singleton] at hlen
  have hstep : (rootBytes fs).length + direntSize = direntSize * (fs.length + 1 + 2) := by
    rw [hroot]
    ring
  rw [Img.add] at hadd
  split at hadd
  case isTrue => cases hadd
  case isFalse hslash =>
    obtain ⟨img1, hrun1, hs1, hu1, hnew1, hold1, hi1, hb1⟩ :=
      ialloc_spec h.sane h.unborn (by omega) (show tFile ≠ 0 by decide) (by decide)
    simp only [hrun1, Option.bind_eq_bind, Option.bind_some] at hadd
    obtain ⟨img2, hlink, hcopy⟩ := Option.bind_eq_some_iff.mp hadd
    obtain ⟨-, hroom2, h2⟩ := iappend_done hs1 (hold1 rootino _ _ (by rw [hinode, rootino]; omega) h.root) hlink
    have hb2 := h2.block
    rw [length_append, length_map, length_range, hstep, hroot] at hb2
    have hnew2 := h2.others _ _ _ (by rw [hinode, rootino]; omega) hnew1
    obtain ⟨hmax3, hroom3⟩ := copy_done f.chunks h2.sane hnew2 hcopy
    have hz : blocks 0 = 0 := by decide
    have hcont : f.chunks.flatten = f.content := rfl
    rw [hcont, length_nil, Nat.zero_add] at hmax3 hroom3
    rw [hz] at hroom3
    obtain ⟨img3, hrun3, h3⟩ := add_spec (f := f) h ⟨hslash, hmax3⟩
      (by rw [length_append, length_singleton]; omega) (by omega)
    cases hrun.symm.trans hrun3
    exact h3

theorem addAll_done {gs} (h : Built img fs) (hlen : (fs ++ gs).length + 2 ≤ ninodes)
    (hrun : img.addAll gs = some img') : Built img' (fs ++ gs) := by
  induction gs generalizing img fs with
  | nil =>
    cases hrun
    rwa [append_nil]
  | cons g gs ih =>
    obtain ⟨img1, hrun1, hrun⟩ := Option.bind_eq_some_iff.mp hrun
    have happ : fs ++ g :: gs = fs ++ [g] ++ gs := by simp
    rw [happ] at hlen ⊢
    refine ih (add_done h ?_ hrun1) hlen hrun
    rw [length_append] at hlen
    omega

theorem build_done (hlen : fs.length + 2 ≤ ninodes) (hrun : build fs = some img) :
    ∃ img0, Built img0 fs ∧ img0.fixRoot = some img := by
  obtain ⟨img1, img2, img3, hrun1, hrun2, hrun3, h3⟩ := start_spec
  rw [build, hrun1] at hrun
  simp only [Option.bind_eq_bind, Option.bind_some, if_true, hrun2, hrun3] at hrun
  obtain ⟨img4, hrun4, hfix⟩ := Option.bind_eq_some_iff.mp hrun
  have h4 := addAll_done h3 (by simpa using hlen) hrun4
  rw [nil_append] at h4
  exact ⟨img4, h4, hfix⟩

end Xv6.Mkfs
