import Xv6.Mkfs.Lemmas.Exit

/-!
# `mkfs` の像の穴
-/

namespace Xv6.Mkfs

open Xv6.Lib
open Xv6.Fs

variable {img img' disk : Img} {din din' : Dinode} {i n o off x fuel fbn : Nat} {p : Bytes} {fs : List Input} {f : Input}

/-! ## `freeinode` -/

theorem map_freeinode (h : img.map din fbn = some (img', din', x)) : img'.freeinode = img.freeinode := by
  have haddr : ∀ k, (img.mapAddr din k).1.freeinode = img.freeinode := fun k => by
    rw [Img.mapAddr]
    split <;> rfl
  rw [Img.map] at h
  split at h
  case isTrue =>
    cases h
    exact haddr fbn
  case isFalse =>
    obtain ⟨⟨img1, y⟩, hentry, heq⟩ := Option.bind_eq_some_iff.mp h
    cases heq
    obtain ⟨a, -, hentry⟩ := Option.bind_eq_some_iff.mp hentry
    split at hentry
    case isTrue =>
      cases hentry
      exact haddr ndirect
    case isFalse =>
      cases hentry
      exact haddr ndirect

theorem iappendLoop_freeinode {r} (h : iappendLoop p img din off o n fuel = some r) :
    r.1.freeinode = img.freeinode := by
  induction fuel generalizing img din off o n with
  | zero =>
    cases h
    rfl
  | succ fuel ih =>
    simp only [iappendLoop] at h
    split at h
    case isFalse =>
      cases h
      rfl
    case isTrue =>
      split at h
      case isFalse => cases h
      case isTrue =>
        obtain ⟨⟨img1, din1, x⟩, hmap, h⟩ := Option.bind_eq_some_iff.mp h
        obtain ⟨buf, -, h⟩ := Option.bind_eq_some_iff.mp h
        have hinode := map_freeinode hmap
        exact (ih h).trans hinode

theorem winode_freeinode (h : img.winode i din = some img') : img'.freeinode = img.freeinode := by
  obtain ⟨a, -, heq⟩ := Option.bind_eq_some_iff.mp h
  cases heq
  rfl

theorem iappend_freeinode (h : img.iappend i p n = some img') : img'.freeinode = img.freeinode := by
  obtain ⟨din, -, h⟩ := Option.bind_eq_some_iff.mp h
  obtain ⟨r, hloop, h⟩ := Option.bind_eq_some_iff.mp h
  exact (winode_freeinode h).trans (iappendLoop_freeinode hloop)

theorem copy_freeinode {cs} (h : img.copy i cs = some img') : img'.freeinode = img.freeinode := by
  induction cs generalizing img with
  | nil =>
    cases h
    rfl
  | cons c cs ih =>
    obtain ⟨img1, h1, h⟩ := Option.bind_eq_some_iff.mp h
    exact (ih h).trans (iappend_freeinode h1)

theorem ialloc_freeinode {type r} (h : img.ialloc type = some r) :
    r.2.freeinode = img.freeinode + 1 := by
  obtain ⟨img1, h1, heq⟩ := Option.bind_eq_some_iff.mp h
  cases heq
  exact winode_freeinode h1

theorem add_freeinode (h : img.add f = some img') : img'.freeinode = img.freeinode + 1 := by
  rw [Img.add] at h
  split at h
  case isTrue => cases h
  case isFalse =>
    obtain ⟨r, h1, h⟩ := Option.bind_eq_some_iff.mp h
    obtain ⟨img2, h2, h⟩ := Option.bind_eq_some_iff.mp h
    exact (copy_freeinode h).trans ((iappend_freeinode h2).trans (ialloc_freeinode h1))

theorem addAll_freeinode (h : img.addAll fs = some img') : img'.freeinode = img.freeinode + fs.length := by
  induction fs generalizing img with
  | nil =>
    cases h
    rfl
  | cons f fs ih =>
    obtain ⟨img1, h1, h⟩ := Option.bind_eq_some_iff.mp h
    rw [ih h, add_freeinode h1, List.length_cons]
    omega

theorem fixRoot_freeinode (h : img.fixRoot = some img') : img'.freeinode = img.freeinode := by
  rw [Img.fixRoot, Option.bind_eq_bind] at h
  obtain ⟨din, -, h⟩ := Option.bind_eq_some_iff.mp h
  exact winode_freeinode h

theorem mkfs_freeinode (h : mkfs fs = some disk) : disk.freeinode = fs.length + 2 := by
  obtain ⟨img, hbuild, h⟩ := Option.bind_eq_some_iff.mp h
  have hdisk : disk.freeinode = img.freeinode := by
    rw [Img.balloc] at h
    split at h <;> cases h
    rfl
  obtain ⟨img1, img2, img3, hrun1, hrun2, hrun3, h3⟩ := start_spec
  rw [build, hrun1] at hbuild
  simp only [Option.bind_eq_bind, Option.bind_some, if_true, hrun2, hrun3] at hbuild
  obtain ⟨img4, hadd, hfix⟩ := Option.bind_eq_some_iff.mp hbuild
  rw [hdisk, fixRoot_freeinode hfix, addAll_freeinode hadd, h3.inode, List.length_nil]
  omega

def perBlock : Nat := bsize / direntSize

theorem fixRoot_full_iff (h : Built img fs) (hrun : img.fixRoot = some img') :
    (img'.disk.ino sb rootino).Full img'.vblk ↔ (fs.length + 2) % perBlock ≠ 0 := by
  have hr := h.root
  have hle := hr.le
  have hlen := rootBytes_length fs
  obtain ⟨d, hrun', hst, hret, -, -, hsize⟩ := fixRoot_eq h
  cases hrun.symm.trans hrun'
  -- 欄は、延ばす前と変わらない。
  have hslot : ∀ bn, (((img.setIno rootino d).disk.ino sb rootino).block (img.setIno rootino d).vblk bn ≠ 0 ↔
      (img.disk.ino sb rootino).block img.vblk bn ≠ 0) := fun bn => by
    rw [Dinode.block, retitle_slot h.sane hr.isLive hst hret hr.isLive, Dinode.block]
  have hself : (img.setIno rootino d).disk.ino sb rootino = d := setIno_self hr.lt hst
  simp only [Dinode.Full, hslot]
  rw [hself, hsize]
  simp only [perBlock, direntSize] at *
  constructor
  · intro hfull hmod
    have hlast := hfull ((rootBytes fs).length / bsize) (Nat.mul_lt_mul_of_pos_right (Nat.lt_succ_self _) (by decide))
    have hexact := (hr.exact _ (slotOf_lt hlast.1)).mp hlast.2
    rw [start_slotOf] at hexact
    simp only [bsize] at *
    omega
  · intro hmod bn hbn
    refine hr.exact.full hr.le ?_
    simp only [bsize] at *
    omega

/-! ## 穴のない像 -/

def Img.dinode (img : Img) (i : Nat) : Dinode := getDinode (img.blk (sb.iblock i)) (dinodeOff i)

/-- inode の番号はすべて `NINODES` より小さく、大きさの中のブロックはすべて割り当てられている。 -/
structure Solid (disk : Img) : Prop where
  inums : ∀ i, 0 < i → i < disk.freeinode → i < ninodes
  full : ∀ i, 0 < i → i < disk.freeinode → (disk.dinode i).Full disk.blk

theorem mkfs_done (hlen : fs.length + 2 ≤ ninodes) (h : mkfs fs = some disk) : ∃ img img', Built img fs ∧
    img.fixRoot = some img' ∧ Finished img' fs ∧ disk.blk = img'.vblk ∧ ∀ i, disk.dinode i = img'.disk.ino sb i := by
  obtain ⟨img', hbuild, hballoc⟩ := Option.bind_eq_some_iff.mp h
  have hblk : disk.blk = img'.vblk := by
    rw [Img.balloc] at hballoc
    split at hballoc <;> cases hballoc
    rfl
  obtain ⟨img, hbuilt, hfix⟩ := build_done hlen hbuild
  obtain ⟨img'', hfix', hfin⟩ := fixRoot_spec hbuilt
  cases hfix.symm.trans hfix'
  exact ⟨img, img', hbuilt, hfix, hfin, hblk, fun i => by rw [Img.dinode, hblk, disk_ino]⟩

theorem root_full_iff (hlen : fs.length + 2 ≤ ninodes) (h : mkfs fs = some disk) :
    (disk.dinode rootino).Full disk.blk ↔ (fs.length + 2) % perBlock ≠ 0 := by
  obtain ⟨img, img', hbuilt, hfix, -, hblk, hino⟩ := mkfs_done hlen h
  rw [hblk, hino]
  exact fixRoot_full_iff hbuilt hfix

/-- 像に穴がなく番号が範囲の中であるのは、ルートの項目の数が `NINODES` 以下で、一つのブロックの項目の数の倍数でないときに
限る。 -/
theorem mkfs_solid_iff (h : mkfs fs = some disk) :
    Solid disk ↔ fs.length + 2 ≤ ninodes ∧ (fs.length + 2) % perBlock ≠ 0 := by
  have hinode := mkfs_freeinode h
  constructor
  · intro hs
    have hlen : fs.length + 2 ≤ ninodes := by
      have := hs.inums (fs.length + 1) (by omega) (by omega)
      omega
    exact ⟨hlen, (root_full_iff hlen h).mp (hs.full rootino (by decide) (by rw [hinode, rootino]; omega))⟩
  rintro ⟨hlen, hmod⟩
  obtain ⟨-, img', -, -, hfin, hblk, hino⟩ := mkfs_done hlen h
  refine ⟨fun i _ hi => by omega, fun i hpos hi => ?_⟩
  by_cases hi1 : i = rootino
  · rw [hi1]
    exact (root_full_iff hlen h).mpr hmod
  · obtain ⟨k, rfl⟩ : ∃ k, i = k + 2 := ⟨i - 2, by rw [rootino] at hi1; omega⟩
    have hk : fs[k]? = some (fs.get ⟨k, by omega⟩) := List.getElem?_eq_getElem (by omega)
    rw [hino, hblk]
    exact (hfin.file k _ hk).full

def emptyFiles (n : Nat) : List Input := List.replicate n ⟨[97], []⟩

theorem mkfs_emptyFiles {n} (hn : n ≤ 64) : ∃ disk, mkfs (emptyFiles n) = some disk := by
  have hlen : (emptyFiles n).length = n := List.length_replicate
  have hneed : need (emptyFiles n) ≤ fssize := by
    have hzero : ((emptyFiles n).map fun f => blocks f.content.length).sum = 0 := by
      rw [emptyFiles, List.map_replicate, List.sum_replicate_nat]
      exact Nat.mul_zero n
    have hroot : blocks (direntSize * (n + 2)) ≤ blocks (direntSize * 66) := blocks_mono (Nat.mul_le_mul_left _ (by omega))
    have hroom : nmeta + blocks (direntSize * 66) ≤ fssize := by decide
    rw [need, hlen, hzero]
    omega
  have hok : ∀ f ∈ emptyFiles n, f.Ok := fun f hf => by
    rw [List.eq_of_mem_replicate hf]
    exact ⟨by decide, Nat.zero_le _⟩
  have hcount : (emptyFiles n).length + 2 ≤ ninodes := by
    rw [hlen, ninodes]
    omega
  obtain ⟨-, disk, hrun, -⟩ := mkfs_spec hok hcount hneed
  exact ⟨disk, hrun⟩

theorem mkfs_solid_iff_three : ∃ disk, mkfs (emptyFiles 3) = some disk ∧ Solid disk := by
  obtain ⟨disk, hrun⟩ := mkfs_emptyFiles (n := 3) (by decide)
  exact ⟨disk, hrun, (mkfs_solid_iff hrun).mpr (by decide)⟩

/-- 六十二個のファイルでは、ルートの項目がブロックの終わりで終わり、最後のブロックが穴になる。 -/
theorem mkfs_root_hole : ∃ disk, mkfs (emptyFiles 62) = some disk ∧ ¬Solid disk := by
  obtain ⟨disk, hrun⟩ := mkfs_emptyFiles (n := 62) (by decide)
  refine ⟨disk, hrun, fun hs => ?_⟩
  have hfull := hs.full rootino (by decide) (by rw [mkfs_freeinode hrun]; decide)
  exact (root_full_iff (by decide) hrun).mp hfull (by decide)

end Xv6.Mkfs
