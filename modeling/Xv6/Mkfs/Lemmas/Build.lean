import Xv6.Mkfs.Lemmas.Inode

/-!
# `main`
-/

namespace Xv6.Mkfs

open Xv6.Lib List
open Xv6.Fs

variable {img img' : Img} {i type : Nat} {l l' : List UInt8} {fs : List Input} {f : Input}

def Input.content (f : Input) : List UInt8 := f.chunks.flatten

def entries (fs : List Input) : List (Name × Nat) :=
  (dot, rootino) :: (dotdot, rootino) :: (fs.zipIdx 2).map fun (f, k) => (f.shortname, k)

def dirent (e : Name × Nat) : List UInt8 := (List.range direntSize).map (direntBytes e.1 e.2)

def rootBytes (fs : List Input) : List UInt8 := (entries fs).flatMap dirent

def need (fs : List Input) : Nat :=
  nmeta + blocks (direntSize * (fs.length + 2)) + (fs.map fun f => blocks f.content.length).sum

structure Input.Ok (f : Input) : Prop where
  slash : slash ∉ f.base
  size : f.content.length ≤ maxfile * bsize

theorem dirent_length (e : Name × Nat) : (dirent e).length = direntSize := by simp [dirent]

theorem entries_length (fs : List Input) : (entries fs).length = fs.length + 2 := by simp [entries]

theorem rootBytes_length (fs : List Input) : (rootBytes fs).length = direntSize * (fs.length + 2) := by
  simp only [rootBytes, length_flatMap, dirent_length, map_const', sum_replicate_nat, entries_length,
    Nat.mul_comm]

theorem entries_append (fs : List Input) (f : Input) : entries (fs ++ [f]) = entries fs ++ [(f.shortname,
    fs.length + 2)] := by
  simp [entries, zipIdx_append, Nat.add_comm]

theorem rootBytes_append (fs : List Input) (f : Input) :
    rootBytes (fs ++ [f]) = rootBytes fs ++ dirent (f.shortname, fs.length + 2) := by
  simp [rootBytes, entries_append, flatMap_append]

/-- ファイルを足すと、その中身と `root` の伸びの分だけ要るブロックが増える。 -/
theorem need_append (fs : List Input) (f : Input) : need (fs ++ [f]) + blocks (direntSize * (fs.length + 2)) =
    need fs + blocks (direntSize * (fs.length + 1 + 2)) + blocks f.content.length := by
  simp only [need, length_append, length_singleton, map_append, map_singleton, sum_append,
    sum_singleton]
  omega

theorem need_mono (fs gs : List Input) : need fs ≤ need (fs ++ gs) := by
  have h : blocks (direntSize * (fs.length + 2)) ≤ blocks (direntSize * ((fs ++ gs).length + 2)) :=
    blocks_mono (Nat.mul_le_mul_left _ (by simp))
  simp only [need, map_append, sum_append]
  omega

theorem Stretched.trans {img'' l''} (h : Stretched img i type l l' img')
    (h' : Stretched img' i type l' l'' img'') : Stretched img i type l l'' img'' where
  sane := h'.sane
  unborn hu := h'.unborn (h.unborn hu)
  holds := h'.holds
  others j t m hne hj := h'.others j t m hne (h.others j t m hne hj)
  inode := h'.inode.trans h.inode
  block := by
    have h1 := h.block
    have h2 := h'.block
    omega

theorem map_bytesOf (c : List UInt8) : (List.range c.length).map (bytesOf c) = c := by
  refine ext_getElem (by simp) fun k h1 h2 => ?_
  simp [bytesOf, List.getD, h2]

theorem copy_spec (cs : List (List UInt8)) (h : Sane img) (hi : Holds img i type l)
    (hmax : l.length + cs.flatten.length ≤ maxfile * bsize)
    (hroom : img.freeblock + blocks (l.length + cs.flatten.length) ≤ fssize + blocks l.length) :
    ∃ img', img.copy i cs = some img' ∧ Stretched img i type l (l ++ cs.flatten) img' := by
  induction cs generalizing img l with
  | nil =>
    refine ⟨img, rfl, h, id, ?_, fun _ _ _ _ => id, rfl, ?_⟩
    · simpa using hi
    · simp
  | cons c cs ih =>
    rw [flatten_cons, length_append] at hmax hroom
    have hmono : blocks (l.length + c.length) ≤ blocks (l.length + (c.length + cs.flatten.length)) := blocks_mono
        (by omega)
    obtain ⟨img1, hrun1, h1⟩ := iappend_spec (p := bytesOf c) h hi (show l.length + c.length ≤ maxfile * bsize by omega)
      (by omega)
    rw [map_bytesOf] at h1
    have hblock := h1.block
    rw [length_append] at hblock
    obtain ⟨img2, hrun2, h2⟩ := ih h1.sane h1.holds (by rw [length_append]; omega)
      (by rw [length_append, Nat.add_assoc]; omega)
    refine ⟨img2, ?_, ?_⟩
    · rw [Img.copy, hrun1]
      exact hrun2
    · rw [flatten_cons, ← append_assoc]
      exact h1.trans h2

theorem link_spec (name : Name) (inum : Nat) (h : Sane img) (hi : Holds img rootino type l)
    (hmax : l.length + direntSize ≤ maxfile * bsize)
    (hroom : img.freeblock + blocks (l.length + direntSize) ≤ fssize + blocks l.length) :
    ∃ img', img.link name inum = some img' ∧ Stretched img rootino type l (l ++ dirent (name, inum)) img' :=
  iappend_spec h hi hmax hroom

structure Built (img : Img) (fs : List Input) : Prop where
  sane : Sane img
  unborn : Unborn img
  inode : img.freeinode = fs.length + 2
  root : Holds img rootino tDir (rootBytes fs)
  file : ∀ k f, fs[k]? = some f → Holds img (k + 2) tFile f.content
  block : img.freeblock = need fs

theorem rootBytes_le (h : fs.length + 2 ≤ ninodes) : (rootBytes fs).length ≤ maxfile * bsize := by
  rw [rootBytes_length]
  exact Nat.le_trans (Nat.mul_le_mul_left _ h) (by decide)

theorem add_spec (h : Built img fs) (hf : f.Ok) (hlen : (fs ++ [f]).length + 2 ≤ ninodes)
    (hroom : need (fs ++ [f]) ≤ fssize) : ∃ img', img.add f = some img' ∧ Built img' (fs ++ [f]) := by
  have hinode := h.inode
  have hblock := h.block
  have hneed := need_append fs f
  have hroot := rootBytes_length fs
  have hle := rootBytes_le hlen
  rw [rootBytes_append, length_append, dirent_length] at hle
  rw [length_append, length_singleton] at hlen
  have hstep : (rootBytes fs).length + direntSize = direntSize * (fs.length + 1 + 2) := by
    rw [hroot]
    ring
  -- inode を作り、ルートに項目を加え、中身を写す。
  obtain ⟨img1, hrun1, hs1, hu1, hnew1, hold1, hi1, hb1⟩ :=
    ialloc_spec h.sane h.unborn (by omega) (show tFile ≠ 0 by decide) (by decide)
  obtain ⟨img2, hrun2, h2⟩ := link_spec f.shortname img.freeinode hs1
    (hold1 rootino _ _ (by rw [hinode, rootino]; omega) h.root) hle (by rw [hstep, hroot]; omega)
  have hb2 := h2.block
  rw [length_append, dirent_length, hstep, hroot] at hb2
  have hnew2 := h2.others _ _ _ (by rw [hinode, rootino]; omega) hnew1
  have hz : blocks 0 = 0 := by decide
  have hcont : f.chunks.flatten = f.content := rfl
  obtain ⟨img3, hrun3, h3⟩ := copy_spec f.chunks h2.sane hnew2 (by rw [hcont, length_nil, Nat.zero_add]; exact hf.size)
    (by rw [hcont, length_nil, Nat.zero_add, hz]; omega)
  have hb3 := h3.block
  rw [hcont, nil_append, length_nil, hz, Nat.add_zero] at hb3
  refine ⟨img3, ?_, h3.sane, h3.unborn (h2.unborn hu1), ?_, ?_, fun k g hk => ?_, by omega⟩
  · rw [Img.add, if_neg hf.slash]
    simp only [hrun1, Option.bind_eq_bind, Option.bind_some, hrun2, hrun3]
  · rw [h3.inode, h2.inode, hi1, hinode, length_append, length_singleton]
  · rw [rootBytes_append, ← hinode]
    exact h3.others _ _ _ (by rw [hinode, rootino]; omega) h2.holds
  by_cases hlt : k < fs.length
  · rw [getElem?_append_left hlt] at hk
    have hk2 := h.file k g hk
    exact h3.others _ _ _ (by omega) (h2.others _ _ _ (by rw [rootino]; omega) (hold1 _ _ _ (by omega) hk2))
  rw [getElem?_append_right (by omega), getElem?_singleton] at hk
  split at hk
  · cases hk
    have hkn : k + 2 = img.freeinode := by omega
    rw [hkn]
    exact h3.holds
  · cases hk

theorem addAll_spec {gs} (h : Built img fs) (hg : ∀ g ∈ gs, g.Ok) (hlen : (fs ++ gs).length + 2 ≤ ninodes)
    (hroom : need (fs ++ gs) ≤ fssize) : ∃ img', img.addAll gs = some img' ∧ Built img' (fs ++ gs) := by
  induction gs generalizing img fs with
  | nil => exact ⟨img, rfl, by rwa [append_nil]⟩
  | cons g gs ih =>
    have happ : fs ++ g :: gs = fs ++ [g] ++ gs := by simp
    rw [happ] at hlen hroom ⊢
    obtain ⟨img1, hrun1, h1⟩ := add_spec h (hg g (by simp)) (by simp at hlen ⊢; omega)
      (Nat.le_trans (need_mono _ gs) hroom)
    obtain ⟨img2, hrun2, h2⟩ := ih h1 (fun x hx => hg x (by simp [hx])) hlen hroom
    refine ⟨img2, ?_, h2⟩
    rw [Img.addAll, hrun1]
    exact hrun2

theorem getLE_zero (o w : Nat) : getLE (fun _ => 0) o w = 0 := by
  induction w generalizing o with
  | zero => rfl
  | succ w ih => simp [getLE, ih]

theorem blank_blk {b} (h : b ≠ 1) : blank.blk b = fun _ => 0 := by simp [blank, h]

theorem blank_unborn : ∀ j, j < ninodes → (blank.disk.ino sb j).type = 0 := fun j hj => by
  have hne : sb.iblock j ≠ 1 := by
    have : 32 ≤ sb.iblock j := Nat.le_add_left _ _
    omega
  rw [disk_ino, vblk_of_ne (iblock_ne hj), blank_blk hne]
  exact getLE_zero _ _

theorem blank_sane : Sane blank where
  owned :=
    { region := fun j _ hj => absurd (blank_unborn j hj.1) hj.2
      used := fun j _ hj => absurd (blank_unborn j hj.1) hj.2
      unique := fun j _ _ _ hj => absurd (blank_unborn j hj.1) hj.2
      kept := fun b hb hlt => by
        rw [used_vblk (lt_bpb hlt), decide_eq_true_eq]
        exact hb }
  low := le_rfl
  high := by decide
  zero b hb := by
    have hb : nmeta ≤ b := hb
    have hmeta : 1 < nmeta := by decide
    exact blank_blk (by omega)
  given b := by
    simp only [blank, not_mem_nil, false_iff]
    omega
  super := by simp [blank]

theorem start_spec : ∃ img1 img2 img3, blank.ialloc tDir = some (rootino, img1) ∧ img1.link dot rootino = some img2 ∧
    img2.link dotdot rootino = some img3 ∧ Built img3 [] := by
  obtain ⟨img1, hrun1, hs1, hu1, hnew1, -, hi1, hb1⟩ := ialloc_spec blank_sane (fun j _ => blank_unborn j)
    (show blank.freeinode < ninodes by decide) (show tDir ≠ 0 by decide) (by decide)
  have hb1 : img1.freeblock = nmeta := hb1
  obtain ⟨img2, hrun2, h2⟩ := link_spec dot rootino hs1 hnew1 (by decide) (by rw [hb1]; decide)
  have hb2 := h2.block
  rw [hb1] at hb2
  have hb2 : img2.freeblock = nmeta + 1 := hb2
  obtain ⟨img3, hrun3, h3⟩ := link_spec dotdot rootino h2.sane h2.holds (by simp [dirent_length]; decide)
    (by rw [hb2]; simp only [nil_append, dirent_length]; decide)
  have hb3 := h3.block
  simp only [nil_append, length_append, dirent_length, hb2] at hb3
  refine ⟨img1, img2, img3, hrun1, hrun2, hrun3, h3.sane, h3.unborn (h2.unborn hu1), ?_, h3.holds,
      fun k f hk => by simp at hk, ?_⟩
  · rw [h3.inode, h2.inode, hi1]
    rfl
  · exact Nat.add_right_cancel hb3

structure Finished (img : Img) (fs : List Input) : Prop where
  sane : Sane img
  type : (img.disk.ino sb rootino).type = tDir
  nlink : (img.disk.ino sb rootino).nlink = 1
  size : direntSize * (fs.length + 2) ≤ (img.disk.ino sb rootino).size
  small : (img.disk.ino sb rootino).size < 2 ^ 31
  mapped : ∀ p, p < (rootBytes fs).length → img.disk.Mapped sb rootino p
  byte : ∀ p, p < (rootBytes fs).length → img.disk.byte sb rootino p = (rootBytes fs).getD p 0
  file : ∀ k f, fs[k]? = some f → Holds img (k + 2) tFile f.content

/-- `root` の大きさは、境目にちょうど届いていても次の境目まで切り上がる。 -/
theorem fixRoot_eq (h : Built img fs) : ∃ d, img.fixRoot = some (img.setIno rootino d) ∧ Storable d ∧
    Retitled (img.disk.ino sb rootino) d ∧ d.type = tDir ∧ d.nlink = 1 ∧
      d.size = ((rootBytes fs).length / bsize + 1) * bsize := by
  have hr := h.root
  have hle := hr.le
  have hold := getDinode_storable (img.vblk (sb.iblock rootino)) (dinodeOff rootino)
  rw [← disk_ino] at hold
  refine ⟨{ img.disk.ino sb rootino with size := ((img.disk.ino sb rootino).size / bsize + 1) * bsize }, ?_,
    ⟨hold.type, hold.major, hold.minor, hold.nlink, ?_, hold.addrs, hold.none⟩, ⟨?_, rfl⟩, hr.type, hr.nlink, ?_⟩
  · simp only [Img.fixRoot, rinode_eq hr.lt, Option.bind_eq_bind, Option.bind_some]
    exact winode_eq hr.lt
  · rw [hr.size]
    simp only [maxfile, ndirect, nindirect, bsize] at *
    omega
  · exact hr.type.trans_ne (by decide)
  · exact congrArg (fun n => (n / bsize + 1) * bsize) hr.size

theorem fixRoot_spec (h : Built img fs) : ∃ img', img.fixRoot = some img' ∧ Finished img' fs := by
  have hr := h.root
  have hle := hr.le
  obtain ⟨d, hrun, hst, hret, htype, hnlink, hdsize⟩ := fixRoot_eq h
  have hsize : (rootBytes fs).length < d.size ∧ d.size < 2 ^ 31 := by
    rw [hdsize]
    simp only [maxfile, ndirect, nindirect, bsize] at *
    omega
  have hself : (img.setIno rootino d).disk.ino sb rootino = d := setIno_self hr.lt hst
  have hmapped : ∀ p, p < (rootBytes fs).length → img.disk.Mapped sb rootino p := fun p hp => by
    have hle := Nat.div_mul_le_self p bsize
    exact hr.exact.full hr.le (by omega)
  refine ⟨img.setIno rootino d, hrun, retitle_sane h.sane hr.isLive hst hret (htype.trans hr.type.symm), ?_, ?_, ?_, ?_,
    fun p hp => ?_, fun p hp => ?_, fun k f hk => ?_⟩
  · rw [hself, htype]
  · rw [hself, hnlink]
  · rw [hself, ← rootBytes_length]
    exact Nat.le_of_lt hsize.1
  · rw [hself]
    exact hsize.2
  · exact (retitle_byte h.sane hr.isLive hst hret (hmapped p hp)).1
  · rw [(retitle_byte h.sane hr.isLive hst hret (hmapped p hp)).2, hr.byte p hp]
  · have hf := h.file k f hk
    exact hf.same (h.sane.setIno_sameFile hr.lt hf.isLive (by rw [rootino]; omega))

theorem build_spec (hf : ∀ f ∈ fs, f.Ok) (hlen : fs.length + 2 ≤ ninodes) (hroom : need fs ≤ fssize) :
    ∃ img, build fs = some img ∧ Finished img fs := by
  obtain ⟨img1, img2, img3, hrun1, hrun2, hrun3, h3⟩ := start_spec
  obtain ⟨img4, hrun4, h4⟩ := addAll_spec h3 hf (by simpa using hlen) (by simpa using hroom)
  rw [nil_append] at h4
  obtain ⟨img5, hrun5, h5⟩ := fixRoot_spec h4
  refine ⟨img5, ?_, h5⟩
  simp only [build, hrun1, Option.bind_eq_bind, Option.bind_some, if_true, hrun2, hrun3, hrun4, hrun5]

theorem mkfs_spec (hf : ∀ f ∈ fs, f.Ok) (hlen : fs.length + 2 ≤ ninodes) (hroom : need fs ≤ fssize) :
    ∃ img disk, mkfs fs = some disk ∧ disk.blk = img.vblk ∧ disk.given = img.given ∧ Finished img fs := by
  obtain ⟨img, hrun, h⟩ := build_spec hf hlen hroom
  have hused : img.freeblock < bsize * 8 := Nat.lt_of_le_of_lt h.sane.high (by decide)
  refine ⟨img, img.wsect sb.bmapstart (bitmap img.freeblock), ?_, rfl, rfl, h⟩
  simp only [mkfs, hrun, Option.bind_eq_bind, Option.bind_some, Img.balloc, if_pos hused]

end Xv6.Mkfs
