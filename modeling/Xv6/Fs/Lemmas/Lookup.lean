import Xv6.Fs.Contents
import Mathlib.Data.List.TakeWhile
import Mathlib.Data.List.Nodup

/-!
# 起動した後の名前の解決
-/

namespace Xv6.Fs

open Xv6.Lib

variable {sb : Superblock} {u : User} {E : String → Prop} {s : Store} {i j m n : Nat}

def Store.direntAt (sb : Superblock) (s : Store) (i y : Nat) : Bytes :=
  blit (fun _ => 0) 0 (s.byte sb i) (direntSize * y) direntSize

/-- ディレクトリ `i` の `m` 番目の項目が、`name` の最初の項目で、`inum` を指す。 -/
structure Hit (sb : Superblock) (s : Store) (i : Nat) (name : Name) (m inum : Nat) : Prop where
  size : direntSize * (m + 1) ≤ (s.ino sb i).size
  small : (s.ino sb i).size < 2 ^ 31
  mapped : ∀ p, p < direntSize * (m + 1) → s.Mapped sb i p
  miss : ∀ y, y < m → ¬(direntInum (s.direntAt sb i y) 0 ≠ 0 ∧ direntName (s.direntAt sb i y) 0 = name)
  target : direntInum (s.direntAt sb i m) 0 = inum
  pos : inum ≠ 0
  title : direntName (s.direntAt sb i m) 0 = name

theorem readLen_eq {size off} (h1 : off + n ≤ size) (h2 : size < 2 ^ 32) : readLen size off n = n := by
  rw [readLen, if_neg (by omega)]
  omega

theorem readDirent_spec {msg y Q} (hsb : sb.Ok) (ho : Owned sb s.blk (s.ino sb))
    (hi : s.Cached sb i) (hsize : direntSize * (y + 1) ≤ (s.ino sb i).size) (hsmall : (s.ino sb i).size < 2 ^ 31)
    (hmapped : ∀ p, p < direntSize * (y + 1) → s.Mapped sb i p) (hQ : Q (s.direntAt sb i y) s) :
    wp (exec u (readDirent sb i (direntSize * y) msg)) Q E s := by
  have hlen : readLen (s.ino sb i).size (direntSize * y) direntSize = direntSize := by
    simp only [direntSize] at *
    exact readLen_eq (by omega) (by omega)
  rw [readDirent, exec_bind]
  refine readi_mapped hsb ho hi (fun p _ h2 => hmapped p ?_) (nofun) ?_
  · rw [hlen] at h2
    simp only [direntSize] at *
    omega
  · rw [hlen]
    change wp (exec u (if some direntSize = some direntSize then pure _ else fail msg)) Q E _
    rw [if_pos rfl]
    exact hQ

def Store.got (s : Store) (i : Nat) : Store := s.setK (s.k.setI i { s.k.itab i with ref := 1, valid := false })

theorem iget_spec {Q} (href : (s.k.itab i).ref = 0) (hroom : s.k.active sb < ninode)
    (hQ : Q () (s.got i)) : wp (exec u (iget sb i)) Q E s := by
  rw [iget, exec_bind, exec_getK, if_neg (by omega), if_neg (by omega)]
  exact hQ

theorem dirlookupLoop_spec {name inum fuel y Q} (hsb : sb.Ok)
    (ho : Owned sb s.blk (s.ino sb)) (hi : s.Cached sb i) (h : Hit sb s i name m inum) (href : (s.k.itab inum).ref = 0)
    (hroom : s.k.active sb < ninode) (hy : y ≤ m) (hfuel : m < y + fuel)
    (hQ : Q (some (direntSize * m, inum)) (s.got inum)) :
    wp (exec u (dirlookupLoop sb i name (direntSize * y) fuel)) Q E s := by
  induction fuel generalizing y with
  | zero => omega
  | succ fuel ih =>
    have hsize := h.size
    have hle : direntSize * (y + 1) ≤ direntSize * (m + 1) := Nat.mul_le_mul_left _ (by omega)
    rw [dirlookupLoop, exec_bind, exec_inode, ← hi.ino_eq, if_pos (by simp only [direntSize] at *; omega), exec_bind]
    refine readDirent_spec hsb ho hi (by omega) h.small (fun p hp => h.mapped p (by omega)) ?_
    by_cases hym : y = m
    · subst hym
      rw [if_pos ⟨by rw [h.target]; exact h.pos, h.title⟩, h.target, exec_bind]
      exact iget_spec href hroom hQ
    · rw [if_neg (h.miss y (by omega))]
      exact ih (y := y + 1) (by omega) (by omega)

theorem dirlookup_spec {name inum Q} (hsb : sb.Ok)
    (ho : Owned sb s.blk (s.ino sb)) (hi : s.Cached sb i) (hdir : (s.ino sb i).type = tDir) (h : Hit sb s i name m inum)
    (href : (s.k.itab inum).ref = 0) (hroom : s.k.active sb < ninode) (hQ : Q (some (direntSize * m, inum)) (s.got inum)) :
    wp (exec u (dirlookup sb i name)) Q E s := by
  rw [dirlookup, exec_bind, exec_inode, ← hi.ino_eq, if_neg (fun hne => hne hdir)]
  refine dirlookupLoop_spec (y := 0) hsb ho hi h href hroom (Nat.zero_le _) ?_ hQ
  have := h.size
  simp only [direntSize] at *
  omega

def Store.Cold (s : Store) : Prop := ∀ j, (s.k.itab j).ref = 0

def Store.load (sb : Superblock) (s : Store) (i : Nat) : Store :=
  s.setK (s.k.setI i ⟨1, true, getDinode (s.blk (sb.iblock i)) (dinodeOff i)⟩)

theorem ilock_got {Q} (htype : (getDinode (s.blk (sb.iblock i)) (dinodeOff i)).type ≠ 0)
    (hQ : Q () (s.load sb i)) : wp (exec u (ilock sb i)) Q E (s.got i) := by
  have hk : (s.got i).k.itab i =
      { s.k.itab i with ref := 1, valid := false } := by simp [Store.got, Store.setK, Kernel.setI]
  rw [ilock, exec_bind, exec_getK, hk, if_neg (by simp), if_neg (by simp), exec_bind, exec_bread, exec_bind, exec_setK,
    exec_bind, exec_brelse]
  change wp (exec u (if (getDinode (s.blk (sb.iblock i)) (dinodeOff i)).type = 0 then _ else _)) Q E _
  rw [if_neg htype]
  have heq : (s.got i).setK ((s.got i).k.setI i ⟨1, true, getDinode (s.blk (sb.iblock i))
      (dinodeOff i)⟩) = s.load sb i := by
    simp [Store.got, Store.load, Store.setK, Kernel.setI]
  exact heq ▸ hQ

section

variable (h : s.Cold)
include h

theorem Store.Cold.ino (j : Nat) : s.ino sb j = getDinode (s.blk (sb.iblock j)) (dinodeOff j) := by
  rw [Store.ino, if_neg (by rw [h j]; simp)]

/-- inode を読み込んでも、その見え方は変わらない。 -/
theorem load_ino : (s.load sb i).ino sb = s.ino sb := by
  funext j
  rw [h.ino]
  by_cases hji : j = i
  · subst hji
    simp [Store.ino, Store.load, Store.setK, Kernel.setI]
  · simp [Store.ino, Store.load, Store.setK, Kernel.setI, hji, h j]

theorem load_cached (hi : sb.Live (s.ino sb) i) : (s.load sb i).Cached sb i where
  lt := hi.1
  ref := by simp [Store.load, Store.setK, Kernel.setI]
  valid := by simp [Store.load, Store.setK, Kernel.setI]
  type := by
    have := hi.2
    rw [h.ino] at this
    simpa [Store.load, Store.setK, Kernel.setI] using this

theorem load_ref (hne : j ≠ i) : ((s.load sb i).k.itab j).ref = 0 := by
  simp [Store.load, Store.setK, Kernel.setI, hne, h j]

theorem cold_active : s.k.active sb < ninode := by
  have : s.k.active sb = 0 := by simp [Kernel.active, h _]
  rw [this]
  decide

theorem load_active : (s.load sb i).k.active sb < ninode := by
  have hle : (s.load sb i).k.active sb ≤ (List.range sb.ninodes).count i := by
    refine List.countP_mono_left fun j _ hj => ?_
    by_contra hne
    rw [decide_eq_true_eq, load_ref h (by simpa using hne)] at hj
    omega
  have hone : (List.range sb.ninodes).count i ≤ 1 := List.nodup_iff_count_le_one.mp List.nodup_range i
  simp only [ninode]
  omega

end

theorem Hit.congr {s' name inum} (h : Hit sb s i name m inum) (hino : s'.ino sb = s.ino sb)
    (hblk : s'.blk = s.blk) : Hit sb s' i name m inum := by
  have hbyte : s'.byte sb i = s.byte sb i := by
    funext p
    rw [Store.byte, Store.byte, hino, hblk]
  have hat : ∀ y, s'.direntAt sb i y = s.direntAt sb i y := fun y => by rw [Store.direntAt, Store.direntAt, hbyte]
  constructor
  case size => rw [hino]; exact h.size
  case small => rw [hino]; exact h.small
  case mapped =>
    intro p hp
    rw [Store.Mapped, hino, hblk]
    exact h.mapped p hp
  case miss =>
    intro y hy
    rw [hat]
    exact h.miss y hy
  case target => rw [hat]; exact h.target
  case pos => exact h.pos
  case title => rw [hat]; exact h.title

def Store.forget (sb : Superblock) (s : Store) (i : Nat) : Store :=
  s.setK (s.k.setI i ⟨0, true, getDinode (s.blk (sb.iblock i)) (dinodeOff i)⟩)

theorem forget_cold (h : s.Cold) : (s.forget sb i).Cold := fun j => by
  by_cases hji : j = i
  · simp [Store.forget, Store.setK, Kernel.setI, hji]
  · simp [Store.forget, Store.setK, Kernel.setI, hji, h j]

/-- 親を手放しても、子の参照は残る。 -/
theorem iunlockput_load {Q} (hlink : (getDinode (s.blk (sb.iblock i)) (dinodeOff i)).nlink ≠ 0)
    (hne : j ≠ i) (hQ : Q () ((s.forget sb i).got j)) : wp (exec u (iunlockput sb i)) Q E ((s.load sb i).got j) := by
  have hk : ((s.load sb i).got j).k.itab i = ⟨1, true, getDinode (s.blk (sb.iblock i)) (dinodeOff i)⟩ := by
    simp [Store.load, Store.got, Store.setK, Kernel.setI, hne.symm]
  rw [iunlockput, exec_bind, iunlock, exec_bind, exec_getK, hk, if_neg (by simp)]
  change wp (exec u (iput sb i)) Q E _
  rw [iput, exec_bind, exec_getK, exec_bind, hk, if_neg (fun h => hlink h.2.2)]
  change wp (exec u (getK >>= fun k => setK (k.setI i { k.itab i with ref := (k.itab i).ref - 1 }))) Q E _
  rw [exec_bind, exec_getK, hk, exec_setK]
  have heq : ((s.load sb i).got j).setK (((s.load sb i).got j).k.setI i
      ⟨1 - 1, true, getDinode (s.blk (sb.iblock i)) (dinodeOff i)⟩) = (s.forget sb i).got j := by
    simp only [Store.load, Store.got, Store.forget, Store.setK, Kernel.setI, update_of_ne hne]
    rw [update_comm hne, update_idem]
  exact heq ▸ hQ

theorem pathElems_single {name} (hne : name ≠ []) (hs : slash ∉ name) :
    pathElems (slash :: name).length (slash :: name) = [name.take dirsiz] := by
  have hall : ∀ c ∈ name, c ≠ slash := fun c hc h => hs (h ▸ hc)
  have hdrop : (slash :: name).dropWhile (· = slash) = name := by
    cases name with
    | nil => exact absurd rfl hne
    | cons c cs => simp [hall c (by simp)]
  have htake : name.takeWhile (· ≠ slash) = name := List.takeWhile_eq_self_iff.mpr (by simpa using hall)
  have hrest : name.dropWhile (· ≠ slash) = [] := List.dropWhile_eq_nil_iff.mpr (by simpa using hall)
  have hskip : skipelem (slash :: name) = some (name.take dirsiz, []) := by
    simp only [skipelem, hdrop, if_neg hne, htake, hrest, List.dropWhile_nil]
  have hnil : ∀ n, pathElems n [] = [] := fun n => by cases n <;> rfl
  rw [List.length_cons, pathElems, hskip]
  simp only [hnil]

theorem namei_spec {p inum name Q} (hsb : sb.Ok)
    (ho : Owned sb s.blk (s.ino sb)) (hcold : s.Cold) (hroot : sb.Live (s.ino sb) rootino)
    (hdir : (s.ino sb rootino).type = tDir) (hlink : (s.ino sb rootino).nlink ≠ 0) (hname : name ≠ []) (hs : slash ∉ name)
    (h : Hit sb s rootino (name.take dirsiz) m inum) (hne : inum ≠ rootino)
    (hQ : Q (some inum) ((s.forget sb rootino).got inum)) : wp (exec u (namei sb p (slash :: name))) Q E s := by
  have hino : (s.load sb rootino).ino sb = s.ino sb := load_ino hcold
  have hcached := load_cached hcold hroot
  rw [hcold.ino] at hlink
  rw [namei, exec_bind, namex, pathElems_single hname hs]
  change wp (exec u (iget sb rootino >>= _)) _ E s
  rw [exec_bind]
  refine iget_spec (hcold _) (cold_active hcold) ?_
  rw [namexLoop, exec_bind]
  refine ilock_got (by rw [← hcold.ino]; exact hroot.2) ?_
  rw [exec_bind, exec_inode, ← hcached.ino_eq, hino, if_neg (fun hn => hn hdir), if_neg
      (fun hp => by cases hp.1), exec_bind]
  refine dirlookup_spec hsb (by rw [hino]; exact ho) hcached (by rw [hino]; exact hdir) (h.congr hino rfl)
    (load_ref hcold hne) (load_active hcold) ?_
  change wp (exec u (iunlockput sb rootino >>= _)) _ E _
  rw [exec_bind]
  exact iunlockput_load hlink hne hQ

end Xv6.Fs
