import Xv6.Fs.Lemmas.Lookup
import Xv6.Mkfs.Lemmas.Build

/-!
# `mkfs` とカーネル
-/

namespace Xv6.Mkfs

open Xv6.Lib List
open Xv6.Fs

variable {img : Img} {fs : List Input} {f : Input} {u : User} {s : Store} {b : Bytes} {name : Name} {k inum : Nat}

theorem direntInum_of (h : ∀ o, o < direntSize → b o = direntBytes name inum o) (hi : inum < 2 ^ 16) :
    direntInum b 0 = inum := by
  have hc : getLE b 0 2 = getLE (direntBytes name inum) 0 2 := getLE_congr fun o _ ho => h o (by rw [direntSize]; omega)
  rw [direntInum, hc]
  exact getLE_putLE_self hi

theorem direntName_of (h : ∀ o, o < direntSize → b o = direntBytes name inum o) (hz : (0 : UInt8) ∉ name) :
    direntName b 0 = name.take dirsiz := by
  have hbytes : (List.range dirsiz).map (fun o => b (0 + 2 + o)) =
      name.take dirsiz ++ List.replicate (dirsiz - name.length) 0 := by
    refine ext_getElem (by simp; omega) fun o h1 _ => ?_
    have ho : o < dirsiz := by simpa using h1
    have hb : b (0 + 2 + o) = name.getD o 0 := by
      rw [h _ (by simp only [dirsiz, direntSize] at *; omega), direntBytes, putLE_of_ge (by omega)]
      congr 1
      omega
    rw [getElem_map, getElem_range, hb, getElem_append]
    split
    · rename_i hlt
      have : o < name.length := by
        rw [length_take] at hlt
        omega
      simp [List.getD, this]
    · rename_i hge
      have : ¬o < name.length := by
        rw [length_take] at hge
        omega
      simp [List.getD, this]
  have hne : ∀ c ∈ name.take dirsiz, decide (c ≠ 0) = true := fun c hc => by
    have : c ≠ 0 := fun h0 => hz (h0 ▸ mem_of_mem_take hc)
    simpa using this
  rw [direntName, hbytes, takeWhile_append_of_pos hne]
  cases dirsiz - name.length <;> simp [replicate_succ]

theorem getD_flatMap {α : Type} {l : List α} {g : α → List UInt8} {c y o : Nat} {a : α} (hc : ∀ x, (g x).length = c)
    (hy : l[y]? = some a) (ho : o < c) : (l.flatMap g).getD (c * y + o) 0 = (g a).getD o 0 := by
  induction l generalizing y with
  | nil => simp at hy
  | cons x l ih =>
    rw [flatMap_cons]
    cases y with
    | zero =>
      simp only [getElem?_cons_zero, Option.some.injEq] at hy
      subst hy
      rw [Nat.mul_zero, Nat.zero_add, getD_append _ _ _ _ (by rw [hc]; exact ho)]
    | succ y =>
      rw [getElem?_cons_succ] at hy
      have hge : c * (y + 1) + o - c = c * y + o := by
        rw [Nat.mul_succ]
        omega
      rw [getD_append_right _ _ _ _ (by rw [hc, Nat.mul_succ]; omega), hc, hge, ih hy]

/-! ## 像の上のカーネル -/

/-- `mkfs` に渡すファイルの条件。名前は C の文字列で、先頭の `DIRSIZ` バイトが互いに異なる。 -/
structure Accepts (fs : List Input) : Prop where
  count : fs.length ≤ ninodes - 2
  cstr : ∀ f ∈ fs, (0 : UInt8) ∉ f.arg
  slash : ∀ f ∈ fs, slash ∉ f.base
  nonempty : ∀ f ∈ fs, f.shortname ≠ []
  dots : ∀ f ∈ fs, f.shortname ≠ dot ∧ f.shortname ≠ dotdot
  distinct : (fs.map fun f => f.shortname.take dirsiz).Nodup
  size : ∀ f ∈ fs, f.content.length ≤ maxfile * bsize
  room : need fs ≤ fssize

theorem base_mem {c} (h : c ∈ f.base) : c ∈ f.arg := by
  unfold Input.base at h
  split at h
  · exact mem_of_mem_drop h
  · exact h

theorem shortname_mem {c} (h : c ∈ f.shortname) : c ∈ f.base := by
  unfold Input.shortname at h
  split at h
  · exact mem_of_mem_tail h
  · exact h

structure Booted (img : Img) (s : Store) : Prop where
  blk : s.blk = img.vblk
  cold : s.Cold

theorem Booted.ino (h : Booted img s) : s.ino sb = img.disk.ino sb := by
  funext j
  rw [h.cold.ino, h.blk, disk_ino]

theorem Booted.byte (h : Booted img s) (i : Nat) : s.byte sb i = img.disk.byte sb i := by
  funext p
  rw [Store.byte, h.ino, h.blk]
  rfl

theorem Finished.direntAt (h : Finished img fs) (hs : Booted img s) {y : Nat} {e : Name × Nat} (he :
    (entries fs)[y]? = some e) :
    ∀ o, o < direntSize → s.direntAt sb rootino y o = direntBytes e.1 e.2 o := by
  intro o ho
  obtain ⟨hy, -⟩ := List.getElem?_eq_some_iff.mp he
  have hlt : direntSize * y + o < (rootBytes fs).length := by
    rw [rootBytes_length, ← entries_length]
    calc direntSize * y + o < direntSize * y + direntSize := by omega
      _ = direntSize * (y + 1) := rfl
      _ ≤ direntSize * (entries fs).length := Nat.mul_le_mul_left _ hy
  rw [Store.direntAt, blit_in (Nat.zero_le _) (by omega), Nat.sub_zero, hs.byte, h.byte _ hlt, rootBytes,
    getD_flatMap dirent_length he ho]
  simp [dirent, List.getD, ho]

theorem entries_file (hk : fs[k]? = some f) : (entries fs)[k + 2]? = some (f.shortname, k + 2) := by
  simp [entries, hk, Nat.add_comm]

theorem Accepts.apart (h : Accepts fs) (hk : fs[k]? = some f) {y} (hy : y < k + 2) {e}
    (he : (entries fs)[y]? = some e) : (0 : UInt8) ∉ e.1 ∧ e.1.take dirsiz ≠ f.shortname.take dirsiz := by
  have hf := mem_of_getElem? hk
  have hshort : ∀ d : Name, d.length < dirsiz → f.shortname ≠ d →
      d.take dirsiz ≠ f.shortname.take dirsiz := fun d hd hne heq => by
    rw [take_of_length_le (Nat.le_of_lt hd)] at heq
    have hlen := congrArg List.length heq
    rw [length_take] at hlen
    rw [take_of_length_le (by omega)] at heq
    exact hne heq.symm
  match y with
  | 0 =>
    cases he
    exact ⟨by decide, hshort dot (by decide) (h.dots f hf).1⟩
  | 1 =>
    cases he
    exact ⟨by decide, hshort dotdot (by decide) (h.dots f hf).2⟩
  | y + 2 =>
    obtain ⟨g, hg⟩ : ∃ g, fs[y]? = some g := by
      obtain ⟨hlt, -⟩ := List.getElem?_eq_some_iff.mp hk
      exact ⟨fs[y], List.getElem?_eq_getElem (by omega)⟩
    rw [entries_file hg] at he
    cases he
    refine ⟨fun hz => h.cstr g (mem_of_getElem? hg) (base_mem (shortname_mem hz)), fun heq => ?_⟩
    have h1 : (fs.map fun f => f.shortname.take dirsiz)[y]? = some (g.shortname.take dirsiz) := by simp [hg]
    have h2 : (fs.map fun f => f.shortname.take dirsiz)[k]? = some (g.shortname.take dirsiz) := by
      rw [show g.shortname.take dirsiz = f.shortname.take dirsiz from heq]
      simp [hk]
    obtain ⟨hlt, -⟩ := List.getElem?_eq_some_iff.mp h1
    have := (List.getElem?_inj hlt h.distinct).mp (h1.trans h2.symm)
    omega

theorem Finished.hit (h : Finished img fs) (ha : Accepts fs) (hs : Booted img s) (hk : fs[k]? = some f) :
    Hit sb s rootino (f.shortname.take dirsiz) (k + 2) (k + 2) := by
  obtain ⟨hlt, -⟩ := List.getElem?_eq_some_iff.mp hk
  have hle : direntSize * (k + 2 + 1) ≤ direntSize * (fs.length + 2) := Nat.mul_le_mul_left _ (by omega)
  have hcount := ha.count
  have hz : (0 : UInt8) ∉ f.shortname := fun h0 =>
    ha.cstr f (mem_of_getElem? hk) (base_mem (shortname_mem h0))
  have hat := h.direntAt hs (entries_file hk)
  constructor
  case size =>
    rw [hs.ino]
    exact Nat.le_trans hle h.size
  case small =>
    rw [hs.ino]
    exact h.small
  case mapped =>
    intro p hp
    rw [Store.Mapped, hs.ino, hs.blk]
    exact h.mapped p (by rw [rootBytes_length]; omega)
  case miss =>
    intro y hy hboth
    obtain ⟨e, he⟩ : ∃ e, (entries fs)[y]? = some e :=
      ⟨_, List.getElem?_eq_getElem (by rw [entries_length]; omega)⟩
    obtain ⟨hnz, hne⟩ := ha.apart hk hy he
    exact hne ((direntName_of (h.direntAt hs he) hnz).symm.trans hboth.2)
  case target =>
    refine direntInum_of hat ?_
    simp only [ninodes] at hcount
    omega
  case pos => omega
  case title => exact direntName_of hat hz

def nameiLock (sb : Superblock) (p : Nat) (path : List UInt8) : FsM (Option Nat) := do
  match ← namei sb p path with
  | some ip =>
    ilock sb ip
    return some ip
  | none => return none

theorem readsb_sbBlock : readsb sbBlock = sb := by
  simp only [readsb, sb, Superblock.mk.injEq]
  decide +kernel

theorem Finished.reads {p} (h : Finished img fs) (ha : Accepts fs) (hs : Booted img s) (hk : fs[k]? = some f) :
    ∃ t, exec u (nameiLock sb p (slash :: f.shortname)) s = .ok (some (k + 2), t) ∧
      Reads u sb t (k + 2) f.content.length (bytesOf f.content) := by
  have hmem := mem_of_getElem? hk
  have hroot : sb.Live (img.disk.ino sb) rootino := ⟨by decide, by rw [h.type]; decide⟩
  have hfile := h.file k f hk
  have hslash : slash ∉ f.shortname := fun hc => ha.slash f hmem (shortname_mem hc)
  -- `namei` の後も、どの inode もディスクと同じである。
  have hcold : (s.forget sb rootino).Cold := forget_cold hs.cold
  have hb : Booted img (s.forget sb rootino) := ⟨hs.blk, hcold⟩
  have hlive : sb.Live ((s.forget sb rootino).ino sb) (k + 2) := by
    rw [hb.ino]
    exact hfile.isLive
  have hino : ((s.forget sb rootino).load sb (k + 2)).ino sb = img.disk.ino sb := (load_ino hcold).trans hb.ino
  have hblk : ((s.forget sb rootino).load sb (k + 2)).blk = img.vblk := hs.blk
  have hrun : wp (exec u (nameiLock sb p (slash :: f.shortname)))
      (fun r t => r = some (k + 2) ∧ t = (s.forget sb rootino).load sb (k + 2)) (fun _ => False) s := by
    rw [nameiLock, exec_bind]
    refine namei_spec sb_ok (by rw [hs.ino, hs.blk]; exact h.sane.owned) hs.cold (by rw [hs.ino]; exact hroot)
      (by rw [hs.ino]; exact h.type) (by rw [hs.ino, h.nlink]; decide) (ha.nonempty f hmem) hslash (h.hit ha hs hk)
      (by rw [rootino]; omega) ?_
    change wp (exec u (ilock sb (k + 2) >>= _)) _ _ _
    rw [exec_bind]
    refine ilock_got (by rw [← hcold.ino]; exact hlive.2) ?_
    exact ⟨rfl, rfl⟩
  obtain ⟨r, t, hexec, rfl, rfl⟩ := wp_exists hrun
  refine ⟨_, hexec, ?_⟩
  have hreads := reads_byte (u := u) sb_ok (by rw [hino, hblk]; exact h.sane.owned)
    ⟨load_cached hcold hlive, by rw [hino, hblk]; exact hfile.full⟩
  rw [hino, hfile.size] at hreads
  refine hreads.congr fun x hx => ?_
  rw [Store.byte, hino, hblk]
  exact hfile.byte x hx

/-- `mkfs` は、条件を満たすファイルの像を必ず書き終える。ビットマップは管理のブロックと渡したブロックだけを使用中とし、起
動したカーネルは、どのファイルもその名前で見つけ、中身をちょうど読む。 -/
theorem mkfs_kernel_agree (h : Accepts fs) :
    ∃ disk, mkfs fs = some disk ∧ readsb (disk.blk 1) = sb ∧
      (∀ c, c < bpb → ((readsb (disk.blk 1)).used disk.blk c = true ↔ c < nmeta ∨ c ∈ disk.given)) ∧
      ∀ f ∈ fs, ∀ (u : User) (p : Nat) (kernel : Kernel) (umem : Bytes), (∀ j, (kernel.itab j).ref = 0) →
        ∃ ip t, exec u (nameiLock (readsb (disk.blk 1)) p (slash :: f.shortname)) ⟨disk.blk, kernel, umem⟩ =
            .ok (some ip, t) ∧
          Reads u (readsb (disk.blk 1)) t ip f.content.length (bytesOf f.content) := by
  have hcount := h.count
  have hlen : fs.length + 2 ≤ ninodes := by
    simp only [ninodes] at *
    omega
  obtain ⟨img, disk, hrun, hblk, hgiven, hfin⟩ := mkfs_spec (fun f hf => ⟨h.slash f hf, h.size f hf⟩) hlen h.room
  have hone : disk.blk 1 = sbBlock := by
    rw [hblk, vblk_of_ne (by decide), hfin.sane.super]
  have hlow := hfin.sane.low
  refine ⟨disk, hrun, ?_⟩
  rw [hone, readsb_sbBlock]
  refine ⟨rfl, fun c hc => ?_, fun f hf u p kernel umem hcold => ?_⟩
  · rw [hblk, used_vblk hc, decide_eq_true_eq, hgiven, hfin.sane.given]
    omega
  · obtain ⟨k, hk⟩ := getElem?_of_mem hf
    have hboot : Booted img ⟨disk.blk, kernel, umem⟩ := ⟨hblk, hcold⟩
    obtain ⟨t, hexec, hreads⟩ := hfin.reads (u := u) (p := p) h hboot hk
    exact ⟨k + 2, t, hexec, hreads⟩

def exampleFiles : List Input :=
  [⟨userDir ++ [95, 99, 97, 116], [[127, 69], [76]]⟩, ⟨[82, 69, 65, 68, 77, 69], [[120, 118, 54]]⟩]

theorem exampleFiles_accepts : Accepts exampleFiles where
  count := by decide
  cstr := by decide
  slash := by decide
  nonempty := by decide
  dots := by decide
  distinct := by decide
  size := by decide
  room := by decide

theorem mkfs_kernel_agree_cat : ∃ disk, mkfs exampleFiles = some disk ∧
    ∃ ip t, exec exampleUser (nameiLock (readsb (disk.blk 1)) 0 [47, 99, 97, 116]) ⟨disk.blk, boot, fun _ => 0⟩ =
        .ok (some ip, t) ∧ Reads exampleUser (readsb (disk.blk 1)) t ip 3 (bytesOf [127, 69, 76]) := by
  obtain ⟨disk, hrun, -, -, hfile⟩ := mkfs_kernel_agree exampleFiles_accepts
  exact ⟨disk, hrun, hfile _ (mem_cons_self ..) exampleUser 0 boot (fun _ => 0) fun _ => rfl⟩

end Xv6.Mkfs
