import Xv6.Mkfs.Mkfs

/-!
# カーネルから見た像
-/

namespace Xv6.Mkfs

open Xv6.Lib
open Xv6.Fs

variable {img : Img} {din : Dinode} {i j b : Nat}

theorem sb_ok : sb.Ok := ⟨by decide, by decide⟩

theorem datastart_eq : sb.datastart = nmeta := rfl

theorem bmapstart_lt_nmeta : sb.bmapstart < nmeta := by decide

theorem bit_bitmap (n c : Nat) : bit (bitmap n) c = decide (c < n) := by
  induction n with
  | zero => simp [bitmap, bit]
  | succ n ih =>
    rw [bitmap, bit_setBit, ih, ← Bool.decide_or, decide_eq_decide]
    omega

def Img.vblk (img : Img) : Nat → Block := update img.blk sb.bmapstart (bitmap img.freeblock)

theorem vblk_of_ne (h : b ≠ sb.bmapstart) : img.vblk b = img.blk b := update_of_ne h _ _

theorem vblk_wsect {x} (h : b ≠ sb.bmapstart) : (img.wsect b x).vblk = update img.vblk b x :=
  update_comm h _ _ _

theorem lt_bpb (h : b < fssize) : b < bpb := Nat.lt_trans h (by decide)

theorem bblock_eq (h : b < bpb) : sb.bblock b = sb.bmapstart := by
  rw [Superblock.bblock, Nat.div_eq_of_lt h, Nat.zero_add]

/-- カーネルから見て使用中なのは、`freeblock` より前のブロックである。 -/
theorem used_vblk (h : b < bpb) : sb.used img.vblk b = decide (b < img.freeblock) := by
  rw [Superblock.used, bblock_eq h, Nat.mod_eq_of_lt h, Img.vblk, update_self, bit_bitmap]

theorem iblock_ne (h : i < ninodes) : sb.iblock i ≠ sb.bmapstart := Nat.ne_of_lt (sb_ok.iblock_lt h)

theorem iblock_lt_nmeta (h : i < ninodes) : sb.iblock i < nmeta :=
  Nat.lt_trans (sb_ok.iblock_lt h) bmapstart_lt_nmeta

def boot : Kernel where
  itab _ := ⟨0, false, .empty 0⟩
  files _ := ⟨.none, 0, false, false, 0, 0, 0⟩
  procs _ := ⟨false, fun _ => none, none⟩

def Img.disk (img : Img) : Store := ⟨img.vblk, boot, fun _ => 0⟩

def Img.store (img : Img) (i : Nat) (din : Dinode) : Store := img.disk.setK (boot.setI i ⟨1, true, din⟩)

@[simp] theorem store_blk : (img.store i din).blk = img.vblk := rfl

theorem store_itab : ((img.store i din).k.itab i).d = din := by simp [Img.store, Store.setK, Kernel.setI]

theorem store_setD {d} : (img.store i din).setD i d = img.store i d := by
  simp [Img.store, Store.setD, Store.setK, Kernel.setI]

theorem store_ino_self : (img.store i din).ino sb i = din := by
  simp [Store.ino, Img.store, Store.setK, Kernel.setI]

theorem disk_ino (j : Nat) : img.disk.ino sb j = getDinode (img.vblk (sb.iblock j)) (dinodeOff j) := by
  simp [Store.ino, Img.disk, boot]

theorem store_ino_of_ne (h : j ≠ i) : (img.store i din).ino sb j = img.disk.ino sb j := by
  rw [disk_ino]
  simp [Store.ino, Img.store, Store.setK, Kernel.setI, h, boot, Img.disk]

theorem store_cached (hi : i < ninodes) (hd : din.type ≠ 0) : (img.store i din).Cached sb i where
  lt := hi
  ref := by simp [Img.store, Store.setK, Kernel.setI]
  valid := by simp [Img.store, Store.setK, Kernel.setI]
  type := by rwa [store_itab]

theorem store_wsect {x} (h : b ≠ sb.bmapstart) : (img.wsect b x).store i din = (img.store i din).setBlk b x := by
  simp [Img.store, Img.disk, Store.setK, Store.setBlk, vblk_wsect h]

/-- `freeblock` を一つ進めることは、カーネルの `balloc` と同じ変化である。 -/
theorem store_take (hlo : nmeta ≤ img.freeblock) (hhi : img.freeblock < fssize)
    (hz : img.blk img.freeblock = fun _ => 0) : img.take.store i din = (img.store i din).alloc sb img.freeblock := by
  have hne : img.freeblock ≠ sb.bmapstart := by
    have := bmapstart_lt_nmeta
    omega
  have hm := lt_bpb hhi
  have hblk : img.take.vblk = ((img.store i din).alloc sb img.freeblock).blk := by
    funext c
    simp only [Store.alloc, setBlk_blk, store_blk, bblock_eq hm, Nat.mod_eq_of_lt hm]
    by_cases hc : c = img.freeblock
    · subst hc
      rw [update_self, update_of_ne hne, vblk_of_ne hne, vblk_of_ne hne]
      funext x
      simp [Img.take, hz, fill]
    rw [update_of_ne hc]
    by_cases hcb : c = sb.bmapstart
    · subst hcb
      simp [Img.vblk, Img.take, bitmap]
    · rw [update_of_ne hcb, vblk_of_ne hcb, vblk_of_ne hcb]
      rfl
  unfold Img.store Img.disk
  rw [hblk]
  rfl

end Xv6.Mkfs
