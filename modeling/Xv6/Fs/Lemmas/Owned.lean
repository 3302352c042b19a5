import Xv6.Fs.Lemmas.Alloc

/-!
# ブロックの持ち方
-/

namespace Xv6.Fs

open Xv6.Lib

variable {sb : Superblock} {s s' s'' : Store} {blk blk' : Nat → Block} {ino ino' : Nat → Dinode} {b c i j k l : Nat}

theorem Dinode.slot_congr {d : Dinode} (h : d.addrs ndirect ≠ 0 → blk' (d.addrs ndirect) = blk (d.addrs ndirect))
    (k : Nat) :
    d.slot blk' k = d.slot blk k := by
  unfold Dinode.slot
  split
  · rfl
  · split
    · rfl
    · rename_i hne
      rw [h hne]

theorem slotOf_lt {bn} (h : bn < maxfile) : slotOf bn < nslots := by
  simp only [slotOf, nslots, maxfile] at *
  split <;> omega

theorem slotOf_ne (bn : Nat) : slotOf bn ≠ ndirect := by
  simp only [slotOf]
  split <;> omega

theorem slotOf_inj {bn bm} (h : slotOf bn = slotOf bm) : bn = bm := by
  simp only [slotOf] at h
  split at h <;> split at h <;> omega

theorem ndirect_lt_nslots : ndirect < nslots := by decide

namespace Superblock.Ok

theorem bblock_lt (hc : c < sb.size) : sb.bblock c < sb.datastart := by
  have : c / bpb ≤ sb.size / bpb := Nat.div_le_div_right (Nat.le_of_lt hc)
  simp only [Superblock.bblock, Superblock.datastart]
  omega

theorem le_bblock (sb : Superblock) (c : Nat) : sb.bmapstart ≤ sb.bblock c := Nat.le_add_left _ _

theorem iblock_lt (h : sb.Ok) (hi : i < sb.ninodes) : sb.iblock i < sb.bmapstart := by
  have hlt := h.inodes
  have : i / ipb ≤ sb.ninodes / ipb := Nat.div_le_div_right (Nat.le_of_lt hi)
  simp only [Superblock.iblock]
  omega

theorem bmapstart_lt (sb : Superblock) : sb.bmapstart < sb.datastart := Nat.lt_succ_of_le (Nat.le_add_right _ _)

end Superblock.Ok

structure Spare (sb : Superblock) (blk : Nat → Block) (b : Nat) : Prop where
  data : sb.datastart ≤ b
  lt : b < sb.size
  free : sb.used blk b = false

theorem Spare.pos (h : Spare sb blk b) : b ≠ 0 := by
  have := h.data
  have := Superblock.Ok.bmapstart_lt sb
  omega

theorem Owned.spare (h : Owned sb blk ino) (hlt : b < sb.size) (hfree : sb.used blk b = false) : Spare sb blk b where
  data := by
    by_contra hd
    rw [h.kept b (by omega) hlt] at hfree
    cases hfree
  lt := hlt
  free := hfree

namespace Spare

theorem alloc_other (hc : c ≠ b) (hb : c ≠ sb.bblock b) : (s.alloc sb b).blk c = s.blk c := by
  simp [Store.alloc, hc, hb]

section

variable (h : Spare sb s.blk b)
include h

theorem alloc_low (hc : c < sb.bmapstart) : (s.alloc sb b).blk c = s.blk c := by
  have h1 := h.data
  have h2 := Superblock.Ok.le_bblock sb b
  have h3 := Superblock.Ok.bmapstart_lt sb
  exact alloc_other (by omega) (by omega)

theorem alloc_data (hc : sb.datastart ≤ c) (hne : c ≠ b) : (s.alloc sb b).blk c = s.blk c := by
  have := Superblock.Ok.bblock_lt h.lt
  exact alloc_other hne (by omega)

theorem alloc_zero : (s.alloc sb b).blk b = fill (s.blk b) 0 bsize := by
  have h1 := h.data
  have h2 := Superblock.Ok.bblock_lt h.lt
  have hne : b ≠ sb.bblock b := by omega
  simp [Store.alloc, hne]

theorem alloc_used (hc : c < sb.size) :
    sb.used (s.alloc sb b).blk c = (decide (c = b) || sb.used s.blk c) := by
  have h1 := h.data
  have h2 := Superblock.Ok.bblock_lt hc
  have hne : sb.bblock c ≠ b := by omega
  by_cases hblk : sb.bblock c = sb.bblock b
  · have hmod : b % bpb = c % bpb ↔ c = b := by
      simp only [Superblock.bblock, bpb] at *
      omega
    rw [hblk] at hne
    simp only [Superblock.used, Store.alloc, setBlk_blk, hblk, update_of_ne hne, update_self, bit_setBit,
      hmod]
  · have hcb : c ≠ b := fun h => hblk (by rw [h])
    simp [Superblock.used, Store.alloc, update_of_ne hne, update_of_ne hblk, hcb]

end

end Spare

/-- どの欄も、元から生きていた inode の同じ欄でなければ何も指さない。 -/
theorem Owned.of_kept (h : Owned sb blk ino)
    (hslot : ∀ j l, sb.Live ino' j → (ino' j).slot blk' l ≠ 0 → sb.Live ino j ∧ (ino' j).slot blk' l = (ino j).slot blk l)
    (hused : ∀ j l, sb.Live ino' j → sb.Live ino j → l < nslots → (ino j).slot blk l ≠ 0 →
      sb.used blk' ((ino j).slot blk l) = true)
    (hkept : ∀ c, c < sb.datastart → c < sb.size → sb.used blk' c = true) : Owned sb blk' ino' where
  region j l hj hl hne := by
    obtain ⟨hj0, he⟩ := hslot j l hj hne
    rw [he] at hne ⊢
    exact h.region j l hj0 hl hne
  used j l hj hl hne := by
    obtain ⟨hj0, he⟩ := hslot j l hj hne
    rw [he] at hne ⊢
    exact hused j l hj hj0 hl hne
  unique j l j' l' hj hj' hl hl' hne heq := by
    obtain ⟨hj0, he⟩ := hslot j l hj hne
    obtain ⟨hj0', he'⟩ := hslot j' l' hj' (heq ▸ hne)
    rw [he] at hne heq
    rw [he'] at heq
    exact h.unique j l j' l' hj0 hj0' hl hl' hne heq
  kept := hkept

theorem Owned.of_slots (h : Owned sb blk ino) (hlive : ∀ j, sb.Live ino' j ↔ sb.Live ino j)
    (hslot : ∀ j l, sb.Live ino j → (ino' j).slot blk' l = (ino j).slot blk l)
    (hused : ∀ c, c < sb.size → sb.used blk' c = sb.used blk c) : Owned sb blk' ino' := by
  refine h.of_kept (fun j l hj _ => ?_) (fun j l _ hj hl hne => ?_) fun c hd hc => ?_
  · rw [hlive] at hj
    exact ⟨hj, hslot j l hj⟩
  · rw [hused _ (h.region j l hj hl hne).2]
    exact h.used j l hj hl hne
  · rw [hused c hc]
    exact h.kept c hd hc

structure Extended (sb : Superblock) (i k b : Nat) (blk blk' : Nat → Block) (ino ino' : Nat → Dinode) : Prop where
  live : ∀ j, sb.Live ino' j ↔ sb.Live ino j
  slot : ∀ j l, sb.Live ino j → l < nslots → (ino' j).slot blk' l = if j = i ∧ l = k then b else (ino j).slot blk l
  used : ∀ c, c < sb.size → sb.used blk' c = (decide (c = b) || sb.used blk c)

/-- 空きのブロックを一つのスロットに付けても、二重に指されるブロックは無い。 -/
theorem Owned.extend (h : Owned sb blk ino) (hb : Spare sb blk b) (he : Extended sb i k b blk blk' ino ino') :
    Owned sb blk' ino' where
  region j l hj hl hne := by
    rw [he.live] at hj
    rw [he.slot j l hj hl] at hne ⊢
    split
    · exact ⟨hb.data, hb.lt⟩
    · rename_i hjl
      rw [if_neg hjl] at hne
      exact h.region j l hj hl hne
  used j l hj hl hne := by
    rw [he.live] at hj
    rw [he.slot j l hj hl] at hne ⊢
    split
    · rw [he.used b hb.lt]
      simp
    · rename_i hjl
      rw [if_neg hjl] at hne
      rw [he.used _ (h.region j l hj hl hne).2, h.used j l hj hl hne, Bool.or_true]
  unique j l j' l' hj hj' hl hl' hne heq := by
    rw [he.live] at hj hj'
    rw [he.slot j l hj hl] at hne heq
    rw [he.slot j' l' hj' hl'] at heq
    -- 新しいブロックは使われていなかったので、ほかの欄のブロックと異なる。
    have hnew : ∀ x y, sb.Live ino x → y < nslots → (ino x).slot blk y ≠ b := fun x y hx hy hxy => by
      have := h.used x y hx hy (hxy ▸ hb.pos)
      rw [hxy, hb.free] at this
      cases this
    split at heq
    · rename_i h1
      split at heq
      · rename_i h2
        exact ⟨h1.1.trans h2.1.symm, h1.2.trans h2.2.symm⟩
      · exact absurd heq.symm (hnew j' l' hj' hl')
    · rename_i h1
      rw [if_neg h1] at hne
      split at heq
      · exact absurd heq (hnew j l hj hl)
      · exact h.unique j l j' l' hj hj' hl hl' hne heq
  kept c hd hc := by
    rw [he.used c hc, h.kept c hd hc, Bool.or_true]

/-- inode `i` の欄が増え、位置 `W` のバイトが書き換えられた。ほかは変わらない。 -/
structure Grows (sb : Superblock) (i : Nat) (W : Nat → Prop) (s s' : Store) : Prop where
  owned : Owned sb s'.blk (s'.ino sb)
  umem : s'.umem = s.umem
  addrs : ∃ a, s'.k = (s.setD i { (s.k.itab i).d with addrs := a }).k
  low : ∀ c, c < sb.bmapstart → s'.blk c = s.blk c
  slot : ∀ j l, sb.Live (s.ino sb) j → l < nslots → (s'.ino sb j).slot s'.blk l = (s.ino sb j).slot s.blk l ∨
    j = i ∧ (s.ino sb i).slot s.blk l = 0
  data : ∀ j bn o, sb.Live (s.ino sb) j → bn < maxfile → (s.ino sb j).block s.blk bn ≠ 0 → o < bsize →
    (j = i → ¬W (bn * bsize + o)) →
    s'.blk ((s.ino sb j).block s.blk bn) o = s.blk ((s.ino sb j).block s.blk bn) o
  fresh : ∀ c, c < sb.size → sb.used s'.blk c = true → sb.used s.blk c = true ∨
    c ≠ 0 ∧ ∃ l, l < nslots ∧ (s'.ino sb i).slot s'.blk l = c
  keep : ∀ c, c < sb.size → sb.used s.blk c = true → sb.used s'.blk c = true

namespace Store.Cached

section

variable (h : s.Cached sb i)
include h

theorem ino_eq : s.ino sb i = (s.k.itab i).d := by rw [Store.ino, if_pos ⟨h.ref, h.valid⟩]

theorem live : sb.Live (s.ino sb) i := ⟨h.lt, by rw [h.ino_eq]; exact h.type⟩

theorem setD {d} (hd : d.type ≠ 0) : (s.setD i d).Cached sb i where
  lt := h.lt
  ref := by simpa using h.ref
  valid := by simpa using h.valid
  type := by simpa using hd

theorem of_itab (hk : s'.k.itab i = s.k.itab i) : s'.Cached sb i where
  lt := h.lt
  ref := by rw [hk]; exact h.ref
  valid := by rw [hk]; exact h.valid
  type := by rw [hk]; exact h.type

theorem of_k (hk : s'.k = s.k) : s'.Cached sb i := h.of_itab (by rw [hk])

end

end Store.Cached

theorem ino_setD (hne : j ≠ i) {d} : (s.setD i d).ino sb j = s.ino sb j := by
  simp [Store.ino, hne]

theorem ino_congr (hk : s'.k.itab j = s.k.itab j) (hb : s'.blk (sb.iblock j) = s.blk (sb.iblock j)) :
    s'.ino sb j = s.ino sb j := by
  rw [Store.ino, Store.ino, hk, hb]

end Xv6.Fs
