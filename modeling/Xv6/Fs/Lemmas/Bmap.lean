import Xv6.Fs.Lemmas.Owned

/-!
# `bmap`
-/

namespace Xv6.Fs

open Xv6.Lib

variable {sb : Superblock} {u : User} {E : String → Prop} {s s' s'' : Store} {b i j k l : Nat} {W W' : Nat → Prop}

/-- 一つのスロットに空きを付けただけの変化は `Grows` である。 -/
theorem Grows.of_extended (ho : Owned sb s.blk (s.ino sb)) (hi : s.Cached sb i) (hb : Spare sb s.blk b) (hk : k < nslots)
    (hzero : (s.ino sb i).slot s.blk k = 0) (he : Extended sb i k b s.blk s'.blk (s.ino sb) (s'.ino sb))
    (humem : s'.umem = s.umem) (haddrs : ∃ a, s'.k = (s.setD i { (s.k.itab i).d with addrs := a }).k)
    (hlow : ∀ c, c < sb.bmapstart → s'.blk c = s.blk c)
    (hdata : ∀ j l, sb.Live (s.ino sb) j → l < nslots → l ≠ ndirect → (s.ino sb j).slot s.blk l ≠ 0 →
      s'.blk ((s.ino sb j).slot s.blk l) = s.blk ((s.ino sb j).slot s.blk l)) : Grows sb i W s s' where
  owned := ho.extend hb he
  umem := humem
  addrs := haddrs
  low := hlow
  slot j l hj hl := by
    rw [he.slot j l hj hl]
    split
    · rename_i h
      obtain ⟨rfl, rfl⟩ := h
      exact .inr ⟨rfl, hzero⟩
    · exact .inl rfl
  data j bn o hj hbn hne _ _ := congrFun (hdata j _ hj (slotOf_lt hbn) (slotOf_ne bn) hne) o
  fresh c hc hused := by
    rw [he.used c hc, Bool.or_eq_true, decide_eq_true_eq] at hused
    rcases hused with rfl | hused
    · exact .inr ⟨hb.pos, k, hk, by rw [he.slot i k hi.live hk, if_pos ⟨rfl, rfl⟩]⟩
    · exact .inl hused
  keep c hc hused := by rw [he.used c hc, hused, Bool.or_true]

theorem Owned.slot_ne (ho : Owned sb s.blk (s.ino sb)) (hb : Spare sb s.blk b) (hj : sb.Live (s.ino sb) j) (hl : l < nslots)
    (hne : (s.ino sb j).slot s.blk l ≠ 0) : (s.ino sb j).slot s.blk l ≠ b := by
  intro h
  have := ho.used j l hj hl hne
  rw [h, hb.free] at this
  cases this

theorem Dinode.slot_addr {d : Dinode} {blk : Nat → Block} (hk : k ≤ ndirect) : d.slot blk k = d.addrs k := by
  rw [Dinode.slot, if_pos hk]

theorem Dinode.slot_entry {d : Dinode} {blk : Nat → Block} (hk : ndirect < k) (hne : d.addrs ndirect ≠ 0) :
    d.slot blk k = indirect (blk (d.addrs ndirect)) (k - (ndirect + 1)) := by
  rw [Dinode.slot, if_neg (by omega), if_neg hne]

/-- データの領域が同じなら、欄の指すブロックも同じである。 -/
theorem Owned.slot_congr {blk blk' ino} (h : Owned sb blk ino) (hj : sb.Live ino j) (hb : ∀ c, sb.datastart ≤ c → blk' c = blk c) (l : Nat) :
    (ino j).slot blk' l = (ino j).slot blk l := by
  refine Dinode.slot_congr (fun hne => ?_) l
  have hr := h.region j ndirect hj ndirect_lt_nslots
  rw [Dinode.slot_addr le_rfl] at hr
  exact hb _ (hr hne).1

/-- 空きを割り当てても、誰かの指しているブロックの中身は変わらない。 -/
theorem Owned.alloc_slot (ho : Owned sb s.blk (s.ino sb)) (hb : Spare sb s.blk b) (hj : sb.Live (s.ino sb) j)
    (hl : l < nslots) (hne : (s.ino sb j).slot s.blk l ≠ 0) :
    (s.alloc sb b).blk ((s.ino sb j).slot s.blk l) = s.blk ((s.ino sb j).slot s.blk l) :=
  hb.alloc_data (ho.region j l hj hl hne).1 (ho.slot_ne hb hj hl hne)

theorem Owned.alloc_indirect (ho : Owned sb s.blk (s.ino sb)) (hb : Spare sb s.blk b) (hj : sb.Live (s.ino sb) j)
    (hne : (s.ino sb j).addrs ndirect ≠ 0) :
    (s.alloc sb b).blk ((s.ino sb j).addrs ndirect) = s.blk ((s.ino sb j).addrs ndirect) := by
  have h := ho.alloc_slot hb hj ndirect_lt_nslots
  rw [Dinode.slot_addr le_rfl] at h
  exact h hne

theorem ino_low (hsb : sb.Ok) (hlow : ∀ c, c < sb.bmapstart → s'.blk c = s.blk c) (hj : j < sb.ninodes)
    (hk : s'.k.itab j = s.k.itab j) : s'.ino sb j = s.ino sb j :=
  ino_congr hk (hlow _ (hsb.iblock_lt hj))

theorem live_congr {ino ino'} (h : ∀ j, j < sb.ninodes → (ino' j).type = (ino j).type) (j : Nat) :
    sb.Live ino' j ↔ sb.Live ino j := by
  constructor
  · exact fun ⟨hj, ht⟩ => ⟨hj, by rwa [← h j hj]⟩
  · exact fun ⟨hj, ht⟩ => ⟨hj, by rwa [h j hj]⟩

section Addr

def Store.growAddr (sb : Superblock) (s : Store) (i k b : Nat) : Store :=
  (s.alloc sb b).setD i { (s.k.itab i).d with addrs := update (s.k.itab i).d.addrs k b }

variable (hsb : sb.Ok) (ho : Owned sb s.blk (s.ino sb)) (hi : s.Cached sb i) (hb : Spare sb s.blk b)

include hsb hb in
theorem growAddr_other (hj : j < sb.ninodes) (hne : j ≠ i) : (s.growAddr sb i k b).ino sb j = s.ino sb j :=
  ino_low hsb (fun _ hc => hb.alloc_low hc) hj (by simp [Store.growAddr, hne])

include hi in
theorem growAddr_self :
    (s.growAddr sb i k b).ino sb i = { (s.k.itab i).d with addrs := update (s.k.itab i).d.addrs k b } := by
  have hc : (s.growAddr sb i k b).Cached sb i := (Store.Cached.of_k hi (show (s.alloc sb b).k = s.k from rfl)).setD hi.type
  rw [hc.ino_eq]
  simp [Store.growAddr]

include hsb ho hi hb in
theorem growAddr_extended (hk : k ≤ ndirect) (hzero : (s.ino sb i).addrs k = 0) :
    Extended sb i k b s.blk (s.growAddr sb i k b).blk (s.ino sb) ((s.growAddr sb i k b).ino sb) where
  live := live_congr fun j hj => by
    by_cases hji : j = i
    · rw [hji, growAddr_self hi, hi.ino_eq]
    · rw [growAddr_other hsb hb hj hji]
  slot j l hj hl := by
    change ((s.growAddr sb i k b).ino sb j).slot (s.alloc sb b).blk l = _
    by_cases hji : j = i
    · subst hji
      rw [growAddr_self hi]
      rw [hi.ino_eq] at hzero ⊢
      by_cases hld : l ≤ ndirect
      · rw [Dinode.slot_addr hld, Dinode.slot_addr hld]
        by_cases hlk : l = k
        · simp [hlk]
        · simp [hlk]
      have hlk : l ≠ k := by omega
      rw [if_neg fun h => hlk h.2]
      by_cases hkd : k = ndirect
      -- 間接ブロックが新しければ、項目はすべて零である。
      · subst hkd
        have hl' : l - (ndirect + 1) < nindirect := by
          simp only [nslots] at hl
          omega
        rw [Dinode.slot_entry (by omega) (by simpa using hb.pos), Dinode.slot, if_neg hld, if_pos hzero]
        simp only [update_self, hb.alloc_zero, indirect_zero hl']
      have hnd : ndirect ≠ k := fun h => hkd h.symm
      have hind := ho.alloc_indirect hb hj
      rw [hi.ino_eq] at hind
      unfold Dinode.slot
      simp only [update_of_ne hnd, if_neg hld]
      split
      · rfl
      · rename_i hne
        rw [hind hne]
    · rw [growAddr_other hsb hb hj.1 hji, if_neg fun h => hji h.1]
      exact Dinode.slot_congr (ho.alloc_indirect hb hj) l
  used c hc := hb.alloc_used hc

include hsb ho hi hb in
theorem growAddr_grows (hk : k ≤ ndirect) (hzero : (s.ino sb i).addrs k = 0) : Grows sb i W s (s.growAddr sb i k b) :=
  .of_extended ho hi hb (by have := ndirect_lt_nslots; omega) (by rwa [Dinode.slot_addr hk])
    (growAddr_extended hsb ho hi hb hk hzero) rfl ⟨_, rfl⟩ (fun _ hc => hb.alloc_low hc)
    fun _ _ hj hl _ hne => ho.alloc_slot hb hj hl hne

end Addr

section Entry

def Store.growEntry (sb : Superblock) (s : Store) (ind n b : Nat) : Store :=
  (s.alloc sb b).setBlk ind (putLE (s.blk ind) (4 * n) 4 b)

variable {ind n : Nat} (hsb : sb.Ok) (ho : Owned sb s.blk (s.ino sb)) (hi : s.Cached sb i) (hb : Spare sb s.blk b)
  (hind : (s.ino sb i).addrs ndirect = ind) (hne : ind ≠ 0)

include ho hi hind hne in
theorem Owned.indirect_region : sb.datastart ≤ ind ∧ ind < sb.size := by
  have h := ho.region i ndirect hi.live ndirect_lt_nslots
  rw [Dinode.slot_addr le_rfl, hind] at h
  exact h hne

include ho hi hind hne in
theorem growEntry_other {c} (hc : c < sb.datastart) : (s.growEntry sb ind n b).blk c = (s.alloc sb b).blk c := by
  have h := (ho.indirect_region hi hind hne).1
  have hci : c ≠ ind := by omega
  simp [Store.growEntry, hci]

include hsb ho hi hb hind hne in
theorem growEntry_ino (hj : j < sb.ninodes) : (s.growEntry sb ind n b).ino sb j = s.ino sb j := by
  refine ino_low hsb (fun c hc => ?_) hj rfl
  have hlt := Superblock.Ok.bmapstart_lt sb
  rw [growEntry_other ho hi hind hne (by omega), hb.alloc_low hc]

include hsb ho hi hb hind hne in
theorem growEntry_extended :
    Extended sb i (ndirect + 1 + n) b s.blk (s.growEntry sb ind n b).blk (s.ino sb) ((s.growEntry sb ind n b).ino sb) where
  live := live_congr fun j hj => by rw [growEntry_ino hsb ho hi hb hind hne hj]
  slot j l hj hl := by
    rw [growEntry_ino hsb ho hi hb hind hne hj.1]
    by_cases hji : j = i
    · subst hji
      have hb32 : b < 2 ^ 32 := by
        have h1 := hb.lt
        have h2 := hsb.size
        omega
      by_cases hld : l ≤ ndirect
      · rw [Dinode.slot_addr hld, Dinode.slot_addr hld, if_neg (by omega)]
      · rw [Dinode.slot_entry (by omega) (hind ▸ hne), Dinode.slot_entry (by omega) (hind ▸ hne), hind]
        simp only [Store.growEntry, setBlk_blk, update_self, indirect_put hb32]
        by_cases hln : l = ndirect + 1 + n
        · simp [hln]
        · rw [if_neg (by omega), if_neg fun h => hln h.2]
    rw [if_neg fun h => hji h.1]
    refine Dinode.slot_congr (fun hnej => ?_) l
    -- ほかの inode の間接ブロックは、`ind` と異なる。
    have hdiff : (s.ino sb j).addrs ndirect ≠ ind := fun h => by
      have hu := ho.unique j ndirect i ndirect hj hi.live ndirect_lt_nslots ndirect_lt_nslots
      simp only [Dinode.slot_addr (Nat.le_refl ndirect)] at hu
      exact hji (hu hnej (h.trans hind.symm)).1
    simp only [Store.growEntry, setBlk_blk, update_of_ne hdiff]
    exact ho.alloc_indirect hb hj hnej
  used c hc := by
    rw [← hb.alloc_used hc]
    simp only [Superblock.used, growEntry_other ho hi hind hne (Superblock.Ok.bblock_lt hc)]

include hsb ho hi hb hind hne in
theorem growEntry_grows (hn : n < nindirect) (hzero : indirect (s.blk ind) n = 0) :
    Grows sb i W s (s.growEntry sb ind n b) := by
  have hk : ndirect + 1 + n < nslots := by
    simp only [nslots]
    omega
  have hslot : (s.ino sb i).slot s.blk (ndirect + 1 + n) = 0 := by
    rw [Dinode.slot_entry (by omega) (hind ▸ hne), hind, Nat.add_sub_cancel_left, hzero]
  refine .of_extended ho hi hb hk hslot (growEntry_extended hsb ho hi hb hind hne) rfl ⟨(s.k.itab i).d.addrs, ?_⟩
    (fun c hc => ?_) fun j l hj hl hld hnej => ?_
  · simp [Store.growEntry, Store.setD, Store.setK, Kernel.setI]
  · have hlt := Superblock.Ok.bmapstart_lt sb
    rw [growEntry_other ho hi hind hne (by omega), hb.alloc_low hc]
  have hdiff : (s.ino sb j).slot s.blk l ≠ ind := fun h => by
    have hu := ho.unique j l i ndirect hj hi.live hl ndirect_lt_nslots hnej
    rw [Dinode.slot_addr (k := ndirect) le_rfl, hind] at hu
    exact hld (hu h).2
  simp only [Store.growEntry, setBlk_blk, update_of_ne hdiff]
  exact ho.alloc_slot hb hj hl hnej

end Entry

namespace Grows

theorem refl (ho : Owned sb s.blk (s.ino sb)) : Grows sb i W s s where
  owned := ho
  umem := rfl
  addrs := ⟨(s.k.itab i).d.addrs, by simp [Store.setD, Store.setK, Kernel.setI]⟩
  low _ _ := rfl
  slot _ _ _ _ := .inl rfl
  data _ _ _ _ _ _ _ _ := rfl
  fresh _ _ h := .inl h
  keep _ _ h := h

section

variable (h : Grows sb i W s s')
include h

theorem itab_other (hne : j ≠ i) : s'.k.itab j = s.k.itab j := by
  obtain ⟨a, ha⟩ := h.addrs
  rw [ha]
  simp [hne]

theorem itab_self :
    ∃ a, s'.k.itab i = { s.k.itab i with d := { (s.k.itab i).d with addrs := a } } := by
  obtain ⟨a, ha⟩ := h.addrs
  exact ⟨a, by rw [ha]; simp⟩

theorem cached (hj : s.Cached sb j) : s'.Cached sb j := by
  by_cases hji : j = i
  · subst hji
    obtain ⟨a, ha⟩ := h.itab_self
    exact ⟨hj.lt, by rw [ha]; exact hj.ref, by rw [ha]; exact hj.valid, by rw [ha]; exact hj.type⟩
  · exact hj.of_itab (h.itab_other hji)

theorem ino_other (hsb : sb.Ok) (hj : j < sb.ninodes) (hne : j ≠ i) : s'.ino sb j = s.ino sb j :=
  ino_low hsb h.low hj (h.itab_other hne)

theorem ino_self (hi : s.Cached sb i) : ∃ a, s'.ino sb i = { s.ino sb i with addrs := a } := by
  obtain ⟨a, ha⟩ := h.itab_self
  exact ⟨a, by rw [(h.cached hi).ino_eq, hi.ino_eq, ha]⟩

theorem live (hsb : sb.Ok) (hi : s.Cached sb i) (j : Nat) :
    sb.Live (s'.ino sb) j ↔ sb.Live (s.ino sb) j := by
  refine live_congr (fun j hj => ?_) j
  by_cases hji : j = i
  · obtain ⟨a, ha⟩ := h.ino_self hi
    rw [hji, ha]
  · rw [h.ino_other hsb hj hji]

theorem slot_kept (hj : sb.Live (s.ino sb) j) (hl : l < nslots)
    (hne : (s.ino sb j).slot s.blk l ≠ 0) : (s'.ino sb j).slot s'.blk l = (s.ino sb j).slot s.blk l := by
  rcases h.slot j l hj hl with heq | ⟨rfl, hz⟩
  · exact heq
  · exact absurd hz hne

end

theorem trans (hsb : sb.Ok) (hi : s.Cached sb i) (h : Grows sb i W s s')
    (h' : Grows sb i W s' s'') : Grows sb i W s s'' where
  owned := h'.owned
  umem := h'.umem.trans h.umem
  addrs := by
    obtain ⟨a, ha⟩ := h.addrs
    obtain ⟨a', ha'⟩ := h'.addrs
    exact ⟨a', by rw [ha', Store.setD, ha]; simp [Store.setD, Store.setK, Kernel.setI]⟩
  low c hc := (h'.low c hc).trans (h.low c hc)
  slot j l hj hl := by
    rcases h'.slot j l ((h.live hsb hi j).mpr hj) hl with heq' | ⟨rfl, hz'⟩
    · rw [heq']
      exact h.slot j l hj hl
    · rcases h.slot j l hj hl with heq | hz
      · exact .inr ⟨rfl, heq ▸ hz'⟩
      · exact .inr hz
  data j bn o hj hbn hne ho hW := by
    have hkept := h.slot_kept hj (slotOf_lt hbn) hne
    have h2 := h'.data j bn o ((h.live hsb hi j).mpr hj) hbn (by rwa [Dinode.block, hkept]) ho hW
    rw [Dinode.block, hkept] at h2
    exact h2.trans (h.data j bn o hj hbn hne ho hW)
  fresh c hc hused := by
    rcases h'.fresh c hc hused with hused | hfresh
    · rcases h.fresh c hc hused with hused | ⟨hne, l, hl, hlc⟩
      · exact .inl hused
      · have hkept := h'.slot_kept ((h.live hsb hi i).mpr hi.live) hl (by rwa [hlc])
        exact .inr ⟨hne, l, hl, hkept.trans hlc⟩
    · exact .inr hfresh
  keep c hc hused := h'.keep c hc (h.keep c hc hused)

end Grows

/-- 欄 `k` にブロックがあるか、割り当てるだけの空きがある。間接ブロックもなければ、二つ要る。 -/
def Store.Spares (sb : Superblock) (s : Store) (i k : Nat) : Prop :=
  (s.ino sb i).slot s.blk k ≠ 0 ∨ ∃ b, b < sb.size ∧ sb.used s.blk b = false ∧
    (ndirect < k → (s.ino sb i).addrs ndirect = 0 → ∃ c, c < sb.size ∧ c ≠ b ∧ sb.used s.blk c = false)

/-- `bmap` が返すもの。`0` を返すのは、空きが足りないときだけである。 -/
structure Bmapped (sb : Superblock) (W : Nat → Prop) (i k : Nat) (s : Store) (r : Nat) (s' : Store) : Prop where
  grows : Grows sb i W s s'
  slot : r ≠ 0 → (s'.ino sb i).slot s'.blk k = r
  old : (s.ino sb i).slot s.blk k ≠ 0 → s' = s ∧ r = (s.ino sb i).slot s.blk k
  full : r = 0 → sb.Packed s'.blk
  taken : (s.ino sb i).slot s.blk k = 0 → r ≠ 0 → r < sb.size ∧ sb.used s.blk r = false
  spread : ∀ l, l < nslots → (s'.ino sb i).slot s'.blk l = (s.ino sb i).slot s.blk l ∨
    (l = k ∧ r ≠ 0 ∨ l = ndirect) ∧ (s.ino sb i).slot s.blk l = 0
  room : r ≠ 0 ↔ s.Spares sb i k

section Bmap

variable (hsb : sb.Ok) (ho : Owned sb s.blk (s.ino sb)) (hi : s.Cached sb i)

namespace Bmapped

include ho in
theorem found (hne : (s.ino sb i).slot s.blk k ≠ 0) : Bmapped sb W i k s ((s.ino sb i).slot s.blk k) s where
  grows := .refl ho
  slot _ := rfl
  old _ := ⟨rfl, rfl⟩
  full h := absurd h hne
  taken h := absurd h hne
  spread _ _ := .inl rfl
  room := ⟨fun _ => .inl hne, fun _ => hne⟩

include ho in
theorem none (hz : (s.ino sb i).slot s.blk k = 0) (hp : sb.Packed s.blk) : Bmapped sb W i k s 0 s where
  grows := .refl ho
  slot h := absurd rfl h
  old h := absurd hz h
  full _ := hp
  taken _ h := absurd rfl h
  spread _ _ := .inl rfl
  room := by
    refine ⟨fun h => absurd rfl h, ?_⟩
    rintro (h | ⟨b, hb, hfree, _⟩)
    · exact absurd hz h
    · rw [hp b hb] at hfree
      cases hfree

include hi in
theorem grown (hb : Spare sb s.blk b) (hk : k < nslots) (hz : (s.ino sb i).slot s.blk k = 0)
    (hind : ndirect < k → (s.ino sb i).addrs ndirect ≠ 0) (hg : Grows sb i W s s')
    (he : Extended sb i k b s.blk s'.blk (s.ino sb) (s'.ino sb)) : Bmapped sb W i k s b s' where
  grows := hg
  slot _ := by rw [he.slot i k hi.live hk, if_pos ⟨rfl, rfl⟩]
  old h := absurd hz h
  full h := absurd h hb.pos
  taken _ _ := ⟨hb.lt, hb.free⟩
  spread l hl := by
    rw [he.slot i l hi.live hl]
    split
    · rename_i h
      exact .inr ⟨.inl ⟨h.2, hb.pos⟩, by rw [h.2, hz]⟩
    · exact .inl rfl
  room := ⟨fun _ => .inr ⟨b, hb.lt, hb.free, fun hk hz => absurd hz (hind hk)⟩, fun _ => hb.pos⟩

/-- 間接ブロックが取れなければ、その要素も取れない。 -/
theorem noIndirect (h1 : Bmapped sb W i ndirect s 0 s') (hk : ndirect < k) : Bmapped sb W i k s 0 s' := by
  have hz : (s.ino sb i).slot s.blk ndirect = 0 := by
    by_contra hne
    exact hne (h1.old hne).2.symm
  have hzk : (s.ino sb i).slot s.blk k = 0 := by
    rw [Dinode.slot_addr le_rfl] at hz
    rw [Dinode.slot, if_neg (by omega), if_pos hz]
  refine ⟨h1.grows, fun h => absurd rfl h, fun h => absurd hzk h, h1.full, fun _ h => absurd rfl h, fun l hl => ?_, ?_⟩
  · exact (h1.spread l hl).imp_right fun h => ⟨.inr (by omega), h.2⟩
  · refine ⟨fun h => absurd rfl h, ?_⟩
    rintro (h | ⟨b, hb, hfree, _⟩)
    · exact absurd hzk h
    · exact h1.room.mpr (.inr ⟨b, hb, hfree, fun h => absurd h (Nat.lt_irrefl _)⟩)

include hsb ho hi in
/-- 間接ブロックを得てから、その項目を得る。 -/
theorem entry {ind r : Nat} (h1 : Bmapped sb W i ndirect s ind s') (hne : ind ≠ 0)
    (hk : ndirect < k) (hkn : k < nslots) (h2 : Bmapped sb W i k s' r s'') : Bmapped sb W i k s r s'' := by
  by_cases hz : (s.ino sb i).slot s.blk ndirect = 0
  · have hfree : ∀ c, c < sb.size → sb.used s'.blk c = false → sb.used s.blk c = false := fun c hc h => by
      by_contra hu
      rw [h1.grows.keep c hc (by simpa using hu)] at h
      cases h
    have hz' : (s.ino sb i).addrs ndirect = 0 := by rwa [Dinode.slot_addr le_rfl] at hz
    have hzk : (s.ino sb i).slot s.blk k = 0 := by rw [Dinode.slot, if_neg (by omega), if_pos hz']
    have hzk' : (s'.ino sb i).slot s'.blk k = 0 := by
      rw [(h1.spread k hkn).resolve_right fun h => by omega, hzk]
    have hind : (s'.ino sb i).addrs ndirect = ind := by rw [← h1.slot hne, Dinode.slot_addr le_rfl]
    obtain ⟨hlt, hfi⟩ := h1.taken hz hne
    constructor
    case grows => exact h1.grows.trans hsb hi h2.grows
    case slot => exact h2.slot
    case old => exact fun h => absurd hzk h
    case full => exact h2.full
    case taken => exact fun _ hr => ⟨(h2.taken hzk' hr).1, hfree _ (h2.taken hzk' hr).1 (h2.taken hzk' hr).2⟩
    case spread =>
      intro l hl
      rcases h1.spread l hl with heq | hnew
      · rw [← heq]
        exact h2.spread l hl
      · exact .inr ⟨.inr (by omega), hnew.2⟩
    case room =>
      rw [h2.room]
      refine ⟨?_, ?_⟩
      · rintro (h | ⟨b, hb, hbf, _⟩)
        · exact absurd hzk' h
        · refine .inr ⟨ind, hlt, hfi, fun _ _ => ⟨b, hb, ?_, hfree b hb hbf⟩⟩
          rintro rfl
          have := h1.grows.owned.used i ndirect (h1.grows.cached hi).live ndirect_lt_nslots (by rwa [h1.slot hne])
          rw [h1.slot hne, hbf] at this
          cases this
      rintro (h | ⟨b, hb, hbf, hc⟩)
      · exact absurd hzk h
      -- 二つの空きのうち、一つは間接ブロックではない。
      obtain ⟨c, hc, hcb, hcf⟩ := hc hk hz'
      obtain ⟨x, hx, hxi, hxf⟩ : ∃ x, x < sb.size ∧ x ≠ ind ∧ sb.used s.blk x = false := by
        by_cases hbi : b = ind
        · exact ⟨c, hc, hbi ▸ hcb, hcf⟩
        · exact ⟨b, hb, hbi, hbf⟩
      refine .inr ⟨x, hx, ?_, fun _ h => absurd (hind.symm.trans h) hne⟩
      by_contra hu
      rcases h1.grows.fresh x hx (by simpa using hu) with hu | ⟨hx0, l, hl, hlx⟩
      · rw [hxf] at hu
        cases hu
      rcases h1.spread l hl with heq | ⟨hl', -⟩
      · have hu := ho.used i l hi.live hl (by rwa [← heq, hlx])
        rw [← heq, hlx, hxf] at hu
        cases hu
      · obtain rfl : l = ndirect := by omega
        exact hxi (hlx.symm.trans (h1.slot hne))
  · obtain rfl := (h1.old hz).1
    exact h2

end Bmapped

include hsb ho hi in
theorem bmapAddr_spec (hk : k ≤ ndirect) : wp (exec u (bmapAddr sb i k)) (Bmapped sb W i k s) E s := by
  have hslot : (s.ino sb i).slot s.blk k = (s.k.itab i).d.addrs k := by rw [Dinode.slot_addr hk, hi.ino_eq]
  rw [bmapAddr, exec_bind, exec_inode, exec_ite]
  refine ⟨fun hz => ?_, fun hne => ?_⟩
  · rw [← hslot] at hz
    rw [exec_bind]
    refine balloc_spec (Bmapped.none ho hz) fun b hlt hfree => ?_
    have hb := ho.spare hlt hfree
    have hzero : (s.ino sb i).addrs k = 0 := by rwa [Dinode.slot_addr hk] at hz
    have hkn : k < nslots := Nat.lt_of_le_of_lt hk ndirect_lt_nslots
    rw [if_neg hb.pos]
    exact .grown hi hb hkn hz (fun h => absurd hk (by omega)) (growAddr_grows hsb ho hi hb hk hzero)
      (growAddr_extended hsb ho hi hb hk hzero)
  · rw [← hslot] at hne ⊢
    exact Bmapped.found ho hne

include hsb ho hi in
theorem bmapEntry_spec {ind n : Nat} (hind : (s.ino sb i).addrs ndirect = ind) (hne : ind ≠ 0) (hn : n < nindirect) :
    wp (exec u (bmapEntry sb ind n)) (Bmapped sb W i (ndirect + 1 + n) s) E s := by
  have hslot : (s.ino sb i).slot s.blk (ndirect + 1 + n) = indirect (s.blk ind) n := by
    rw [Dinode.slot_entry (by omega) (hind ▸ hne), hind, Nat.add_sub_cancel_left]
  rw [bmapEntry, exec_bind, exec_bread, exec_ite]
  refine ⟨fun hz => ?_, fun hnz => ?_⟩
  · rw [exec_bind]
    refine balloc_spec (Bmapped.none ho (hslot.trans hz)) fun b hlt hfree => ?_
    have hb := ho.spare hlt hfree
    have hkn : ndirect + 1 + n < nslots := by
      simp only [nslots]
      omega
    rw [if_neg hb.pos]
    exact .grown hi hb hkn (hslot.trans hz) (fun _ => hind ▸ hne) (growEntry_grows hsb ho hi hb hind hne hn hz)
      (growEntry_extended hsb ho hi hb hind hne)
  · rw [← hslot] at hnz ⊢
    exact Bmapped.found ho hnz

include hsb ho hi in
/-- 直接でも間接でも、`bmap` はスロット `slotOf bn` を埋める。 -/
theorem bmap_spec {bn : Nat} (hbn : bn < maxfile) : wp (exec u (bmap sb i bn)) (Bmapped sb W i (slotOf bn) s) E s := by
  have hkn := slotOf_lt hbn
  unfold bmap slotOf at *
  split
  · exact bmapAddr_spec hsb ho hi (by omega)
  rename_i hge
  have hn : bn - ndirect < nindirect := by
    simp only [maxfile] at hbn
    omega
  have hk : ndirect + 1 + (bn - ndirect) = bn + 1 := by omega
  rw [if_neg hge] at hkn
  rw [if_pos hn, exec_bind]
  refine wp_post (bmapAddr_spec (W := W) hsb ho hi le_rfl) fun ind s1 h1 => ?_
  rw [exec_ite]
  refine ⟨fun hz => ?_, fun hne => ?_⟩
  · rw [hz] at h1
    exact h1.noIndirect (by omega)
  · have hind : (s1.ino sb i).addrs ndirect = ind := by
      rw [← h1.slot hne, Dinode.slot_addr le_rfl]
    refine wp_post (bmapEntry_spec (W := W) hsb h1.grows.owned (h1.grows.cached hi) hind hne hn) fun r s2 h2 => ?_
    rw [hk] at h2
    exact h1.entry hsb ho hi hne (by omega) hkn h2

end Bmap

end Xv6.Fs
