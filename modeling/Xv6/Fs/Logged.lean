import Mathlib.Data.Finset.Card
import Xv6.Lib.Trace
import Xv6.Log.Log
import Xv6.Fs.Contents

/-!
# 一度の `writei` が記録するブロック
-/

namespace Xv6.Fs

open Xv6.Lib Finset

def record : FsOp → Finset Nat → Finset Nat
  | .logWrite b, w => insert b w
  | _, w => w

def execLog (u : User) {α : Type} (x : FsM α) : StateT (Store × Finset Nat) (Except String) α :=
  x.run (Free.traced (sem u) record)

variable {sb : Superblock} {u : User} {α β : Type} {E : String → Prop} {s t : Store} {w : Finset Nat}

section Rules

variable {Q : α → Store × Finset Nat → Prop} {z : Store × Finset Nat}

theorem execLog_bind {x : FsM β} {f : β → FsM α} :
    wp (execLog u (x >>= f)) Q E z ↔ wp (execLog u x) (fun b t => wp (execLog u (f b)) Q E t) E z := Free.wp_run_bind

theorem execLog_ite {c} [Decidable c] {x y} :
    wp (execLog u (if c then x else y)) Q E z ↔ (c → wp (execLog u x) Q E z) ∧ (¬c → wp (execLog u y) Q E z) := by
  by_cases hc : c <;> simp [hc]

end Rules

theorem execLog_bread {b Q} :
    wp (execLog u (bread b)) Q E (s, w) ↔ Q (s.blk b) (s, w) := Iff.rfl

theorem execLog_inode {i Q} :
    wp (execLog u (inode i)) Q E (s, w) ↔ Q (s.k.itab i).d (s, w) := Iff.rfl

theorem execLog_setInode {i d Q} :
    wp (execLog u (setInode i d)) Q E (s, w) ↔ Q () (s.setD i d, w) := Iff.rfl

/-! ## 記録したブロックの数え方 -/

def Store.ind (s : Store) (i : Nat) : Nat := (s.k.itab i).d.addrs ndirect

/-- 記録したブロックは、`data` 個までのデータ、割り当てで書いたビットマップ、間接ブロックのどれかである。ビットマップは、
データのための `allocs` 個と、間接ブロックのための一つまでである。 -/
def Fits (i data allocs : Nat) (s : Store) (w : Finset Nat) : Prop :=
  ∃ D B : Finset Nat, D.card ≤ data ∧ B.card + (if s.ind i = 0 then 1 else 0) ≤ allocs + 1 ∧
    ∀ b ∈ w, b ∈ D ∨ b ∈ B ∨ s.ind i ≠ 0 ∧ b = s.ind i

namespace Fits

variable {i d a : Nat}

theorem init : Fits i 0 0 s ∅ :=
  ⟨∅, ∅, le_rfl, by split <;> simp, by simp⟩

section

variable (h : Fits i d a s w)
include h

theorem mono {d' a' v} (hd : d ≤ d') (ha : a ≤ a') (hv : v ⊆ w) :
    Fits i d' a' s v := by
  obtain ⟨D, B, hD, hB, hw⟩ := h
  exact ⟨D, B, by omega, by omega, fun b hb => hw b (hv hb)⟩

theorem congr (ht : t.ind i = s.ind i) : Fits i d a t w := by
  unfold Fits at h ⊢
  rw [ht]
  exact h

theorem data (b : Nat) : Fits i (d + 1) a s (insert b w) := by
  obtain ⟨D, B, hD, hB, hw⟩ := h
  refine ⟨insert b D, B, (card_insert_le b D).trans (by omega), hB, fun x hx => ?_⟩
  obtain rfl | hx := mem_insert.mp hx
  · exact .inl (mem_insert_self x D)
  · exact (hw x hx).imp_left (mem_insert_of_mem ·)

theorem bitmap (b : Nat) : Fits i d (a + 1) s (insert b w) := by
  obtain ⟨D, B, hD, hB, hw⟩ := h
  refine ⟨D, insert b B, hD, ?_, fun x hx => ?_⟩
  · have := card_insert_le b B
    omega
  · obtain rfl | hx := mem_insert.mp hx
    · exact .inr (.inl (mem_insert_self x B))
    · exact (hw x hx).imp_right (.imp_left (mem_insert_of_mem ·))

theorem logInd (hi : s.ind i ≠ 0) : Fits i d a s (insert (s.ind i) w) := by
  obtain ⟨D, B, hD, hB, hw⟩ := h
  refine ⟨D, B, hD, hB, fun x hx => ?_⟩
  obtain rfl | hx := mem_insert.mp hx
  · exact .inr (.inr ⟨hi, rfl⟩)
  · exact hw x hx

theorem allocInd (hi : s.ind i = 0) (ht : t.ind i ≠ 0) (b : Nat) :
    Fits i d a t (insert (t.ind i) (insert b w)) := by
  obtain ⟨D, B, hD, hB, hw⟩ := h
  refine logInd ⟨D, insert b B, hD, ?_, fun x hx => ?_⟩ ht
  · have := card_insert_le b B
    rw [if_pos hi] at hB
    rw [if_neg ht]
    omega
  obtain rfl | hx := mem_insert.mp hx
  · exact .inr (.inl (mem_insert_self x B))
  · obtain hx | hx | hx := hw x hx
    · exact .inl hx
    · exact .inr (.inl (mem_insert_of_mem hx))
    · exact absurd hi hx.1

theorem card_insert (b : Nat) : (insert b w).card ≤ d + a + 3 := by
  obtain ⟨D, B, hD, hB, hw⟩ := h
  have hsub : insert b w ⊆ insert b (D ∪ B ∪ if s.ind i = 0 then ∅ else {s.ind i}) := by
    refine insert_subset_insert b fun x hx => ?_
    obtain hx | hx | ⟨hi, rfl⟩ := hw x hx
    · exact mem_union_left _ (mem_union_left _ hx)
    · exact mem_union_left _ (mem_union_right _ hx)
    · rw [if_neg hi]
      exact mem_union_right _ (mem_singleton_self _)
  have hcard := card_le_card hsub
  have h1 := card_insert_le b (D ∪ B ∪ if s.ind i = 0 then ∅ else {s.ind i})
  have h2 := card_union_le (D ∪ B) (if s.ind i = 0 then ∅ else {s.ind i})
  have h3 := card_union_le D B
  split at hB
  · rename_i hi
    rw [if_pos hi] at h1 h2 hcard
    simp only [card_empty] at h2
    omega
  · rename_i hi
    rw [if_neg hi] at h1 h2 hcard
    simp only [card_singleton] at h2
    omega

end

end Fits

theorem balloc_logs {Q : Nat → Store × Finset Nat → Prop} (hnone : Q 0 (s, w))
    (hsome : ∀ b bb t, t.k = s.k → Q b (t, insert b (insert bb w))) : wp (execLog u (balloc sb)) Q E (s, w) := by
  suffices ∀ n b, wp (execLog u (ballocLoop sb b n)) Q E (s, w) from this _ 0
  intro n
  induction n with
  | zero => exact fun _ => hnone
  | succ n ih =>
    intro b
    rw [ballocLoop, execLog_ite]
    refine ⟨fun _ => ?_, fun _ => hnone⟩
    rw [execLog_bind, execLog_bread]
    cases findFree (s.blk (sb.bblock b)) sb.size b 0 bpb with
    | none => exact ih (b + bpb)
    | some bi => exact hsome (b + bi) (sb.bblock b) _ rfl

section Bmap

variable {i d a : Nat} {Q : Nat → Store × Finset Nat → Prop}

section

variable (h : Fits i d a s w)
include h

theorem bmapAddr_logs {k c : Nat} (hk : k ≠ ndirect) (hc : c = 1 ∨ c = 0 ∧ (s.k.itab i).d.addrs k ≠ 0)
    (hQ : ∀ addr t v, Fits i (d + 1) (a + c) t (insert addr v) → Q addr (t, v)) :
    wp (execLog u (bmapAddr sb i k)) Q E (s, w) := by
  rw [bmapAddr, execLog_bind, execLog_inode, execLog_ite]
  refine ⟨fun h0 => ?_, fun _ => hQ _ _ _ ((h.data _).mono le_rfl (Nat.le_add_right _ _) (subset_refl _))⟩
  obtain rfl : c = 1 := by simpa [h0] using hc
  rw [execLog_bind]
  refine balloc_logs ?_ fun b bb t ht => ?_
  · exact hQ _ _ _ ((h.data _).mono le_rfl (Nat.le_succ _) (subset_refl _))
  have hfit : Fits i (d + 1) (a + 1) t (insert b (insert b (insert bb w))) := by
    rw [insert_idem]
    exact ((h.bitmap bb).data b).congr (by rw [Store.ind, ht]; rfl)
  rw [execLog_ite]
  refine ⟨fun hb => ?_, fun _ => ?_⟩
  · subst hb
    exact hQ _ _ _ hfit
  · rw [execLog_bind, execLog_setInode]
    refine hQ _ _ _ (hfit.congr ?_)
    simp [Store.ind, ht, update_of_ne hk.symm]

theorem bmapInd_logs (hfail : s.ind i = 0 → ∀ t v, Fits i (d + 1) (a + 1) t (insert 0 v) → Q 0 (t, v))
    (hkept : s.ind i ≠ 0 → Q (s.ind i) (s, w)) (hnew : s.ind i = 0 → ∀ t v, Fits i d a t v → t.ind i ≠ 0 → Q
        (t.ind i) (t, v)) :
    wp (execLog u (bmapAddr sb i ndirect)) Q E (s, w) := by
  rw [bmapAddr, execLog_bind, execLog_inode, execLog_ite]
  refine ⟨fun h0 => ?_, fun h0 => hkept h0⟩
  rw [execLog_bind]
  refine balloc_logs ?_ fun b bb t ht => ?_
  · exact hfail h0 _ _ ((h.data 0).mono le_rfl (Nat.le_succ _) (subset_refl _))
  rw [execLog_ite]
  refine ⟨fun hb => ?_, fun hb => ?_⟩
  · subst hb
    refine hfail h0 _ _ ?_
    rw [insert_idem]
    exact ((h.bitmap bb).data 0).congr (by rw [Store.ind, ht]; rfl)
  · rw [execLog_bind, execLog_setInode]
    have hind : (t.setD i { (s.k.itab i).d with addrs := update (s.k.itab i).d.addrs ndirect b }).ind i = b := by
      simp [Store.ind]
    have := hnew h0 _ _ (hind ▸ h.allocInd h0 (hind.symm ▸ hb) bb) (hind.symm ▸ hb)
    rwa [hind] at this

theorem bmapEntry_logs {j c : Nat} (hi : s.ind i ≠ 0) (hc : c = 1 ∨ c = 0 ∧ indirect (s.blk (s.ind i)) j ≠ 0)
    (hQ : ∀ addr t v, Fits i (d + 1) (a + c) t (insert addr v) → Q addr (t, v)) :
    wp (execLog u (bmapEntry sb (s.ind i) j)) Q E (s, w) := by
  rw [bmapEntry, execLog_bind, execLog_bread, execLog_ite]
  refine ⟨fun h0 => ?_, fun _ => hQ _ _ _ ((h.data _).mono le_rfl (Nat.le_add_right _ _) (subset_refl _))⟩
  obtain rfl : c = 1 := by simpa [h0] using hc
  rw [execLog_bind]
  refine balloc_logs ?_ fun b bb t ht => ?_
  · exact hQ _ _ _ ((h.data _).mono le_rfl (Nat.le_succ _) (subset_refl _))
  have hti : t.ind i = s.ind i := by rw [Store.ind, ht]; rfl
  have hfit := ((h.bitmap bb).data b).congr hti
  rw [execLog_ite]
  refine ⟨fun hb => ?_, fun _ => ?_⟩
  · subst hb
    have : Fits i (d + 1) (a + 1) t (insert 0 (insert 0 (insert bb w))) := by rwa [insert_idem]
    exact hQ _ _ _ this
  · have hlog : Fits i (d + 1) (a + 1) t (insert b (insert (s.ind i) (insert b (insert bb w)))) := by
      rw [insert_comm, insert_idem, ← hti]
      exact hfit.logInd (hti.symm ▸ hi)
    exact hQ _ (t.setBlk _ _) _ (hlog.congr rfl)

theorem bmap_logs {bn c : Nat} (hbn : bn < maxfile) (hc : c = 1 ∨ c = 0 ∧ (s.k.itab i).d.block s.blk bn ≠ 0)
    (hQ : ∀ addr t v, Fits i (d + 1) (a + c) t (insert addr v) → Q addr (t, v)) :
    wp (execLog u (bmap sb i bn)) Q E (s, w) := by
  rw [bmap, execLog_ite]
  refine ⟨fun hlt => ?_, fun hge => ?_⟩
  · refine bmapAddr_logs h (Nat.ne_of_lt hlt) (hc.imp_right fun hm => ⟨hm.1, ?_⟩) hQ
    simpa [Dinode.block, slotOf, hlt, Dinode.slot, Nat.le_of_lt hlt] using hm.2
  rw [execLog_ite]
  refine ⟨fun _ => ?_, fun hout => absurd hbn (by simp only [maxfile] at *; omega)⟩
  rw [execLog_bind]
  have hslot : (s.k.itab i).d.block s.blk bn =
      if s.ind i = 0 then 0 else indirect (s.blk (s.ind i)) (bn - ndirect) := by
    rw [Dinode.block, slotOf, if_neg hge, Dinode.slot, if_neg (by omega), Nat.add_sub_add_right]
    rfl
  refine bmapInd_logs h (fun h0 t v hf => ?_) (fun hi => ?_) fun h0 t v hf hi => ?_
  · obtain rfl : c = 1 := by simpa [hslot, h0] using hc
    exact hQ _ _ _ hf
  · rw [if_neg hi]
    exact bmapEntry_logs h hi (hc.imp_right fun hm => ⟨hm.1, by simpa [hslot, hi] using hm.2⟩) hQ
  · obtain rfl : c = 1 := by simpa [hslot, h0] using hc
    rw [if_neg hi]
    exact bmapEntry_logs hf hi (.inl rfl) hQ

end

end Bmap

/-! ## `writei` -/

section Writei

variable {i d a : Nat}

theorem copy_logs {Q : Bool → Store × Finset Nat → Prop} {src : Src} {b o tot m : Nat} {bp : Block}
    (hQ : ∀ ok t v, t.k = s.k → v ⊆ insert b w → Q ok (t, v)) : wp (execLog u (src.copy b bp o tot m)) Q E (s, w) := by
  cases src with
  | kernel data => exact hQ _ (s.setBlk _ _) _ rfl (subset_refl _)
  | user addr =>
    rw [Src.copy, execLog_bind]
    change wp (execLog u (if u.ok (addr + tot) m then _ else _)) Q E (s.setBlk b _, w)
    rw [execLog_ite]
    exact ⟨fun _ => hQ _ (s.setBlk _ _) _ rfl (subset_refl _), fun _ => hQ _ (s.setBlk _ _) _ rfl
        (subset_insert _ _)⟩

theorem writeiLoop_logs {Q : Nat × Nat → Store × Finset Nat → Prop} {src : Src} {off tot n fuel K c : Nat}
    (h : Fits i d a s w)
    (hend : off + (n - tot) ≤ (off / bsize + K) * bsize) (hmax : off + (n - tot) ≤ maxfile * bsize)
    (hc : c = 1 ∨ c = 0 ∧ (s.k.itab i).d.block s.blk (off / bsize) ≠ 0)
    (hQ : ∀ r t v, Fits i (d + K) (a + c + (K - 1)) t v → Q r (t, v)) :
    wp (execLog u (writeiLoop sb i src off tot n fuel)) Q E (s, w) := by
  -- 回りごとにブロックが一つ進むので、残りのブロックの数 `K` が減る。
  induction fuel generalizing s w d a off tot K c with
  | zero => exact hQ _ _ _ (h.mono (Nat.le_add_right _ _) (by omega) (subset_refl _))
  | succ fuel ih =>
    rw [writeiLoop, execLog_ite]
    refine ⟨fun htot => ?_, fun _ => hQ _ _ _ (h.mono (Nat.le_add_right _ _) (by omega) (subset_refl _))⟩
    simp only [bsize] at hend hmax hc ih ⊢
    have hK : 0 < K := by
      by_contra hK
      obtain rfl : K = 0 := by omega
      omega
    rw [execLog_bind]
    refine bmap_logs h (by omega) hc fun addr t v hf => ?_
    have hdone : Fits i (d + K) (a + c + (K - 1)) t v := hf.mono (by omega) (by omega) (subset_insert _ _)
    rw [execLog_ite]
    refine ⟨fun _ => hQ _ _ _ hdone, fun _ => ?_⟩
    rw [execLog_bind, execLog_bread]
    rw [execLog_bind]
    refine copy_logs fun ok t' v' hk hv => ?_
    have hstep : Fits i (d + 1) (a + c) t' v' :=
      (hf.mono le_rfl le_rfl hv).congr (by rw [Store.ind, hk]; rfl)
    rw [execLog_ite]
    refine ⟨fun _ => ?_, fun _ => hQ _ _ _ (hstep.mono (by omega) (by omega) (subset_refl _))⟩
    by_cases hlast : n - tot ≤ 1024 - off % 1024
    · -- 最後の回りである。
      rw [Nat.min_eq_left hlast]
      have hend' : execLog u (writeiLoop sb i src (off + (n - tot)) (tot + (n - tot)) n fuel) =
          execLog u (pure (off + (n - tot), tot + (n - tot))) := by
        cases fuel with
        | zero => rfl
        | succ f => rw [writeiLoop, if_neg (by omega)]
      rw [hend']
      exact hQ _ _ _ (hstep.mono (by omega) (by omega) (subset_refl _))
    rw [Nat.min_eq_right (Nat.le_of_not_le hlast)]
    have hK2 : 2 ≤ K := by
      by_contra hK2
      obtain rfl : K = 1 := by omega
      omega
    refine ih (K := K - 1) hstep (by omega) (by omega) (.inl rfl) fun r t v h' => hQ _ _ _ ?_
    exact h'.mono (by omega) (by omega) (subset_refl _)

theorem writei_logs (sb : Superblock) (u : User) (src : Src) (off : Nat) {n : Nat} (hfull :
    (s.k.itab i).d.Full s.blk) (hn : n ≤ writeMax) :
    wp (execLog u (writei sb i src off n)) (fun _ z => z.2.card ≤ Log.maxopblocks) (fun _ => False) (s, ∅) := by
  rw [writei, execLog_bind, execLog_inode, execLog_ite]
  refine ⟨fun _ => by exact Nat.zero_le _, fun hoff => ?_⟩
  rw [execLog_ite]
  refine ⟨fun _ => by exact Nat.zero_le _, fun hmax => ?_⟩
  rw [execLog_bind]
  have hrest : ∀ (r : Nat × Nat) t v, Fits i 4 3 t v → wp (execLog u (do
      let ip ← inode i
      (if r.1 > ip.size then setInode i { ip with size := r.1 } else pure ())
      iupdate sb i
      return some r.2)) (fun _ z => z.2.card ≤ Log.maxopblocks) (fun _ => False) (t, v) := by
    intro r t v hf
    rw [execLog_bind, execLog_inode, execLog_bind, execLog_ite]
    exact ⟨fun _ => hf.card_insert (sb.iblock i), fun _ => hf.card_insert (sb.iblock i)⟩
  simp only [writeMax, bsize] at hn hmax
  by_cases hal : off % bsize = 0
  · simp only [bsize] at hal
    refine writeiLoop_logs (K := 3) (c := 1) Fits.init (by simp only [bsize]; omega) (by simp only [bsize]; omega) (.inl rfl)
      fun r t v hf => ?_
    exact hrest r t v (hf.mono (by omega) (by omega) (subset_refl _))
  have hmap : (s.k.itab i).d.block s.blk (off / bsize) ≠ 0 := by
    refine (hfull _ ?_).2
    simp only [bsize] at *
    omega
  simp only [bsize] at hal
  refine writeiLoop_logs (K := 4) (c := 0) Fits.init (by simp only [bsize]; omega) (by simp only [bsize]; omega)
    (.inr ⟨rfl, hmap⟩) fun r t v hf => ?_
  exact hrest r t v (hf.mono (by omega) (by omega) (subset_refl _))

/-- `filewrite` の一回分の `writei` は、ビットマップの中身によらず、`MAXOPBLOCKS` 個までのブロックしか記録せずに終わる。 -/
theorem writei_fits_op (sb : Superblock) (u : User) (s : Store) (i addr off n : Nat) (hfull : (s.k.itab i).d.Full s.blk)
    (hn : n ≤ writeMax) :
    ∃ r t w, execLog u (writei sb i (.user addr) off n) (s, ∅) = .ok (r, t, w) ∧
      exec u (writei sb i (.user addr) off n) s = .ok (r, t) ∧ w.card ≤ Log.maxopblocks := by
  obtain ⟨r, z, hrun, hcard⟩ := wp_exists (writei_logs sb u (.user addr) off hfull hn)
  have hexec := Free.run_traced (h := sem u) (f := record) (writei sb i (.user addr) off n) s ∅
  rw [show Free.run (Free.traced (sem u) record) _ (s, ∅) = _ from hrun] at hexec
  exact ⟨r, z.1, z.2, hrun, hexec.symm, hcard⟩

end Writei

def directFull : Store where
  blk _ _ := 0
  k :=
    { itab := fun _ => ⟨1, true, ⟨2, 0, 0, 1, 11 * bsize + 1, fun k => if k < ndirect then 100 + k else 0⟩⟩
      files := fun _ => ⟨.none, 0, false, false, 0, 0, 0⟩
      procs := fun _ => ⟨false, fun _ => none, none⟩ }
  umem _ := 0

theorem writei_fits_op_directFull :
    (directFull.k.itab 1).d.Full directFull.blk ∧
      ∃ r t w, execLog ⟨fun _ _ => true, fun _ _ => 0⟩
        (writei ⟨2000, 200, 32, 45⟩ 1 (.user 0) (11 * bsize + 1) writeMax) (directFull, ∅) = .ok (r, t, w) ∧
        w.card ≤ Log.maxopblocks := by
  have hfull : (directFull.k.itab 1).d.Full directFull.blk := by
    intro bn hbn
    have hlt : bn < ndirect := by
      simp only [directFull, bsize, ndirect] at *
      omega
    refine ⟨Nat.lt_of_lt_of_le hlt (by decide), ?_⟩
    simp [Dinode.block, slotOf, Dinode.slot, hlt, Nat.le_of_lt hlt, directFull]
  obtain ⟨r, t, w, hrun, -, hcard⟩ := writei_fits_op ⟨2000, 200, 32, 45⟩ ⟨fun _ _ => true, fun _ _ => 0⟩ directFull 1 0
    (11 * bsize + 1) writeMax hfull le_rfl
  exact ⟨hfull, r, t, w, hrun, hcard⟩

end Xv6.Fs
