import Xv6.Fs.Lemmas.Update

/-!
# ファイルの中身
-/

namespace Xv6.Fs

open Xv6.Lib

variable {sb : Superblock} {u : User} {s s' : Store} {i j : Nat}

/-- メモリにあって、大きさより前のブロックの欠けていない inode。 -/
structure Tidy (sb : Superblock) (s : Store) (i : Nat) : Prop where
  cached : s.Cached sb i
  full : (s.ino sb i).Full s.blk

/-- `readi` は、`[off, off + n)` のうち、大きさ `size` より前の部分をちょうど渡す。 -/
def Reads (u : User) (sb : Superblock) (s : Store) (i size : Nat) (data : Bytes) : Prop :=
  ∀ user dst off n, u.Writable user dst (readLen size off n) →
    exec u (readi sb i user dst off n) s =
      .ok ((some (readLen size off n), blit (fun _ => 0) 0 data off (readLen size off n)),
        s.deliver user dst data off (readLen size off n))

def overwrite (old data : Bytes) (off r : Nat) : Bytes := fun p => if off ≤ p ∧ p < off + r then data (p - off) else old p

theorem reads_byte (hsb : sb.Ok) (ho : Owned sb s.blk (s.ino sb)) (hi : Tidy sb s i) :
    Reads u sb s i (s.ino sb i).size (s.byte sb i) := by
  intro user dst off n hok
  have h : wp (exec u (readi sb i user dst off n)) (fun r t => (r, t) = ((some (readLen (s.ino sb i).size off n),
      blit (fun _ => 0) 0 (s.byte sb i) off (readLen (s.ino sb i).size off n)),
      s.deliver user dst (s.byte sb i) off (readLen (s.ino sb i).size off n))) (fun _ => False) s :=
    readi_spec hsb ho hi.cached hi.full hok rfl
  obtain ⟨r, t, hrun, heq⟩ := wp_exists h
  rw [hrun, heq]

theorem Reads.congr {size data data'} (h : Reads u sb s i size data) (hd : ∀ p, p < size →
    data p = data' p) :
    Reads u sb s i size data' := by
  intro user dst off n hok
  have hin : ∀ x, x < readLen size off n → data (off + x) = data' (off + x) := fun x hx => by
    have := readLen_le size off n
    exact hd _ (by omega)
  rw [h user dst off n hok, blit_congr hin]
  cases user with
  | false => rfl
  | true => rw [Store.deliver, Store.deliver, blit_congr hin]

theorem SameFile.tidy (h : SameFile sb j s s') (hj : Tidy sb s j) (hk : s'.k.itab j = s.k.itab j) : Tidy sb s' j where
  cached := by
    have hc := hj.cached
    exact ⟨hc.lt, by rw [hk]; exact hc.ref, by rw [hk]; exact hc.valid, by rw [hk]; exact hc.type⟩
  full := h.full hj.full

/-- 整った inode への `writei` は、範囲の外なら何も変えずに失敗する。ほかの割り当てられた inode は、メモリになくても変わらない。
書くバイトを写せれば、大きさは `max(size, off + r)` になり、`readi` は書いた範囲では新しいバイトを、ほかでは元のバイトを
渡す。書き足りないのは、空いたブロックが尽きたときだけである。 -/
theorem file_contents (hsb : sb.Ok) (ho : Owned sb s.blk (s.ino sb)) (hi : Tidy sb s i) :
    Reads u sb s i (s.ino sb i).size (s.byte sb i) ∧
    ∀ src off n, ∃ r s', exec u (writei sb i src off n) s = .ok (r, s') ∧
      (r = none ↔ off > (s.ino sb i).size ∨ maxfile * bsize < off + n) ∧ (r = none → s' = s) ∧
      ∀ t, r = some t →
        (∀ j, j ≠ i → sb.Live (s.ino sb) j → SameFile sb j s s' ∧
          (Tidy sb s j → Tidy sb s' j ∧ Reads u sb s' j (s.ino sb j).size (s.byte sb j))) ∧
        (src.Readable u n →
          t ≤ n ∧ (t < n → sb.Packed s'.blk) ∧ Owned sb s'.blk (s'.ino sb) ∧ Tidy sb s' i ∧
          (s'.ino sb i).size = max (s.ino sb i).size (off + t) ∧
          Reads u sb s' i (max (s.ino sb i).size (off + t)) (overwrite (s.byte sb i) (src.data s.umem) off t)) := by
  refine ⟨reads_byte hsb ho hi, fun src off n => ?_⟩
  refine wp_exists (writei_spec hsb ho hi.cached (fun hout => ?_) fun t s' hw => ?_)
  · exact ⟨⟨fun _ => hout, fun _ => rfl⟩, fun _ => rfl, nofun⟩
  have hstart := hw.start
  have hfits := hw.fits
  refine ⟨⟨nofun, fun h => (by omega)⟩, nofun, fun t' ht => ?_⟩
  cases ht
  have hi' : Tidy sb s' i := ⟨hw.cached, hw.full hi.full⟩
  refine ⟨fun j hne hj => ?_, fun hsrc => ⟨hw.le, fun hlt => hw.short hlt hsrc, hw.owned, hi', hw.size, ?_⟩⟩
  · have hsame := hw.others j hj hne
    refine ⟨hsame, fun hj => ?_⟩
    have hj' := hsame.tidy hj (hw.itab j hne)
    refine ⟨hj', ?_⟩
    rw [← hsame.ino]
    refine (reads_byte hsb hw.owned hj').congr fun p hp => hsame.byte ?_
    rw [hsame.ino] at hp
    have hle := Nat.div_mul_le_self p bsize
    exact hj.full _ (by omega)
  · rw [← hw.size]
    exact (reads_byte hsb hw.owned hi').congr fun p hp => hw.byte hi.full hsrc hp

/-! ## 例 -/

def exampleSb : Superblock := ⟨64, 32, 2, 5⟩

def exampleFile : Dinode := ⟨tFile, 0, 0, 1, 3, fun k => if k = 0 then 6 else 0⟩

def exampleStore : Store where
  blk b := if b = 5 then fun i => if i = 0 then 127 else 0 else fun _ => 0
  k :=
    { itab := fun i => if i = 1 then ⟨1, true, exampleFile⟩ else ⟨0, false, .empty 0⟩
      files := fun _ => ⟨.none, 0, false, false, 0, 0, 0⟩
      procs := fun _ => ⟨false, fun _ => none, none⟩ }
  umem := fun _ => 0

theorem exampleStore_live (h : exampleSb.Live (exampleStore.ino exampleSb) i) : i = 1 := by
  by_contra hne
  refine h.2 ?_
  have hblk : exampleSb.iblock i ≠ 5 := by
    have := h.1
    simp only [exampleSb, Superblock.iblock, ipb] at *
    omega
  simp [Store.ino, exampleStore, hne, hblk, getDinode, getLE]

theorem exampleStore_ino : exampleStore.ino exampleSb 1 = exampleFile := rfl

theorem single_slot {d : Dinode} {blk : Nat → Block} {b : Nat} (hd : d.addrs = fun k => if k = 0 then b else 0) (k : Nat) :
    d.slot blk k = if k = 0 then b else 0 := by
  by_cases hk : k ≤ ndirect
  · rw [Dinode.slot_addr hk, hd]
  · have hz : d.addrs ndirect = 0 := by
      rw [hd]
      rfl
    rw [Dinode.slot, if_neg hk, if_pos hz, if_neg (by rintro rfl; exact hk (Nat.zero_le _))]

theorem owned_one {sb : Superblock} {blk : Nat → Block} {ino : Nat → Dinode} {b : Nat} (i0 : Nat)
    (hrest : ∀ i, sb.Live ino i → i ≠ i0 → (ino i).addrs = fun _ => 0)
    (hd : (ino i0).addrs = fun k => if k = 0 then b else 0) (hb : sb.datastart ≤ b ∧ b < sb.size)
    (hused : sb.used blk b = true) (hkept : ∀ b, b < sb.datastart → b < sb.size → sb.used blk b = true) :
    Owned sb blk ino := by
  have hslot : ∀ {i k}, sb.Live ino i → (ino i).slot blk k ≠ 0 → i = i0 ∧ k = 0 ∧ (ino i).slot blk k = b := by
    intro i k hi hne
    by_cases he : i = i0
    · subst he
      rw [single_slot hd] at hne ⊢
      split
      · exact ⟨rfl, ‹_›, rfl⟩
      · rename_i h
        exact absurd (if_neg h) hne
    · refine absurd ?_ hne
      rw [single_slot (b := 0) (by rw [hrest i hi he]; simp), ite_self]
  refine ⟨fun i k hi _ hne => ?_, fun i k hi _ hne => ?_, fun i k j l hi hj _ _ hne heq => ?_, hkept⟩
  · rw [(hslot hi hne).2.2]
    exact hb
  · rw [(hslot hi hne).2.2]
    exact hused
  · obtain ⟨rfl, rfl, -⟩ := hslot hi hne
    obtain ⟨rfl, rfl, -⟩ := hslot hj (heq ▸ hne)
    exact ⟨rfl, rfl⟩

theorem owned_single {sb blk ino b} (i0 : Nat)
    (hlive : ∀ i, sb.Live ino i → i = i0) (hd : (ino i0).addrs = fun k => if k = 0 then b else 0)
    (hb : sb.datastart ≤ b ∧ b < sb.size) (hused : sb.used blk b = true)
    (hkept : ∀ b, b < sb.datastart → b < sb.size → sb.used blk b = true) : Owned sb blk ino :=
  owned_one i0 (fun i hi hne => absurd (hlive i hi) hne) hd hb hused hkept

theorem exampleStore_owned : Owned exampleSb exampleStore.blk (exampleStore.ino exampleSb) := by
  refine owned_single _ (fun i hi => exampleStore_live hi) rfl (by decide) (by decide +kernel) fun b hb _ => ?_
  have hb : b < 6 := hb
  interval_cases b <;> decide +kernel

theorem exampleStore_tidy : Tidy exampleSb exampleStore 1 where
  cached := ⟨by decide, by decide, rfl, by decide⟩
  full bn hlt := by
    have hbn : bn = 0 := by
      change bn * 1024 < 3 at hlt
      omega
    rw [hbn, exampleStore_ino, Dinode.block, single_slot rfl]
    decide

def exampleUser : User := ⟨fun _ _ => true, fun _ _ => 0⟩

theorem file_contents_append : ∃ r s', exec exampleUser (writei exampleSb 1 (.user 0) 3 2000) exampleStore = .ok (r, s') ∧
    r ≠ none ∧ ∀ t, r = some t → (s'.ino exampleSb 1).size = max 3 (3 + t) := by
  obtain ⟨r, s', hrun, hnone, -, hsome⟩ :=
    (file_contents (u := exampleUser) ⟨by decide, by decide⟩ exampleStore_owned exampleStore_tidy).2 (.user 0) 3 2000
  refine ⟨r, s', hrun, fun h => ?_, fun t ht => ((hsome t ht).2 fun _ _ _ => rfl).2.2.2.2.1⟩
  exact absurd (hnone.mp h) (by decide)

end Xv6.Fs
