import Xv6.Fs.Lemmas.Layout

/-!
# ブロックの割り当て
-/

namespace Xv6.Fs

open Xv6.Lib

variable {sb : Superblock} {u : User} {α β : Type} {E : String → Prop} {s : Store}

section Rules

variable {Q : α → Store → Prop}

@[simp]
theorem exec_bind {x : FsM β} {f : β → FsM α} :
    wp (exec u (x >>= f)) Q E s ↔ wp (exec u x) (fun b t => wp (exec u (f b)) Q E t) E s := Free.wp_run_bind

@[simp]
theorem exec_ret {a} : wp (exec u (.ret a : FsM α)) Q E s ↔ Q a s := Iff.rfl

theorem exec_ite {c} [Decidable c] {x y} :
    wp (exec u (if c then x else y)) Q E s ↔ (c → wp (exec u x) Q E s) ∧ (¬c → wp (exec u y) Q E s) := by
  by_cases hc : c <;> simp [hc]

end Rules

@[simp]
theorem exec_bread {b Q} : wp (exec u (bread b)) Q E s ↔ Q (s.blk b) s := Iff.rfl

section Unit

variable {Q : Unit → Store → Prop}

@[simp]
theorem exec_put {b d} : wp (exec u (put b d)) Q E s ↔ Q () (s.setBlk b d) := Iff.rfl

@[simp]
theorem exec_logWrite {b} : wp (exec u (logWrite b)) Q E s ↔ Q () s := Iff.rfl

@[simp]
theorem exec_brelse {b} : wp (exec u (brelse b)) Q E s ↔ Q () s := Iff.rfl

@[simp]
theorem exec_setK {k} : wp (exec u (setK k)) Q E s ↔ Q () (s.setK k) := Iff.rfl

end Unit

@[simp]
theorem exec_getK {Q} : wp (exec u getK) Q E s ↔ Q s.k s := Iff.rfl

@[simp]
theorem exec_inode {i Q} : wp (exec u (inode i)) Q E s ↔ Q (s.k.itab i).d s := Iff.rfl

def Store.setD (s : Store) (i : Nat) (d : Dinode) : Store := s.setK (s.k.setI i { s.k.itab i with d := d })

@[simp]
theorem exec_setInode {i d Q} :
    wp (exec u (setInode i d)) Q E s ↔ Q () (s.setD i d) := Iff.rfl

section Fields

variable {b i : Nat} {x : Block} {d : Dinode}

@[simp] theorem setBlk_blk : (s.setBlk b x).blk = update s.blk b x := rfl
@[simp] theorem setBlk_k : (s.setBlk b x).k = s.k := rfl
@[simp] theorem setD_blk : (s.setD i d).blk = s.blk := rfl
@[simp] theorem setD_itab : (s.setD i d).k.itab = update s.k.itab i { s.k.itab i with d := d } := rfl

end Fields

def Store.alloc (sb : Superblock) (s : Store) (b : Nat) : Store :=
  let s := s.setBlk (sb.bblock b) (setBit (s.blk (sb.bblock b)) (b % bpb))
  s.setBlk b (fill (s.blk b) 0 bsize)

@[simp] theorem alloc_k {b : Nat} : (s.alloc sb b).k = s.k := rfl

theorem findFree_some {d size b bi n r} (h : findFree d size b bi n = some r) :
    bi ≤ r ∧ r < bi + n ∧ b + r < size ∧ bit d r = false := by
  induction n generalizing bi with
  | zero => cases h
  | succ n ih =>
    simp only [findFree] at h
    split at h
    · rename_i hlt
      split at h
      · obtain ⟨h1, h2, h3⟩ := ih h
        exact ⟨by omega, by omega, h3⟩
      · rename_i hbit
        cases h
        exact ⟨le_rfl, by omega, hlt, by simpa using hbit⟩
    · cases h

theorem findFree_none {d size b bi n r} (h : findFree d size b bi n = none) (hle : bi ≤ r)
    (hlt : r < bi + n) (hsize : b + r < size) : bit d r = true := by
  induction n generalizing bi with
  | zero => omega
  | succ n ih =>
    rw [findFree, if_pos (by omega)] at h
    split at h
    · rename_i hbit
      by_cases hr : r = bi
      · rw [hr, hbit]
      · exact ih h (by omega) (by omega)
    · cases h

section Balloc

variable {Q : Nat → Store → Prop}

/-- `bpb * j` より前に空きは無い、が繰り返しの不変条件である。 -/
theorem ballocLoop_spec {n j : Nat} (hlast : sb.size ≤ bpb * (j + n))
    (hseen : ∀ b, b < bpb * j → b < sb.size → sb.used s.blk b = true) (hnone : sb.Packed s.blk → Q 0 s)
    (hsome : ∀ b, b < sb.size → sb.used s.blk b = false → Q b (s.alloc sb b)) :
    wp (exec u (ballocLoop sb (bpb * j) n)) Q E s := by
  induction n generalizing j with
  | zero => exact hnone fun b hb => hseen b (Nat.lt_of_lt_of_le hb hlast) hb
  | succ n ih =>
    rw [ballocLoop, exec_ite]
    refine ⟨fun _ => ?_, fun hge => hnone fun b hb => hseen b (by omega) hb⟩
    rw [exec_bind, exec_bread]
    -- 一つのビットマップのブロックは、`bpb` 個のブロックを表す。
    have hblk : ∀ bi, bi < bpb → sb.bblock (bpb * j + bi) = sb.bblock (bpb * j) ∧ (bpb * j + bi) % bpb = bi := by
      intro bi hbi
      simp only [Superblock.bblock, bpb] at *
      omega
    cases hfind : findFree (s.blk (sb.bblock (bpb * j))) sb.size (bpb * j) 0 bpb with
    | none =>
      refine ih (j := j + 1) (by rw [Nat.add_right_comm]; exact hlast) fun b hb hsize => ?_
      by_cases hlt : b < bpb * j
      · exact hseen b hlt hsize
      obtain ⟨bi, rfl⟩ := Nat.exists_eq_add_of_le (Nat.le_of_not_lt hlt)
      have hbi : bi < bpb := by
        rw [Nat.mul_add_one] at hb
        omega
      rw [Superblock.used, (hblk bi hbi).1, (hblk bi hbi).2]
      exact findFree_none hfind (Nat.zero_le _) (by omega) hsize
    | some bi =>
      obtain ⟨-, hbi, hlt, hbit⟩ := findFree_some hfind
      rw [Nat.zero_add] at hbi
      obtain ⟨hb, hm⟩ := hblk bi hbi
      have hres := hsome _ hlt (by rw [Superblock.used, hb, hm, hbit])
      rw [Store.alloc, hb, hm] at hres
      simpa [bzero] using hres

theorem balloc_spec (hnone : sb.Packed s.blk → Q 0 s)
    (hsome : ∀ b, b < sb.size → sb.used s.blk b = false → Q b (s.alloc sb b)) : wp (exec u (balloc sb)) Q E s := by
  refine ballocLoop_spec (j := 0) ?_ (fun b hb => absurd hb (Nat.not_lt_zero b)) hnone hsome
  rw [Nat.zero_add]
  exact Nat.le_of_lt (Nat.lt_mul_div_succ _ (by decide))

end Balloc

def Store.free (sb : Superblock) (s : Store) (b : Nat) : Store :=
  s.setBlk (sb.bblock b) (clearBit (s.blk (sb.bblock b)) (b % bpb))

theorem bfree_spec {b : Nat} {Q : Unit → Store → Prop} (hused : sb.used s.blk b = true) (hQ : Q () (s.free sb b)) :
    wp (exec u (bfree sb b)) Q E s := by
  rw [Superblock.used] at hused
  rw [bfree, exec_bind, exec_bread, if_pos hused]
  exact hQ

end Xv6.Fs
