import Xv6.Fs.Lemmas.Lookup

/-!
# 名前の解決が変えるもの
-/

namespace Xv6.Fs

open Xv6.Lib

variable {sb : Superblock} {u : User} {s s0 : Store} {i j n p : Nat} {l : List Nat} {name : Name}

/-- 整ったファイルシステム。ディレクトリのブロックは欠けておらず、割り当てられた inode にはリンクか参照がある。 -/
structure Sound (sb : Superblock) (s : Store) : Prop where
  ok : sb.Ok
  owned : Owned sb s.blk (s.ino sb)
  full : ∀ i, i < sb.ninodes → (s.ino sb i).type = tDir → (s.ino sb i).Full s.blk
  small : ∀ i, i < sb.ninodes → (s.ino sb i).type = tDir → (s.ino sb i).size < 2 ^ 31
  whole : ∀ i, i < sb.ninodes → (s.ino sb i).type = tDir → (s.ino sb i).size % direntSize = 0
  entry : ∀ i y, i < sb.ninodes → (s.ino sb i).type = tDir → direntSize * (y + 1) ≤ (s.ino sb i).size →
    direntInum (s.direntAt sb i y) 0 ≠ 0 → direntInum (s.direntAt sb i y) 0 < sb.ninodes
  links : ∀ i, i < sb.ninodes → (s.ino sb i).type ≠ 0 → (s.ino sb i).nlink ≠ 0 ∨ 0 < (s.k.itab i).ref
  root : rootino < sb.ninodes
  cwd : ∀ p i, (s.k.procs p).cwd = some i → i < sb.ninodes ∧ 0 < (s.k.itab i).ref
  files : ∀ f, (s.k.files f).ref = 0 → (s.k.files f).type = .none

/-- `l` の inode の参照を持つ。それを除けば、`s0` と同じである。 -/
structure Held (sb : Superblock) (s0 : Store) (l : List Nat) (s : Store) : Prop where
  blk : s.blk = s0.blk
  umem : s.umem = s0.umem
  files : s.k.files = s0.k.files
  procs : s.k.procs = s0.k.procs
  ref : ∀ i, (s.k.itab i).ref = (s0.k.itab i).ref + l.count i
  ino : ∀ i, s.ino sb i = s0.ino sb i
  loaded : ∀ i, (s0.k.itab i).ref = 0 → 0 < (s.k.itab i).ref → (s.k.itab i).valid = true → (s0.ino sb i).type ≠ 0

/-- `l` の参照を持つとき、inode `j` は表になく、表に空きもない。 -/
def Store.Jams (sb : Superblock) (s : Store) (l : List Nat) (j : Nat) : Prop :=
  (s.k.itab j).ref + l.count j = 0 ∧
    ninode ≤ (List.range sb.ninodes).countP fun i => 0 < (s.k.itab i).ref + l.count i

/-- inode `i` をロックした。メモリの中身は正しい。 -/
structure Locked (sb : Superblock) (s0 : Store) (i : Nat) (s : Store) : Prop where
  ref : 0 < (s.k.itab i).ref
  valid : (s.k.itab i).valid = true
  d : (s.k.itab i).d = s0.ino sb i

theorem Held.refl (s : Store) : Held sb s [] s where
  blk := rfl
  umem := rfl
  files := rfl
  procs := rfl
  ref _ := rfl
  ino _ := rfl
  loaded i h0 hpos := by omega

namespace Held

section

variable (h : Held sb s0 l s)
include h

theorem perm {l'} (hp : l.Perm l') : Held sb s0 l' s :=
  { h with ref := fun i => by rw [h.ref i, hp.count_eq] }

theorem ino_eq : s.ino sb = s0.ino sb := funext h.ino

theorem owned (ho : Owned sb s0.blk (s0.ino sb)) : Owned sb s.blk (s.ino sb) := by
  rw [h.blk, h.ino_eq]
  exact ho

theorem direntAt (i y : Nat) : s.direntAt sb i y = s0.direntAt sb i y := by
  have hbyte : s.byte sb i = s0.byte sb i := funext fun p => by rw [Store.byte, Store.byte, h.ino, h.blk]
  rw [Store.direntAt, Store.direntAt, hbyte]

/-- 欄を一つ書き換えた後の `Held`。参照の数が握った数に合えばよい。 -/
theorem setI {m l'} (hm : m.ref = (s0.k.itab i).ref + l'.count i) (hl : ∀ j, j ≠ i → l'.count j = l.count j)
    (hino : (if 0 < m.ref ∧ m.valid = true then m.d else getDinode (s.blk (sb.iblock i)) (dinodeOff i)) = s.ino sb i)
    (hload : (s0.k.itab i).ref = 0 → m.valid = true → (s0.ino sb i).type ≠ 0) :
    Held sb s0 l' (s.setK (s.k.setI i m)) := by
  refine { h with ref := fun j => ?_, ino := fun j => ?_, loaded := fun j h0 hpos hv => ?_ }
  · by_cases hj : j = i
    · subst hj
      simpa [Store.setK, Kernel.setI] using hm
    · simpa [Store.setK, Kernel.setI, hj, hl j hj] using h.ref j
  · rw [← h.ino j]
    by_cases hj : j = i
    · subst hj
      rw [← hino]
      simp [Store.ino, Store.setK, Kernel.setI]
    · simp [Store.ino, Store.setK, Kernel.setI, hj]
  · by_cases hj : j = i
    · subst hj
      exact hload h0 (by simpa [Store.setK, Kernel.setI] using hv)
    · simp only [Store.setK, Kernel.setI, update_of_ne hj] at hpos hv
      exact h.loaded j h0 hpos hv

/-- 表が埋まっていれば `panic` し、そうでなければ `i` を握る。 -/
theorem iget_or {E} (hE : s0.Jams sb l i → E "iget: no inodes") :
    wp (exec u (iget sb i)) (fun _ s' => Held sb s0 (i :: l) s' ∧ (∀ j, Locked sb s0 j s → Locked sb s0 j s') ∧
      ¬s0.Jams sb l i) E s := by
  have hcount : ∀ j, j ≠ i → (i :: l).count j = l.count j := fun j hj => List.count_cons_of_ne hj.symm
  have hjams : s0.Jams sb l i ↔ (s.k.itab i).ref = 0 ∧ ninode ≤ s.k.active sb := by
    simp only [Store.Jams, Kernel.active, h.ref]
  rw [Fs.iget, exec_bind, exec_getK, exec_ite]
  refine ⟨fun hpos => ?_, fun hz => ?_⟩
  · rw [exec_setK]
    refine ⟨h.setI ?_ hcount ?_ ?_, fun j hj => ?_, fun hc => absurd (hjams.mp hc).1 (by omega)⟩
    · rw [List.count_cons_self, h.ref i]
      exact Nat.add_assoc ..
    · simp [Store.ino, hpos]
    · exact fun h0 hv => h.loaded i h0 hpos hv
    · by_cases he : j = i
      · subst he
        constructor <;> simp [Store.setK, Kernel.setI, hj.valid, hj.d]
      · constructor <;> simp [Store.setK, Kernel.setI, he, hj.valid, hj.d, hj.ref]
  rw [exec_ite]
  refine ⟨fun hfull => hE (hjams.mpr ⟨by omega, hfull⟩), fun hroom => ?_⟩
  rw [exec_setK]
  have hr := h.ref i
  refine ⟨h.setI ?_ hcount ?_ (by simp), fun j hj => ?_, fun hc => hroom (hjams.mp hc).2⟩
  · rw [List.count_cons_self]
    show 1 = _
    omega
  · simp [Store.ino, hz]
  · by_cases he : j = i
    · subst he
      exact absurd hj.ref hz
    · constructor <;> simp [Store.setK, Kernel.setI, he, hj.valid, hj.d, hj.ref]

theorem iget :
    wp (exec u (Fs.iget sb i)) (fun _ s' => Held sb s0 (i :: l) s' ∧ ∀ j, Locked sb s0 j s → Locked sb s0 j s')
      (fun _ => True) s :=
  wp_post (h.iget_or fun _ => trivial) fun _ _ h' => ⟨h'.1, h'.2.1⟩

theorem idup {E} (hpos : 0 < (s0.k.itab i).ref) :
    wp (exec u (idup i)) (fun _ s' => Held sb s0 (i :: l) s') E s := by
  have hr := h.ref i
  rw [Fs.idup, exec_bind, exec_getK, exec_setK]
  refine h.setI ?_ (fun j hj => List.count_cons_of_ne hj.symm) ?_ fun h0 => absurd h0 (by omega)
  · rw [List.count_cons_self]
    show (s.k.itab i).ref + 1 = _
    omega
  · simp [Store.ino, show 0 < (s.k.itab i).ref by omega]

theorem ilock_or {E} (href : (s.k.itab i).ref < 1 → E "ilock")
    (htype : (s0.ino sb i).type = 0 → E "ilock: no type") :
    wp (exec u (ilock sb i)) (fun _ s' => Held sb s0 l s' ∧ Locked sb s0 i s' ∧ ∀ j, Locked sb s0 j s → Locked sb s0 j s')
      E s := by
  rw [Fs.ilock, exec_bind, exec_getK, exec_ite]
  refine ⟨href, fun hlt => ?_⟩
  have hpos : 0 < (s.k.itab i).ref := by omega
  rw [exec_ite]
  refine ⟨fun hv => ⟨h, ⟨hpos, hv, ?_⟩, fun _ hj => hj⟩, fun hv => ?_⟩
  · rw [← h.ino i, Store.ino, if_pos ⟨hpos, hv⟩]
  have hino : s.ino sb i = getDinode (s.blk (sb.iblock i)) (dinodeOff i) := by
    rw [Store.ino, if_neg fun hc => hv hc.2]
  simp only [exec_bind, exec_bread, exec_setK, exec_brelse, exec_ite]
  refine ⟨fun h0 => htype (by rw [← h.ino i, hino, h0]), fun htype => ?_⟩
  refine ⟨h.setI (h.ref i) (fun _ _ => rfl) ?_ ?_, ?_, fun j hj => ?_⟩
  · rw [if_pos ⟨hpos, rfl⟩, hino]
  · rw [← h.ino i, hino]
    exact fun _ _ => htype
  · refine ⟨?_, ?_, ?_⟩
    · simpa [Store.setK, Kernel.setI] using hpos
    · simp [Store.setK, Kernel.setI]
    · rw [← h.ino i, hino]
      simp [Store.setK, Kernel.setI]
  · by_cases he : j = i
    · subst he
      exact absurd hj.valid hv
    · constructor <;> simp [Store.setK, Kernel.setI, he, hj.valid, hj.d, hj.ref]

theorem ilock :
    wp (exec u (Fs.ilock sb i)) (fun _ s' => Held sb s0 l s' ∧ Locked sb s0 i s' ∧ ∀ j, Locked sb s0 j s → Locked sb s0 j s')
      (fun _ => True) s :=
  h.ilock_or (fun _ => trivial) fun _ => trivial

end

theorem iput {E} (hs : Sound sb s0) (h : Held sb s0 (i :: l) s) (hi : i < sb.ninodes) :
    wp (exec u (iput sb i)) (fun _ s' => Held sb s0 l s' ∧
      ∀ j, j ≠ i ∨ 1 < (s.k.itab j).ref → Locked sb s0 j s → Locked sb s0 j s') E s := by
  have hr := h.ref i
  rw [List.count_cons_self] at hr
  -- リンクのない inode には、ほかにも参照がある。
  have hkeep : ¬((s.k.itab i).ref = 1 ∧ (s.k.itab i).valid = true ∧ (s.k.itab i).d.nlink = 0) := by
    rintro ⟨h1, hv, hl⟩
    have h0 : (s0.k.itab i).ref = 0 := by omega
    rcases hs.links i hi (h.loaded i h0 (by omega) hv) with hn | hn
    · refine hn ?_
      rw [← h.ino i, Store.ino, if_pos ⟨by omega, hv⟩, hl]
    · omega
  rw [Fs.iput, exec_bind, exec_getK, exec_bind, if_neg hkeep]
  refine wp_pure.mpr ?_
  rw [exec_bind, exec_getK, exec_setK]
  refine ⟨h.setI ?_ (fun j hj => (List.count_cons_of_ne hj.symm).symm) ?_ ?_, fun j hne hj => ?_⟩
  · show (s.k.itab i).ref - 1 = _
    omega
  · by_cases h1 : (s.k.itab i).ref = 1
    · have h0 : (s0.k.itab i).ref = 0 := by omega
      rw [if_neg (by simp [h1]), h.ino i, Store.ino, if_neg (by simp [h0]), h.blk]
    · have hiff : 0 < (s.k.itab i).ref - 1 ↔ 0 < (s.k.itab i).ref := by omega
      simp [Store.ino, hiff]
  · exact fun h0 hv => h.loaded i h0 (by omega) hv
  · by_cases he : j = i
    · subst he
      have h2 : 1 < (s.k.itab j).ref := hne.resolve_left fun hc => hc rfl
      constructor <;> simp [Store.setK, Kernel.setI, hj.valid, hj.d, h2]
    · constructor <;> simp [Store.setK, Kernel.setI, he, hj.valid, hj.d, hj.ref]

theorem ref_pos (h : Held sb s0 (i :: l) s) : 0 < (s.k.itab i).ref := by
  rw [h.ref i, List.count_cons_self]
  omega

theorem iunlockput {E} (hs : Sound sb s0) (h : Held sb s0 (i :: l) s) (hi : i < sb.ninodes) :
    wp (exec u (iunlockput sb i)) (fun _ s' => Held sb s0 l s' ∧
      ∀ j, j ≠ i ∨ 1 < (s.k.itab j).ref → Locked sb s0 j s → Locked sb s0 j s') E s := by
  simp only [Fs.iunlockput, iunlock, exec_bind, exec_getK, exec_ite]
  exact ⟨fun hlt => absurd h.ref_pos (by omega), fun _ => h.iput hs hi⟩

end Held

structure Opened (sb : Superblock) (s0 : Store) (i : Nat) (s : Store) : Prop extends Locked sb s0 i s where
  lt : i < sb.ninodes
  dir : (s0.ino sb i).type = tDir

theorem Opened.cached (h : Opened sb s0 i s) : s.Cached sb i where
  __ := h
  type := by
    rw [h.d, h.dir]
    decide

theorem Held.readDirent {msg y Q E} (hs : Sound sb s0)
    (h : Held sb s0 l s) (ho : Opened sb s0 i s) (hlt : direntSize * y < (s0.ino sb i).size)
    (hQ : direntSize * (y + 1) ≤ (s0.ino sb i).size → Q (s0.direntAt sb i y) s) :
    wp (exec u (readDirent sb i (direntSize * y) msg)) Q E s := by
  have hwhole := hs.whole i ho.lt ho.dir
  have hsize : direntSize * (y + 1) ≤ (s0.ino sb i).size := by
    simp only [direntSize] at *
    omega
  refine readDirent_spec hs.ok (h.owned hs.owned) ho.cached ?_ ?_ (fun p hp => ?_) ?_
  · rwa [h.ino]
  · rw [h.ino]
    exact hs.small i ho.lt ho.dir
  · have hdiv := Nat.div_mul_le_self p bsize
    have hfull := hs.full i ho.lt ho.dir (p / bsize) (by omega)
    rwa [Store.Mapped, h.ino, h.blk]
  · rw [h.direntAt]
    exact hQ hsize

def Named (sb : Superblock) (s : Store) (i : Nat) (name : Name) (y : Nat) : Prop :=
  direntInum (s.direntAt sb i y) 0 ≠ 0 ∧ direntName (s.direntAt sb i y) 0 = name

instance (sb : Superblock) (s : Store) (i : Nat) (name : Name) (y : Nat) : Decidable (Named sb s i name y) :=
  inferInstanceAs (Decidable (_ ∧ _))

def Store.entryOf (sb : Superblock) (s : Store) (i : Nat) (name : Name) : Option Nat :=
  (List.range ((s.ino sb i).size / direntSize)).find? fun y => Named sb s i name y

theorem lt_entries {n y} : y < n / direntSize ↔ direntSize * (y + 1) ≤ n := by
  simp only [direntSize]
  omega

theorem entryOf_eq_none : s.entryOf sb i name = none ↔
    ∀ y, direntSize * (y + 1) ≤ (s.ino sb i).size → ¬Named sb s i name y := by
  simp only [Store.entryOf, List.find?_range_eq_none, lt_entries, Bool.not_eq_true', decide_eq_false_iff_not]

/-- `entryOf` は、同じ名前のうち最初の要素を返す。 -/
theorem entryOf_eq_some {y} : s.entryOf sb i name = some y ↔ Named sb s i name y ∧
    direntSize * (y + 1) ≤ (s.ino sb i).size ∧ ∀ y' < y, ¬Named sb s i name y' := by
  simp only [Store.entryOf, List.find?_range_eq_some, List.mem_range, lt_entries, decide_eq_true_eq, Bool.not_eq_true',
    decide_eq_false_iff_not]

/-- `dirlookup` は、最初の項目を返す。見つかれば、その inode の参照を得る。 -/
structure Found (sb : Superblock) (s0 : Store) (l : List Nat) (i : Nat) (name : Name) (s : Store) (r : Option (Nat × Nat))
    (s' : Store) : Prop where
  entry : r = (s0.entryOf sb i name).map fun y => (direntSize * y, direntInum (s0.direntAt sb i y) 0)
  miss : r = none → s' = s
  hit : ∀ off n, r = some (off, n) → Held sb s0 (n :: l) s' ∧ ¬s0.Jams sb l n
  locked : ∀ j, Locked sb s0 j s → Locked sb s0 j s'

theorem Found.none (h : s0.entryOf sb i name = .none) : Found sb s0 l i name s .none s where
  entry := by rw [h, Option.map_none]
  miss _ := rfl
  hit _ _ h := by cases h
  locked _ h := h

theorem Held.dirlookupLoop {E} (hs : Sound sb s0) (h : Held sb s0 l s) (ho : Opened sb s0 i s)
    (hE : ∀ y, s0.entryOf sb i name = some y → s0.Jams sb l (direntInum (s0.direntAt sb i y) 0) → E "iget: no inodes")
    (fuel : Nat) :
    ∀ {y : Nat}, (s0.ino sb i).size / direntSize < y + fuel → (∀ y' < y, ¬Named sb s0 i name y') →
      wp (exec u (dirlookupLoop sb i name (direntSize * y) fuel)) (Found sb s0 l i name s) E s := by
  induction fuel with
  | zero =>
    intro y hlt hno
    refine wp_pure.mpr (.none (entryOf_eq_none.mpr fun y' hy' => hno y' ?_))
    simp only [direntSize] at *
    omega
  | succ fuel ih =>
    intro y hlt hno
    rw [Fs.dirlookupLoop, exec_bind, exec_inode, ho.d, exec_ite]
    refine ⟨fun hsz => ?_, fun hsz => wp_pure.mpr (.none (entryOf_eq_none.mpr fun y' hy' => hno y' ?_))⟩
    · rw [exec_bind]
      refine h.readDirent hs ho hsz fun hsize => ?_
      rw [exec_ite]
      refine ⟨fun hm => ?_, fun hm => ?_⟩
      · have hentry := entryOf_eq_some.mpr ⟨hm, hsize, hno⟩
        rw [exec_bind]
        refine wp_post (h.iget_or (hE y hentry)) ?_
        rintro _ s' ⟨h', hl', hroom⟩
        refine wp_pure.mpr ⟨?_, by simp, ?_, hl'⟩
        · rw [hentry, Option.map_some]
        · rintro off n ⟨⟩
          exact ⟨h', hroom⟩
      · refine ih (y := y + 1) (by omega) fun y' hy' => ?_
        by_cases he : y' = y
        · rw [he]
          exact hm
        · exact hno y' (by omega)
    · simp only [direntSize] at *
      omega

theorem Held.dirlookup_found {E} (hs : Sound sb s0) (h : Held sb s0 l s) (ho : Opened sb s0 i s)
    (hE : ∀ y, s0.entryOf sb i name = some y → s0.Jams sb l (direntInum (s0.direntAt sb i y) 0) → E "iget: no inodes") :
    wp (exec u (dirlookup sb i name)) (Found sb s0 l i name s) E s := by
  rw [Fs.dirlookup, exec_bind, exec_inode, ho.d, exec_ite]
  refine ⟨fun hne => absurd ho.dir hne, fun _ => ?_⟩
  exact h.dirlookupLoop hs ho hE _ (y := 0) (by omega) fun y' hy' => absurd hy' (Nat.not_lt_zero y')

structure Looked (sb : Superblock) (s0 : Store) (l : List Nat) (i : Nat) (name : Name) (s : Store) (r : Option (Nat × Nat))
    (s' : Store) : Prop where
  miss : r = none → s' = s ∧ s0.entryOf sb i name = none
  hit : ∀ off n, r = some (off, n) → Held sb s0 (n :: l) s' ∧ n < sb.ninodes ∧ s0.entryOf sb i name ≠ none
  locked : ∀ j, Locked sb s0 j s → Locked sb s0 j s'

theorem Found.looked {r s'} (h : Found sb s0 l i name s r s') (hs : Sound sb s0)
    (hi : i < sb.ninodes) (hdir : (s0.ino sb i).type = tDir) : Looked sb s0 l i name s r s' where
  miss hr := ⟨h.miss hr, Option.map_eq_none_iff.mp (h.entry.symm.trans hr)⟩
  hit off n hr := by
    obtain ⟨y, hy, heq⟩ := Option.map_eq_some_iff.mp (h.entry.symm.trans hr)
    cases heq
    obtain ⟨hm, hsize, -⟩ := entryOf_eq_some.mp hy
    exact ⟨(h.hit _ _ hr).1, hs.entry i y hi hdir hsize hm.1, by simp [hy]⟩
  locked := h.locked

theorem Held.dirlookup (hs : Sound sb s0) (h : Held sb s0 l s) (hl : Locked sb s0 i s) (hi : i < sb.ninodes) :
    wp (exec u (dirlookup sb i name)) (fun r s' => (s0.ino sb i).type = tDir ∧ Looked sb s0 l i name s r s')
      (fun _ => True) s := by
  by_cases hdir : (s0.ino sb i).type = tDir
  · exact wp_post (h.dirlookup_found hs ⟨hl, hi, hdir⟩ fun _ _ _ => trivial) fun r s' h' => ⟨hdir, h'.looked hs hi hdir⟩
  · rw [Fs.dirlookup, exec_bind, exec_inode, hl.d, exec_ite]
    exact ⟨fun _ => trivial, fun hc => absurd (not_not.mp hc) hdir⟩

structure Resolved (sb : Superblock) (s0 : Store) (l : List Nat) (parent : Bool) (r : Option (Nat × Name)) (s' : Store) :
    Prop where
  lost : r = none → Held sb s0 l s'
  found : ∀ j name, r = some (j, name) → Held sb s0 (j :: l) s' ∧ j < sb.ninodes ∧
    (parent = true → (s0.ino sb j).type = tDir)

theorem Resolved.of_held {parent} (h : Held sb s0 l s) : Resolved sb s0 l parent none s :=
  ⟨fun _ => h, nofun⟩

/-- `namex` の後に握られているのは、結果の inode だけである。 -/
theorem Held.namexLoop (hs : Sound sb s0) (parent : Bool) (elems : List Name) : ∀ {i : Nat} {s : Store},
    Held sb s0 (i :: l) s → i < sb.ninodes →
    wp (exec u (namexLoop sb parent i elems)) (Resolved sb s0 l parent) (fun _ => True) s := by
  induction elems with
  | nil =>
    intro i s h ha
    rw [Fs.namexLoop, exec_ite]
    refine ⟨fun _ => ?_, fun hp => wp_pure.mpr ⟨by simp, ?_⟩⟩
    · rw [exec_bind]
      exact wp_post (h.iput hs ha) fun _ s' h' => wp_pure.mpr (.of_held h'.1)
    · rintro j name ⟨⟩
      exact ⟨h, ha, fun hc => absurd hc hp⟩
  | cons name rest ih =>
    intro i s h ha
    rw [Fs.namexLoop, exec_bind]
    refine wp_post h.ilock ?_
    rintro _ s1 ⟨h1, hl1, _⟩
    rw [exec_bind, exec_inode, hl1.d, exec_ite]
    refine ⟨fun _ => ?_, fun hdir => ?_⟩
    · rw [exec_bind]
      exact wp_post (h1.iunlockput hs ha) fun _ s2 h2 => wp_pure.mpr (.of_held h2.1)
    have hdir : (s0.ino sb i).type = tDir := not_not.mp hdir
    rw [exec_ite]
    refine ⟨fun _ => ?_, fun _ => ?_⟩
    · simp only [iunlock, exec_bind, exec_getK, exec_ite]
      refine ⟨fun _ => trivial, fun _ => wp_pure.mpr ⟨by simp, ?_⟩⟩
      rintro j nm ⟨⟩
      exact ⟨h1, ha, fun _ => hdir⟩
    rw [exec_bind]
    refine wp_post (h1.dirlookup hs hl1 ha) ?_
    rintro (_ | ⟨off, next⟩) s2 ⟨_, hlook⟩
    · obtain ⟨rfl, _⟩ := hlook.miss rfl
      simp only [exec_bind]
      exact wp_post (h1.iunlockput hs ha) fun _ s3 h3 => wp_pure.mpr (.of_held h3.1)
    · obtain ⟨h2, hn, _⟩ := hlook.hit off next rfl
      simp only [exec_bind]
      refine wp_post ((h2.perm (.swap i next l)).iunlockput hs ha) fun _ s3 h3 => ?_
      exact ih h3.1 hn

theorem Held.namex (hs : Sound sb s0) (h : Held sb s0 l s) (path : List UInt8) (parent : Bool) :
    wp (exec u (namex sb p path parent)) (Resolved sb s0 l parent) (fun _ => True) s := by
  rw [Fs.namex, exec_ite]
  refine ⟨fun _ => ?_, fun _ => ?_⟩
  · rw [exec_bind]
    exact wp_post h.iget fun _ s1 h1 => h1.1.namexLoop hs parent _ hs.root
  simp only [proc, exec_bind, exec_getK]
  refine wp_pure.mpr ?_
  rw [h.procs]
  split
  · rename_i i hcwd
    obtain ⟨hi, hpos⟩ := hs.cwd p i hcwd
    rw [exec_bind]
    exact wp_post (h.idup hpos) fun _ s1 h1 => h1.namexLoop hs parent _ hi
  · exact trivial

theorem Held.namei (hs : Sound sb s0) (h : Held sb s0 l s) (path : List UInt8) :
    wp (exec u (namei sb p path)) (fun r s' => (r = none → Held sb s0 l s') ∧
      ∀ j, r = some j → Held sb s0 (j :: l) s' ∧ j < sb.ninodes) (fun _ => True) s := by
  rw [Fs.namei, exec_bind]
  refine wp_post (h.namex hs path false) ?_
  rintro (_ | ⟨j, name⟩) s' hr
  · exact wp_pure.mpr ⟨fun _ => hr.lost rfl, by simp⟩
  · refine wp_pure.mpr ⟨by simp, ?_⟩
    rintro j ⟨⟩
    obtain ⟨h', ha, _⟩ := hr.found j name rfl
    exact ⟨h', ha⟩

end Xv6.Fs
