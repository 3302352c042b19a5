import Xv6.Fs.Lemmas.Rollback

/-!
# `dirlink` が変えるもの
-/

namespace Xv6.Fs

open Xv6.Lib

variable {sb : Superblock} {u : User} {s s0 s' : Store} {i j n x y : Nat} {l : List Nat} {name : Name}

structure DirOk (sb : Superblock) (s : Store) (i : Nat) : Prop where
  full : (s.ino sb i).Full s.blk
  small : (s.ino sb i).size < 2 ^ 31
  whole : (s.ino sb i).size % direntSize = 0
  entry : ∀ y, direntSize * (y + 1) ≤ (s.ino sb i).size → direntInum (s.direntAt sb i y) 0 ≠ 0 →
    direntInum (s.direntAt sb i y) 0 < sb.ninodes

theorem Sound.dirOk (hs : Sound sb s) (hi : i < sb.ninodes) (hdir : (s.ino sb i).type = tDir) : DirOk sb s i :=
  ⟨hs.full i hi hdir, hs.small i hi hdir, hs.whole i hi hdir, fun y => hs.entry i y hi hdir⟩

theorem Same.dirOk (h : Same sb i s s') (hd : DirOk sb s i) : DirOk sb s' i where
  full := h.full hd.full
  small := by
    rw [h.size]
    exact hd.small
  whole := by
    rw [h.size]
    exact hd.whole
  entry y hy hne := by
    rw [h.size] at hy
    rw [h.direntAt hd.full hy] at hne ⊢
    exact hd.entry y hy hne

/-- 動いたのが `x` だけなら、`x` を握ったまま健全さが保たれる。 -/
theorem Move.sound (h : Move sb x s0 s) (hs : Sound sb s0) (href : ∀ i, (s0.k.itab i).ref ≤ (s.k.itab i).ref)
    (hx : 0 < (s.k.itab x).ref) (hdir : (s.ino sb x).type = tDir → DirOk sb s x) : Sound sb s := by
  have hdirs : ∀ i, i < sb.ninodes → (s.ino sb i).type = tDir → DirOk sb s i := by
    intro i hi ht
    by_cases hix : i = x
    · subst hix
      exact hdir ht
    · have hl : sb.Live (s0.ino sb) i := (h.live i hix).mp ⟨hi, by rw [ht]; decide⟩
      have hsame := h.file i hix hl
      exact hsame.dirOk (hs.dirOk hi (by rw [← hsame.type, ht]))
  constructor
  case ok => exact hs.ok
  case owned => exact h.owned
  case full => exact fun i hi ht => (hdirs i hi ht).full
  case small => exact fun i hi ht => (hdirs i hi ht).small
  case whole => exact fun i hi ht => (hdirs i hi ht).whole
  case entry => exact fun i y hi ht => (hdirs i hi ht).entry y
  case links =>
    intro i hi ht
    by_cases hix : i = x
    · subst hix
      exact .inr hx
    · have hl : sb.Live (s0.ino sb) i := (h.live i hix).mp ⟨hi, ht⟩
      rw [(h.file i hix hl).nlink]
      exact (hs.links i hi hl.2).imp_right fun hr => Nat.lt_of_lt_of_le hr (href i)
  case root => exact hs.root
  case cwd =>
    intro p i hc
    rw [h.procs] at hc
    exact ⟨(hs.cwd p i hc).1, Nat.lt_of_lt_of_le (hs.cwd p i hc).2 (href i)⟩
  case files =>
    rw [h.files]
    exact hs.files

/-- 一バイトも書けなかった `writei` は、ファイルの中身を変えない。 -/
theorem Stored.same {src off n} (h : Stored sb u i src off n s 0 s') (hsrc : src.Readable u n)
    (hdir : (s.ino sb i).type = tDir) (hspread : Spread sb i s s') : Same sb i s s' where
  title := by
    obtain ⟨a, ha⟩ := h.title
    exact ⟨a, by rw [ha, Nat.add_zero, Nat.max_eq_left h.start]⟩
  slot l hl := (hspread l hl).imp_right fun hnew => ⟨hdir, hnew⟩
  byte p hp := h.old hsrc p hp (by omega)

theorem direntInum_direntBytes (name : Name) (n : Nat) : direntInum (direntBytes name n) 0 = n % 2 ^ 16 :=
  getLE_putLE _ _ _ _

theorem Stored.dirOk (h : Stored sb u i (.kernel (direntBytes name n)) (direntSize * y) direntSize s direntSize s')
    (hd : DirOk sb s i) (hn : n < sb.ninodes) : DirOk sb s' i := by
  have hsize := h.size
  have hstart := h.start
  have hwhole := hd.whole
  have hbyte : ∀ {p}, p < (s'.ino sb i).size → _ := fun {p} hp => h.toWrote.byte hd.full (p := p) trivial hp
  refine ⟨h.toWrote.full hd.full, ?_, ?_, fun y' hy' hne => ?_⟩
  · have hfits := h.fits
    have hbig : maxfile * bsize < 2 ^ 31 := by decide
    rw [hsize]
    exact Nat.max_lt.mpr ⟨hd.small, by omega⟩
  · rw [hsize]
    simp only [direntSize] at *
    omega
  by_cases hyy : y' = y
  · subst hyy
    have heq : direntInum (s'.direntAt sb i y') 0 = n % 2 ^ 16 := by
      rw [← direntInum_direntBytes name n]
      refine getLE_congr fun k _ hk => ?_
      rw [Store.direntAt, blit_in (Nat.zero_le _) (by simp only [direntSize]; omega), hbyte ?_, if_pos ?_]
      · simp only [Src.data]
        congr 1
        omega
      · simp only [direntSize] at *
        omega
      · simp only [direntSize] at *
        omega
    rw [heq]
    exact Nat.lt_of_le_of_lt (Nat.mod_le _ _) hn
  have hold : direntSize * (y' + 1) ≤ (s.ino sb i).size := by
    simp only [direntSize] at *
    omega
  have heq : s'.direntAt sb i y' = s.direntAt sb i y' := blit_congr fun k hk => by
    rw [hbyte (by simp only [direntSize] at *; omega), if_neg (by simp only [direntSize] at *; omega)]
  rw [heq] at hne ⊢
  exact hd.entry y' hold hne

/-- `dirlink` が書く項目の番号。空いた項目がなければ、終わりに加える。 -/
def Store.gap (sb : Superblock) (s : Store) (i : Nat) : Nat :=
  ((List.range ((s.ino sb i).size / direntSize)).find? fun y => direntInum (s.direntAt sb i y) 0 = 0).getD
    ((s.ino sb i).size / direntSize)

/-- ディレクトリ `i` に項目を一つ書ける。 -/
def Store.DirRoom (sb : Superblock) (s : Store) (i : Nat) : Prop :=
  direntSize * s.gap sb i + direntSize ≤ maxfile * bsize ∧ s.Spares sb i (slotOf (direntSize * s.gap sb i / bsize))

theorem gap_le : direntSize * s.gap sb i ≤ (s.ino sb i).size := by
  have hle : s.gap sb i ≤ (s.ino sb i).size / direntSize := by
    unfold Store.gap
    cases hy : (List.range ((s.ino sb i).size / direntSize)).find? fun y => direntInum (s.direntAt sb i y) 0 = 0 with
    | none => exact le_rfl
    | some y => exact Nat.le_of_lt (List.mem_range.mp (List.mem_of_find?_eq_some hy))
  exact (Nat.mul_le_mul_left _ hle).trans (Nat.mul_div_le _ _)

theorem Held.dirFindFree (hs : Sound sb s0) (h : Held sb s0 l s) (ho : Opened sb s0 i s) (fuel : Nat) :
    ∀ {y : Nat}, direntSize * y ≤ (s0.ino sb i).size → (s0.ino sb i).size / direntSize < y + fuel →
      (∀ y' < y, direntInum (s0.direntAt sb i y') 0 ≠ 0) →
      wp (exec u (dirFindFree sb i (direntSize * y) fuel)) (fun off s' => s' = s ∧ off = direntSize * s0.gap sb i)
        (fun _ => True) s := by
  induction fuel with
  | zero =>
    intro y hy hlt
    simp only [direntSize] at *
    omega
  | succ fuel ih =>
    intro y hy hlt hno
    rw [Fs.dirFindFree, exec_bind, exec_inode, ho.d, exec_ite]
    refine ⟨fun hsz => ?_, fun hsz => wp_pure.mpr ⟨rfl, ?_⟩⟩
    · rw [exec_bind]
      refine h.readDirent hs ho hsz fun hsize => ?_
      rw [exec_ite]
      refine ⟨fun hz => wp_pure.mpr ⟨rfl, ?_⟩, fun hnz => ih (y := y + 1) hsize (by omega) fun y' hy' => ?_⟩
      · have hfind := List.find?_range_eq_some (p := fun y => decide (direntInum (s0.direntAt sb i y) 0 = 0)).mpr
          ⟨decide_eq_true hz, List.mem_range.mpr (lt_entries.mpr hsize), fun y' hy' => by simpa using hno y' hy'⟩
        rw [Store.gap, hfind, Option.getD_some]
      · by_cases he : y' = y
        · rw [he]
          exact hnz
        · exact hno y' (by omega)
    obtain rfl : y = (s0.ino sb i).size / direntSize := by
      simp only [direntSize] at *
      omega
    have hfind := List.find?_range_eq_none (p := fun y => decide (direntInum (s0.direntAt sb i y) 0 = 0)).mpr
      fun y' hy' => by simpa using hno y' hy'
    rw [Store.gap, hfind, Option.getD_none]

structure Linked (sb : Superblock) (u : User) (i : Nat) (name : Name) (n : Nat) (s : Store) (r : Bool) (s' : Store) : Prop where
  failed : r = false → Still sb s s'
  done : r = true → ∃ y, Stored sb u i (.kernel (direntBytes name n)) (direntSize * y) direntSize s direntSize s'
  room : r = true ↔ s.entryOf sb i name = none ∧ s.DirRoom sb i
  move : Move sb i s s'
  ref : ∀ j, (s'.k.itab j).ref = (s.k.itab j).ref
  cached : ∀ j, s.Cached sb j → s'.Cached sb j

theorem Locked.of_cached (h : s.Cached sb i) : Locked sb s i s := ⟨h.ref, h.valid, h.ino_eq.symm⟩

theorem Locked.cached (h : Locked sb s i s') (hc : s.Cached sb i) : s'.Cached sb i where
  __ := h
  lt := hc.lt
  type := by
    rw [h.d]
    exact hc.live.2

theorem dirlink_linked (hs : Sound sb s) (hm : Still sb s s) (hi : s.Cached sb i) :
    wp (exec u (dirlink sb i name n)) (Linked sb u i name n s) (fun _ => True) s := by
  rw [dirlink, exec_bind]
  refine wp_post ((Held.refl s).dirlookup hs (.of_cached hi) hi.lt) ?_
  rintro (_ | ⟨off, m⟩) s1 ⟨hdir, hlook⟩
  · obtain ⟨rfl, hmiss⟩ := hlook.miss rfl
    have ho : Opened sb s1 i s1 := ⟨.of_cached hi, hi.lt, hdir⟩
    simp only [exec_bind, exec_inode]
    refine wp_post ((Held.refl s1).dirFindFree hs ho _ (y := 0) (Nat.zero_le _) ?_ fun y hy =>
      absurd hy (Nat.not_lt_zero y)) ?_
    · rw [hi.ino_eq]
      omega
    rintro off s2 ⟨rfl, rfl⟩
    have hroom : s2.entryOf sb i name = none ∧ s2.DirRoom sb i ↔ s2.DirRoom sb i := and_iff_right hmiss
    have hfit : direntSize * s2.gap sb i % bsize + direntSize ≤ bsize := by
      simp only [direntSize, bsize]
      omega
    refine wp_post (wp_run (writei_stored hs.ok (hm i) hi (Q := fun r s' => r = none ∧ s' = s2 ∧ ¬s2.DirRoom sb i ∨ ∃ k,
      r = some k ∧ Stored sb u i (.kernel (direntBytes name n)) (direntSize * s2.gap sb i) direntSize s2 k s')
      (fun hout => .inl ⟨rfl, rfl, fun h => ?_⟩) fun k s' h => .inr ⟨k, rfl, h⟩)) ?_
    · have : direntSize * s2.gap sb i ≤ (s2.ino sb i).size := gap_le
      have := h.1
      omega
    rintro r s3 ⟨hrun, ⟨rfl, rfl, hno⟩ | ⟨k, rfl, hst⟩⟩
    · refine wp_pure.mpr ⟨fun _ => hm, fun hc => (by simp at hc), ?_, hm i, fun _ => rfl, fun _ h => h⟩
      rw [hroom]
      simpa using hno
    have hk : k = direntSize ∧ s2.Spares sb i (slotOf (direntSize * s2.gap sb i / bsize)) ∨
        k = 0 ∧ ¬s2.Spares sb i (slotOf (direntSize * s2.gap sb i / bsize)) ∧ Spread sb i s2 s3 := by
      have := wp_ok (writei_whole hs.ok (hm i).owned hi (by decide) hfit) hrun
      simpa using this
    have hcached : ∀ j, s2.Cached sb j → s3.Cached sb j := by
      intro j hj
      by_cases hji : j = i
      · rw [hji]
        exact hst.cached
      · exact hj.of_itab (hst.itab j hji)
    refine wp_pure.mpr ⟨fun hf => ?_, fun hd => ⟨s2.gap sb i, ?_⟩, ?_, hst.move, hst.ref, hcached⟩
    · obtain ⟨rfl, -, hspread⟩ := hk.resolve_left fun hc => by simp [hc] at hf
      have hsame := hst.same trivial hdir hspread
      exact hst.move.other ⟨fun _ => hi.live, fun _ => hst.cached.live⟩ fun _ => hsame
    · have : k = direntSize := by simpa using hd
      rwa [this] at hst
    · rw [hroom, Store.DirRoom, and_iff_right hst.fits]
      rcases hk with ⟨rfl, h⟩ | ⟨rfl, h, -⟩
      · simpa using h
      · simpa [direntSize] using h
  obtain ⟨h1, hm1, hhit⟩ := hlook.hit off m rfl
  simp only [exec_bind]
  refine wp_post (h1.iput hs hm1) fun _ s2 ⟨h2, hl2⟩ => ?_
  have hstill := h2.still hm
  refine wp_pure.mpr ⟨fun _ => hstill, nofun, ⟨nofun, fun hc => absurd hc.1 hhit⟩,
    hstill i, h2.ref, fun j hj => ?_⟩
  refine (hl2 j ?_ (hlook.locked j (.of_cached hj))).cached hj
  by_cases hjm : j = m
  · subst hjm
    have := h1.ref j
    have := hj.ref
    rw [List.count_cons_self] at *
    omega
  · exact .inl hjm

end Xv6.Fs
