import Xv6.Fs.Lemmas.Resolve

/-!
# 書き換えの前後
-/

namespace Xv6.Fs

open Xv6.Lib

variable {sb : Superblock} {u : User} {E : String → Prop} {s s0 s' s'' : Store} {i j n off p x : Nat} {l : List Nat}

def Dinode.cut (d : Dinode) : Dinode := { d with addrs := fun k => if k < ndirect + 1 then d.addrs k else 0 }

/-- 配列の外の `addrs` を捨てても、スロットは変わらない。 -/
theorem Dinode.cut_slot (d : Dinode) (blk : Nat → Block) (k : Nat) : d.cut.slot blk k = d.slot blk k := by
  have hind : d.cut.addrs ndirect = d.addrs ndirect := by simp [Dinode.cut]
  unfold Dinode.slot
  split
  · rename_i hk
    exact if_pos (Nat.lt_succ_of_le hk)
  · rw [hind]

theorem getDinode_cut (b : Block) (o : Nat) : (getDinode b o).cut = getDinode b o := by
  refine Dinode.ext rfl rfl rfl rfl rfl (funext fun k => ?_)
  simp only [Dinode.cut, getDinode]
  split <;> rfl

theorem putWords_congr {b o f g n} (h : ∀ k, k < n → f k = g k) :
    putWords b o f n = putWords b o g n := by
  induction n with
  | zero => rfl
  | succ n ih => rw [putWords, putWords, h n (Nat.lt_succ_self n), ih fun k hk => h k (by omega)]

theorem getDinode_put_cut {b o d} (h : Storable d.cut) : getDinode (putDinode b o d) o = d.cut := by
  have hput : putDinode b o d = putDinode b o d.cut := by
    unfold putDinode
    exact putWords_congr fun k hk => (if_pos hk).symm
  rw [hput, getDinode_put_self h]

def Synced (sb : Superblock) (s : Store) : Prop :=
  ∀ i, i < sb.ninodes → getDinode (s.blk (sb.iblock i)) (dinodeOff i) = (s.ino sb i).cut

theorem Synced.storable (h : Synced sb s) (hi : i < sb.ninodes) : Storable (s.ino sb i).cut := by
  rw [← h i hi]
  exact getDinode_storable _ _

def Tight (sb : Superblock) (s : Store) : Prop :=
  ∀ b, sb.datastart ≤ b → b < sb.size → sb.used s.blk b = true →
    ∃ i k, sb.Live (s.ino sb) i ∧ k < nslots ∧ (s.ino sb i).slot s.blk k = b

/-- inode の種類、リンクの数、大きさと、中身が同じである。ディレクトリは、空の間接ブロックを得てもよい。 -/
structure Same (sb : Superblock) (i : Nat) (s s' : Store) : Prop where
  title : ∃ a, s'.ino sb i = { s.ino sb i with addrs := a }
  slot : ∀ l, l < nslots → (s'.ino sb i).slot s'.blk l = (s.ino sb i).slot s.blk l ∨
    (s.ino sb i).type = tDir ∧ l = ndirect ∧ (s.ino sb i).slot s.blk l = 0
  byte : ∀ p, s.Mapped sb i p → s'.byte sb i p = s.byte sb i p

namespace Same

section

variable (h : Same sb i s s')
include h

theorem size : (s'.ino sb i).size = (s.ino sb i).size := by
  obtain ⟨a, ha⟩ := h.title
  rw [ha]

theorem type : (s'.ino sb i).type = (s.ino sb i).type := by
  obtain ⟨a, ha⟩ := h.title
  rw [ha]

theorem nlink : (s'.ino sb i).nlink = (s.ino sb i).nlink := by
  obtain ⟨a, ha⟩ := h.title
  rw [ha]

theorem mapped (p : Nat) : s'.Mapped sb i p ↔ s.Mapped sb i p := by
  refine and_congr_right fun hp => ?_
  rcases h.slot _ (slotOf_lt hp) with heq | ⟨_, hne, _⟩
  · rw [Dinode.block, Dinode.block, heq]
  · exact absurd hne (slotOf_ne _)

theorem trans (h' : Same sb i s' s'') : Same sb i s s'' where
  title := by
    obtain ⟨a, ha⟩ := h.title
    obtain ⟨a', ha'⟩ := h'.title
    exact ⟨a', by rw [ha', ha]⟩
  slot l hl := by
    rcases h.slot l hl with heq | hnew
    · rw [← heq, ← h.type]
      exact h'.slot l hl
    · exact .inr hnew
  byte p hp := (h'.byte p ((h.mapped p).mpr hp)).trans (h.byte p hp)

end

theorem of_slot (ht : ∃ a, s'.ino sb i = { s.ino sb i with addrs := a })
    (hslot : ∀ l, l < nslots → (s'.ino sb i).slot s'.blk l = (s.ino sb i).slot s.blk l)
    (hdata : ∀ bn o, bn < maxfile → (s.ino sb i).block s.blk bn ≠ 0 → o < bsize →
      s'.blk ((s.ino sb i).block s.blk bn) o = s.blk ((s.ino sb i).block s.blk bn) o) : Same sb i s s' := by
  refine ⟨ht, fun l hl => .inl (hslot l hl), fun p hp => ?_⟩
  rw [Store.byte, Dinode.byte, Dinode.block, hslot _ (slotOf_lt hp.1)]
  exact hdata _ _ hp.1 hp.2 (Nat.mod_lt _ (by decide))

theorem of_sameFile (h : SameFile sb i s s') : Same sb i s s' :=
  of_slot ⟨(s.ino sb i).addrs, h.ino⟩ h.slot h.data

theorem refl : Same sb i s s := of_sameFile .refl

theorem full (h : Same sb i s s') (hf : (s.ino sb i).Full s.blk) : (s'.ino sb i).Full s'.blk := fun bn hlt => by
  rw [h.size] at hlt
  have hm : s.Mapped sb i (bn * bsize) := by
    rw [Store.Mapped, Nat.mul_div_cancel bn (by decide)]
    exact hf bn hlt
  have := (h.mapped _).mpr hm
  rwa [Store.Mapped, Nat.mul_div_cancel bn (by decide)] at this

theorem direntAt (h : Same sb i s s') (hf : (s.ino sb i).Full s.blk) {y}
    (hy : direntSize * (y + 1) ≤ (s.ino sb i).size) : s'.direntAt sb i y = s.direntAt sb i y := by
  refine blit_congr fun k hk => h.byte _ (hf _ ?_)
  have := Nat.div_mul_le_self (direntSize * y + k) bsize
  simp only [direntSize] at *
  omega

end Same

structure Move (sb : Superblock) (x : Nat) (s s' : Store) : Prop where
  owned : Owned sb s'.blk (s'.ino sb)
  tight : Tight sb s'
  synced : Synced sb s'
  live : ∀ i, i ≠ x → (sb.Live (s'.ino sb) i ↔ sb.Live (s.ino sb) i)
  file : ∀ i, i ≠ x → sb.Live (s.ino sb) i → Same sb i s s'
  files : s'.k.files = s.k.files
  procs : s'.k.procs = s.k.procs

namespace Move

theorem trans (h : Move sb x s s') (h' : Move sb x s' s'') : Move sb x s s'' where
  owned := h'.owned
  tight := h'.tight
  synced := h'.synced
  live i hi := (h'.live i hi).trans (h.live i hi)
  file i hi hl := (h.file i hi hl).trans (h'.file i hi ((h.live i hi).mpr hl))
  files := h'.files.trans h.files
  procs := h'.procs.trans h.procs

theorem refl (ho : Owned sb s.blk (s.ino sb)) (ht : Tight sb s) (hy : Synced sb s) : Move sb x s s :=
  ⟨ho, ht, hy, fun _ _ => Iff.rfl, fun _ _ _ => .refl, rfl, rfl⟩

theorem other (h : Move sb x s s') (hlive : sb.Live (s'.ino sb) x ↔ sb.Live (s.ino sb) x)
    (hsame : sb.Live (s.ino sb) x → Same sb x s s') (j : Nat) : Move sb j s s' :=
  { h with
    live := fun i _ => by
      by_cases hi : i = x
      · rw [hi]
        exact hlive
      · exact h.live i hi
    file := fun i _ hl => by
      by_cases hi : i = x
      · subst hi
        exact hsame hl
      · exact h.file i hi hl }

theorem of_view (h : Move sb x s s) (hblk : s'.blk = s.blk)
    (hino : ∀ i, i < sb.ninodes → s'.ino sb i = s.ino sb i ∨ s'.ino sb i = (s.ino sb i).cut) (hf : s'.k.files = s.k.files)
    (hp : s'.k.procs = s.k.procs) : Move sb x s s' := by
  have hslot : ∀ i l, i < sb.ninodes → (s'.ino sb i).slot s'.blk l = (s.ino sb i).slot s.blk l := by
    intro i l hi
    rw [hblk]
    rcases hino i hi with heq | heq
    · rw [heq]
    · rw [heq, Dinode.cut_slot]
  have htitle : ∀ i, i < sb.ninodes → ∃ a, s'.ino sb i = { s.ino sb i with addrs := a } := by
    intro i hi
    rcases hino i hi with heq | heq
    · exact ⟨_, heq⟩
    · exact ⟨_, heq⟩
  have hlive : ∀ i, sb.Live (s'.ino sb) i ↔ sb.Live (s.ino sb) i := live_congr fun i hi => by
    obtain ⟨a, ha⟩ := htitle i hi
    rw [ha]
  constructor
  case owned => exact h.owned.of_slots hlive (fun i l hi => hslot i l hi.1) fun c _ => by rw [hblk]
  case tight =>
    intro b h1 h2 hu
    rw [hblk] at hu
    obtain ⟨i, k, hi, hk, hb⟩ := h.tight b h1 h2 hu
    exact ⟨i, k, (hlive i).mpr hi, hk, (hslot i k hi.1).trans hb⟩
  case synced =>
    intro i hi
    rw [hblk, h.synced i hi]
    rcases hino i hi with heq | heq
    · rw [heq]
    · rw [heq, ← h.synced i hi, getDinode_cut]
  case live => exact fun i _ => hlive i
  case file => exact fun i _ hi => .of_slot (htitle i hi.1) (fun l _ => hslot i l hi.1) fun _ _ _ _ _ => by rw [hblk]
  case files => exact hf
  case procs => exact hp

end Move

def Still (sb : Superblock) (s s' : Store) : Prop := ∀ x, Move sb x s s'

namespace Still

theorem refl (ho : Owned sb s.blk (s.ino sb)) (ht : Tight sb s) (hy : Synced sb s) : Still sb s s := fun _ => .refl ho ht hy

theorem trans (h : Still sb s s') (h' : Still sb s' s'') : Still sb s s'' := fun x => (h x).trans (h' x)

theorem live (h : Still sb s s') (i : Nat) : sb.Live (s'.ino sb) i ↔ sb.Live (s.ino sb) i :=
  (h (i + 1)).live i (Nat.ne_of_lt (Nat.lt_succ_self i))

theorem same (h : Still sb s s') (hl : sb.Live (s.ino sb) i) : Same sb i s s' :=
  (h (i + 1)).file i (Nat.ne_of_lt (Nat.lt_succ_self i)) hl

end Still

theorem Move.still_self (h : Move sb x s0 s) : Still sb s s := .refl h.owned h.tight h.synced

theorem Held.still (h : Held sb s l s') (hm : Still sb s s) : Still sb s s' := fun x =>
  (hm x).of_view h.blk (fun i _ => .inl (h.ino i)) h.files h.procs

/-- inode を消さない `iput` は、参照を一つ減らすだけである。 -/
theorem still_iput (hm : Still sb s s) (hi : i < sb.ninodes)
    (hkeep : ¬((s.k.itab i).ref = 1 ∧ (s.k.itab i).valid = true ∧ (s.k.itab i).d.nlink = 0)) :
    wp (exec u (iput sb i)) (fun _ s' => Still sb s s' ∧ s'.k.itab =
      update s.k.itab i { s.k.itab i with ref := (s.k.itab i).ref - 1 }) E s := by
  rw [iput, exec_bind, exec_getK, exec_bind, if_neg hkeep]
  refine wp_pure.mpr ?_
  rw [exec_bind, exec_getK, exec_setK]
  refine ⟨fun x => (hm x).of_view rfl (fun j hj => ?_) rfl rfl, rfl⟩
  by_cases hji : j = i
  · subst hji
    by_cases h1 : 0 < (s.k.itab j).ref - 1
    · refine .inl ?_
      have h2 : 0 < (s.k.itab j).ref := by omega
      simp [Store.ino, Store.setK, Kernel.setI, h1, h2]
    · refine .inr ?_
      rw [← (hm x).synced j hj]
      simp [Store.ino, Store.setK, Kernel.setI, h1]
  · exact .inl (by simp [Store.ino, Store.setK, Kernel.setI, hji])

theorem Storable.of_live {d : Dinode} (hsb : sb.Ok) (ho : Owned sb s.blk (s.ino sb)) (hi : sb.Live (s.ino sb) i)
    (ha : d.addrs = (s.ino sb i).addrs) (htype : d.type < 2 ^ 16) (hmajor : d.major < 2 ^ 16) (hminor : d.minor < 2 ^ 16)
    (hnlink : d.nlink < 2 ^ 16) (hsize : d.size < 2 ^ 32) : Storable d.cut where
  type := htype
  major := hmajor
  minor := hminor
  nlink := hnlink
  size := hsize
  addrs k := by
    simp only [Dinode.cut]
    split
    · rename_i hk
      rw [ha]
      by_cases hz : (s.ino sb i).addrs k = 0
      · rw [hz]
        decide
      · have hslot := ho.region i k hi (by simp only [nslots]; omega)
        rw [Dinode.slot_addr (by omega)] at hslot
        have := hsb.size
        have := (hslot hz).2
        omega
    · decide
  none k hk := if_neg (by omega)

section Update

variable {d : Dinode} (hsb : sb.Ok) (hi : s.Cached sb i) (hd : Retitled (s.k.itab i).d d)

include hsb hi hd in
theorem tight_update (ho : Owned sb s.blk (s.ino sb)) (ht : Tight sb s) : Tight sb ((s.setD i d).iupdated sb i) := by
  have hi2 := hi.setD hd.type
  intro b h1 h2 hu
  rw [Superblock.used, iupdated_blk hsb hi2 (Superblock.Ok.le_bblock sb _)] at hu
  obtain ⟨j, k, hj, hk, hb⟩ := ht b h1 h2 hu
  have hj2 : sb.Live ((s.setD i d).ino sb) j := (setD_live hi hd).mpr hj
  refine ⟨j, k, ?_, hk, ?_⟩
  · rw [Superblock.Live, iupdated_ino hi2]
    exact hj2
  · rw [iupdated_slot hsb hi2 (setD_owned hi hd ho) hj2, setD_slot hi hd, hb]

include hi hd in
theorem synced_update (hst : Storable d.cut)
    (hy : ∀ j, j ≠ i → j < sb.ninodes → getDinode (s.blk (sb.iblock j)) (dinodeOff j) = (s.ino sb j).cut) :
    Synced sb ((s.setD i d).iupdated sb i) := by
  have hi2 := hi.setD hd.type
  intro j hj
  rw [iupdated_ino hi2]
  by_cases hji : j = i
  · subst hji
    rw [setD_ino hi hd, Store.iupdated, setBlk_blk, update_self]
    simp only [setD_itab, update_self]
    exact getDinode_put_cut hst
  · rw [iupdated_disk hji, ino_setD hji]
    exact hy j hji hj

include hsb hi hd in
theorem move_update (hm : Move sb i s s) (hst : Storable d.cut) : Move sb i s ((s.setD i d).iupdated sb i) := by
  have hi2 := hi.setD hd.type
  have ho2 := setD_owned hi hd hm.owned
  constructor
  case owned => exact iupdated_owned hsb hi2 ho2
  case tight => exact tight_update hsb hi hd hm.owned hm.tight
  case synced => exact synced_update hi hd hst fun j _ hj => hm.synced j hj
  case live =>
    intro j hj
    rw [Superblock.Live, Superblock.Live, iupdated_ino hi2, ino_setD hj]
  case file =>
    exact fun j hj hl => .of_sameFile ((setD_sameFile hj).trans
      (iupdated_sameFile hsb hi2 ho2 ((setD_live hi hd).mpr hl)))
  case files => rfl
  case procs => rfl

end Update

theorem Grows.tight {W} (h : Grows sb i W s s') (hsb : sb.Ok) (hi : s.Cached sb i) (ht : Tight sb s) :
    Tight sb s' := by
  intro b h1 h2 hu
  have hpos := Superblock.Ok.bmapstart_lt sb
  rcases h.fresh b h2 hu with hu | ⟨_, k, hk, hb⟩
  · obtain ⟨j, k, hj, hk, hb⟩ := ht b h1 h2 hu
    exact ⟨j, k, (h.live hsb hi j).mpr hj, hk, (h.slot_kept hj hk (by omega)).trans hb⟩
  · exact ⟨i, k, (h.cached hi).live, hk, hb⟩

structure Stored (sb : Superblock) (u : User) (i : Nat) (src : Src) (off n : Nat) (s : Store) (k : Nat) (s' : Store) : Prop
    extends Wrote sb u i src off n s k s' where
  move : Move sb i s s'
  ref : ∀ j, (s'.k.itab j).ref = (s.k.itab j).ref
  title : ∃ a, s'.ino sb i = { s.ino sb i with addrs := a, size := max (s.ino sb i).size (off + k) }

/-- 書いた後に大きさを直した inode は、ディスクと揃っている。 -/
theorem Written.stored {src : Src} {s1 : Store} {r : Nat × Nat} (hsb : sb.Ok) (hm : Move sb i s s) (hi : s.Cached sb i)
    (hoff : off ≤ (s.ino sb i).size) (hmax : off + n ≤ maxfile * bsize) (h : Written sb u i src off 0 n s r s1) :
    Stored sb u i src off n s r.2
      ((s1.setD i { (s1.k.itab i).d with size := max (s1.k.itab i).d.size r.1 }).iupdated sb i) := by
  have hi1 := h.grows.cached hi
  set d := { (s1.k.itab i).d with size := max (s1.k.itab i).d.size r.1 } with hd
  have hr : Retitled (s1.k.itab i).d d := ⟨hi1.type, rfl⟩
  have hi2 : (s1.setD i d).Cached sb i := hi1.setD hr.type
  have ho2 := setD_owned hi1 hr h.grows.owned
  obtain ⟨a, ha⟩ := h.grows.itab_self
  have hpos : r.1 = off + r.2 := h.pos
  have hdeq : d = { s.ino sb i with addrs := a, size := max (s.ino sb i).size (off + r.2) } := by
    rw [hd, ha, hi.ino_eq, hpos]
  have hst : Storable d.cut := by
    have hs := hm.synced.storable hi.lt
    have hbig : maxfile * bsize < 2 ^ 32 := by decide
    have hle := h.le_n
    have hsz : (s.ino sb i).size < 2 ^ 32 := hs.size
    refine .of_live hsb h.grows.owned hi1.live (by rw [hi1.ino_eq]) ?_ ?_ ?_ ?_ ?_
    · rw [hdeq]; exact hs.type
    · rw [hdeq]; exact hs.major
    · rw [hdeq]; exact hs.minor
    · rw [hdeq]; exact hs.nlink
    · rw [hdeq]
      exact Nat.max_lt.mpr ⟨hsz, by omega⟩
  refine { h.wrote hsb hi hoff hmax with move := ?_, ref := fun j => ?_, title := ⟨a, ?_⟩ }
  · constructor
    case owned => exact iupdated_owned hsb hi2 ho2
    case tight => exact tight_update hsb hi1 hr h.grows.owned (h.grows.tight hsb hi hm.tight)
    case synced =>
      refine synced_update hi1 hr hst fun j hj hlt => ?_
      rw [h.grows.low _ (hsb.iblock_lt hlt), h.grows.ino_other hsb hlt hj]
      exact hm.synced j hlt
    case live =>
      intro j hj
      rw [Superblock.Live, iupdated_ino hi2, ino_setD hj]
      exact h.grows.live hsb hi j
    case file =>
      exact fun j hj hl => .of_sameFile (((h.grows.sameFile hsb hl hj).trans (setD_sameFile hj)).trans
        (iupdated_sameFile hsb hi2 ho2 ((setD_live hi1 hr).mpr ((h.grows.live hsb hi j).mpr hl))))
    case files =>
      obtain ⟨a', ha'⟩ := h.grows.addrs
      change s1.k.files = _
      rw [ha']
      rfl
    case procs =>
      obtain ⟨a', ha'⟩ := h.grows.addrs
      change s1.k.procs = _
      rw [ha']
      rfl
  · change ((s1.setD i d).k.itab j).ref = _
    by_cases hji : j = i
    · subst hji
      simp only [setD_itab, update_self, ha]
    · rw [setD_itab, update_of_ne hji, h.grows.itab_other hji]
  · rw [iupdated_ino hi2, setD_ino hi1 hr, hdeq]

theorem writei_stored {src Q} (hsb : sb.Ok) (hm : Move sb i s s) (hi : s.Cached sb i)
    (hnone : off > (s.ino sb i).size ∨ maxfile * bsize < off + n → Q none s)
    (hsome : ∀ k s', Stored sb u i src off n s k s' → Q (some k) s') : wp (exec u (writei sb i src off n)) Q E s :=
  writei_written hsb hm.owned hi hnone fun _ _ hoff hmax h => hsome _ _ (h.stored hsb hm hi hoff hmax)

def Spread (sb : Superblock) (i : Nat) (s s' : Store) : Prop :=
  ∀ l, l < nslots → (s'.ino sb i).slot s'.blk l = (s.ino sb i).slot s.blk l ∨ l = ndirect ∧ (s.ino sb i).slot s.blk l = 0

/-- 一つのブロックに収まる書き込みは、空きがあればすべて書き、なければ何も書かない。 -/
theorem writei_whole {d} (hsb : sb.Ok) (ho : Owned sb s.blk (s.ino sb)) (hi : s.Cached sb i) (hn : 0 < n)
    (hfit : off % bsize + n ≤ bsize) :
    wp (exec u (writei sb i (.kernel d) off n)) (fun r s' => r = none ∨ r = some n ∧ s.Spares sb i (slotOf (off / bsize)) ∨
      r = some 0 ∧ ¬s.Spares sb i (slotOf (off / bsize)) ∧ Spread sb i s s') (fun _ => True) s := by
  have hm : min (n - 0) (bsize - off % bsize) = n := by omega
  have hloop : ∀ fuel, 0 < fuel → off / bsize < maxfile → wp (exec u (writeiLoop sb i (.kernel d) off 0 n fuel)) (fun r s' =>
      r.2 = n ∧ s.Spares sb i (slotOf (off / bsize)) ∨ r.2 = 0 ∧ ¬s.Spares sb i (slotOf (off / bsize)) ∧ Spread sb i s s' ∧
        Owned sb s'.blk (s'.ino sb) ∧ s'.Cached sb i) (fun _ => True) s := by
    intro fuel hfuel hbn
    cases fuel with
    | zero => omega
    | succ fuel =>
      rw [writeiLoop, if_pos hn, exec_bind]
      refine wp_post (bmap_spec (W := fun _ => False) hsb ho hi hbn) fun addr s1 h1 => ?_
      rw [exec_ite]
      refine ⟨fun hz => wp_pure.mpr (.inr ⟨rfl, fun h => h1.room.mpr h hz, fun l hl => ?_, h1.grows.owned,
        h1.grows.cached hi⟩), fun hne => ?_⟩
      · exact (h1.spread l hl).imp_right fun h => ⟨h.1.resolve_left fun hc => hc.2 hz, h.2⟩
      have hroom := h1.room.mp hne
      rw [exec_bind, exec_bread, hm]
      change wp (exec u (Src.copy _ _ (off % bsize) 0 n (.kernel d) >>= _)) _ _ s1
      rw [exec_bind]
      refine copy_spec (n := n) (by omega) ?_ fun _ hno _ => absurd trivial hno
      rw [if_pos rfl]
      cases fuel with
      | zero => exact wp_pure.mpr (.inl ⟨Nat.zero_add n, hroom⟩)
      | succ fuel =>
        rw [writeiLoop, if_neg (by omega)]
        exact wp_pure.mpr (.inl ⟨Nat.zero_add n, hroom⟩)
  rw [writei, exec_bind, exec_inode, exec_ite]
  refine ⟨fun _ => wp_pure.mpr (.inl rfl), fun _ => ?_⟩
  rw [exec_ite]
  refine ⟨fun _ => wp_pure.mpr (.inl rfl), fun hmax => ?_⟩
  rw [exec_bind]
  have hbn : off / bsize < maxfile := Nat.div_lt_of_lt_mul (by rw [Nat.mul_comm]; omega)
  refine wp_post (hloop _ hn hbn) fun r s1 h1 => ?_
  obtain ⟨off', tot⟩ := r
  change wp (exec u (inode i >>= _)) _ _ s1
  rw [exec_bind, exec_inode, exec_bind, exec_ite]
  rcases h1 with ⟨h1, hroom⟩ | ⟨h1, hroom, hspread, ho1, hi1⟩
  · exact ⟨fun _ => .inr (.inl ⟨congrArg some h1, hroom⟩), fun _ => .inr (.inl ⟨congrArg some h1, hroom⟩)⟩
  refine ⟨fun _ => .inr (.inr ⟨congrArg some h1, hroom, fun l hl => ?_⟩),
    fun _ => .inr (.inr ⟨congrArg some h1, hroom, fun l hl => ?_⟩)⟩
  · have hr : Retitled (s1.k.itab i).d { (s1.k.itab i).d with size := off' } := ⟨hi1.type, rfl⟩
    have hi2 := hi1.setD hr.type
    have hslot := iupdated_slot hsb hi2 (setD_owned hi1 hr ho1) hi2.live l
    rw [setD_slot hi1 hr] at hslot
    exact (hspread l hl).imp_left hslot.trans
  · exact (hspread l hl).imp_left (iupdated_slot hsb hi1 ho1 hi1.live l).trans

end Xv6.Fs
