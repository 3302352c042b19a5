import Xv6.Fs.Lemmas.Rollback

/-!
# inode を作り、手放す
-/

namespace Xv6.Fs

open Xv6.Lib

variable {sb : Superblock} {u : User} {E : String → Prop} {s s' s'' : Store} {b i j k n type x : Nat}

def Store.blank (sb : Superblock) (s : Store) (i type : Nat) : Store :=
  s.setBlk (sb.iblock i) (putDinode (s.blk (sb.iblock i)) (dinodeOff i) (.empty type))

theorem iallocLoop_spec {Q}
    (hsome : ∀ i, 0 < i → i < sb.ninodes → (getDinode (s.blk (sb.iblock i)) (dinodeOff i)).type = 0 →
      wp (exec u (iget sb i)) (fun _ s' => Q (some i) s') E (s.blank sb i type)) (n : Nat) :
    ∀ i, 0 < i → i + n ≤ sb.ninodes →
      ((∀ j, i ≤ j → j < i + n → (getDinode (s.blk (sb.iblock j)) (dinodeOff j)).type ≠ 0) → Q none s) →
      wp (exec u (iallocLoop sb type i n)) Q E s := by
  induction n with
  | zero => exact fun i _ _ hnone => wp_pure.mpr (hnone fun j h1 h2 => absurd h1 (by omega))
  | succ n ih =>
    intro i hpos hi hnone
    rw [iallocLoop, exec_bind, exec_bread, exec_ite]
    refine ⟨fun hz => ?_, fun hnz => ?_⟩
    · simp only [exec_bind, exec_put, exec_logWrite, exec_brelse]
      exact wp_post (hsome i hpos (by omega) hz) fun _ s' h => wp_pure.mpr h
    rw [exec_bind, exec_brelse]
    refine ih (i + 1) (by omega) (by omega) fun hrest => hnone fun j h1 h2 => ?_
    by_cases hji : j = i
    · rw [hji]
      exact hnz
    · exact hrest j (by omega) (by omega)

theorem empty_slot (blk : Nat → Block) (k : Nat) : (Dinode.empty type).slot blk k = 0 := by simp [Dinode.slot, Dinode.empty]

theorem empty_storable (h : type < 2 ^ 16) : Storable (Dinode.empty type) :=
  ⟨h, Nat.two_pow_pos _, Nat.two_pow_pos _, Nat.two_pow_pos _, Nat.two_pow_pos _, fun _ => Nat.two_pow_pos _, fun _ _ => rfl⟩

structure Born (sb : Superblock) (i type : Nat) (s s' : Store) : Prop where
  move : Move sb i s s'
  ino : s'.ino sb i = .empty type
  ref : (s'.k.itab i).ref = 1
  itab : ∀ j, j ≠ i → s'.k.itab j = s.k.itab j
  file : ∀ j, sb.Live (s.ino sb) j → SameFile sb j s s'
  used : ∀ c, sb.used s'.blk c = sb.used s.blk c

theorem blank_born (hsb : sb.Ok) (hm : Still sb s s) (hi : i < sb.ninodes) (hfree : (s.ino sb i).type = 0)
    (href : (s.k.itab i).ref = 0) (htype : type < 2 ^ 16) :
    wp (exec u (iget sb i)) (fun _ s' => Born sb i type s s') (fun _ => True) (s.blank sb i type) := by
  have hlow := hsb.iblock_lt hi
  have hblk : (s.blank sb i type).blk = ((s.setD i (.empty type)).iupdated sb i).blk := by simp [Store.blank, Store.iupdated]
  have hhigh : ∀ c, sb.bmapstart ≤ c → (s.blank sb i type).blk c = s.blk c := fun c hc =>
    update_of_ne (show c ≠ sb.iblock i by omega) _ _
  have hstart := Superblock.Ok.bmapstart_lt sb
  obtain ⟨ho, ht, hy, -, -, -, -⟩ := hm 0
  rw [iget, exec_bind, exec_getK, exec_ite]
  refine ⟨fun hc => absurd hc (by rw [Store.blank, setBlk_k, href]; omega), fun _ => ?_⟩
  rw [exec_ite]
  refine ⟨fun _ => trivial, fun _ => ?_⟩
  rw [exec_setK]
  set s1 := (s.blank sb i type).setK ((s.blank sb i type).k.setI i
    { (s.blank sb i type).k.itab i with ref := 1, valid := false }) with hs1
  have hitab : ∀ j, j ≠ i → s1.k.itab j = s.k.itab j := fun j hj => update_of_ne hj _ _
  have hself : s1.k.itab i = { s.k.itab i with ref := 1, valid := false } := update_self ..
  have hblk1 : s1.blk = (s.blank sb i type).blk := rfl
  have hdisk : ∀ j, j ≠ i → getDinode (s1.blk (sb.iblock j)) (dinodeOff j) = getDinode (s.blk (sb.iblock j)) (dinodeOff j) :=
    fun j hj => by rw [hblk1, hblk, iupdated_disk hj]; rfl
  have hnew : getDinode (s1.blk (sb.iblock i)) (dinodeOff i) = .empty type := by
    rw [hblk1, Store.blank, setBlk_blk, update_self, getDinode_put_self (empty_storable htype)]
  have hino : ∀ j, j ≠ i → s1.ino sb j = s.ino sb j := fun j hj => by rw [Store.ino, hitab j hj, hdisk j hj]; rfl
  have hinoi : s1.ino sb i = .empty type := by rw [Store.ino, hself, if_neg (by simp), hnew]
  have hne : ∀ j, sb.Live (s.ino sb) j → j ≠ i := fun j hj hc => hj.2 (by rw [hc, hfree])
  have hslot : ∀ j l, sb.Live (s.ino sb) j → (s1.ino sb j).slot s1.blk l = (s.ino sb j).slot s.blk l := by
    intro j l hj
    rw [hino j (hne j hj)]
    exact ho.slot_congr hj (fun c hc => hhigh c (by omega)) l
  have hlive : ∀ j, j ≠ i → (sb.Live (s1.ino sb) j ↔ sb.Live (s.ino sb) j) := fun j hj => by
    rw [Superblock.Live, Superblock.Live, hino j hj]
  have hused : ∀ c, sb.used s1.blk c = sb.used s.blk c := fun c => by
    rw [Superblock.used, Superblock.used, hblk1, hhigh _ (Superblock.Ok.le_bblock sb c)]
  -- 新しい inode の欄は、どれも何も指さない。
  have hzero : ∀ l, (s1.ino sb i).slot s1.blk l = 0 := fun l => by rw [hinoi, empty_slot]
  have hfile : ∀ j, sb.Live (s.ino sb) j → SameFile sb j s s1 := by
    refine fun j hj => ⟨hino j (hne j hj), fun l _ => hslot j l hj, fun bn o hbn hnz _ => ?_⟩
    have := (ho.region j _ hj (slotOf_lt hbn) hnz).1
    rw [hblk1, Dinode.block, hhigh _ (by omega)]
  refine ⟨⟨ho.of_kept (fun j l hj hnz => ?_) (fun j l _ hj hl hnz => ?_) ?_, ?_, ?_, hlive,
    fun j _ hj => .of_sameFile (hfile j hj), rfl, rfl⟩, hinoi, by rw [hself], hitab, hfile, hused⟩
  · have hji : j ≠ i := fun hc => hnz (hc ▸ hzero l)
    have hj0 := (hlive j hji).mp hj
    exact ⟨hj0, hslot j l hj0⟩
  · rw [hused]
    exact ho.used j l hj hl hnz
  · intro c h1 h2
    rw [hused]
    exact ho.kept c h1 h2
  · intro c h1 h2 hu
    rw [hused] at hu
    obtain ⟨j, l, hj, hl, hc⟩ := ht c h1 h2 hu
    exact ⟨j, l, (hlive j (hne j hj)).mpr hj, hl, (hslot j l hj).trans hc⟩
  intro j hj
  by_cases hji : j = i
  · subst hji
    rw [hinoi, ← hnew, getDinode_cut]
  · rw [hdisk j hji, hino j hji]
    exact hy j hj

structure Cleared (sb : Superblock) (S : Nat → Prop) (s s' : Store) : Prop where
  other : ∀ c, c < sb.bmapstart ∨ sb.datastart ≤ c → s'.blk c = s.blk c
  used : ∀ c, c < sb.size → (sb.used s'.blk c = true ↔ sb.used s.blk c = true ∧ ¬S c)

namespace Cleared

variable {S T : Nat → Prop}

theorem none (h : ∀ c, ¬S c) : Cleared sb S s s := ⟨fun _ _ => rfl, fun c _ => ⟨fun hu => ⟨hu, h c⟩, fun hu => hu.1⟩⟩

theorem trans (h : Cleared sb S s s') (h' : Cleared sb T s' s'') : Cleared sb (fun c => S c ∨ T c) s s'' where
  other c hc := (h'.other c hc).trans (h.other c hc)
  used c hc := by
    rw [h'.used c hc, h.used c hc, not_or, and_assoc]

theorem congr (h : Cleared sb S s s') (hST : ∀ c, S c ↔ T c) : Cleared sb T s s' :=
  ⟨h.other, fun c hc => by rw [h.used c hc, hST c]⟩

theorem of_blk {t t'} (h : Cleared sb S s s') (ht : t.blk = s.blk) (ht' : t'.blk = s'.blk) : Cleared sb S t t' :=
  ⟨fun c hc => by rw [ht, ht', h.other c hc], fun c hc => by rw [ht, ht', h.used c hc]⟩

end Cleared

theorem free_cleared (hb : b < sb.size) : Cleared sb (fun c => c = b) s (s.free sb b) where
  other c hc := by
    have h1 := Superblock.Ok.bblock_lt hb
    have h2 := Superblock.Ok.le_bblock sb b
    exact update_of_ne (show c ≠ sb.bblock b by omega) _ _
  used c hc := by
    by_cases hblk : sb.bblock c = sb.bblock b
    · have hmod : b % bpb = c % bpb ↔ c = b := by
        simp only [Superblock.bblock, bpb] at *
        omega
      simp [Superblock.used, Store.free, hblk, bit_clearBit, hmod, and_comm]
    · have hcb : c ≠ b := fun h => hblk (by rw [h])
      simp [Superblock.used, Store.free, update_of_ne hblk, hcb]

theorem bfree_cleared (hb : b < sb.size) :
    wp (exec u (bfree sb b)) (fun _ s' => s'.k = s.k ∧ Cleared sb (fun c => c = b) s s') (fun _ => True) s := by
  cases hu : sb.used s.blk b with
  | true => exact bfree_spec hu ⟨rfl, free_cleared hb⟩
  | false =>
    rw [Superblock.used] at hu
    rw [bfree, exec_bind, exec_bread, if_neg (by rw [hu]; decide)]
    exact trivial

def Among (f : Nat → Nat) (k n c : Nat) : Prop := c ≠ 0 ∧ ∃ k', k ≤ k' ∧ k' < k + n ∧ f k' = c

theorem among_succ (f : Nat → Nat) (k n c : Nat) : Among f k (n + 1) c ↔ (c ≠ 0 ∧ f k = c) ∨ Among f (k + 1) n c := by
  constructor
  · rintro ⟨hc, k', h1, h2, h3⟩
    by_cases hk : k' = k
    · exact .inl ⟨hc, hk ▸ h3⟩
    · exact .inr ⟨hc, k', by omega, by omega, h3⟩
  · rintro (⟨hc, h⟩ | ⟨hc, k', h1, h2, h3⟩)
    · exact ⟨hc, k, le_rfl, by omega, h⟩
    · exact ⟨hc, k', by omega, by omega, h3⟩

theorem among_congr {f g} (h : ∀ k', k ≤ k' → f k' = g k') (n c : Nat) : Among f k n c ↔ Among g k n c := by
  constructor
  · rintro ⟨hc, k', h1, h2, h3⟩
    exact ⟨hc, k', h1, h2, (h k' h1).symm.trans h3⟩
  · rintro ⟨hc, k', h1, h2, h3⟩
    exact ⟨hc, k', h1, h2, (h k' h1).trans h3⟩

theorem truncEntries_cleared {a} (n : Nat) : ∀ {j : Nat} {s : Store},
    (∀ j', j ≤ j' → j' < j + n → indirect a j' ≠ 0 → indirect a j' < sb.size) →
    wp (exec u (truncEntries sb a j n)) (fun _ s' => s'.k = s.k ∧ Cleared sb (Among (indirect a) j n) s s')
      (fun _ => True) s := by
  induction n with
  | zero =>
    intro j s _
    refine wp_pure.mpr ⟨rfl, .none ?_⟩
    rintro c ⟨_, k', h1, h2, _⟩
    omega
  | succ n ih =>
    intro j s hlt
    rw [truncEntries, exec_bind, exec_ite]
    refine ⟨fun hne => ?_, fun hz => ?_⟩
    · refine wp_post (bfree_cleared (hlt j le_rfl (by omega) hne)) ?_
      rintro _ s1 ⟨hk1, h1⟩
      refine wp_post (ih fun j' h2 h3 => hlt j' (by omega) (by omega)) ?_
      rintro _ s2 ⟨hk2, h2⟩
      refine ⟨hk2.trans hk1, (h1.trans h2).congr fun c => ?_⟩
      rw [among_succ]
      refine or_congr_left ⟨fun h => ⟨h ▸ hne, h.symm⟩, fun h => h.2.symm⟩
    refine wp_pure.mpr (wp_post (ih fun j' h2 h3 => hlt j' (by omega) (by omega)) ?_)
    rintro _ s2 ⟨hk2, h2⟩
    refine ⟨hk2, h2.congr fun c => ?_⟩
    rw [among_succ, or_iff_right]
    rintro ⟨hc, rfl⟩
    exact hz hc

theorem truncDirect_cleared (n : Nat) : ∀ {k : Nat} {s : Store},
    (∀ k', k ≤ k' → k' < k + n → (s.k.itab x).d.addrs k' ≠ 0 → (s.k.itab x).d.addrs k' < sb.size) →
    wp (exec u (truncDirect sb x k n)) (fun _ s' => Cleared sb (Among (s.k.itab x).d.addrs k n) s s' ∧
      ∃ a, s'.k = (s.setD x { (s.k.itab x).d with addrs := a }).k ∧ ∀ k', k + n ≤ k' → a k' = (s.k.itab x).d.addrs k')
      (fun _ => True) s := by
  induction n with
  | zero =>
    intro k s _
    refine wp_pure.mpr ⟨.none ?_, (s.k.itab x).d.addrs, by rw [setD_self], fun _ _ => rfl⟩
    rintro c ⟨_, k', h1, h2, _⟩
    omega
  | succ n ih =>
    intro k s hlt
    rw [truncDirect, exec_bind, truncAddr, exec_bind, exec_inode, exec_ite]
    refine ⟨fun hne => ?_, fun hz => ?_⟩
    · rw [exec_bind]
      refine wp_post (bfree_cleared (hlt k le_rfl (by omega) hne)) ?_
      rintro _ s1 ⟨hk1, h1⟩
      rw [exec_setInode]
      set d1 : Dinode := { (s.k.itab x).d with addrs := update (s.k.itab x).d.addrs k 0 } with hd1
      have hd : ((s1.setD x d1).k.itab x).d = d1 := by simp
      have haddr : ∀ k', k + 1 ≤ k' → d1.addrs k' = (s.k.itab x).d.addrs k' := fun k' hk' =>
        update_of_ne (by omega) _ _
      refine wp_post (ih fun k' h2 h3 => ?_) ?_
      · rw [hd, haddr k' h2]
        exact hlt k' (by omega) (by omega)
      rintro _ s2 ⟨h2, a, ha, hak⟩
      rw [hd] at h2 ha hak
      refine ⟨?_, a, ?_, fun k' hk' => ?_⟩
      · refine (h1.trans (h2.of_blk rfl rfl)).congr fun c => ?_
        rw [among_succ, among_congr haddr]
        exact or_congr_left ⟨fun h => ⟨h ▸ hne, h.symm⟩, fun h => h.2.symm⟩
      · rw [ha]
        simp [Store.setD, Store.setK, Kernel.setI, hk1, hd1]
      · rw [hak k' (by omega), haddr k' (by omega)]
    refine wp_pure.mpr (wp_post (ih fun k' h2 h3 => hlt k' (by omega) (by omega)) ?_)
    rintro _ s2 ⟨h2, a, ha, hak⟩
    refine ⟨h2.congr fun c => ?_, a, ha, fun k' hk' => hak k' (by omega)⟩
    rw [among_succ, or_iff_right]
    rintro ⟨hc, rfl⟩
    exact hz hc

theorem truncIndirect_cleared {ind} (hind : (s.k.itab x).d.addrs ndirect = ind) (hlt : ind ≠ 0 → ind < sb.size)
    (hentry : ∀ j, j < nindirect → ind ≠ 0 → indirect (s.blk ind) j ≠ 0 → indirect (s.blk ind) j < sb.size) :
    wp (exec u (truncIndirect sb x)) (fun _ s' =>
      Cleared sb (fun c => ind ≠ 0 ∧ (Among (indirect (s.blk ind)) 0 nindirect c ∨ c = ind)) s s' ∧
      ∃ d, s'.k = (s.setD x d).k) (fun _ => True) s := by
  rw [truncIndirect, exec_bind, exec_inode, exec_ite, hind]
  refine ⟨fun hne => ?_, fun hz => ?_⟩
  · rw [exec_bind, exec_bread, exec_bind]
    refine wp_post (truncEntries_cleared nindirect fun j _ hj => hentry j (by omega) hne) fun _ s1 ⟨hk1, h1⟩ => ?_
    rw [exec_bind, exec_brelse, exec_bind]
    refine wp_post (bfree_cleared (hlt hne)) fun _ s2 ⟨hk2, h2⟩ => ?_
    rw [exec_setInode]
    refine ⟨((h1.trans h2).congr fun c => (and_iff_right hne).symm).of_blk rfl rfl,
      { (s.k.itab x).d with addrs := update (s.k.itab x).d.addrs ndirect 0 }, ?_⟩
    simp only [Store.setD, Store.setK, hk2, hk1]
  · refine wp_pure.mpr ⟨.none fun c hc => hz hc.1, (s.k.itab x).d, ?_⟩
    rw [setD_self]

structure Freed (sb : Superblock) (x : Nat) (s s' : Store) : Prop where
  itab : ∀ j, j ≠ x → s'.k.itab j = s.k.itab j
  ref : (s'.k.itab x).ref = (s.k.itab x).ref - 1
  valid : (s'.k.itab x).valid = false
  files : s'.k.files = s.k.files
  procs : s'.k.procs = s.k.procs
  disk : ∀ j, j ≠ x → getDinode (s'.blk (sb.iblock j)) (dinodeOff j) = getDinode (s.blk (sb.iblock j)) (dinodeOff j) ∨
    sb.ninodes ≤ j
  type : (getDinode (s'.blk (sb.iblock x)) (dinodeOff x)).type = 0
  data : ∀ c, sb.datastart ≤ c → s'.blk c = s.blk c
  used : ∀ c, c < sb.size → (sb.used s'.blk c = true ↔ sb.used s.blk c = true ∧
    ¬(c ≠ 0 ∧ ∃ l, l < nslots ∧ (s.ino sb x).slot s.blk l = c))

/-- inode の指すブロックは、`itrunc` が空ける三種のどれかである。 -/
theorem slots_iff {d : Dinode} {blk : Nat → Block} {c : Nat} :
    (c ≠ 0 ∧ ∃ l, l < nslots ∧ d.slot blk l = c) ↔ Among d.addrs 0 ndirect c ∨
      (d.addrs ndirect ≠ 0 ∧ (Among (indirect (blk (d.addrs ndirect))) 0 nindirect c ∨ c = d.addrs ndirect)) := by
  constructor
  · rintro ⟨hc, l, hl, hs⟩
    by_cases h1 : l ≤ ndirect
    · rw [Dinode.slot_addr h1] at hs
      by_cases h2 : l = ndirect
      · subst h2
        exact .inr ⟨hs ▸ hc, .inr hs.symm⟩
      · exact .inl ⟨hc, l, Nat.zero_le _, by omega, hs⟩
    · have hne : d.addrs ndirect ≠ 0 := fun hz => hc (by rw [← hs, Dinode.slot, if_neg h1, if_pos hz])
      rw [Dinode.slot_entry (by omega) hne] at hs
      simp only [nslots] at hl
      exact .inr ⟨hne, .inl ⟨hc, _, Nat.zero_le _, by omega, hs⟩⟩
  rintro (⟨hc, l, _, hl, hs⟩ | ⟨hne, ⟨hc, l, _, hl, hs⟩ | rfl⟩)
  · exact ⟨hc, l, by simp only [nslots]; omega, by rwa [Dinode.slot_addr (by omega)]⟩
  · refine ⟨hc, ndirect + 1 + l, by simp only [nslots]; omega, ?_⟩
    rw [Dinode.slot_entry (by omega) hne, Nat.add_sub_cancel_left]
    exact hs
  · exact ⟨hne, ndirect, ndirect_lt_nslots, Dinode.slot_addr le_rfl⟩

theorem getDinode_put_type (b : Block) (o : Nat) (d : Dinode) : (getDinode (putDinode b o d) o).type = d.type % 2 ^ 16 := by
  change getLE (putWords _ _ _ _) o 2 = _
  rw [getLE_putWords_below (by omega), getLE_putLE_disjoint (by omega), getLE_putLE_disjoint (by omega),
    getLE_putLE_disjoint (by omega), getLE_putLE_disjoint (by omega)]
  exact getLE_putLE _ _ _ _

/-- 最後の参照でリンクも無ければ、`iput` は inode とそのブロックを空ける。 -/
theorem iput_freed (hsb : sb.Ok) (ho : Owned sb s.blk (s.ino sb)) (hi : s.Cached sb x) (href : (s.k.itab x).ref = 1)
    (hnlink : (s.k.itab x).d.nlink = 0) :
    wp (exec u (iput sb x)) (fun _ s' => Freed sb x s s') (fun _ => True) s := by
  have hlow := hsb.iblock_lt hi.lt
  have hstart := Superblock.Ok.bmapstart_lt sb
  have hd := hi.ino_eq
  have hslot : ∀ l, l < nslots → (s.ino sb x).slot s.blk l ≠ 0 → sb.datastart ≤ (s.ino sb x).slot s.blk l ∧
      (s.ino sb x).slot s.blk l < sb.size := fun l hl hne => ho.region x l hi.live hl hne
  have hindlt : (s.k.itab x).d.addrs ndirect ≠ 0 → sb.datastart ≤ (s.k.itab x).d.addrs ndirect ∧
      (s.k.itab x).d.addrs ndirect < sb.size := fun hne => by
    have := hslot ndirect ndirect_lt_nslots
    rw [Dinode.slot_addr le_rfl, hd] at this
    exact this hne
  rw [iput, exec_bind, exec_getK, if_pos ⟨href, hi.valid, hnlink⟩, exec_bind, ifree, exec_bind, itrunc, exec_bind]
  refine wp_post (truncDirect_cleared ndirect (k := 0) fun k _ hk hne => ?_) ?_
  · have := hslot k (by simp only [nslots]; omega)
    rw [Dinode.slot_addr (by omega), hd] at this
    exact (this hne).2
  rintro _ s1 ⟨h1, a, ha, hak⟩
  have hd1 : (s1.k.itab x).d.addrs ndirect = (s.k.itab x).d.addrs ndirect := by
    rw [ha, setD_itab, update_self]
    exact hak ndirect (by omega)
  have hblk1 : (s.k.itab x).d.addrs ndirect ≠ 0 → s1.blk ((s.k.itab x).d.addrs ndirect) =
      s.blk ((s.k.itab x).d.addrs ndirect) := fun hne => h1.other _ (.inr (hindlt hne).1)
  rw [exec_bind]
  refine wp_post (truncIndirect_cleared hd1 (fun hne => (hindlt hne).2) fun j hj hne hnz => ?_) ?_
  · rw [hblk1 hne] at hnz ⊢
    have := hslot (ndirect + 1 + j) (by simp only [nslots]; omega)
    rw [Dinode.slot_entry (by omega) (by rwa [hd]), Nat.add_sub_cancel_left, hd] at this
    exact (this hnz).2
  rintro _ s2 ⟨h2, d2, hk2⟩
  have hclear := h1.trans h2
  have hkx : s2.k.itab = update s.k.itab x { s.k.itab x with d := d2 } := by
    rw [hk2, setD_itab, ha, setD_itab]
    simp
  simp only [exec_bind, exec_inode, exec_setInode, exec_iupdate, exec_getK, exec_setK]
  constructor
  case itab =>
    intro j hj
    simp [Store.setD, Store.setK, Kernel.setI, Store.iupdated, hj, hkx]
  case ref => simp [Store.setD, Store.setK, Kernel.setI, Store.iupdated, hkx]
  case valid => simp [Store.setD, Store.setK, Kernel.setI, Store.iupdated]
  case files =>
    change s2.k.files = _
    rw [hk2]
    change s1.k.files = _
    rw [ha]
    rfl
  case procs =>
    change s2.k.procs = _
    rw [hk2]
    change s1.k.procs = _
    rw [ha]
    rfl
  case disk =>
    intro j hj
    by_cases hlt : j < sb.ninodes
    · refine .inl ?_
      rw [← hclear.other _ (.inl (hsb.iblock_lt hlt))]
      exact (iupdated_disk hj).trans (iupdated_disk hj)
    · exact .inr (by omega)
  case type =>
    simp only [Store.setK, Store.iupdated, setBlk_blk, update_self]
    rw [getDinode_put_type]
    simp
  case data =>
    intro c hc
    rw [← hclear.other c (.inr hc)]
    have hne : c ≠ sb.iblock x := by omega
    simp [Store.setD, Store.setK, Store.iupdated, hne]
  case used =>
    intro c hc
    have hne : sb.bblock c ≠ sb.iblock x := by
      have := Superblock.Ok.le_bblock sb c
      omega
    have hu := hclear.used c hc
    rw [hd, slots_iff]
    have hS : (s.k.itab x).d.addrs ndirect ≠ 0 ∧ (Among (indirect (s1.blk ((s.k.itab x).d.addrs ndirect))) 0 nindirect c ∨
        c = (s.k.itab x).d.addrs ndirect) ↔ (s.k.itab x).d.addrs ndirect ≠ 0 ∧
        (Among (indirect (s.blk ((s.k.itab x).d.addrs ndirect))) 0 nindirect c ∨ c = (s.k.itab x).d.addrs ndirect) :=
      and_congr_right fun hnz => by rw [hblk1 hnz]
    rw [hS] at hu
    rw [← hu]
    simp [Superblock.used, Store.setD, Store.setK, Store.iupdated, hne]

theorem iunlockput_freed (hsb : sb.Ok) (ho : Owned sb s.blk (s.ino sb)) (hi : s.Cached sb x) (href : (s.k.itab x).ref = 1)
    (hnlink : (s.k.itab x).d.nlink = 0) :
    wp (exec u (iunlockput sb x)) (fun _ s' => Freed sb x s s') (fun _ => True) s := by
  simp only [iunlockput, iunlock, exec_bind, exec_getK, exec_ite]
  exact ⟨fun _ => trivial, fun _ => iput_freed hsb ho hi href hnlink⟩

theorem Freed.move (h : Freed sb x s s') (hm : Still sb s s) (hx : sb.Live (s.ino sb) x) :
    Move sb x s s' ∧ (s'.ino sb x).type = 0 := by
  obtain ⟨ho, ht, hy, -, -, -, -⟩ := hm 0
  have hdisk : ∀ j, j ≠ x → j < sb.ninodes → getDinode (s'.blk (sb.iblock j)) (dinodeOff j) =
      getDinode (s.blk (sb.iblock j)) (dinodeOff j) := fun j hj hlt => (h.disk j hj).resolve_right (by omega)
  have hino : ∀ j, j ≠ x → j < sb.ninodes → s'.ino sb j = s.ino sb j := fun j hj hlt => by
    rw [Store.ino, h.itab j hj, hdisk j hj hlt]
    rfl
  have hinox : s'.ino sb x = getDinode (s'.blk (sb.iblock x)) (dinodeOff x) := by
    rw [Store.ino, if_neg (by rw [h.valid]; simp)]
  have hdead : (s'.ino sb x).type = 0 := by rw [hinox, h.type]
  have hne : ∀ j, sb.Live (s'.ino sb) j → j ≠ x := fun j hj hc => hj.2 (by rw [hc, hdead])
  have hlive : ∀ j, j ≠ x → (sb.Live (s'.ino sb) j ↔ sb.Live (s.ino sb) j) := by
    intro j hj
    constructor
    · exact fun hl => ⟨hl.1, by rw [← hino j hj hl.1]; exact hl.2⟩
    · exact fun hl => ⟨hl.1, by rw [hino j hj hl.1]; exact hl.2⟩
  have hslot : ∀ j l, j ≠ x → sb.Live (s.ino sb) j → (s'.ino sb j).slot s'.blk l = (s.ino sb j).slot s.blk l := by
    intro j l hj hl
    rw [hino j hj hl.1]
    exact ho.slot_congr hl h.data l
  refine ⟨⟨ho.of_kept (fun j l hj _ => ?_) (fun j l hj hj0 hl hnz => ?_) ?_, ?_, ?_, hlive, ?_, h.files, h.procs⟩, hdead⟩
  · have hj0 := (hlive j (hne j hj)).mp hj
    exact ⟨hj0, hslot j l (hne j hj) hj0⟩
  · refine (h.used _ (ho.region j l hj0 hl hnz).2).mpr ⟨ho.used j l hj0 hl hnz, ?_⟩
    rintro ⟨_, l', hl', heq⟩
    exact hne j hj (ho.unique j l x l' hj0 hx hl hl' hnz heq.symm).1
  · intro c h1 h2
    refine (h.used c h2).mpr ⟨ho.kept c h1 h2, ?_⟩
    rintro ⟨hc, l, hl, rfl⟩
    have := (ho.region x l hx hl hc).1
    omega
  · intro c h1 h2 hu
    obtain ⟨hu, hno⟩ := (h.used c h2).mp hu
    obtain ⟨j, l, hj, hl, hc⟩ := ht c h1 h2 hu
    have hstart := Superblock.Ok.bmapstart_lt sb
    have hjx : j ≠ x := fun hjx => hno ⟨by omega, l, hl, hjx ▸ hc⟩
    exact ⟨j, l, (hlive j hjx).mpr hj, hl, (hslot j l hjx hj).trans hc⟩
  · intro j hj
    by_cases hjx : j = x
    · subst hjx
      rw [hinox, getDinode_cut]
    · rw [hdisk j hjx hj, hino j hjx hj]
      exact hy j hj
  · intro j hj hl
    refine .of_slot ⟨_, hino j hj hl.1⟩ (fun l _ => hslot j l hj hl) fun bn o hbn hnz _ => ?_
    rw [Dinode.block, h.data _ (ho.region j _ hl (slotOf_lt hbn) hnz).1]

end Xv6.Fs
