import Xv6.Umalloc.Lemmas.Tiles

/-!
# `free`
-/

namespace Xv6.Umalloc

open Xv6.Lib List

variable {base : Nat} {h : Heap} {L W A P : List Nat} {a b p bp : Nat}

@[simp] theorem setPtr_ptr {v : Nat} : (h.setPtr a v).ptr = update h.ptr a v := rfl
@[simp] theorem setPtr_size {v : Nat} : (h.setPtr a v).size = h.size := rfl
@[simp] theorem setSize_ptr {v : Nat} : (h.setSize a v).ptr = h.ptr := rfl
@[simp] theorem setSize_size {v : Nat} : (h.setSize a v).size = update h.size a (v % 2 ^ 32) := rfl

theorem searchFree_mono {k k' r} (hk : searchFree h bp p k = some r) (hle : k ≤ k') :
    searchFree h bp p k' = some r := by
  induction k generalizing p k' with
  | zero => cases hk
  | succ k ih =>
    obtain ⟨k', rfl⟩ : ∃ j, k' = j + 1 := ⟨k' - 1, by omega⟩
    simp only [searchFree] at hk ⊢
    split
    · rename_i hc
      rwa [if_pos hc] at hk
    rename_i hc
    rw [if_neg hc] at hk
    split
    · rename_i hd
      rwa [if_pos hd] at hk
    · rename_i hd
      rw [if_neg hd] at hk
      exact ih hk (by omega)

theorem searchFree_below (hpath : Path h.ptr base (p :: P)) (hsort : (p :: P).Pairwise (· < ·)) (hbase : base ≤ p)
    (hp : p < bp)
    (hbp : bp ∉ P) : ∃ B r C, p :: P = B ++ r :: C ∧ r < bp ∧ (∀ q ∈ C, bp < q) ∧ searchFree h bp p
        (P.length + 1) = some r := by
  induction P generalizing p with
  | nil =>
    refine ⟨[], p, [], rfl, hp, by simp, ?_⟩
    have hptr : h.ptr p = base := hpath.1
    rw [searchFree, hptr, if_neg (by omega), if_pos (by omega)]
  | cons q P ih =>
    have hptr : h.ptr p = q := hpath.1
    obtain ⟨hpq, hsort'⟩ := pairwise_cons.mp hsort
    have hlt := hpq q mem_cons_self
    by_cases hq : bp < q
    · refine ⟨[], p, q :: P, rfl, hp, fun c hc => ?_, by rw [searchFree, hptr, if_pos ⟨hp, hq⟩]⟩
      obtain rfl | hc := mem_cons.mp hc
      · exact hq
      · exact hq.trans ((pairwise_cons.mp hsort').1 c hc)
    have hne : q ≠ bp := fun he => hbp (he ▸ mem_cons_self)
    obtain ⟨B, r, C, hsplit, hr, hC, hs⟩ := ih hpath.2 hsort'
        (by omega) (by omega) fun hm => hbp (mem_cons_of_mem q hm)
    refine ⟨p :: B, r, C, by rw [hsplit]; rfl, hr, hC, ?_⟩
    rw [searchFree, hptr, if_neg (by omega), if_neg (by omega)]
    exact hs

/-- `bp` より上から始めると、端まで進んで `base` に戻る。 -/
theorem searchFree_above {k} (hpath : Path h.ptr base (p :: P)) (hsort : (p :: P).Pairwise (· < ·))
    (hbase : base < bp)
    (hp : bp < p) : searchFree h bp p (k + P.length + 1) = searchFree h bp base k := by
  induction P generalizing p with
  | nil =>
    have hptr : h.ptr p = base := hpath.1
    rw [length_nil, Nat.add_zero, searchFree, hptr, if_neg (by omega), if_neg (by omega)]
  | cons q P ih =>
    have hptr : h.ptr p = q := hpath.1
    obtain ⟨hpq, hsort'⟩ := pairwise_cons.mp hsort
    have hlt := hpq q mem_cons_self
    rw [searchFree, hptr, if_neg (by omega), if_neg (by omega)]
    exact ih hpath.2 hsort' (by omega)

theorem searchFree_spec (hpath : Path h.ptr base L) (hhead : L.head? = some base) (hsort : L.Pairwise (· < ·)) (hp : p ∈ L)
    (hbase : base < bp) (hle : ∀ a ∈ L, base ≤ a) (hbp : bp ∉ L) :
    ∃ A r C, L = A ++ r :: C ∧ r < bp ∧ (∀ q ∈ C, bp < q) ∧ ∀ k, 2 * L.length ≤ k → searchFree h bp p k = some r := by
  obtain ⟨A, P, rfl⟩ := append_of_mem hp
  by_cases hlt : p < bp
  · obtain ⟨B, r, C, hsplit, hr, hC, hs⟩ := searchFree_below (Path.append_iff.mp hpath).2
      (pairwise_append.mp hsort).2.1
      (hle p hp) hlt fun hm => hbp (mem_append_right A (mem_cons_of_mem p hm))
    refine ⟨A ++ B, r, C, by rw [hsplit, append_assoc], hr, hC, fun k hk => searchFree_mono hs ?_⟩
    simp only [length_append, length_cons] at hk
    omega
  have hne : p ≠ bp := fun he => hbp (he ▸ hp)
  obtain ⟨M, hM⟩ : ∃ M, A ++ p :: P = base :: M := by
    cases hL : A ++ p :: P with
    | nil => simp at hL
    | cons x M =>
      rw [hL] at hhead
      cases hhead
      exact ⟨M, rfl⟩
  have hup := fun k => searchFree_above (k := k) (Path.append_iff.mp hpath).2 (pairwise_append.mp hsort).2.1 hbase
    (Nat.lt_of_le_of_ne (Nat.le_of_not_lt hlt) hne.symm)
  rw [hM] at hpath hsort hbp
  obtain ⟨B, r, C, hsplit, hr, hC, hs⟩ := searchFree_below hpath hsort le_rfl hbase
    fun hm => hbp (mem_cons_of_mem _ hm)
  refine ⟨B, r, C, by rw [hM, hsplit], hr, hC, fun k hk => ?_⟩
  have hlen : A.length + P.length = M.length := by
    have := congrArg List.length hM
    simp only [length_append, length_cons] at this
    omega
  simp only [length_append, length_cons] at hk
  refine searchFree_mono (k := M.length + 1 + P.length + 1) ?_ (by omega)
  rw [hup]
  exact hs

theorem Tiled.retile {h' L' W'} (t : Tiled base h L W) (hchunks : h'.chunks = h.chunks)
    (htop : h'.top = h.top)
    (head : L'.head? = some base) (zero : h'.size base = 0) (spaced : L'.Pairwise fun a b => a + hdr * h'.size a < b)
    (pos : ∀ b ∈ L', b ≠ base → 0 < h'.size b) (posW : ∀ b ∈ W', 0 < h'.size b)
    (tiles : ∀ f, Additive f →
      total f h'.size L' + total f h'.size W' = total f h.size L + total f h.size W) : Tiled base h' L' W' where
  head := head
  zero := zero
  spaced := spaced
  pos := pos
  posW := posW
  tiles f hf := by rw [tiles f hf, t.tiles f hf, hchunks]
  apart := hchunks ▸ t.apart
  low := hchunks ▸ t.low
  high := by rw [hchunks, htop]; exact t.high
  top := htop ▸ t.top
  small := by rw [Heap.units, hchunks]; exact t.small

theorem Tiled.resize {h' L' W' x} (t : Tiled base h L W) (hchunks : h'.chunks = h.chunks)
    (htop : h'.top = h.top) (head : L'.head? = some base) (sub : L'.Sublist L) (hx : x ≠ base)
    (other : ∀ a ∈ L', a ≠ x → h'.size a = h.size a) (fit : x ∈ L' → ∀ b ∈ L', x < b → x + hdr * h'.size x < b)
    (posx : x ∈ L' → 0 < h'.size x) (posW : ∀ b ∈ W', 0 < h'.size b)
    (tiles : ∀ f, Additive f →
      total f h'.size L' + total f h'.size W' = total f h.size L + total f h.size W) : Tiled base h' L' W' := by
  refine t.retile hchunks htop head ?_ ((t.spaced.sublist sub).imp_of_mem fun {a b} ha hb hab => ?_) (fun b hb hne => ?_)
    posW tiles
  · rw [other base (mem_of_mem_head? head) hx.symm]
    exact t.zero
  · by_cases hax : a = x
    · subst hax
      exact fit ha b hb (by omega)
    · rw [other a ha hax]
      exact hab
  · by_cases hbx : b = x
    · subst hbx
      exact posx hb
    · rw [other b hb hbx]
      exact t.pos b (sub.subset hb) hne

theorem head_append_cons {C C'} (hL : (A ++ p :: C).head? = some base) : (A ++ p :: C').head? = some base := by
  cases A with
  | nil | cons x A => exact hL

/-- `bp` が次の空きに接していれば一つにし、離れていればつなぐ。 -/
theorem joinNext_spec {C} (t : Tiled base h (A ++ p :: C) (bp :: W)) (hpath : Path h.ptr base (A ++ p :: C))
    (hC : ∀ q ∈ C, bp < q) :
    ∃ C', Tiled base (h.joinNext bp p) (A ++ p :: C') (bp :: W) ∧ Path (h.joinNext bp p).ptr p A ∧
      Path (h.joinNext bp p).ptr base (bp :: C') ∧ (∀ q ∈ C', bp + hdr * (h.joinNext bp p).size bp < q) ∧
      h.size bp ≤ (h.joinNext bp p).size bp ∧ (∀ b, b ≠ bp → (h.joinNext bp p).size b = h.size b) := by
  have hnot : ∀ a ∈ A ++ p :: C, a ≠ bp := fun a ha he => t.not_mem mem_cons_self (he ▸ ha)
  have hbase := t.base_lt (b := bp) mem_cons_self
  obtain ⟨hA, hptr, hpathC⟩ := Path.append_iff.mp hpath
  have hW : ∀ b ∈ W, b ≠ bp := fun b hb he => (nodup_cons.mp t.nodup).1 (he ▸ hb)
  rw [Heap.joinNext, hptr]
  split
  · rename_i hend
    cases C with
    | nil =>
      have : bp + hdr * h.size bp = base := hend
      omega
    | cons q C =>
      have hq : bp + hdr * h.size bp = q := hend
      have hmem : q ∈ A ++ p :: q :: C := by simp
      have hsum := t.sum_lt hmem (b := bp) mem_cons_self
      have hpos := t.posW bp mem_cons_self
      have hspaced := pairwise_append.mp t.spaced
      have hqC := (pairwise_cons.mp (pairwise_cons.mp hspaced.2.1).2).1
      -- 新しい大きさ
      have hsize : ((h.setSize bp (h.size bp + h.size q)).setPtr bp (h.ptr q)).size =
          update h.size bp (h.size bp + h.size q) := by
        simp [Nat.mod_eq_of_lt (show h.size bp + h.size q < 4294967296 by omega)]
      have hother : ∀ a, a ≠ bp → update h.size bp (h.size bp + h.size q) a = h.size a :=
        fun a ha => update_of_ne ha _ _
      have hsub : (A ++ p :: C).Sublist (A ++ p :: q :: C) :=
        (List.Sublist.refl A).append ((sublist_cons_self q C).cons_cons p)
      refine ⟨C, t.resize rfl rfl (head_append_cons t.head) hsub (Nat.ne_of_gt hbase) (fun a _ ha => ?_)
        (fun hm => absurd rfl (hnot bp (hsub.subset hm))) (fun hm => absurd rfl (hnot bp (hsub.subset hm))) ?_ ?_,
        ?_, ?_, ?_, ?_, ?_⟩
      · simp only [headD_cons, hsize]
        exact hother a ha
      · simp only [headD_cons, hsize]
        intro b hb
        obtain rfl | hb := mem_cons.mp hb
        · rw [update_self]
          omega
        · rw [hother b (hW b hb)]
          exact t.posW b (mem_cons_of_mem bp hb)
      · intro f hf
        simp only [headD_cons, hsize]
        have hL' : total f (update h.size bp (h.size bp + h.size q)) (A ++ p :: C) = total f h.size
            (A ++ p :: C) :=
          total_congr fun a ha => hother a (hnot a (hsub.subset ha))
        have hW' : total f (update h.size bp (h.size bp + h.size q)) W = total f h.size W :=
          total_congr fun a ha => hother a (hW a ha)
        rw [hL', total_cons, hW', update_self, hf, hq]
        simp only [total_append, total_cons]
        omega
      · simp only [headD_cons, setPtr_ptr, setSize_ptr]
        exact hA.congr fun a ha => update_of_ne (hnot a (mem_append_left _ ha)) _ _
      · simp only [headD_cons, setPtr_ptr, setSize_ptr]
        refine ⟨by rw [update_self]; exact hpathC.1, hpathC.2.congr fun a ha => ?_⟩
        exact update_of_ne (hnot a (hsub.subset (by simp [ha]))) _ _
      · simp only [headD_cons, hsize, update_self]
        intro c hc
        have := hqC c hc
        simp only [hdr] at *
        omega
      · simp only [headD_cons, hsize, update_self]
        omega
      · simp only [headD_cons, hsize]
        exact hother
  rename_i hend
  refine ⟨C, t.retile rfl rfl t.head t.zero t.spaced t.pos t.posW fun _ _ => rfl, ?_, ?_, ?_, le_rfl,
      fun _ _ => rfl⟩
  · exact hA.congr fun a ha => update_of_ne (hnot a (mem_append_left _ ha)) _ _
  · refine ⟨update_self .., hpathC.congr fun a ha => ?_⟩
    exact update_of_ne (hnot a (by simp [ha])) _ _
  -- `bp` は次の空きブロックと重ならず、続いてもいない。
  intro c hc
  change bp + hdr * h.size bp < c
  cases C with
  | nil => cases hc
  | cons q C =>
    have hne : bp + hdr * h.size bp ≠ q := hend
    have hq := t.disjoint (a := q) (b := bp) (by simp) mem_cons_self
    have hlt := hC q mem_cons_self
    have hle : bp + hdr * h.size bp < q := by
      have := t.posW bp mem_cons_self
      simp only [hdr] at *
      omega
    obtain rfl | hc := mem_cons.mp hc
    · exact hle
    · have hspaced := (pairwise_append.mp t.spaced).2.1
      have := (pairwise_cons.mp (pairwise_cons.mp hspaced).2).1 c hc
      omega

theorem joinPrev_spec {C} (t : Tiled base h (A ++ p :: C) (bp :: W)) (hA : Path h.ptr p A)
    (hbp : Path h.ptr base (bp :: C)) (hp : p < bp) (hC : ∀ q ∈ C, bp + hdr * h.size bp < q) :
    ∃ L', Tiled base (h.joinPrev bp p) L' W ∧ Path (h.joinPrev bp p).ptr base L' ∧ p ∈ L' ∧
      (∃ b ∈ L', h.size bp ≤ (h.joinPrev bp p).size b) ∧ ∀ b ∈ W, (h.joinPrev bp p).size b = h.size b := by
  have hmem : p ∈ A ++ p :: C := by simp
  have hbase := t.base_lt (b := bp) mem_cons_self
  have hpos := t.posW bp mem_cons_self
  have hnodup := nodup_append.mp (t.lt_of_spaced.imp Nat.ne_of_lt)
  have hpA : ∀ a ∈ A, a ≠ p := fun a ha => hnodup.2.2 a ha p mem_cons_self
  have hpC : ∀ a ∈ C, a ≠ p := fun a ha he => (nodup_cons.mp hnodup.2.1).1 (he ▸ ha)
  have hspaced := pairwise_append.mp t.spaced
  have hWp : ∀ b ∈ W, b ≠ p := fun b hb he => t.not_mem (mem_cons_of_mem bp hb) (he ▸ hmem)
  rw [Heap.joinPrev]
  split
  · rename_i hend
    have hne : p ≠ base := by
      intro he
      rw [he, t.zero] at hend
      omega
    have hsum := t.sum_lt hmem (b := bp) mem_cons_self
    have hsize : ((h.setSize p (h.size p + h.size bp)).setPtr p (h.ptr bp)).size =
        update h.size p (h.size p + h.size bp) := by
      simp [Nat.mod_eq_of_lt (show h.size p + h.size bp < 4294967296 by omega)]
    have hother : ∀ a, a ≠ p → update h.size p (h.size p + h.size bp) a = h.size a :=
      fun a ha => update_of_ne ha _ _
    refine ⟨A ++ p :: C, t.resize rfl rfl t.head (List.Sublist.refl _) hne (fun a _ ha => ?_) (fun _ b hb hlt => ?_)
      (fun _ => ?_) ?_ ?_, ?_, hmem, ⟨p, hmem, ?_⟩, ?_⟩
    · rw [hsize]
      exact hother a ha
    · rw [hsize, update_self]
      -- `p` より後ろの空きブロックは `C` にある。
      obtain hb | hb := mem_append.mp hb
      · have := hspaced.2.2 b hb p mem_cons_self
        omega
      · obtain rfl | hb := mem_cons.mp hb
        · omega
        · have := hC b hb
          simp only [hdr] at *
          omega
    · rw [hsize, update_self]
      omega
    · rw [hsize]
      intro b hb
      rw [hother b (hWp b hb)]
      exact t.posW b (mem_cons_of_mem bp hb)
    · intro f hf
      rw [hsize, total_append, total_cons, update_self, hf, hend, total_congr fun a ha => hother a (hpA a ha),
        total_congr fun a ha => hother a (hpC a ha), total_congr fun a ha => hother a (hWp a ha)]
      simp only [total_append, total_cons]
      omega
    · refine Path.append_iff.mpr ⟨hA.congr fun a ha => update_of_ne (hpA a ha) _ _, ?_, ?_⟩
      · exact (update_self ..).trans hbp.1
      · exact hbp.2.congr fun a ha => update_of_ne (hpC a ha) _ _
    · rw [hsize, update_self]
      omega
    · rw [hsize]
      exact fun b hb => hother b (hWp b hb)
  rename_i hend
  -- `p` の終わりは `bp` に届かない。
  have hlt : p + hdr * h.size p < bp := by
    have := t.disjoint hmem (b := bp) mem_cons_self
    omega
  refine ⟨A ++ p :: bp :: C, t.retile rfl rfl (head_append_cons t.head) t.zero ?_ ?_ ?_ ?_, ?_, by simp,
    ⟨bp, by simp, le_rfl⟩, fun _ _ => rfl⟩
  · change (A ++ p :: bp :: C).Pairwise fun a b => a + hdr * h.size a < b
    rw [pairwise_append, pairwise_cons, pairwise_cons]
    refine ⟨hspaced.1, ⟨fun c hc => ?_, hC, (pairwise_cons.mp hspaced.2.1).2⟩, fun a ha c hc => ?_⟩
    · obtain rfl | hc := mem_cons.mp hc
      · exact hlt
      · exact (pairwise_cons.mp hspaced.2.1).1 c hc
    obtain rfl | hc := mem_cons.mp hc
    · exact hspaced.2.2 a ha c mem_cons_self
    · obtain rfl | hc := mem_cons.mp hc
      · have := hspaced.2.2 a ha p mem_cons_self
        omega
      · exact hspaced.2.2 a ha c (mem_cons_of_mem p hc)
  · intro b hb hb'
    change 0 < h.size b
    by_cases he : b = bp
    · rw [he]
      exact hpos
    · exact t.pos b (by simp_all) hb'
  · exact fun b hb => t.posW b (mem_cons_of_mem bp hb)
  · intro f _
    change total f h.size (A ++ p :: bp :: C) + total f h.size W = _
    simp only [total_append, total_cons]
    omega
  · refine Path.append_iff.mpr ⟨hA.congr fun a ha => update_of_ne (hpA a ha) _ _, update_self .., ?_⟩
    refine hbp.congr fun a ha => update_of_ne ?_ _ _
    obtain rfl | ha := mem_cons.mp ha
    · exact Nat.ne_of_gt hp
    · exact hpC a ha

structure Holds (base : Nat) (h : Heap) (L W : List Nat) : Prop extends Tiled base h L W where
  path : Path h.ptr base L
  freep : h.freep ∈ L

theorem free_spec (t : Holds base h L (bp :: W)) :
    ∃ h' L', (∀ k, 2 * L.length ≤ k → free h (bp + hdr) k = some h') ∧ Holds base h' L' W ∧ h'.live = h.live ∧
      h'.chunks = h.chunks ∧ (∀ b ∈ W, h'.size b = h.size b) ∧ (∃ b ∈ L', h.size bp ≤ h'.size b) := by
  obtain ⟨A, p, C, rfl, hp, hC, hsearch⟩ := searchFree_spec t.path t.head t.toTiled.lt_of_spaced t.freep
    (t.toTiled.base_lt mem_cons_self) (fun a => t.toTiled.base_le) (t.toTiled.not_mem mem_cons_self)
  obtain ⟨C', t1, hA, hbp, hC', hgrow, hnext⟩ := joinNext_spec t.toTiled t.path hC
  obtain ⟨L', t2, hpath, hpL, ⟨b, hb, hle⟩, hprev⟩ := joinPrev_spec t1 hA hbp hp hC'
  have hW : ∀ b ∈ W, b ≠ bp := fun b hb he => (nodup_cons.mp t.toTiled.nodup).1 (he ▸ hb)
  refine ⟨((h.joinNext bp p).joinPrev bp p).setFreep p, L', fun k hk => ?_, ⟨?_, hpath, hpL⟩, ?_, ?_,
    fun b hb => (hprev b hb).trans (hnext b (hW b hb)), b, hb, hgrow.trans hle⟩
  · rw [free, Nat.add_sub_cancel, hsearch k hk]
  · exact { t2 with }
  · unfold Heap.joinPrev Heap.joinNext
    split <;> split <;> rfl
  · unfold Heap.joinPrev Heap.joinNext
    split <;> split <;> rfl

end Xv6.Umalloc
