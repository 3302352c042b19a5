import Xv6.Umalloc.Lemmas.Free

/-!
# `malloc`
-/

namespace Xv6.Umalloc

open Xv6.Lib List

variable {base : Nat} {h : Heap} {L W V : List Nat} {a b x pv n N : Nat} {os : Nat → Option Nat}

theorem Tiled.size_lt (t : Tiled base h L W) (ha : a ∈ L) : h.size a < 2 ^ 32 := by
  have := le_total (f := fun _ u => u) (g := h.size) ha
  have := t.units_eq
  have := t.small
  omega

theorem Tiled.end_lt (t : Tiled base h L W) (hx : x ∈ L) (ha : a ∈ L) (hlt : x < a) : x + hdr * h.size x < a := by
  obtain ⟨A, C, rfl⟩ := append_of_mem hx
  obtain ⟨-, hC, hA⟩ := pairwise_append.mp t.spaced
  obtain ha | ha := mem_append.mp ha
  · have := hA a ha x mem_cons_self
    omega
  · obtain rfl | ha := mem_cons.mp ha
    · omega
    · exact (pairwise_cons.mp hC).1 a ha

theorem Tiled.interior (t : Tiled base h L W) (hx : x ∈ L) (hlo : x < a) (hhi : a < x + hdr * h.size x) : a ∉ L ∧
    a ∉ W := by
  constructor
  · intro ha
    have := t.end_lt hx ha hlo
    omega
  · intro ha
    have hpos := t.posW a ha
    have := t.disjoint hx ha
    omega

section

variable (t : Holds base h L W) (hpv : pv ∈ L)
include t hpv

theorem take_whole (hx : h.ptr pv = x) (hne : x ≠ base) :
    ∃ L', Holds base ({ (h.setPtr pv (h.ptr x)).setFreep pv with live := x :: h.live }) L' (x :: W) := by
  obtain ⟨A, C, rfl⟩ := append_of_mem hpv
  obtain ⟨hA, hptr, hpathC⟩ := Path.append_iff.mp t.path
  cases C with
  | nil => exact absurd (hx.symm.trans hptr) hne
  | cons y C =>
    obtain rfl : y = x := hptr.symm.trans hx
    have hsub : (A ++ pv :: C).Sublist (A ++ pv :: y :: C) :=
      (List.Sublist.refl A).append ((sublist_cons_self y C).cons_cons pv)
    have hnodup := nodup_append.mp (t.lt_of_spaced.imp Nat.ne_of_lt)
    have hpA : ∀ a ∈ A, a ≠ pv := fun a ha => hnodup.2.2 a ha pv mem_cons_self
    have hpC : ∀ a ∈ C, a ≠ pv := fun a ha he => (nodup_cons.mp hnodup.2.1).1 (he ▸ mem_cons_of_mem y ha)
    refine ⟨A ++ pv :: C, t.toTiled.retile rfl rfl (head_append_cons t.head) t.zero (t.spaced.sublist hsub)
      (fun b hb => t.pos b (hsub.subset hb)) (fun b hb => ?_) (fun f _ => ?_), ?_, by simp [Heap.setFreep]⟩
    · obtain rfl | hb := mem_cons.mp hb
      · exact t.pos b (by simp) hne
      · exact t.posW b hb
    · change total f h.size (A ++ pv :: C) + total f h.size (y :: W) = _
      simp only [total_append, total_cons]
      omega
    · refine Path.append_iff.mpr ⟨hA.congr fun a ha => update_of_ne (hpA a ha) _ _, ?_, ?_⟩
      · exact (update_self ..).trans hpathC.1
      · exact hpathC.2.congr fun a ha => update_of_ne (hpC a ha) _ _

/-- 大きい空きからは末尾を切り出すので、輪は変わらない。 -/
theorem take_tail (hx : x ∈ L) (hn : 0 < n) (hlt : n < h.size x) :
    let q := x + hdr * (h.size x - n)
    Holds base ({ ((h.setSize x (h.size x - n)).setSize q n).setFreep pv with live := q :: h.live }) L (q :: W) ∧
      ((h.setSize x (h.size x - n)).setSize q n).size q = n ∧
      ∀ a ∈ W, ((h.setSize x (h.size x - n)).setSize q n).size a = h.size a := by
  intro q
  have hxlt := t.toTiled.size_lt hx
  have hne : x ≠ base := by
    rintro rfl
    rw [t.zero] at hlt
    omega
  have hqx : x < q := by
    simp only [q, hdr]
    omega
  have hqe : q < x + hdr * h.size x := by
    simp only [q, hdr]
    omega
  obtain ⟨hqL, hqW⟩ := t.toTiled.interior hx hqx hqe
  have hxW : ∀ a ∈ W, a ≠ x := fun a ha he => t.toTiled.not_mem ha (he ▸ hx)
  have hbase := t.toTiled.base_le hx
  have hsize : ((h.setSize x (h.size x - n)).setSize q n).size =
      update (update h.size x (h.size x - n)) q n := by
    simp [Nat.mod_eq_of_lt (show n < 4294967296 by omega), Nat.mod_eq_of_lt (show h.size x - n < 4294967296 by omega)]
  have hsx : update (update h.size x (h.size x - n)) q n x = h.size x - n := by
    rw [update_of_ne (Nat.ne_of_lt hqx), update_self]
  have hother : ∀ a, a ≠ x → a ≠ q → update (update h.size x (h.size x - n)) q n a = h.size a :=
    fun a h1 h2 => by rw [update_of_ne h2, update_of_ne h1]
  have hL : ∀ a ∈ L, a ≠ q := fun a ha he => hqL (he ▸ ha)
  have hW : ∀ a ∈ W, update (update h.size x (h.size x - n)) q n a = h.size a :=
    fun a ha => hother a (hxW a ha) fun he => hqW (he ▸ ha)
  refine ⟨⟨t.toTiled.resize rfl rfl t.head (List.Sublist.refl _) hne (fun a ha hax => ?_) (fun _ b hb hlt' => ?_)
      (fun _ => ?_)
    ?_ ?_, t.path, hpv⟩, by rw [hsize, update_self], fun a ha => by rw [hsize, hW a ha]⟩
  · change ((h.setSize x (h.size x - n)).setSize q n).size a = _
    rw [hsize, hother a hax (hL a ha)]
  · change x + hdr * ((h.setSize x (h.size x - n)).setSize q n).size x < b
    have := t.toTiled.end_lt hx hb hlt'
    rw [hsize, hsx]
    simp only [hdr] at *
    omega
  · change 0 < ((h.setSize x (h.size x - n)).setSize q n).size x
    rw [hsize, hsx]
    omega
  · intro b hb
    change 0 < ((h.setSize x (h.size x - n)).setSize q n).size b
    rw [hsize]
    obtain rfl | hb := mem_cons.mp hb
    · rwa [update_self]
    · rw [hW b hb]
      exact t.posW b hb
  intro f hf
  change total f ((h.setSize x (h.size x - n)).setSize q n).size L +
    total f ((h.setSize x (h.size x - n)).setSize q n).size (q :: W) = _
  rw [hsize, total_cons, update_self, total_congr hW]
  -- `x` の量は、残りと切り取った分の和である。
  have hsplit : f x (h.size x) = f x (h.size x - n) + f q n := by
    conv_lhs => rw [← Nat.sub_add_cancel (Nat.le_of_lt hlt)]
    exact hf x _ _
  obtain ⟨A, C, rfl⟩ := append_of_mem hx
  have hnodup := nodup_append.mp (t.lt_of_spaced.imp Nat.ne_of_lt)
  rw [total_append, total_cons, total_append, total_cons, hsx, hsplit,
    total_congr fun a ha => hother a (hnodup.2.2 a ha x mem_cons_self) (hL a (mem_append_left _ ha)),
    total_congr fun a ha => hother a (fun he => (nodup_cons.mp hnodup.2.1).1 (he ▸ ha))
      (hL a (mem_append_right A (mem_cons_of_mem x ha)))]
  omega

theorem take_spec (hx : h.ptr pv = x) (hxL : x ∈ L) (hn : 0 < n) (hfit : n ≤ h.size x) :
    ∃ b L', (h.take pv x n).1 = b + hdr ∧ Holds base (h.take pv x n).2 L' (b :: W) ∧
      (h.take pv x n).2.live = b :: h.live ∧ (h.take pv x n).2.chunks = h.chunks ∧ (h.take pv x n).2.size b = n ∧
      ∀ a ∈ W, (h.take pv x n).2.size a = h.size a := by
  unfold Heap.take
  split
  · rename_i heq
    have hne : x ≠ base := by
      rintro rfl
      rw [t.zero] at hfit
      omega
    obtain ⟨L', hL'⟩ := take_whole t hpv hx hne
    exact ⟨x, L', rfl, hL', rfl, rfl, heq, fun _ _ => rfl⟩
  rename_i hneq
  have hlt : n < h.size x := by omega
  obtain ⟨hL, hsize, hW⟩ := take_tail t hpv hxL hn hlt
  have hmod : (h.setSize x (h.size x - n)).size x = h.size x - n := by
    have := t.toTiled.size_lt hxL
    simp [Nat.mod_eq_of_lt (show h.size x - n < 4294967296 by omega)]
  simp only [hmod]
  exact ⟨x + hdr * (h.size x - n), L, rfl, hL, rfl, rfl, hsize, hW⟩

end

def refill (n : Nat) (os : Nat → Option Nat) (N : Nat) (h : Heap) (k : Nat) : Option (Option Nat × Heap) :=
  match morecore h n os N with
  | none => none
  | some (none, h) => some (none, h)
  | some (some p, h) => mallocLoop n os N h p (h.ptr p) k

theorem mallocLoop_walk (n : Nat) (os : Nat → Option Nat) (hpath : Path h.ptr h.freep (pv :: V)) (hV : h.freep ∉ V) :
    (∃ pv' x, pv' ∈ pv :: V ∧ h.ptr pv' = x ∧ (x ∈ V ∨ x = h.freep) ∧ n ≤ h.size x ∧
      ∀ N k, V.length + 1 ≤ k → mallocLoop n os N h pv (h.ptr pv) k = some ((h.take pv' x n).map some id)) ∨
    (∀ x, x ∈ V ∨ x = h.freep → h.size x < n) ∧
      ∀ N k, mallocLoop n os N h pv (h.ptr pv) (k + V.length + 1) = refill n os N h k := by
  induction V generalizing pv with
  | nil =>
    have hptr : h.ptr pv = h.freep := hpath.1
    by_cases hfit : n ≤ h.size h.freep
    · refine .inl ⟨pv, h.freep, mem_cons_self, hptr, .inr rfl, hfit, fun N k hk => ?_⟩
      obtain ⟨k, rfl⟩ : ∃ j, k = j + 1 := ⟨k - 1, by omega⟩
      rw [hptr, mallocLoop, if_pos hfit]
    refine .inr ⟨fun x hx => ?_, fun N k => ?_⟩
    · obtain hx | rfl := hx
      · cases hx
      · omega
    · rw [hptr, mallocLoop, if_neg hfit, if_pos rfl]
      rfl
  | cons y V ih =>
    have hptr : h.ptr pv = y := hpath.1
    have hne : y ≠ h.freep := fun he => hV (he ▸ mem_cons_self)
    by_cases hfit : n ≤ h.size y
    · refine .inl ⟨pv, y, mem_cons_self, hptr, .inl mem_cons_self, hfit, fun N k hk => ?_⟩
      obtain ⟨k, rfl⟩ : ∃ j, k = j + 1 := ⟨k - 1, by omega⟩
      rw [hptr, mallocLoop, if_pos hfit]
    obtain ⟨pv', x, hpv', hx, hmem, hle, hrun⟩ | ⟨hsmall, hrun⟩ := ih hpath.2 fun hm => hV (mem_cons_of_mem y hm)
    · refine .inl ⟨pv', x, mem_cons_of_mem pv hpv', hx, hmem.imp_left (mem_cons_of_mem y), hle,
        fun N k hk => ?_⟩
      obtain ⟨k, rfl⟩ : ∃ j, k = j + 1 := ⟨k - 1, by omega⟩
      rw [hptr, mallocLoop, if_neg hfit, if_neg hne]
      exact hrun N k (by simp only [length_cons] at hk; omega)
    refine .inr ⟨fun x hx => ?_, fun N k => ?_⟩
    · obtain hx | rfl := hx
      · obtain rfl | hx := mem_cons.mp hx
        · omega
        · exact hsmall x (.inl hx)
      · exact hsmall _ (.inr rfl)
    · rw [hptr, mallocLoop, if_neg hfit, if_neg hne]
      exact hrun N k

/-- 一周のうちに足りる空きを見つけるか、どれも足りずに `morecore` へ進む。 -/
theorem mallocLoop_round (n : Nat) (os : Nat → Option Nat) (t : Holds base h L W) :
    (∃ pv x, pv ∈ L ∧ h.ptr pv = x ∧ x ∈ L ∧ n ≤ h.size x ∧
      ∀ N k, L.length ≤ k → mallocLoop n os N h h.freep (h.ptr h.freep) k = some ((h.take pv x n).map some id)) ∨
    (∀ x ∈ L, h.size x < n) ∧
      ∀ N k, mallocLoop n os N h h.freep (h.ptr h.freep) (k + L.length) = refill n os N h k := by
  obtain ⟨A, B, hL⟩ := append_of_mem t.freep
  have hpath := t.path
  have hhead := t.head
  have hnodup : L.Nodup := t.lt_of_spaced.imp Nat.ne_of_lt
  rw [hL] at hpath hhead hnodup
  have hmem : ∀ x, x ∈ L ↔ x ∈ B ++ A ∨ x = h.freep := by
    intro x
    rw [hL]
    simp only [mem_append, mem_cons]
    tauto
  have hlen : L.length = (B ++ A).length + 1 := by
    rw [hL]
    simp only [length_append, length_cons]
    omega
  have hnot : h.freep ∉ B ++ A := by
    obtain ⟨-, hB, hA⟩ := nodup_append.mp hnodup
    intro hm
    obtain hm | hm := mem_append.mp hm
    · exact (nodup_cons.mp hB).1 hm
    · exact hA _ hm _ mem_cons_self rfl
  have hrot : Path h.ptr h.freep (h.freep :: (B ++ A)) := hpath.rotate hhead
  obtain ⟨pv, x, hpv, hx, hmem', hle, hrun⟩ | ⟨hsmall, hrun⟩ := mallocLoop_walk n os hrot hnot
  · refine .inl ⟨pv, x, (hmem pv).mpr ?_, hx, (hmem x).mpr hmem', hle, fun N k hk => hrun N k (by omega)⟩
    exact (mem_cons.mp hpv).symm
  · refine .inr ⟨fun x hx => hsmall x ((hmem x).mp hx), fun N k => ?_⟩
    rw [hlen, ← Nat.add_assoc]
    exact hrun N k

theorem sbrk_spec {g nu} (t : Holds base h L W) (hnu : 0 < nu) (hcap : h.units + nu < 2 ^ 32) :
    let h' := { h with top := h.top + g + hdr * nu, chunks := (h.top + g, nu) :: h.chunks }
    Holds base (h'.setSize (h.top + g) nu) L ((h.top + g) :: W) ∧ (h'.setSize (h.top + g) nu).size (h.top + g) = nu ∧
      ∀ a ∈ W, (h'.setSize (h.top + g) nu).size a = h.size a := by
  intro h'
  have hltL : ∀ a ∈ L, a ≠ h.top + g := by
    intro a ha
    by_cases hb : a = base
    · have := t.top
      simp only [hdr] at this
      omega
    · have := (t.toTiled.range (.inl ⟨ha, hb⟩)).2
      omega
  have hltW : ∀ a ∈ W, a ≠ h.top + g := by
    intro a ha
    have := (t.toTiled.range (.inr ha)).2
    omega
  have hmod : nu % 2 ^ 32 = nu := Nat.mod_eq_of_lt (by omega)
  have hother : ∀ a, a ≠ h.top + g → (h'.setSize (h.top + g) nu).size a = h.size a :=
    fun a ha => update_of_ne ha _ _
  have hself : (h'.setSize (h.top + g) nu).size (h.top + g) = nu := (update_self ..).trans hmod
  have hbase : base ∈ L := mem_of_mem_head? t.head
  refine ⟨⟨⟨t.head, ?_, ?_, ?_, ?_, ?_, ?_, ?_, ?_, ?_, ?_⟩, t.path, t.freep⟩, hself, fun a ha => hother a (hltW a ha)⟩
  · rw [hother _ (hltL _ hbase)]
    exact t.zero
  · refine t.spaced.imp_of_mem fun {a b} ha _ hab => ?_
    rw [hother a (hltL a ha)]
    exact hab
  · intro b hb hb'
    rw [hother b (hltL b hb)]
    exact t.pos b hb hb'
  · intro b hb
    obtain rfl | hb := mem_cons.mp hb
    · rw [hself]
      exact hnu
    · rw [hother b (hltW b hb)]
      exact t.posW b hb
  · intro f hf
    have htiles := t.tiles f hf
    rw [total_cons, hself, total_congr fun a ha => hother a (hltL a ha), total_congr fun a ha => hother a (hltW a ha)]
    change _ = chunkTotal f ((h.top + g, nu) :: h.chunks)
    simp only [chunkTotal, map_cons, sum_cons] at htiles ⊢
    omega
  · refine pairwise_cons.mpr ⟨fun d hd => ?_, t.apart⟩
    have := t.high d hd
    change d.1 + hdr * d.2 ≤ h.top + g
    omega
  · intro c hc
    obtain rfl | hc := mem_cons.mp hc
    · have := t.top
      change base + hdr ≤ h.top + g
      omega
    · exact t.low c hc
  · intro c hc
    change c.1 + hdr * c.2 ≤ h.top + g + hdr * nu
    obtain rfl | hc := mem_cons.mp hc
    · exact le_rfl
    · have := t.high c hc
      omega
  · have := t.top
    change base + hdr ≤ h.top + g + hdr * nu
    omega
  · change (((h.top + g, nu) :: h.chunks).map Prod.snd).sum < _
    rw [map_cons, sum_cons]
    change nu + h.units < _
    omega

theorem le_coreUnits : n ≤ coreUnits n := by
  unfold coreUnits
  split <;> omega

/-- OS が領域を渡せば、`malloc` は必ず成功する。 -/
theorem refill_spec {g} (t : Holds base h L W) (hg : os h.top = some g) (hn : 0 < n)
    (hcap : h.units + coreUnits n < 2 ^ 32) :
    ∃ b h' L' K, (∀ N k, K ≤ N → K ≤ k → refill n os N h k = some (some (b + hdr), h')) ∧ Holds base h' L' (b :: W) ∧
      h'.live = b :: h.live ∧ h'.size b = n ∧ ∀ a ∈ W, h'.size a = h.size a := by
  obtain ⟨t1, hsize, hW1⟩ := sbrk_spec (g := g) t (Nat.lt_of_lt_of_le hn le_coreUnits) hcap
  obtain ⟨h2, L2, hfree, t2, hlive, -, hW2, b, hb, hle⟩ := free_spec t1
  rw [hsize] at hle
  obtain ⟨pv, x, hpv, hx, hxL, hfit, hrun⟩ | ⟨hsmall, -⟩ := mallocLoop_round n os t2
  · obtain ⟨c, L3, hc, t3, hlive3, -, hsize3, hW3⟩ := take_spec t2 hpv hx hxL hn hfit
    refine ⟨c, (h2.take pv x n).2, L3, 2 * L.length + L2.length, fun N k hN hk => ?_, t3, hlive3.trans (hlive ▸ rfl),
      hsize3, fun a ha => (hW3 a ha).trans ((hW2 a ha).trans (hW1 a ha))⟩
    have hmore : morecore h n os N = some (some h2.freep, h2) := by
      simp only [morecore, sbrk, hg, Option.map_some]
      rw [hfree N (by omega)]
    rw [refill, hmore]
    change mallocLoop n os N h2 h2.freep (h2.ptr h2.freep) k = _
    rw [hrun N k (by omega), ← hc]
    rfl
  · have := hsmall b hb
    have := le_coreUnits (n := n)
    omega

end Xv6.Umalloc
