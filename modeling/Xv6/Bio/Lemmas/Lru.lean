import Xv6.Bio.Lru

/-!
# バッファの表の不変条件
-/

namespace Xv6.Bio.Lru

open Xv6.Lib List

variable {s t : Cache} {b c dev blockno : Nat} {u : Buf}

structure Ordered (s : Cache) (order : List Nat) : Prop where
  ring : s.links.Ring head order
  perm : order.Perm (List.range nbuf)
  sorted : order.Pairwise fun a b => s.released b ≤ s.released a

structure Inv (s : Cache) : Prop where
  order : ∃ order, Ordered s order
  unique : Unique s
  count : ∀ b, (s.buf b).refcnt = (s.buf b).held + (s.buf b).pins
  clock : ∀ b, s.released b < s.clock

theorem Ordered.mem {order} (h : Ordered s order) : b ∈ order ↔ b < nbuf := by
  rw [h.perm.mem_iff, mem_range]

theorem Ordered.length_lt {order} (h : Ordered s order) : order.length < nbuf + 1 := by
  rw [h.perm.length_eq, length_range]
  omega

theorem Inv.lookup_none (h : Inv s) (hl : s.lookup dev blockno = none) (hb : b < nbuf) :
    ¬((s.buf b).dev = dev ∧ (s.buf b).blockno = blockno) := by
  obtain ⟨order, ho⟩ := h.order
  rw [Cache.lookup, ho.ring.scan_next ho.length_lt, find?_eq_none] at hl
  simpa using hl b (ho.mem.mpr hb)

/-- 使い回すのは、参照の無いバッファのうち解放が最も古いものである。 -/
theorem Inv.victim_some (h : Inv s) (hv : s.victim = some b) :
    b < nbuf ∧ (s.buf b).refcnt = 0 ∧ ∀ c, c < nbuf → (s.buf c).refcnt = 0 → s.released b ≤ s.released c := by
  obtain ⟨order, ho⟩ := h.order
  rw [Cache.victim, ho.ring.scan_prev ho.length_lt, find?_eq_some_iff_append] at hv
  obtain ⟨hb, as, bs, heq, has⟩ := hv
  have hmem : ∀ c, c ∈ as ++ b :: bs ↔ c < nbuf := fun c => by rw [← heq, mem_reverse, ho.mem]
  refine ⟨(hmem b).mp (by simp), by simpa using hb, fun c hc h0 => ?_⟩
  have hsorted : (as ++ b :: bs).Pairwise fun a b => s.released a ≤ s.released b := by
    rw [← heq, pairwise_reverse]
    exact ho.sorted
  rcases mem_append.mp ((hmem c).mpr hc) with hm | hm
  · have := has c hm
    simp [h0] at this
  · rcases mem_cons.mp hm with rfl | hm
    · exact Nat.le_refl _
    · exact (pairwise_cons.mp (pairwise_append.mp hsorted).2.1).1 c hm

theorem set_self : (s.set b u).buf b = u := update_self ..

theorem set_ne (h : c ≠ b) : (s.set b u).buf c = s.buf c := update_of_ne h ..

theorem Unique.set (h : Unique s) (hd : u.dev = (s.buf b).dev) (hn : u.blockno = (s.buf b).blockno) :
    Unique (s.set b u) := by
  have hsame : ∀ c, ((s.set b u).buf c).dev = (s.buf c).dev ∧ ((s.set b u).buf c).blockno = (s.buf c).blockno := by
    intro c
    by_cases hc : c = b
    · subst hc
      rw [set_self]
      exact ⟨hd, hn⟩
    · rw [set_ne hc]
      exact ⟨rfl, rfl⟩
  intro x y hx hy
  rw [(hsame x).1, (hsame x).2, (hsame y).1, (hsame y).2]
  exact h x y hx hy

theorem Unique.reassign (h : Unique s) (hno : ∀ c, c < nbuf → ¬((s.buf c).dev = u.dev ∧ (s.buf c).blockno = u.blockno)) :
    Unique (s.set b u) := by
  intro x y hx hy
  by_cases hxb : x = b <;> by_cases hyb : y = b
  · exact fun _ _ _ => hxb.trans hyb.symm
  · rw [hxb, set_self, set_ne hyb]
    exact fun _ hd hn => absurd ⟨hd.symm, hn.symm⟩ (hno y hy)
  · rw [hyb, set_self, set_ne hxb]
    exact fun _ hd hn => absurd ⟨hd, hn⟩ (hno x hx)
  · rw [set_ne hxb, set_ne hyb]
    exact h x y hx hy

theorem Inv.set (h : Inv s) (hu : Unique (s.set b u)) (hb : u.refcnt = u.held + u.pins) : Inv (s.set b u) where
  order := by
    obtain ⟨order, ho⟩ := h.order
    exact ⟨order, ho.ring, ho.perm, ho.sorted⟩
  unique := hu
  count := fun c => by
    by_cases hc : c = b
    · subst hc
      rw [set_self, hb]
    · rw [set_ne hc, h.count c]
  clock := h.clock

theorem Inv.bget (h : Inv s) (hs : s.bget dev blockno = .ok t) : Inv t := by
  unfold Cache.bget at hs
  split at hs
  case h_1 b hl =>
    cases hs
    have hcount := h.count b
    exact h.set (h.unique.set rfl rfl) (by simp only; omega)
  case h_2 hl =>
    split at hs
    case h_1 b hv =>
      cases hs
      have hcount := h.count b
      have h0 := (h.victim_some hv).2.1
      exact h.set (h.unique.reassign fun c hc => h.lookup_none hl hc) (by simp only; omega)
    case h_2 => cases hs

theorem Ordered.touch {order} (ho : Ordered s order) (hclock : ∀ c, s.released c < s.clock) (hb : b < nbuf) :
    ∃ order', Ordered (s.touch b) order' := by
  obtain ⟨xs, ys, rfl⟩ := append_of_mem (ho.mem.mpr hb)
  have hd := ho.ring.nodup
  simp only [nodup_cons, mem_append, mem_cons, not_or, nodup_append] at hd
  obtain ⟨⟨-, hhb, -⟩, -, ⟨hby, -⟩, hdis⟩ := hd
  have hbx : b ∉ xs := fun hm => hdis b hm b (.inl rfl) rfl
  have hne : ∀ c ∈ xs ++ ys, c ≠ b := by
    rintro c hc rfl
    exact (mem_append.mp hc).elim hbx hby
  refine ⟨b :: (xs ++ ys), ho.ring.unlink.pushFront ?_, perm_middle.symm.trans ho.perm, ?_⟩
  · simp only [mem_cons, mem_append, not_or]
    exact ⟨Ne.symm hhb, hbx, hby⟩
  simp only [Cache.touch_released]
  refine pairwise_cons.mpr ⟨fun c hc => ?_, ?_⟩
  · rw [update_self, update_of_ne (hne c hc)]
    exact Nat.le_of_lt (hclock c)
  · have hsub : (xs ++ ys).Sublist (xs ++ b :: ys) := (sublist_cons_self b ys).append_left xs
    refine (ho.sorted.sublist hsub).imp_of_mem fun {c d} hc hd hle => ?_
    rwa [update_of_ne (hne c hc), update_of_ne (hne d hd)]

theorem Inv.touch (h : Inv s) (hb : b < nbuf) : Inv (s.touch b) where
  __ := h
  order := by
    obtain ⟨order, ho⟩ := h.order
    exact ho.touch h.clock hb
  clock := fun c => by
    simp only [Cache.touch_released, Cache.touch_clock]
    by_cases hc : c = b
    · rw [hc, update_self]
      exact Nat.lt_succ_self _
    · rw [update_of_ne hc]
      exact Nat.lt_succ_of_lt (h.clock c)

theorem Inv.brelse (h : Inv s) (hb : b < nbuf) (hh : 0 < (s.buf b).held) : Inv (s.brelse b) := by
  have hcount := h.count b
  have hset := h.set (b := b) (u := { s.buf b with refcnt := (s.buf b).refcnt - 1, held := (s.buf b).held - 1 })
    (h.unique.set rfl rfl) (by simp only; omega)
  simp only [Cache.brelse]
  split
  · exact hset.touch hb
  · exact hset

theorem guarded {c} [Decidable c] (hs : (if c then some (.ok t) else none : Option
    (Except String Cache)) = some (.ok s)) :
    c ∧ t = s := by
  split at hs
  · exact ⟨‹_›, by cases hs; rfl⟩
  · cases hs

theorem Inv.step {e} (h : Inv s) (hs : Lru.step s e = some (.ok t)) : Inv t := by
  cases e with
  | bget dev blockno => exact h.bget (Option.some.inj hs)
  | fill b =>
    obtain ⟨-, rfl⟩ := guarded hs
    exact h.set (h.unique.set rfl rfl) (h.count b)
  | brelse b =>
    obtain ⟨⟨hb, hh⟩, rfl⟩ := guarded hs
    exact h.brelse hb hh
  | bpin b =>
    obtain ⟨-, rfl⟩ := guarded hs
    have hcount := h.count b
    exact h.set (h.unique.set rfl rfl) (by simp only; omega)
  | bunpin b =>
    obtain ⟨⟨-, hp⟩, rfl⟩ := guarded hs
    have hcount := h.count b
    exact h.set (h.unique.set rfl rfl) (by simp only; omega)

theorem binitLoop_ring {l xs n} (h : l.Ring head xs) (hxs : ∀ x ∈ xs, x < b)
    (hn : b + n ≤ head) :
    (binitLoop l b n).Ring head ((List.range' b n).reverse ++ xs) := by
  induction n generalizing l b xs with
  | zero => simpa [binitLoop] using h
  | succ n ih =>
    have hb : b ∉ head :: xs := by
      rintro (_ | ⟨_, hm⟩)
      · omega
      · exact absurd (hxs b hm) (Nat.lt_irrefl b)
    have := ih (h.pushFront hb) (b := b + 1) (fun x hx => ?_) (by omega)
    · simpa [binitLoop, range'_succ] using this
    · rcases mem_cons.mp hx with rfl | hx
      · omega
      · exact Nat.lt_succ_of_lt (hxs x hx)

theorem Inv.binit : Inv binit where
  order := by
    have hring : (binitLoop ⟨fun _ => head, fun _ => head⟩ 0 nbuf).Ring head ((List.range' 0 nbuf).reverse ++ []) :=
      binitLoop_ring ⟨⟨rfl, rfl⟩, by simp⟩ (by simp) (by simp [head])
    rw [append_nil, ← range_eq_range'] at hring
    exact ⟨_, hring, reverse_perm _, pairwise_of_forall fun _ _ => Nat.le_refl _⟩
  unique := fun _ _ _ _ h => absurd rfl h
  count := fun _ => rfl
  clock := fun _ => Nat.zero_lt_one

theorem Inv.of_reaches (h : Lru.step.Reaches Lru.binit s) : Inv s :=
  h.inv Inv .binit fun _ _ _ hu hs => hu.step hs

/-- 装置と番号を変えない更新は、どのバッファも別のブロックに回さない。 -/
theorem not_reassigned (hd : u.dev = (s.buf c).dev) (hn : u.blockno = (s.buf c).blockno) :
    ¬Reassigned s (s.set c u) b := by
  refine not_not.mpr ?_
  by_cases hc : b = c
  · subst hc
    rw [set_self, hd, hn]
  · rw [set_ne hc]

/-- どの一歩でも、使い回すバッファより古い空きは無い。 -/
theorem Inv.oldestFirst {e} (h : Inv s) (hs : Lru.step s e = some (.ok t)) : OldestFirst s t := by
  intro b hb hr
  cases e with
  | bget dev blockno =>
    replace hs := Option.some.inj hs
    unfold Cache.bget at hs
    split at hs
    case h_1 c hl =>
      cases hs
      exact absurd hr (not_reassigned rfl rfl)
    case h_2 hl =>
      split at hs
      case h_1 c hv =>
        cases hs
        by_cases hc : b = c
        · subst hc
          exact (h.victim_some hv).2
        · refine absurd ?_ hr
          rw [set_ne hc]
      case h_2 => cases hs
  | fill c =>
    obtain ⟨-, rfl⟩ := guarded hs
    exact absurd hr (not_reassigned rfl rfl)
  | brelse c =>
    obtain ⟨-, rfl⟩ := guarded hs
    simp only [Cache.brelse] at hr
    split at hr <;> exact absurd hr (not_reassigned rfl rfl)
  | bpin c | bunpin c =>
    obtain ⟨-, rfl⟩ := guarded hs
    exact absurd hr (not_reassigned rfl rfl)

end Xv6.Bio.Lru
