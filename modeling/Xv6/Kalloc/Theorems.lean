import Xv6.Kalloc.Smp

/-!
# ページの割り当ての不変条件
-/

namespace Xv6.Kalloc

open Xv6.Lib
open Xv6.Vm (Layout physpages)

variable {n : Nat} {L : Layout} {s t : Sys n} {c : Fin n} {p q : Nat} {l : List Nat}

def InRange (L : Layout) (p : Nat) : Prop := L.kend ≤ p ∧ p < physpages

instance : Decidable (InRange L p) := inferInstanceAs (Decidable (_ ∧ _))

def Sys.places (s : Sys n) (l : List Nat) (p : Nat) : Nat :=
  occ (Pos.limbo ∘ s.pos) (some p) + l.count p + if s.refcnt p = 0 then 0 else 1

structure Holds (L : Layout) (s : Sys n) (l : List Nat) : Prop where
  chain : Chain s.link s.head l
  counts : ∀ p, s.refcnt p = s.outstanding p
  places : ∀ p, s.places l p = if InRange L p then 1 else 0

theorem occ_goto {f} (s : Sys n) (c : Fin n) (x : Pos) (p : Nat) :
    occ (f ∘ update s.pos c x) (some p) + (if f (s.pos c) = some p then 1 else 0) =
      occ (f ∘ s.pos) (some p) + if f x = some p then 1 else 0 := by
  rw [Function.comp_update]
  exact occ_update (f ∘ s.pos) c (f x) (some p)

namespace Holds

section

variable (h : Holds L s l)
include h

theorem not_mem_of_ref (hp : s.refcnt p ≠ 0) : p ∉ l := by
  intro hl
  have hplace := h.places p
  have := List.count_pos_iff.mpr hl
  rw [Sys.places, if_neg hp] at hplace
  split at hplace <;> omega

theorem not_mem_of_limbo (hp : (s.pos c).limbo = some p) : p ∉ l := by
  intro hl
  have hplace := h.places p
  have hocc : 0 < occ (Pos.limbo ∘ s.pos) (some p) := occ_pos.mpr ⟨c, hp⟩
  have := List.count_pos_iff.mpr hl
  rw [Sys.places] at hplace
  split at hplace <;> split at hplace <;> omega

theorem ref_pos (hp : (s.pos c).ref = some p) : 0 < s.refcnt p := by
  have hocc : 0 < occ (Pos.ref ∘ s.pos) (some p) := occ_pos.mpr ⟨c, hp⟩
  rw [h.counts p, Sys.outstanding]
  omega

theorem held_pos (hp : 0 < s.held p) : 0 < s.refcnt p := by
  rw [h.counts p, Sys.outstanding]
  omega

theorem inRange (hp : 0 < s.refcnt p) : InRange L p := by
  have hplace := h.places p
  by_contra hr
  rw [if_neg hr, Sys.places, if_neg (by omega)] at hplace
  omega

theorem store (hp : p ∉ l) (v : Option Nat) : Holds L (s.store p v) l :=
  ⟨h.chain.update hp v, h.counts, h.places⟩

end

/-! ## 区間ごとの保存 -/

section

variable (h : Holds L s l)
include h

theorem shift {x k m link head l'}
    (hchain : Chain link head l') (hother : ∀ q, q ≠ p → l'.count q = l.count q)
    (hpos : ∀ q, q ≠ p → (s.pos c).ref ≠ some q ∧ (s.pos c).limbo ≠ some q ∧ x.ref ≠ some q ∧ x.limbo ≠ some q)
    (href : k + s.held p + (if (s.pos c).ref = some p then 1 else 0) = s.refcnt p + m + if x.ref = some p then 1 else 0)
    (hplace : (if x.limbo = some p then 1 else 0) + l'.count p + (if k = 0 then 0 else 1) =
      (if (s.pos c).limbo = some p then 1 else 0) + l.count p + if s.refcnt p = 0 then 0 else 1) :
    Holds L ⟨update s.refcnt p k, link, head, update s.pos c x, update s.held p m⟩ l' where
  chain := hchain
  counts q := by
    have hocc := occ_goto (f := Pos.ref) s c x q
    have hq := h.counts q
    simp only [Sys.outstanding] at *
    by_cases hqp : q = p
    · subst hqp
      simp only [update_self]
      omega
    · obtain ⟨h1, -, h2, -⟩ := hpos q hqp
      rw [if_neg h1, if_neg h2] at hocc
      simp only [update_of_ne hqp]
      omega
  places q := by
    have hocc := occ_goto (f := Pos.limbo) s c x q
    have hq := h.places q
    simp only [Sys.places] at *
    by_cases hqp : q = p
    · subst hqp
      simp only [update_self]
      omega
    · obtain ⟨-, h1, -, h2⟩ := hpos q hqp
      rw [if_neg h1, if_neg h2] at hocc
      simp only [update_of_ne hqp, hother q hqp]
      omega

theorem borrow {x} (hi : s.pos c = .idle) (hp : 0 < s.held p) (hx : x = .incr p ∨ x = .dec p) :
    Holds L ((s.hold p (s.held p - 1)).goto c x) l := by
  have := h.shift (p := p) (c := c) (x := x) (k := s.refcnt p) (m := s.held p - 1) h.chain (fun _ _ => rfl)
    (fun q hq => by rcases hx with rfl | rfl <;> simp [hi, Pos.ref, Pos.limbo, hq.symm])
    (by rcases hx with rfl | rfl <;> simp [hi, Pos.ref] <;> omega)
    (by rcases hx with rfl | rfl <;> simp [hi, Pos.limbo])
  simpa [Sys.hold, Sys.goto] using this

theorem increse (hc : s.pos c = .incr p) :
    Holds L (((s.count p (s.refcnt p + 1)).hold p (s.held p + 2)).goto c .idle) l := by
  have hpos := h.ref_pos (c := c) (p := p) (by rw [hc]; rfl)
  refine h.shift h.chain (fun _ _ => rfl) (fun q hq => ?_) ?_ ?_
  · simp [hc, Pos.ref, Pos.limbo, hq.symm]
  · simp [hc, Pos.ref]
    omega
  · simp [hc, Pos.limbo, Nat.ne_of_gt hpos]

theorem unref (hc : s.pos c = .dec p) :
    Holds L ((s.count p (s.refcnt p - 1)).goto c (if s.refcnt p - 1 > 0 then .idle else .fill p)) l := by
  have hpos := h.ref_pos (c := c) (p := p) (by rw [hc]; rfl)
  split
  · rename_i hlast
    have := h.shift (p := p) (c := c) (x := .idle) (k := s.refcnt p - 1) (m := s.held p) h.chain (fun _ _ => rfl)
      (fun q hq => by simp [hc, Pos.ref, Pos.limbo, hq.symm]) (by simp [hc, Pos.ref]; omega)
      (by simp [hc, Pos.limbo, Nat.ne_of_gt hpos, Nat.ne_of_gt hlast])
    simpa [Sys.count, Sys.goto] using this
  -- 最後の参照である。
  have hone : s.refcnt p = 1 := by omega
  have := h.shift (p := p) (c := c) (x := .fill p) (k := 0) (m := s.held p) h.chain (fun _ _ => rfl)
    (fun q hq => by simp [hc, Pos.ref, Pos.limbo, hq.symm]) (by simp [hc, hone, Pos.ref]; omega)
    (by simp [hc, hone, Pos.limbo]; omega)
  simpa [Sys.count, Sys.goto, hone] using this

theorem fill (hc : s.pos c = .fill p) (v : Option Nat) : Holds L ((s.store p v).goto c (.push p)) l := by
  have hl := h.not_mem_of_limbo (c := c) (p := p) (by rw [hc]; rfl)
  have := h.shift (p := p) (c := c) (x := .push p) (k := s.refcnt p) (m := s.held p) (h.chain.update hl v)
    (fun _ _ => rfl) (fun q hq => by simp [hc, Pos.ref, Pos.limbo, hq.symm]) (by simp [hc, Pos.ref])
    (by simp [hc, Pos.limbo])
  simpa [Sys.store, Sys.goto] using this

theorem push (hc : s.pos c = .push p) : Holds L ((s.enqueue p).goto c .idle) (p :: l) := by
  have hl := h.not_mem_of_limbo (c := c) (p := p) (by rw [hc]; rfl)
  have := h.shift (p := p) (c := c) (x := .idle) (k := s.refcnt p) (m := s.held p) (h.chain.push hl)
    (fun q hq => List.count_cons_of_ne hq.symm) (fun q hq => by simp [hc, Pos.ref, Pos.limbo, hq.symm])
    (by simp [hc, Pos.ref]) (by simp [hc, Pos.limbo]; omega)
  simpa [Sys.enqueue, Sys.store, Sys.setHead, Sys.goto] using this

end

theorem free (h : Holds L s (p :: l)) : s.refcnt p = 0 := by
  by_contra hp
  exact h.not_mem_of_ref hp List.mem_cons_self

theorem kalloc (h : Holds L s (p :: l)) (hi : s.pos c = .idle) (hchain : Chain s.link (s.link p) l) :
    Holds L (((s.count p 1).setHead (s.link p)).goto c (.got p)) l := by
  have hz := h.free
  have := h.shift (p := p) (c := c) (x := .got p) (k := 1) (m := s.held p) hchain
    (fun q hq => (List.count_cons_of_ne hq.symm).symm) (fun q hq => by simp [hi, Pos.ref, Pos.limbo, hq.symm])
    (by simp [hi, hz, Pos.ref]; omega) (by simp [hi, hz, Pos.limbo])
  simpa [Sys.count, Sys.setHead, Sys.goto] using this

theorem got (h : Holds L s l) (hc : s.pos c = .got p) (v : Option Nat) :
    Holds L (((s.store p v).hold p (s.held p + 1)).goto c .idle) l := by
  have hl := h.not_mem_of_ref (Nat.ne_of_gt (h.ref_pos (c := c) (p := p) (by rw [hc]; rfl)))
  have := h.shift (p := p) (c := c) (x := .idle) (k := s.refcnt p) (m := s.held p + 1) (h.chain.update hl v)
    (fun _ _ => rfl) (fun q hq => by simp [hc, Pos.ref, Pos.limbo, hq.symm]) (by simp [hc, Pos.ref]; omega)
    (by simp [hc, Pos.limbo])
  simpa [Sys.store, Sys.hold, Sys.goto] using this

end Holds

def Inv (L : Layout) (s : Sys n) : Prop := ∃ l, Holds L s l

theorem Inv.run {v r} (h : Inv L s) (hs : s.run c v = some r) : ∃ t, r = .ok t ∧ Inv L t := by
  obtain ⟨l, h⟩ := h
  unfold Sys.run at hs
  cases hc : s.pos c with
  | idle => simp [hc] at hs
  | incr p =>
    have hpos := h.ref_pos (c := c) (p := p) (by rw [hc]; rfl)
    have hr := (h.inRange hpos).2
    simp only [hc] at hs
    rw [if_neg (by omega)] at hs
    split at hs
    · cases hs
      exact ⟨_, rfl, l, h.increse hc⟩
    · cases hs
  | dec p =>
    have hpos := h.ref_pos (c := c) (p := p) (by rw [hc]; rfl)
    simp only [hc, Option.some.injEq] at hs
    rw [Sys.unref, if_neg (by omega)] at hs
    exact ⟨_, hs.symm, l, h.unref hc⟩
  | fill p =>
    simp only [hc, Option.some.injEq] at hs
    exact ⟨_, hs.symm, l, h.fill hc v⟩
  | push p =>
    simp only [hc, Option.some.injEq] at hs
    exact ⟨_, hs.symm, p :: l, h.push hc⟩
  | got p =>
    simp only [hc, Option.some.injEq] at hs
    exact ⟨_, hs.symm, l, h.got hc v⟩

theorem Inv.step {e r} (h : Inv L s) (hs : step L s e = some r) : ∃ t, r = .ok t ∧
    Inv L t := by
  cases e with
  | kalloc c =>
    obtain ⟨l, h⟩ := h
    simp only [Kalloc.step] at hs
    split at hs
    · rename_i hi
      cases hs
      unfold Sys.kalloc
      split
      · exact ⟨_, rfl, l, h⟩
      · rename_i p hhead
        obtain ⟨l', rfl, hchain⟩ := (hhead ▸ h.chain).pop
        rw [if_neg (not_not.mpr h.free)]
        exact ⟨_, rfl, l', h.kalloc hi hchain⟩
    · cases hs
  | kfree c p =>
    obtain ⟨l, h⟩ := h
    simp only [Kalloc.step] at hs
    split at hs
    · rename_i hg
      have hr := h.inRange (h.held_pos hg.2)
      rw [if_neg (by have := hr.1; have := hr.2; omega)] at hs
      cases hs
      exact ⟨_, rfl, l, h.borrow hg.1 hg.2 (.inr rfl)⟩
    · cases hs
  | increse c p =>
    obtain ⟨l, h⟩ := h
    simp only [Kalloc.step] at hs
    split at hs
    · rename_i hg
      cases hs
      exact ⟨_, rfl, l, h.borrow hg.1 hg.2 (.inl rfl)⟩
    · cases hs
  | run c v => exact h.run hs
  | write p v =>
    obtain ⟨l, h⟩ := h
    simp only [Kalloc.step] at hs
    split at hs
    · rename_i hp
      cases hs
      exact ⟨_, rfl, l, h.store (h.not_mem_of_ref (Nat.ne_of_gt (h.held_pos hp))) v⟩
    · cases hs

structure Seeded (L : Layout) (s : Sys n) (p : Nat) (l : List Nat) : Prop where
  chain : Chain s.link s.head l
  count : ∀ q, l.count q = if L.kend ≤ q ∧ q < p then 1 else 0
  refcnt : ∀ q, s.refcnt q = 0
  pos : ∀ c, s.pos c = .idle
  held : ∀ q, s.held q = 0

theorem Seeded.seed (h : Seeded L s p l) (hp : L.kend ≤ p) : Seeded L (s.seed p) (p + 1) (p :: l) where
  __ := h
  chain := by
    refine h.chain.push fun hl => ?_
    have := List.count_pos_iff.mpr hl
    rw [h.count p, if_neg (by omega)] at this
    omega
  count q := by
    by_cases hqp : q = p
    · subst hqp
      rw [List.count_cons_self, h.count q, if_neg (by omega), if_pos (by omega)]
    · rw [List.count_cons_of_ne (Ne.symm hqp), h.count q]
      split
      · rw [if_pos (by omega)]
      · rw [if_neg (by omega)]
  refcnt q := by
    change update (update s.refcnt p 1) p _ q = 0
    by_cases hqp : q = p
    · simp [hqp, Sys.count]
    · simp [hqp, h.refcnt q]

theorem Seeded.freerange {k} (h : Seeded L s p l) (hp : L.kend ≤ p) : ∃ l', Seeded L (freerange s p k)
    (p + k) l' := by
  induction k generalizing s p l with
  | zero => exact ⟨l, h⟩
  | succ k ih =>
    obtain ⟨l', h'⟩ := ih (h.seed hp) (by omega)
    exact ⟨l', by rw [← Nat.add_right_comm, Nat.add_assoc p k 1] at h'; exact h'⟩

theorem Inv.kinit : Inv L (Kalloc.kinit L n) := by
  have h0 : Seeded L (⟨fun _ => 0, fun _ => none, none, fun _ => .idle, fun _ => 0⟩ : Sys n) L.kend [] :=
    ⟨rfl, fun q => by rw [List.count_nil, if_neg (by omega)], fun _ => rfl, fun _ => rfl, fun _ => rfl⟩
  obtain ⟨l, h⟩ := h0.freerange (k := physpages - L.kend) le_rfl
  change Seeded L (Kalloc.kinit L n) _ l at h
  have hidle : ∀ (f : Pos → Option Nat), f .idle = none → ∀ p, occ (f ∘ (Kalloc.kinit L n).pos) (some p) = 0 := by
    intro f hf p
    rw [occ_eq_zero]
    intro c hc
    simp [h.pos c, hf] at hc
  refine ⟨l, h.chain, fun p => ?_, fun p => ?_⟩
  · rw [Sys.outstanding, hidle Pos.ref rfl, h.held p]
    exact h.refcnt p
  · rw [Sys.places, hidle Pos.limbo rfl, if_pos (h.refcnt p), h.count p]
    have : (L.kend ≤ p ∧ p < L.kend + (physpages - L.kend)) ↔ InRange L p := by
      rw [InRange]
      omega
    simp [this]

theorem Inv.of_reaches (h : (Kalloc.step L).Reaches (Kalloc.kinit L n) s) : Inv L s :=
  h.inv (Inv L) .kinit fun u e v hu hs => by
    obtain ⟨t, ht, hinv⟩ := hu.step hs
    cases ht
    exact hinv

/-! ## 定理 -/

def Sys.Limbo (s : Sys n) (c : Fin n) (p : Nat) : Prop := (s.pos c).limbo = some p

theorem Holds.limbo_unique (h : Holds L s l) {d} (hc : s.Limbo c p) (hd : s.Limbo d p) : c = d := by
  by_contra hcd
  have hplace := h.places p
  have hle : occ (Pos.limbo ∘ s.pos) (some p) ≤ 1 := by
    have hone : (if InRange L p then 1 else 0) ≤ 1 := by split <;> omega
    rw [Sys.places] at hplace
    omega
  have htwo := occ_goto (f := Pos.limbo) s c .idle p
  have hrest : 0 < occ (Pos.limbo ∘ update s.pos c .idle) (some p) :=
    occ_pos.mpr ⟨d, by rw [Function.comp_apply, update_of_ne (Ne.symm hcd)]; exact hd⟩
  rw [if_pos (show (s.pos c).limbo = some p from hc), if_neg (by simp [Pos.limbo])] at htwo
  omega

/-- どのように割り込んでも、`refcnt` は参照の数に等しく、空きリストは参照のないページの重なりのない列である。`kalloc` は参照のあるページを返さず、どのパニックも起こらない。 -/
theorem allocator_interleaving (h : (step L).Reaches (kinit L n) s) :
    (∀ p, s.refcnt p = s.outstanding p) ∧
      (∃ l, Chain s.link s.head l ∧ l.Nodup ∧ (∀ p ∈ l, s.refcnt p = 0) ∧
        (∀ p, L.kend ≤ p → p < physpages → s.refcnt p = 0 → p ∉ l → ∃! c, s.Limbo c p) ∧
        ∀ c p, s.Limbo c p → s.refcnt p = 0 ∧ p ∉ l) ∧
      (∀ c t p, step L s (.kalloc c) = some (.ok t) → t.pos c = .got p → s.outstanding p = 0) ∧
      ∀ e msg, step L s e ≠ some (.error msg) := by
  have hinv := Inv.of_reaches h
  obtain ⟨l, hl⟩ := hinv
  refine ⟨hl.counts, ⟨l, hl.chain, ?_, fun p hp => ?_, fun p h1 h2 hz hp => ?_, fun c p hc => ?_⟩, fun c t p hs ht => ?_,
    fun e msg hs => ?_⟩
  · rw [List.nodup_iff_count_le_one]
    intro p
    have hplace := hl.places p
    have hone : (if InRange L p then 1 else 0) ≤ 1 := by split <;> omega
    rw [Sys.places] at hplace
    omega
  · by_contra hne
    exact hl.not_mem_of_ref hne hp
  · have hplace := hl.places p
    rw [Sys.places, if_pos hz, List.count_eq_zero.mpr hp, if_pos ⟨h1, h2⟩] at hplace
    obtain ⟨c, hc⟩ := occ_pos.mp (show 0 < occ (Pos.limbo ∘ s.pos) (some p) by omega)
    exact ⟨c, hc, fun d hd => hl.limbo_unique hd hc⟩
  · refine ⟨?_, hl.not_mem_of_limbo hc⟩
    have hplace := hl.places p
    have hocc : 0 < occ (Pos.limbo ∘ s.pos) (some p) := occ_pos.mpr ⟨c, hc⟩
    by_contra hne
    rw [Sys.places, if_neg hne] at hplace
    split at hplace <;> omega
  · simp only [step] at hs
    split at hs
    · rename_i hi
      unfold Sys.kalloc at hs
      split at hs
      · cases hs
        rw [hi] at ht
        cases ht
      rename_i q hhead
      obtain ⟨l', rfl, -⟩ := (hhead ▸ hl.chain).pop
      rw [if_neg (not_not.mpr hl.free)] at hs
      cases hs
      simp only [Sys.goto, update_self, Pos.got.injEq] at ht
      rw [← ht, ← hl.counts]
      exact hl.free
    · cases hs
  · obtain ⟨t, ht, -⟩ := Inv.step ⟨l, hl⟩ hs
    cases ht

def twoPages : Layout := ⟨physpages - 2, 0, by decide, by decide⟩

def handover : List (Ev 2) :=
  [.kalloc 0, .run 0 none, .increse 1 (physpages - 1), .run 1 none, .kfree 0 (physpages - 1), .kfree 1 (physpages - 1),
    .run 1 none, .run 0 none, .kalloc 1]

theorem allocator_interleaving_limbo :
    ∃ s : Sys 2, (step twoPages).Reaches (kinit twoPages 2) s ∧ s.Limbo 0 (physpages - 1) ∧
      s.pos 1 = .got (physpages - 2) ∧ s.refcnt (physpages - 1) = s.outstanding (physpages - 1) := by
  have hr : (step twoPages).Reaches (kinit twoPages 2) _ := Machine.reaches_final handover
  refine ⟨_, hr, ?_, ?_, (allocator_interleaving hr).1 _⟩
  · change ((((step twoPages).final (kinit twoPages 2) handover).pos 0).limbo) = some (physpages - 1)
    decide +kernel
  · decide +kernel

end Xv6.Kalloc
