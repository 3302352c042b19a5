import Xv6.Umalloc.Lemmas.Malloc

/-!
# ヒープの不変条件
-/

namespace Xv6.Umalloc

open Xv6.Lib List

variable {base : Nat} {h h' : Heap} {L W : List Nat} {b n N k : Nat} {os : Nat → Option Nat}

theorem free_mono {ap k k'} (hk : free h ap k = some h') (hle : k ≤ k') : free h ap k' = some h' := by
  simp only [free] at *
  cases hs : searchFree h (ap - hdr) h.freep k with
  | none => simp [hs] at hk
  | some p =>
    rw [searchFree_mono hs hle]
    simpa [hs] using hk

theorem morecore_mono {r N'} (hN : morecore h n os N = some r) (hle : N ≤ N') :
    morecore h n os N' = some r := by
  unfold morecore at *
  cases hs : sbrk h os (coreUnits n) with
  | none => simpa [hs] using hN
  | some x =>
    simp only [hs] at hN ⊢
    cases hf : free (x.2.setSize x.1 (coreUnits n)) (x.1 + hdr) N with
    | none => simp [hf] at hN
    | some h2 =>
      rw [free_mono hf hle]
      simpa [hf] using hN

theorem mallocLoop_mono {pv p M j r} (hk : mallocLoop n os N h pv p k = some r) (hN : N ≤ M)
    (hle : k ≤ j) : mallocLoop n os M h pv p j = some r := by
  induction k generalizing h pv p j with
  | zero => cases hk
  | succ k ih =>
    obtain ⟨j, rfl⟩ : ∃ i, j = i + 1 := ⟨j - 1, by omega⟩
    simp only [mallocLoop] at hk ⊢
    split
    · rename_i hfit
      rwa [if_pos hfit] at hk
    rename_i hfit
    rw [if_neg hfit] at hk
    split
    · rename_i hp
      rw [if_pos hp] at hk
      cases hm : morecore h n os N with
      | none => simp [hm] at hk
      | some x =>
        rw [morecore_mono hm hN]
        obtain ⟨_ | q, h2⟩ := x
        · simpa [hm] using hk
        · simp only [hm] at hk
          exact ih hk (by omega)
    · rename_i hp
      rw [if_neg hp] at hk
      exact ih hk (by omega)

theorem free_chunks {ap} (hk : free h ap k = some h') : h'.chunks = h.chunks := by
  unfold free at hk
  cases hs : searchFree h (ap - hdr) h.freep k with
  | none => simp [hs] at hk
  | some p =>
    simp only [hs, Option.some.injEq] at hk
    subst hk
    unfold Heap.joinPrev Heap.joinNext
    split <;> split <;> rfl

theorem morecore_units {r} (hN : morecore h n os N = some r) :
    r.2.units = if os h.top = none then h.units else h.units + coreUnits n := by
  unfold morecore at hN
  cases hg : os h.top with
  | none =>
    simp only [sbrk, hg, Option.map_none, Option.some.injEq] at hN
    subst hN
    simp
  | some g =>
    simp only [sbrk, hg, Option.map_some] at hN
    split at hN
    · cases hN
    · rename_i h2 hf
      cases hN
      rw [Heap.units, free_chunks hf]
      simp [Heap.setSize, Heap.units, Nat.add_comm]

theorem take_chunks {pv x} : (h.take pv x n).2.chunks = h.chunks := by
  unfold Heap.take
  split <;> rfl

theorem mallocLoop_units {pv p r} (hk : mallocLoop n os N h pv p k = some r) :
    h.units ≤ r.2.units := by
  induction k generalizing h pv p with
  | zero => cases hk
  | succ k ih =>
    simp only [mallocLoop] at hk
    split at hk
    · cases hk
      change h.units ≤ (h.take pv p n).2.units
      rw [Heap.units, Heap.units, take_chunks]
    split at hk
    · split at hk
      · cases hk
      · rename_i h2 hm
        cases hk
        have := morecore_units hm
        split at this <;> omega
      · rename_i q h2 hm
        have h1 : h2.units = _ := morecore_units hm
        have := ih hk
        split at h1 <;> omega
    · exact ih hk

theorem refill_units {g r} (hg : os h.top = some g) (hk : refill n os N h k = some r) :
    h.units + coreUnits n ≤ r.2.units := by
  unfold refill at hk
  split at hk
  · cases hk
  · rename_i h2 hm
    cases hk
    have := morecore_units hm
    rw [hg] at this
    exact Nat.le_of_eq (by simpa using this.symm)
  rename_i q h2 hm
  have h1 := morecore_units hm
  have h2 := mallocLoop_units hk
  rw [hg] at h1
  simp only [reduceCtorEq, if_false] at h1
  omega

/-- `malloc` の終わり方。`0` を返すか、大きさ `n` のブロック `b` が使用中になる。 -/
inductive Allocated (base n : Nat) (h : Heap) : Option Nat × Heap → Prop
  | failed : Allocated base n h (none, h)
  | block {b : Nat} {h' : Heap} {L : List Nat} (holds : Holds base h' L (b :: h.live)) (live : h'.live = b :: h.live)
      (size : h'.size b = n) : Allocated base n h (some (b + hdr), h')

theorem mallocLoop_spec (os : Nat → Option Nat) (t : Holds base h L h.live) (hn : 0 < n)
    (hcap : (∀ x ∈ L, h.size x < n) → os h.top ≠ none → h.units + coreUnits n < 2 ^ 32) :
    ∃ K r, (∀ N k, K ≤ N → K ≤ k → mallocLoop n os N h h.freep (h.ptr h.freep) k = some r) ∧ Allocated base n h r ∧
      ∀ a ∈ h.live, r.2.size a = h.size a := by
  obtain ⟨pv, x, hpv, hx, hxL, hfit, hrun⟩ | ⟨hsmall, hrun⟩ := mallocLoop_round n os t
  · obtain ⟨b, L', hb, t', hlive, -, hsize, hkeep⟩ := take_spec t hpv hx hxL hn hfit
    refine ⟨L.length, _, fun N k _ hk => hrun N k hk, ?_, hkeep⟩
    change Allocated base n h (some (h.take pv x n).1, (h.take pv x n).2)
    rw [hb]
    exact .block t' hlive hsize
  cases hg : os h.top with
  | none =>
    refine ⟨L.length, (none, h), fun N k _ hk => ?_, .failed, fun _ _ => rfl⟩
    obtain ⟨k, rfl⟩ : ∃ j, k = j + L.length := ⟨k - L.length, by omega⟩
    rw [hrun, refill, morecore, sbrk, hg]
    rfl
  | some g =>
    obtain ⟨b, h', L', K, hrefill, t', hlive, hsize, hkeep⟩ := refill_spec t hg hn (hcap hsmall (by simp [hg]))
    refine ⟨K + L.length, _, fun N k hN hk => ?_, .block t' hlive hsize, hkeep⟩
    obtain ⟨k, rfl⟩ : ∃ j, k = j + L.length := ⟨k - L.length, by omega⟩
    rw [hrun]
    exact hrefill N k (by omega) (by omega)

theorem mallocLoop_result {r} (t : Holds base h L h.live) (hn : 0 < n)
    (hk : mallocLoop n os N h h.freep (h.ptr h.freep) k = some r) (hu : r.2.units < 2 ^ 32) : Allocated base n h r := by
  have hcap : (∀ x ∈ L, h.size x < n) → os h.top ≠ none → h.units + coreUnits n < 2 ^ 32 := by
    intro hsmall hg
    obtain ⟨g, hg⟩ := Option.ne_none_iff_exists'.mp hg
    obtain ⟨pv, x, -, -, hxL, hfit, -⟩ | ⟨-, hrun⟩ := mallocLoop_round n os t
    · exact absurd (hsmall x hxL) (by omega)
    · have := mallocLoop_mono (M := N) (j := k + L.length) hk le_rfl (by omega)
      rw [hrun] at this
      exact Nat.lt_of_le_of_lt (refill_units hg this) hu
  obtain ⟨K, r', hrun, hres, -⟩ := mallocLoop_spec os t hn hcap
  have := mallocLoop_mono (M := max N K) (j := max k K) hk (by omega) (by omega)
  rw [hrun _ _ (by omega) (by omega)] at this
  cases this
  exact hres

theorem nunits_pos (hn : n < 2 ^ 32) : 0 < nunits n := by
  simp only [nunits, hdr]
  omega

theorem le_nunits (hn : n < 2 ^ 32) : n + hdr ≤ hdr * nunits n := by
  simp only [nunits, hdr]
  omega

/-! ## 不変条件 -/

structure Fresh (base : Nat) (h : Heap) : Prop where
  freep : h.freep = 0
  chunks : h.chunks = []
  live : h.live = []
  top : base + hdr ≤ h.top

def Inv (base : Nat) (h : Heap) : Prop := Fresh base h ∨ ∃ L, Holds base h L h.live

theorem Holds.freep_ne (hb : 0 < base) (t : Holds base h L W) : h.freep ≠ 0 := by
  have := t.toTiled.base_le t.freep
  omega

theorem Inv.prepare (hb : 0 < base) (hinv : Inv base h) :
    ∃ L, Holds base (h.prepare base) L (h.prepare base).live ∧ (h.prepare base).live = h.live ∧
      (h.prepare base).units = h.units ∧ (h.prepare base).top = h.top := by
  obtain hf | ⟨L, t⟩ := hinv
  · rw [Heap.prepare, if_pos hf.freep]
    have hzero : (((h.setPtr base base).setFreep base).setSize base 0).size base = 0 := update_self ..
    refine ⟨[base], ⟨⟨rfl, hzero, pairwise_singleton _ _, ?_, ?_, ?_, ?_, ?_, ?_, hf.top, ?_⟩, ?_, ?_⟩, rfl, rfl, rfl⟩
    · intro b hb' hne
      exact absurd (mem_singleton.mp hb') hne
    · intro b hb'
      change b ∈ h.live at hb'
      rw [hf.live] at hb'
      cases hb'
    · intro f hadd
      change total f _ [base] + total f _ h.live = chunkTotal f h.chunks
      rw [hf.live, hf.chunks, total_cons, hzero, hadd.zero]
      rfl
    · change h.chunks.Pairwise _
      rw [hf.chunks]
      exact List.Pairwise.nil
    · change ∀ c ∈ h.chunks, _
      simp [hf.chunks]
    · change ∀ c ∈ h.chunks, _
      simp [hf.chunks]
    · change (h.chunks.map Prod.snd).sum < _
      simp [hf.chunks]
    · exact ⟨update_self .., trivial⟩
    · exact mem_singleton_self _
  · rw [Heap.prepare, if_neg (t.freep_ne hb)]
    exact ⟨L, t, rfl, rfl, rfl⟩

/-- 空きリストに、大きさ `n` 以上のブロックがある。 -/
def Heap.Serves (h : Heap) (n : Nat) : Prop := h.freep ≠ 0 ∧ ∃ j, n ≤ h.size (h.ptr^[j] h.freep)

theorem Holds.iterate_mem (t : Holds base h L W) (j : Nat) : h.ptr^[j] h.freep ∈ L := by
  induction j with
  | zero => exact t.freep
  | succ j ih =>
    rw [Function.iterate_succ_apply']
    exact (t.path.apply_mem ih).elim id fun he => he ▸ mem_of_mem_head? t.head

theorem prepare_serves (hn : 0 < n) : (h.prepare base).Serves n ↔ h.Serves n := by
  by_cases h0 : h.freep = 0
  · refine iff_of_false ?_ fun hs => hs.1 h0
    rintro ⟨-, j, hle⟩
    simp only [Heap.prepare, if_pos h0] at hle
    have hfix : (((h.setPtr base base).setFreep base).setSize base 0).ptr base = base := update_self ..
    change n ≤ (((h.setPtr base base).setFreep base).setSize base 0).size (_^[j] base) at hle
    rw [Function.iterate_fixed hfix j] at hle
    have hzero : (((h.setPtr base base).setFreep base).setSize base 0).size base = 0 := update_self ..
    omega
  · rw [Heap.prepare, if_neg h0]

theorem Holds.write {f g} (t : Holds base h L h.live) (hb : b ∈ h.live) :
    Holds base (h.write b f g) L (h.write b f g).live := by
  have hout : ∀ a, a ∈ L ∨ a ∈ h.live → ¬(b < a ∧ a < b + hdr * h.size b) := by
    rintro a (ha | ha) ⟨h1, h2⟩
    · have := t.toTiled.disjoint ha hb
      omega
    have hne : a ≠ b := Nat.ne_of_gt h1
    have hpa := t.posW a ha
    have hself : inside a a (h.size a) = 1 := if_pos ⟨le_rfl, by simp only [hdr]; omega⟩
    have hbin : inside a b (h.size b) = 1 := if_pos ⟨Nat.le_of_lt h1, h2⟩
    have e1 := total_erase (f := inside a) (g := h.size) hb
    have e2 := le_total (f := inside a) (g := h.size) ((mem_erase_of_ne hne).mpr ha)
    have := t.toTiled.cover_le a
    omega
  have hsize : ∀ a, a ∈ L ∨ a ∈ h.live → (h.write b f g).size a = h.size a := by
    intro a ha
    simp [Heap.write, hout a ha]
  have hptr : ∀ a, a ∈ L ∨ a ∈ h.live → (h.write b f g).ptr a = h.ptr a := by
    intro a ha
    simp [Heap.write, hout a ha]
  refine ⟨t.toTiled.retile rfl rfl t.head ?_ ?_ ?_ ?_ ?_, t.path.congr fun a ha => hptr a (.inl ha), t.freep⟩
  · rw [hsize base (.inl (mem_of_mem_head? t.head))]
    exact t.zero
  · refine t.spaced.imp_of_mem fun {a c} ha _ hac => ?_
    rw [hsize a (.inl ha)]
    exact hac
  · intro a ha hne
    rw [hsize a (.inl ha)]
    exact t.pos a ha hne
  · intro a ha
    rw [hsize a (.inr ha)]
    exact t.posW a ha
  · intro f' _
    change _ + total f' (h.write b f g).size h.live = _
    rw [total_congr fun a ha => hsize a (.inl ha), total_congr fun a ha => hsize a (.inr ha)]

theorem Holds.free (t : Holds base h L h.live) (hb : b ∈ h.live) :
    ∃ h' L', (∀ k, 2 * L.length ≤ k → Umalloc.free h (b + hdr) k = some h') ∧ Holds base h' L' (h.live.erase b) ∧
      h'.live = h.live := by
  have t' : Holds base h L (b :: h.live.erase b) := ⟨t.toTiled.perm (perm_cons_erase hb), t.path, t.freep⟩
  obtain ⟨h', L', hrun, t'', hlive, -⟩ := free_spec t'
  exact ⟨h', L', hrun, t'', hlive⟩

theorem prepare_units (base : Nat) : (h.prepare base).units = h.units := by
  unfold Heap.prepare
  split <;> rfl

theorem step_units {e} (hs : step base h e = some (.ok h')) : h.units ≤ h'.units := by
  cases e with
  | malloc nbytes os fuel =>
    simp only [step] at hs
    split at hs
    · obtain ⟨r, hr, he⟩ := Option.map_eq_some_iff.mp hs
      cases he
      exact prepare_units base ▸ mallocLoop_units hr
    · cases hs
  | free b fuel =>
    simp only [step] at hs
    split at hs
    · obtain ⟨h2, hr, he⟩ := Option.map_eq_some_iff.mp hs
      cases he
      rw [Heap.units, Heap.units, free_chunks hr]
    · cases hs
  | write b f g =>
    simp only [step] at hs
    split at hs
    · cases hs
      exact le_rfl
    · cases hs

theorem Inv.step {e x} (hbase : 0 < base) (hinv : Inv base h) (hs : Umalloc.step base h e = some x) :
    ∃ h', x = .ok h' ∧ (h'.units < 2 ^ 32 → Inv base h') := by
  cases e with
  | malloc nbytes os fuel =>
    simp only [Umalloc.step] at hs
    split at hs
    · rename_i hfair
      obtain ⟨r, hr, rfl⟩ := Option.map_eq_some_iff.mp hs
      obtain ⟨L, t, -, -, -⟩ := hinv.prepare hbase
      have hr' : mallocLoop (nunits nbytes) os fuel (h.prepare base) (h.prepare base).freep
          ((h.prepare base).ptr (h.prepare base).freep) fuel = some r := hr
      refine ⟨r.2, rfl, fun hu => ?_⟩
      cases mallocLoop_result t (nunits_pos hfair.1) hr' hu with
      | failed => exact .inr ⟨L, t⟩
      | block t' hl _ => exact .inr ⟨_, by rw [hl]; exact t'⟩
    · cases hs
  | free b fuel =>
    simp only [Umalloc.step] at hs
    split at hs
    · rename_i hb
      obtain ⟨h', hr, rfl⟩ := Option.map_eq_some_iff.mp hs
      refine ⟨_, rfl, fun _ => ?_⟩
      obtain hf | ⟨L, t⟩ := hinv
      · rw [hf.live] at hb
        cases hb
      obtain ⟨h2, L', hrun, t', hlive⟩ := t.free hb
      have := free_mono hr (Nat.le_max_left fuel (2 * L.length))
      rw [hrun _ (Nat.le_max_right _ _)] at this
      cases this
      rw [hlive]
      exact .inr ⟨L', { t' with }⟩
    · cases hs
  | write b f g =>
    simp only [Umalloc.step] at hs
    split at hs
    · rename_i hb
      cases hs
      refine ⟨_, rfl, fun _ => ?_⟩
      obtain hf | ⟨L, t⟩ := hinv
      · rw [hf.live] at hb
        cases hb
      · exact .inr ⟨L, t.write hb⟩
    · cases hs

theorem Inv.of_reaches (x : Boot) (hr : (Umalloc.step x.base).Reaches x.heap h) (hu : h.units < 2 ^ 32) : Inv x.base h := by
  have hinv : ∀ s, (Umalloc.step x.base).Reaches x.heap s → s.units < 2 ^ 32 → Inv x.base s := by
    intro s hs
    refine hs.inv (fun s => s.units < 2 ^ 32 → Inv x.base s) (fun _ => .inl ⟨rfl, rfl, rfl, x.inside⟩) ?_
    intro u e v hu hstep hv
    by_cases hlt : u.units < 2 ^ 32
    · obtain ⟨v', hv', hkeep⟩ := (hu hlt).step x.pos hstep
      cases hv'
      exact hkeep hv
    · exact absurd (step_units hstep) (by omega)
  exact hinv h hr hu

/-! ## 定理 -/

def Heap.contains (h : Heap) (y b : Nat) : Bool := b ≤ y && y < b + hdr * h.size b

def Heap.Obtained (h : Heap) (y : Nat) : Prop := ∃ c ∈ h.chunks, c.1 ≤ y ∧ y < c.1 + hdr * c.2

instance {y : Nat} : Decidable (h.Obtained y) := inferInstanceAs (Decidable (∃ c ∈ h.chunks, _))

/-- 空きリスト `bs` は、`base` から番地の順に並ぶ輪で、続いた二つのブロックを持たない。空きブロックと使用中のブロックは、
得た領域のどの番地もちょうど一つだけが含む。 -/
structure Consistent (base : Nat) (h : Heap) (bs : List Nat) : Prop where
  ring : Path h.ptr base (base :: bs)
  sorted : (base :: bs).Pairwise (· < ·)
  freep : h.freep ∈ base :: bs
  apart : ∀ a ∈ bs, ∀ b ∈ bs, a + hdr * h.size a ≠ b
  cover : ∀ y, (bs ++ h.live).countP (h.contains y) = if h.Obtained y then 1 else 0

theorem total_inside {y l} : total (inside y) h.size l = l.countP (h.contains y) := by
  induction l with
  | nil => rfl
  | cons b l ih =>
    rw [total_cons, ih, countP_cons, Nat.add_comm]
    simp [inside, Heap.contains]

theorem Holds.consistent (t : Holds base h L h.live) : ∃ bs, Consistent base h bs := by
  obtain ⟨bs, rfl⟩ : ∃ bs, L = base :: bs := by
    cases L with
    | nil => exact absurd t.head (by simp)
    | cons a bs =>
      cases t.head
      exact ⟨bs, rfl⟩
  refine ⟨bs, t.path, t.toTiled.lt_of_spaced, t.freep, fun a ha b hb he => ?_, fun y => ?_⟩
  · have hpos := t.pos a (mem_cons_of_mem _ ha) (Nat.ne_of_gt ((pairwise_cons.mp t.toTiled.lt_of_spaced).1 a ha))
    obtain ⟨A, C, rfl⟩ := append_of_mem ha
    obtain ⟨-, hC, hA⟩ := pairwise_append.mp (pairwise_cons.mp t.spaced).2
    obtain hb | hb := mem_append.mp hb
    · have := hA b hb a mem_cons_self
      omega
    · obtain rfl | hb := mem_cons.mp hb
      · simp only [hdr] at he
        omega
      · have := (pairwise_cons.mp hC).1 b hb
        omega
  · have htiles := t.tiles _ (additive_inside y)
    rw [total_cons, t.zero, (additive_inside y).zero, Nat.zero_add, chunkTotal_inside t.apart, total_inside,
        total_inside] at htiles
    rw [countP_append, htiles]
    rfl

/-- 得た領域がヘッダ 2 の 32 乗個に満たなければ、空きブロックと使用中のブロックが得た領域をちょうど分ける。`free` と `malloc` のループは終わり、`malloc` の返す番地
は、要求した大きさの新しいブロックである。 -/
theorem heap_consistent (x : Boot) (hr : (step x.base).Reaches x.heap h) (hu : h.units < 2 ^ 32) :
    (Fresh x.base h ∨ ∃ bs, Consistent x.base h bs) ∧
      (∀ b ∈ h.live, ∃ K h', ∀ k, K ≤ k → free h (b + hdr) k = some h') ∧
      ∀ n os, Fair n → (h.Serves (nunits n) ∨ os h.top = none ∨ h.units + coreUnits (nunits n) < 2 ^ 32) →
        ∃ K r h', (∀ k, K ≤ k → malloc x.base h n os k = some (r, h')) ∧
          ∀ q, r = some q → ∃ b ∈ h'.live, b ∉ h.live ∧ q = b + hdr ∧ n + hdr ≤ hdr * h'.size b := by
  have hinv := Inv.of_reaches x hr hu
  refine ⟨?_, fun b hb => ?_, fun n os hn hcap => ?_⟩
  · exact hinv.imp_right fun ⟨L, t⟩ => t.consistent
  · obtain hf | ⟨L, t⟩ := hinv
    · rw [hf.live] at hb
      cases hb
    · obtain ⟨h', L', hrun, -⟩ := t.free hb
      exact ⟨_, h', hrun⟩
  obtain ⟨L, t, hlive, hunits, htop⟩ := hinv.prepare x.pos
  have hpos := nunits_pos hn.1
  obtain ⟨K, r, hrun, hres, -⟩ := mallocLoop_spec os t hpos fun hsmall hos => by
    rw [hunits]
    obtain hserve | hcap := hcap
    · obtain ⟨-, j, hle⟩ := (prepare_serves hpos).mpr hserve
      exact absurd (hsmall _ (t.iterate_mem j)) (Nat.not_lt.mpr hle)
    · exact hcap.resolve_left (htop ▸ hos)
  refine ⟨K, r.1, r.2, fun k hk => hrun k k hk hk, fun q hq => ?_⟩
  cases hres with
  | failed => cases hq
  | block t' hl hsize =>
    rename_i b h' L'
    cases hq
    refine ⟨b, ?_, fun hb => ?_, rfl, ?_⟩
    · change b ∈ h'.live
      rw [hl]
      exact mem_cons_self
    · exact (nodup_cons.mp t'.toTiled.nodup).1 (hlive ▸ hb)
    · change n + hdr ≤ hdr * h'.size b
      rw [hsize]
      exact le_nunits hn.1

def lowBoot : Boot := ⟨16, fun _ => 0, fun _ => 0, 32, by decide, by decide⟩

def outOfOrder : List Ev :=
  [.malloc 100 (fun _ => some 0) 8, .malloc 2000 (fun _ => some 0) 8, .malloc 70000 (fun _ => some 64) 8,
    .free (32 + 16 * (4096 - 8 - 126)) 8, .free (32 + 16 * (4096 - 8)) 8]

theorem heap_consistent_outOfOrder :
    ∃ h bs, (step lowBoot.base).Reaches lowBoot.heap h ∧ h.units < 2 ^ 32 ∧ Consistent lowBoot.base h bs ∧
        h.live.length = 1 := by
  have hr : (step lowBoot.base).Reaches lowBoot.heap _ := Machine.reaches_final outOfOrder
  have hu : ((step lowBoot.base).final lowBoot.heap outOfOrder).units < 2 ^ 32 := by decide +kernel
  have hlive : ((step lowBoot.base).final lowBoot.heap outOfOrder).live.length = 1 := by decide +kernel
  obtain hf | ⟨bs, hbs⟩ := (heap_consistent lowBoot hr hu).1
  · rw [hf.live] at hlive
    cases hlive
  · exact ⟨_, bs, hr, hu, hbs, hlive⟩

def bigBlock (i : Nat) : Nat := 32 + hdr * (2 ^ 27 - 1) * i

/-- 約 2 GiB のブロックを 33 個取り、番地の順に手放す。 -/
def fillAndDrain : List Ev :=
  (List.range 33).map (fun _ => .malloc (2 ^ 31 - 2 * hdr) (fun _ => some 0) 8) ++
    (List.range 33).map fun i => .free (bigBlock i) 8

/-- すべてを手放すと、空きブロックの大きさが `uint` からあふれ、得た領域の終わりがどのブロックにも入らない。 -/
theorem drained_not_consistent :
    ∃ h, (step lowBoot.base).Reaches lowBoot.heap h ∧ h.live = [] ∧ ¬(Fresh lowBoot.base h ∨ ∃ bs,
        Consistent lowBoot.base h bs) := by
  refine ⟨_, Machine.reaches_final fillAndDrain, by decide +kernel, ?_⟩
  generalize hd : (step lowBoot.base).final lowBoot.heap fillAndDrain = d
  have hlive : d.live = [] := by rw [← hd]; decide +kernel
  have hptr : d.ptr 16 = 32 ∧ d.ptr 32 = 16 := by rw [← hd]; decide +kernel
  have hsize : d.size 32 = 2 ^ 27 - 33 := by rw [← hd]; decide +kernel
  have hfreep : d.freep ≠ 0 := by rw [← hd]; decide +kernel
  have hlast : d.Obtained (bigBlock 33 - 1) := by rw [← hd]; decide +kernel
  rintro (hf | ⟨bs, hbs⟩)
  · exact hfreep hf.freep
  -- 輪は `base` と一つの空きブロックからなる。
  · obtain ⟨h0, hring⟩ := hbs.ring
    have hsorted := hbs.sorted
    have hcover := hbs.cover (bigBlock 33 - 1)
    rw [if_pos hlast, hlive, append_nil] at hcover
    change d.ptr 16 = bs.headD 16 at h0
    rw [hptr.1] at h0
    cases bs with
    | nil => exact absurd h0 (by decide)
    | cons a bs =>
      obtain rfl : a = 32 := h0.symm
      have h1 : d.ptr 32 = bs.headD 16 := hring.1
      rw [hptr.2] at h1
      cases bs with
      | nil =>
        have hout : d.contains (bigBlock 33 - 1) 32 = false := by
          rw [Heap.contains, hsize]
          decide +kernel
        rw [countP_cons_of_neg (by rw [hout]; exact Bool.false_ne_true)] at hcover
        cases hcover
      | cons b bs =>
        obtain rfl : b = 16 := h1.symm
        exact absurd ((pairwise_cons.mp (pairwise_cons.mp hsorted).2).1 16 mem_cons_self) (by decide)

end Xv6.Umalloc
