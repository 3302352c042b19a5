import Xv6.Virtio.Disk

/-!
# 記述子の取得と解放
-/

namespace Xv6.Virtio

open List

open Function (update update_self update_of_ne update_apply)

variable {d d' : Disk} {i : Nat} {c : Chain}

theorem allocDesc_some (h : allocDesc d = some (i, d')) :
    i < num ∧ d.free i = true ∧ d' = { d with free := update d.free i false } := by
  unfold allocDesc at h
  cases hf : (List.range num).find? d.free with
  | none => simp [hf] at h
  | some j =>
    simp only [hf, Option.some.injEq, Prod.mk.injEq] at h
    obtain ⟨rfl, rfl⟩ := h
    exact ⟨mem_range.mp (mem_of_find?_eq_some hf), find?_some hf, rfl⟩

def Disk.release (d : Disk) (i : Nat) : Disk :=
  { d with desc := update d.desc i .zero, free := update d.free i true }

theorem freeDesc_of_used (hi : i < num) (hf : d.free i = false) : freeDesc d i = .ok (d.release i) := by
  simp [freeDesc, Disk.release, Nat.not_le.mpr hi, hf]

theorem release_of_ne {j} (h : i ≠ j) :
    (d.release j).free i = d.free i ∧ (d.release j).desc i = d.desc i :=
  ⟨update_of_ne h .., update_of_ne h ..⟩

/-- 空きの記述子の中身を除いて、`d'` は `d` と等しい。 -/
structure SameUsed (d d' : Disk) : Prop where
  free : d'.free = d.free
  desc : ∀ i, d.free i = false → d'.desc i = d.desc i
  avail : d'.avail = d.avail
  used : d'.used = d.used
  usedIdx : d'.usedIdx = d.usedIdx
  info : d'.info = d.info

structure Taken3 (d d' : Disk) (i0 i1 i2 : Nat) : Prop where
  lt : ∀ i ∈ [i0, i1, i2], i < num
  nodup : [i0, i1, i2].Nodup
  wasFree : ∀ i ∈ [i0, i1, i2], d.free i = true
  taken : ∀ i ∈ [i0, i1, i2], d'.free i = false
  other : ∀ i, i ∉ [i0, i1, i2] → d'.free i = d.free i
  rest : d' = { d with free := d'.free }

theorem free_of_update {f : Nat → Bool} {j k : Nat} (h : update f j false k = true) :
    k ≠ j ∧ f k = true := by
  by_cases hk : k = j
  · subst hk; simp at h
  · exact ⟨hk, by rwa [update_of_ne hk] at h⟩

/-- 三つ取れるか、途中まで取った分を返して一つも取らない。 -/
theorem alloc3Desc_spec (d : Disk) :
    (∃ d', alloc3Desc d = .ok (d', none) ∧ SameUsed d d') ∨
      ∃ d' i0 i1 i2, alloc3Desc d = .ok (d', some (i0, i1, i2)) ∧ Taken3 d d' i0 i1 i2 := by
  unfold alloc3Desc
  cases h0 : allocDesc d with
  | none => exact .inl ⟨d, rfl, rfl, fun _ _ => rfl, rfl, rfl, rfl, rfl⟩
  | some r0 =>
    obtain ⟨i0, d0⟩ := r0
    obtain ⟨hlt0, hf0, rfl⟩ := allocDesc_some h0
    simp only
    cases h1 : allocDesc { d with free := update d.free i0 false } with
    | none =>
      left
      rw [freeDesc_of_used hlt0 (by simp)]
      refine ⟨_, rfl, ?_, fun i hi => ?_, rfl, rfl, rfl, rfl⟩
      · simpa [Disk.release] using hf0.symm
      · have hne : i ≠ i0 := by rintro rfl; rw [hf0] at hi; cases hi
        exact update_of_ne hne ..
    | some r1 =>
      obtain ⟨i1, d1⟩ := r1
      obtain ⟨hlt1, hf1, rfl⟩ := allocDesc_some h1
      obtain ⟨hne1, hf1⟩ := free_of_update hf1
      simp only
      cases h2 : allocDesc { d with free := update (update d.free i0 false) i1 false } with
      | none =>
        left
        rw [freeDesc_of_used hlt0 (by simp [update_apply])]
        simp only [bind, Except.bind]
        rw [freeDesc_of_used hlt1 (by simp [release_of_ne hne1])]
        refine ⟨_, rfl, ?_, fun i hi => ?_, rfl, rfl, rfl, rfl⟩
        · funext k
          simp only [Disk.release, update_apply]
          split
          · rename_i hk; rw [hk, hf1]
          · split
            · rename_i hk; rw [hk, hf0]
            · rfl
        · have hne : i ≠ i0 := by rintro rfl; rw [hf0] at hi; cases hi
          have hne' : i ≠ i1 := by rintro rfl; rw [hf1] at hi; cases hi
          simp only [Disk.release, update_of_ne hne, update_of_ne hne']
      | some r2 =>
        obtain ⟨i2, d2⟩ := r2
        obtain ⟨hlt2, hf2, rfl⟩ := allocDesc_some h2
        obtain ⟨hne2, hf2⟩ := free_of_update hf2
        obtain ⟨hne2', hf2⟩ := free_of_update hf2
        right
        refine ⟨_, i0, i1, i2, rfl, ?_, ?_, ?_, ?_, ?_, rfl⟩
        · simp [hlt0, hlt1, hlt2]
        · simp [hne1.symm, hne2.symm, Ne.symm hne2']
        · simp [hf0, hf1, hf2]
        · simp [update_of_ne hne1.symm, update_of_ne hne2.symm,
            update_of_ne (Ne.symm hne2')]
        · intro i hi
          simp only [mem_cons, not_mem_nil, or_false, not_or] at hi
          simp [update_of_ne hi.1, update_of_ne hi.2.1, update_of_ne hi.2.2]

/-- 要求 `c` の三つの記述子が、取られて正しくつながっている。 -/
structure Linked (d : Disk) (c : Chain) : Prop where
  lt : ∀ i ∈ c.descs, i < num
  nodup : c.descs.Nodup
  used : ∀ i ∈ c.descs, d.free i = false
  head : (d.desc c.i0).flags &&& vringDescFNext ≠ 0 ∧ (d.desc c.i0).next = c.i1
  data : (d.desc c.i1).flags &&& vringDescFNext ≠ 0 ∧ (d.desc c.i1).next = c.i2 ∧
    (d.desc c.i1).addr = .data c.b
  tail : (d.desc c.i2).flags &&& vringDescFNext = 0 ∧ (d.desc c.i2).addr = .status c.i0
  buf : (d.info c.i0).b = some c.b

theorem Linked.frame (h : Linked d c) (hdesc : ∀ i ∈ c.descs, d'.desc i = d.desc i)
    (hfree : ∀ i ∈ c.descs, d'.free i = d.free i) (hinfo : (d'.info c.i0).b = (d.info c.i0).b) :
    Linked d' c := by
  have h0 := hdesc c.i0 (by simp [Chain.descs])
  have h1 := hdesc c.i1 (by simp [Chain.descs])
  have h2 := hdesc c.i2 (by simp [Chain.descs])
  refine ⟨h.lt, h.nodup, fun i hi => (hfree i hi).trans (h.used i hi), ?_, ?_, ?_, hinfo.trans h.buf⟩
  · rw [h0]; exact h.head
  · rw [h1]; exact h.data
  · rw [h2]; exact h.tail

theorem Linked.statusAddr (h : Linked d c) : d.statusAddr c.i0 = .status c.i0 := by
  rw [Disk.statusAddr, h.head.2, h.data.2.1, h.tail.2]

theorem Linked.ne (h : Linked d c) : c.i0 ≠ c.i1 ∧ c.i0 ≠ c.i2 ∧ c.i1 ≠ c.i2 := by
  have hn := h.nodup
  simp [Chain.descs] at hn
  exact ⟨hn.1.1, hn.1.2, hn.2⟩

theorem format_linked (hlt : ∀ i ∈ c.descs, i < num) (hnodup : c.descs.Nodup)
    (hused : ∀ i ∈ c.descs, d.free i = false) (blockno : Nat) (write : Bool) :
    Linked (format d c blockno write) c := by
  have hn := hnodup
  simp only [Chain.descs, nodup_cons, mem_cons, not_mem_nil, or_false, not_or,
    not_false_eq_true, nodup_nil, and_true] at hn
  obtain ⟨⟨h01, h02⟩, h12⟩ := hn
  refine ⟨hlt, hnodup, hused, ?_, ?_, ?_, ?_⟩
  · simp [format, update_of_ne h01, update_of_ne h02, vringDescFNext]
  · cases write <;> simp [format, update_of_ne h12, vringDescFNext, vringDescFWrite]
  · simp [format, vringDescFNext, vringDescFWrite]
  · simp [format]

theorem format_desc_ne (hi : i ∉ c.descs) (blockno : Nat) (write : Bool) :
    (format d c blockno write).desc i = d.desc i := by
  simp only [Chain.descs, mem_cons, not_mem_nil, or_false, not_or] at hi
  simp [format, update_of_ne hi.1, update_of_ne hi.2.1, update_of_ne hi.2.2]

/-- 連鎖の記述子だけを返し、二つの輪には触れない。 -/
theorem freeChain_spec (h : Linked d c) :
    ∃ d', freeChain (d.setB c.i0 none) c.i0 = .ok d' ∧
      (∀ i, i ∉ c.descs → d'.free i = d.free i ∧ d'.desc i = d.desc i) ∧
      d'.avail = d.avail ∧ d'.used = d.used ∧ d'.usedIdx = d.usedIdx ∧
      d'.info = (d.setB c.i0 none).info := by
  obtain ⟨h01, h02, h12⟩ := h.ne
  have l0 := h.lt c.i0 (by simp [Chain.descs])
  have l1 := h.lt c.i1 (by simp [Chain.descs])
  have l2 := h.lt c.i2 (by simp [Chain.descs])
  have u0 := h.used c.i0 (by simp [Chain.descs])
  have u1 := h.used c.i1 (by simp [Chain.descs])
  have u2 := h.used c.i2 (by simp [Chain.descs])
  have hrun : freeChain (d.setB c.i0 none) c.i0 =
      .ok ((((d.setB c.i0 none).release c.i0).release c.i1).release c.i2) := by
    have d1 : ((d.setB c.i0 none).release c.i0).desc c.i1 = d.desc c.i1 := (release_of_ne h01.symm).2
    have d2 : (((d.setB c.i0 none).release c.i0).release c.i1).desc c.i2 = d.desc c.i2 :=
      (release_of_ne h12.symm).2.trans (release_of_ne h02.symm).2
    have d0 : (d.setB c.i0 none).desc c.i0 = d.desc c.i0 := rfl
    have f0 : (d.setB c.i0 none).free c.i0 = false := u0
    have f1 : ((d.setB c.i0 none).release c.i0).free c.i1 = false := (release_of_ne h01.symm).1.trans u1
    have f2 : (((d.setB c.i0 none).release c.i0).release c.i1).free c.i2 = false :=
      (release_of_ne h12.symm).1.trans ((release_of_ne h02.symm).1.trans u2)
    unfold freeChain num
    rw [freeChainLoop, freeDesc_of_used l0 f0]
    simp only [d0, if_pos h.head.1, h.head.2]
    rw [freeChainLoop, freeDesc_of_used l1 f1]
    simp only [d1, if_pos h.data.1, h.data.2.1]
    rw [freeChainLoop, freeDesc_of_used l2 f2]
    simp only [d2, h.tail.1, ne_eq, not_true_eq_false, if_false]
  refine ⟨_, hrun, fun i hi => ?_, rfl, rfl, rfl, rfl⟩
  simp only [Chain.descs, mem_cons, not_mem_nil, or_false, not_or] at hi
  simp only [release_of_ne hi.1, release_of_ne hi.2.1, release_of_ne hi.2.2]
  exact ⟨rfl, rfl⟩

end Xv6.Virtio
