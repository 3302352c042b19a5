import Xv6.Itable.Table
import Xv6.Lib.Owner

/-!
# 表の不変条件
-/

namespace Xv6.Itable

open Xv6.Lib List

section

variable (entry : EntryId → Entry) (disk : Key → Dinode) (pos : Nat → Pos) (refs : List EntryId) (dying : EntryId →
    Option Nat)

/-- 居場所ごとの条件。消し始めた `iput` は、印を付けるまでただ一つの参照を持つ。 -/
def Placed (p : Nat) : Pos → Prop
  | .idle => True
  | .alloc k => (disk k).type ≠ 0 ∧ (disk k).nlink = 0 ∧
      ∀ e, (entry e).key = k → e ∉ refs ∧ (0 < (entry e).ref → (entry e).valid = true → (entry e).d.nlink = 0) ∧
        ∀ q, pos q ≠ .trunc e ∧ pos q ≠ .mark e
  | .await e => e ∈ refs
  | .load e => (entry e).lock = some p ∧ e ∈ refs
  | .trunc e | .mark e => (entry e).lock = some p ∧ (entry e).valid = true ∧ (entry e).d.nlink = 0 ∧ e ∉ refs ∧
      (disk (entry e).key).type ≠ 0
  | .inval e => (entry e).lock = some p ∧ (entry e).valid = true ∧ (entry e).d.nlink = 0
  | .unlock e => (entry e).lock = some p ∧ (entry e).valid = false
  | .drop e => (entry e).lock ≠ some p

structure Inv : Prop where
  count : ∀ e, (entry e).ref = refs.count e + if (dying e).isSome then 1 else 0
  unique : ∀ e e', 0 < (entry e).ref → 0 < (entry e').ref → (entry e).key = (entry e').key → e = e'
  dying : Matched dying Pos.freeing pos
  placed : ∀ p, Placed entry disk pos refs p (pos p)
  locked : ∀ e p, (entry e).lock = some p → pos p = .load e ∨ (pos p).freeing = some e ∨ (entry e).valid = true ∧ e ∈ refs
  type : ∀ e, 0 < (entry e).ref → (entry e).valid = true →
    (entry e).d.type ≠ 0 ∧ (disk (entry e).key).type ≠ 0 ∨ ∃ p, pos p = .inval e
  live : ∀ e ∈ refs, (disk (entry e).key).type ≠ 0
  free : ∀ k, (disk k).type = 0 → (disk k).nlink = 0
  alloc : ∀ p q k, pos p = .alloc k → pos q = .alloc k → p = q

end

variable {entry : EntryId → Entry} {disk : Key → Dinode} {pos : Nat → Pos} {refs : List EntryId} {dying : EntryId →
    Option Nat}
variable {p : Nat} {e : EntryId} {k : Key}

namespace Inv

section

variable (h : Inv entry disk pos refs dying)
include h

theorem placed_at {y} (hp : pos p = y) : Placed entry disk pos refs p y := hp ▸ h.placed p

theorem ref_pos_of_mem (he : e ∈ refs) : 0 < (entry e).ref := by
  have := count_pos_iff.mpr he
  rw [h.count e]
  omega

theorem ref_pos_of_freeing (hp : (pos p).freeing = some e) : 0 < (entry e).ref := by
  rw [h.count e, (h.dying e p).mpr hp]
  simp

theorem unused (he : (entry e).ref = 0) : e ∉ refs ∧ ∀ p, (pos p).freeing ≠ some e := by
  refine ⟨fun hm => ?_, fun p hp => ?_⟩
  · have := h.ref_pos_of_mem hm
    omega
  · have := h.ref_pos_of_freeing hp
    omega

end

section

variable {x : Entry} {y : Pos}

section

variable (h : Inv entry disk pos refs dying)
include h

theorem count_keep (hr : x.ref = (entry e).ref) (e' : EntryId) :
    (update entry e x e').ref = refs.count e' + if (dying e').isSome then 1 else 0 := by
  have := h.count e'
  grind

theorem unique_keep (hk : x.key = (entry e).key) (hr : x.ref = (entry e).ref)
    (a b : EntryId) : 0 < (update entry e x a).ref → 0 < (update entry e x b).ref →
      (update entry e x a).key = (update entry e x b).key → a = b := by
  have := h.unique a b
  grind

theorem live_keep (hk : x.key = (entry e).key) :
    ∀ e' ∈ refs, (disk (update entry e x e').key).type ≠ 0 := by
  have := h.live
  grind

theorem alloc_move (hy : ∀ k, y ≠ .alloc k) (q q' : Nat) (k : Key) :
    update pos p y q = .alloc k → update pos p y q' = .alloc k → q = q' := by
  have := h.alloc q q' k
  grind

theorem locked_other {q} (hl : (entry e).lock = some q) (hp : pos p ≠ .load e)
    (hf : (pos p).freeing ≠ some e) : update pos p y q = .load e ∨ (update pos p y q).freeing = some e ∨
      (entry e).valid = true ∧ e ∈ refs := by
  have hq := h.locked e q hl
  by_cases hqp : q = p
  · subst hqp
    exact .inr (.inr ((hq.resolve_left hp).resolve_left hf))
  · rwa [update_of_ne hqp]

end

end

theorem share (h : Inv entry disk pos refs dying) (he : 0 < (entry e).ref) (ht : (disk (entry e).key).type ≠ 0)
    (hn : ∀ q, pos q ≠ .trunc e ∧ pos q ≠ .mark e) (ha : ∀ q, pos q ≠ .alloc (entry e).key) :
    Inv (update entry e { entry e with ref := (entry e).ref + 1 }) disk pos (e :: refs) dying where
  __ := h
  count e' := by
    have := h.count e'
    grind
  unique := by
    have := h.unique
    grind
  placed p := by
    have hp := h.placed p
    cases hc : pos p <;> simp only [hc, Placed] at hp ⊢ <;> grind
  locked e' p := by
    have := h.locked e' p
    grind
  type e' := by
    have := h.type e'
    grind
  live := by
    have := h.live
    grind

/-- 空いた欄を別の inode に使い回す。 -/
theorem recycle (h : Inv entry disk pos refs dying) (he : (entry e).ref = 0) (hk : ∀ e, 0 < (entry e).ref →
    (entry e).key ≠ k)
    (ht : (disk k).type ≠ 0) (ha : ∀ q, pos q ≠ .alloc k) :
    Inv (update entry e { entry e with key := k, ref := 1, valid := false }) disk pos (e :: refs) dying where
  __ := h
  count e' := by
    have := h.count e'
    grind
  unique := by
    have := h.unique
    grind
  placed p := by
    have hp := h.placed p
    obtain ⟨hm, hf⟩ := h.unused he
    have hf := hf p
    cases hc : pos p <;> simp only [hc, Placed, Pos.freeing] at hp hf ⊢ <;> grind
  locked e' p := by
    have := h.locked e' p
    have := h.unused he
    grind
  type e' := by
    have := h.type e'
    grind
  live := by
    have := h.live
    grind

theorem inval_of_update {x} (hp : pos p ≠ .inval e) : (∃ q, pos q = .inval e) → ∃ q,
    update pos p x q = .inval e := by
  rintro ⟨q, hq⟩
  refine ⟨q, ?_⟩
  rwa [update_of_ne]
  rintro rfl
  exact hp hq

section

variable (h : Inv entry disk pos refs dying)
include h

theorem ialloc (hp : pos p = .idle) (hk : (disk k).type = 0) {type} (ht : type ≠ 0) :
    Inv entry (update disk k ⟨type, 0, 0⟩) (update pos p (.alloc k)) refs dying where
  __ := h
  dying := h.dying.keep (by rw [hp]; rfl)
  placed q := by
    have hq := h.placed q
    by_cases hqp : q = p
    · subst hqp
      rw [update_self]
      refine ⟨by simpa using ht, by simp, fun e he => ⟨fun hm => h.live e hm (he ▸ hk), fun hr hv => ?_, fun q' => ?_⟩⟩
      · obtain ⟨_, ht'⟩ | ⟨q', hq'⟩ := h.type e hr hv
        · exact absurd (he ▸ hk) ht'
        · have hpl := h.placed_at hq'
          exact hpl.2.2
      have hq' := h.placed q'
      by_cases hc : q' = q
      · simp [hc]
      · rw [update_of_ne hc]
        constructor <;> intro hc' <;> simp only [hc', Placed] at hq' <;> exact hq'.2.2.2.2 (he ▸ hk)
    · rw [update_of_ne hqp]
      cases hc : pos q <;> simp only [hc, Placed] at hq ⊢ <;> grind
  locked e q hl := h.locked_other hl (by simp [hp]) (by simp [hp, Pos.freeing])
  type e hr hv := by
    have := h.type e hr hv
    refine Or.imp_right (inval_of_update (by simp [hp])) ?_
    grind
  live := by
    have := h.live
    grind
  free := by
    have := h.free
    grind
  alloc q q' := by
    have := h.alloc q q'
    have := h.placed q
    have := h.placed q'
    grind [Placed]

theorem goto {x} (hp : pos p = .idle ∨ ∃ k, pos p = .alloc k)
    (hx : x = .idle ∨ ∃ e ∈ refs, x = .await e) : Inv entry disk (update pos p x) refs dying where
  __ := h
  dying := h.dying.keep (by obtain hp | ⟨k, hp⟩ := hp <;> obtain rfl | ⟨e, _, rfl⟩ := hx <;> rw [hp] <;> rfl)
  placed q := by
    have hq := h.placed q
    by_cases hqp : q = p
    · rw [hqp, update_self]
      obtain rfl | ⟨e, he, rfl⟩ := hx
      · trivial
      · exact he
    · rw [update_of_ne hqp]
      cases hc : pos q <;> simp only [hc, Placed] at hq ⊢ <;> grind
  locked e q hl := by
    obtain hp | ⟨k, hp⟩ := hp <;> exact h.locked_other hl (by simp [hp]) (by simp [hp, Pos.freeing])
  type e hr hv := (h.type e hr hv).imp_right (inval_of_update (by obtain hp | ⟨k, hp⟩ := hp <;> simp [hp]))
  alloc := h.alloc_move (by obtain rfl | ⟨e, _, rfl⟩ := hx <;> simp)

theorem ialloced (hp : pos p = .alloc k) :
    Inv entry disk (update pos p .idle) refs dying := h.goto (.inr ⟨k, hp⟩) (.inl rfl)

theorem ilock (hp : pos p = .idle) (he : e ∈ refs) :
    Inv entry disk (update pos p (.await e)) refs dying := h.goto (.inl hp) (.inr ⟨e, he, rfl⟩)

/-- `p` が項目 `e` を、番号と参照の数を変えずに書き換えて進む。 -/
theorem step {x y} (hk : x.key = (entry e).key) (hr : x.ref = (entry e).ref) (hf : y.freeing = (pos p).freeing)
    (hy : ∀ k, y ≠ .alloc k) (hself : Placed (update entry e x) disk (update pos p y) refs p y)
    (hother : ∀ q ≠ p, Placed entry disk pos refs q (pos q) →
      Placed (update entry e x) disk (update pos p y) refs q (pos q))
    (hlock : ∀ q, x.lock = some q → update pos p y q = .load e ∨ (update pos p y q).freeing = some e ∨
      x.valid = true ∧ e ∈ refs)
    (hne : ∀ e' ≠ e, pos p ≠ .load e' ∧ (pos p).freeing ≠ some e' ∧ pos p ≠ .inval e')
    (htype : 0 < x.ref → x.valid = true →
      x.d.type ≠ 0 ∧ (disk x.key).type ≠ 0 ∨ ∃ q, update pos p y q = .inval e) :
    Inv (update entry e x) disk (update pos p y) refs dying where
  count := h.count_keep hr
  unique := h.unique_keep hk hr
  dying := h.dying.keep hf
  placed q := by
    by_cases hqp : q = p
    · rw [hqp, update_self]
      exact hself
    · rw [update_of_ne hqp]
      exact hother q hqp (h.placed q)
  locked e' q hl := by
    by_cases he : e' = e
    · subst he
      rw [update_self] at hl ⊢
      exact hlock q hl
    · rw [update_of_ne he] at hl ⊢
      exact h.locked_other hl (hne e' he).1 (hne e' he).2.1
  type e' hr' hv := by
    by_cases he : e' = e
    · subst he
      rw [update_self] at hr' hv ⊢
      exact htype hr' hv
    · rw [update_of_ne he] at hr' hv ⊢
      exact (h.type e' hr' hv).imp_right (inval_of_update (hne e' he).2.2)
  live := h.live_keep hk
  free := h.free
  alloc := h.alloc_move hy

theorem acquire (hp : pos p = .await e) (hl : (entry e).lock = none) :
    Inv (update entry e { entry e with lock := some p }) disk
      (update pos p (if (entry e).valid then .idle else .load e)) refs dying := by
  have hm : e ∈ refs := h.placed_at hp
  refine h.step rfl rfl (by rw [hp]; split <;> rfl) (by split <;> simp) ?_ (fun q _ hq => ?_) (fun q hq => ?_)
    (by simp [hp, Pos.freeing]) fun hr hv => (h.type e hr hv).imp_right (inval_of_update (by simp [hp]))
  · split
    · trivial
    · exact ⟨by simp, hm⟩
  · cases hc : pos q <;> simp only [hc, Placed] at hq ⊢ <;> grind
  · obtain rfl : p = q := by simpa using hq
    rw [update_self]
    cases hv : (entry e).valid with
    | true => exact .inr (.inr ⟨rfl, hm⟩)
    | false => exact .inl rfl

theorem load (hp : pos p = .load e) (ht : (disk (entry e).key).type ≠ 0) :
    Inv (update entry e { entry e with valid := true, d := disk (entry e).key }) disk (update pos p .idle)
      refs dying := by
  obtain ⟨hl, hm⟩ := h.placed_at hp
  refine h.step rfl rfl (by rw [hp]; rfl) (by simp) trivial (fun q _ hq => ?_) (fun q _ => .inr (.inr ⟨rfl, hm⟩))
    (fun e' he => by simp [hp, Pos.freeing, he.symm]) fun _ _ => .inl ⟨ht, ht⟩
  cases hc : pos q <;> simp only [hc, Placed] at hq ⊢ <;> grind

section

variable (hp : pos p = .idle) (hl : (entry e).lock = some p)
include hp hl

theorem iunlock :
    Inv (update entry e { entry e with lock := none }) disk pos refs dying where
  __ := h
  count := h.count_keep rfl
  unique := h.unique_keep rfl rfl
  placed q := by
    have hq := h.placed q
    cases hc : pos q <;> simp only [hc, Placed] at hq ⊢ <;> grind
  locked e' q := by
    have := h.locked e' q
    grind
  type e' := by
    have := h.type e'
    grind
  live := h.live_keep rfl

/-- 鍵を持って何もしていない者の inode は、読み込まれて種類を持つ。 -/
theorem holder :
    (entry e).valid = true ∧ e ∈ refs ∧ (entry e).d.type ≠ 0 := by
  have hc := h.locked e p hl
  simp only [hp, Pos.freeing, reduceCtorEq, false_or] at hc
  refine ⟨hc.1, hc.2, And.left ((h.type e (h.ref_pos_of_mem hc.2) hc.1).resolve_right ?_)⟩
  rintro ⟨q, hq⟩
  have hpl := h.placed_at hq
  have : q = p := by simpa [hl] using hpl.1.symm
  simp [this, hp] at hq

theorem touch (nlink size : Nat) :
    Inv (update entry e { entry e with d :=
        { (entry e).d with nlink := nlink, size := size } }) disk pos refs dying where
  __ := h
  count := h.count_keep rfl
  unique := h.unique_keep rfl rfl
  placed q := by
    have hq := h.placed q
    obtain ⟨_, hm, _⟩ := h.holder hp hl
    cases hc : pos q <;> simp only [hc, Placed] at hq ⊢ <;> grind
  locked e' q := by
    have := h.locked e' q
    grind
  type e' := by
    have := h.type e'
    grind
  live := h.live_keep rfl

theorem iupdate :
    Inv entry (update disk (entry e).key (entry e).d) pos refs dying where
  __ := h
  placed q := by
    have hq := h.placed q
    obtain ⟨hv, hm, ht⟩ := h.holder hp hl
    have hr := h.ref_pos_of_mem hm
    cases hc : pos q <;> simp only [hc, Placed] at hq ⊢ <;> grind
  type e' := by
    have := h.type e'
    have := h.holder hp hl
    grind
  live := by
    have := h.live
    have := h.holder hp hl
    grind
  free := by
    have := h.free
    have := h.holder hp hl
    grind

end

theorem put (he : e ∈ refs)
    (hu : ∀ q, pos q = .await e ∨ (entry e).lock = some q ∧ (pos q).freeing ≠ some e → e ∈ refs.erase e) :
    Inv (update entry e { entry e with ref := (entry e).ref - 1 }) disk pos (refs.erase e) dying where
  __ := h
  count e' := by
    have := h.count e'
    have := count_pos_iff.mpr he
    grind
  unique := by
    have := h.unique
    grind
  placed q := by
    have hq := h.placed q
    have hu := hu q
    cases hc : pos q <;> simp only [hc, Placed, Pos.freeing] at hq hu ⊢ <;> grind [mem_of_mem_erase]
  locked e' q hl := by
    have := h.locked e' q
    have := hu q
    grind
  type e' := by
    have := h.type e'
    grind
  live := by
    have := h.live
    grind [mem_of_mem_erase]

/-- 最後の参照でリンクも無い inode は、鍵を取って消し始める。 -/
theorem putLast (hp : pos p = .idle) (he : e ∈ refs) (hr : (entry e).ref = 1)
    (hv : (entry e).valid = true) (hn : (entry e).d.nlink = 0) (hu : ∀ q, pos q ≠ .await e) (hl : (entry e).lock = none) :
    Inv (update entry e { entry e with lock := some p }) disk (update pos p (.trunc e)) (refs.erase e)
      (update dying e (some p)) := by
  have hc := h.count e
  have hpos := count_pos_iff.mpr he
  have hd : dying e = none := by
    cases hd : dying e with
    | none => rfl
    | some q =>
      rw [hd, Option.isSome_some, if_pos rfl] at hc
      omega
  have hcount : (refs.erase e).count e = 0 := by
    rw [count_erase_self]
    omega
  have hnm : e ∉ refs.erase e := count_eq_zero.mp hcount
  have hlive := h.live e he
  constructor
  case count =>
    intro e'
    have := h.count e'
    by_cases hee : e' = e
    · subst hee
      rw [update_self, update_self, hcount, hr]
      rfl
    · rw [update_of_ne hee, update_of_ne hee, count_erase_of_ne hee, this]
  case unique =>
    have := h.unique
    grind
  case dying => exact h.dying.take hd (by rw [hp]; rfl) rfl
  case placed =>
    intro q
    have hq := h.placed q
    have hu := hu q
    by_cases hqp : q = p
    · rw [hqp, update_self]
      simp only [Placed, update_self]
      exact ⟨trivial, hv, hn, hnm, hlive⟩
    · rw [update_of_ne hqp]
      cases hc : pos q <;> simp only [hc, Placed] at hq hu ⊢ <;> grind [mem_of_mem_erase]
  case locked =>
    intro e' q hl'
    by_cases hee : e' = e
    · subst hee
      have hqp : p = q := by simpa using hl'
      subst hqp
      simp [Pos.freeing]
    rw [update_of_ne hee] at hl' ⊢
    have := h.locked e' q hl'
    by_cases hqp : q = p
    · subst hqp
      simp only [hp, Pos.freeing, reduceCtorEq, false_or] at this
      exact .inr (.inr ⟨this.1, (mem_erase_of_ne hee).mpr this.2⟩)
    · rw [update_of_ne hqp, mem_erase_of_ne hee]
      exact this
  case type =>
    intro e' hr hv
    have := h.type e'
    refine Or.imp_right (inval_of_update (by simp [hp])) ?_
    grind
  case live =>
    have := h.live
    grind [mem_of_mem_erase]
  case free => exact h.free
  case alloc =>
    intro q q'
    have := h.alloc q q'
    grind

theorem erase {x d} (hp : pos p = .trunc e ∨ pos p = .mark e)
    (hx : x = .mark e ∧ d.type ≠ 0 ∨ x = .inval e) (hn : d.nlink = 0) :
    Inv (update entry e { entry e with d := d }) (update disk (entry e).key d) (update pos p x)
      refs dying := by
  have hpl : Placed entry disk pos refs p (.trunc e) := by
    have := h.placed p
    obtain hp | hp := hp <;> rwa [hp] at this
  have hfp : (pos p).freeing = some e := by
    obtain hp | hp := hp <;> rw [hp] <;> rfl
  have hr := h.ref_pos_of_freeing hfp
  have hi : ∀ e', pos p ≠ .inval e' := by
    obtain hp | hp := hp <;> simp [hp]
  obtain ⟨hl, hv, _, hm, _⟩ := hpl
  -- 同じ番号を持つ、使われている項目はほかにない
  have huniq : ∀ e', (entry e').key = (entry e).key → 0 < (entry e').ref →
      e' = e := fun e' hk hr' => h.unique e' e hr' hr hk
  have hlive : ∀ e' ∈ refs, (entry e').key ≠ (entry e).key := fun e' hm' hk =>
    hm (huniq e' hk (h.ref_pos_of_mem hm') ▸ hm')
  constructor
  case count => exact h.count_keep rfl
  case unique => exact h.unique_keep rfl rfl
  case dying =>
    refine h.dying.keep ?_
    rw [hfp]
    obtain ⟨rfl, _⟩ | rfl := hx <;> rfl
  case placed =>
    intro q
    have hq := h.placed q
    by_cases hqp : q = p
    · subst hqp
      rw [update_self]
      obtain ⟨rfl, ht⟩ | rfl := hx
      · simp only [Placed, update_self]
        exact ⟨hl, hv, hn, hm, ht⟩
      · simp only [Placed, update_self]
        exact ⟨hl, hv, hn⟩
    · rw [update_of_ne hqp]
      have hrq : ∀ e', (pos q).freeing = some e' → 0 < (entry e').ref := fun e' => h.ref_pos_of_freeing
      cases hc : pos q <;> simp only [hc, Placed, Pos.freeing] at hq hrq ⊢ <;> grind
  case locked =>
    intro e' q hl'
    by_cases hee : e' = e
    · subst hee
      have hqp : p = q := by simpa [hl] using hl'
      subst hqp
      rw [update_self]
      obtain ⟨rfl, _⟩ | rfl := hx <;> exact .inr (.inl rfl)
    · rw [update_of_ne hee] at hl' ⊢
      exact h.locked_other hl' (by obtain hp | hp := hp <;> simp [hp]) (by simp [hfp, Ne.symm hee])
  case type =>
    intro e' hr' hv'
    by_cases hee : e' = e
    · subst hee
      rw [update_self]
      obtain ⟨_, ht⟩ | rfl := hx
      · exact .inl ⟨ht, by simpa using ht⟩
      · exact .inr ⟨p, by simp⟩
    · rw [update_of_ne hee] at hr' hv' ⊢
      have hk : (entry e').key ≠ (entry e).key := fun hk => hee (huniq e' hk hr')
      rw [update_of_ne hk]
      exact (h.type e' hr' hv').imp_right (inval_of_update (hi e'))
  case live =>
    have := h.live
    grind
  case free =>
    have := h.free
    grind
  case alloc => exact h.alloc_move (by obtain ⟨rfl, _⟩ | rfl := hx <;> simp)

theorem inval (hp : pos p = .inval e) :
    Inv (update entry e { entry e with valid := false }) disk (update pos p (.unlock e)) refs dying := by
  have hl := (h.placed_at hp).1
  refine h.step rfl rfl (by rw [hp]; rfl) (by simp) (by simp [Placed, hl]) (fun q _ hq => ?_) (fun q hq => ?_)
    (fun e' he => by simp [hp, Pos.freeing, he.symm]) nofun
  · cases hc : pos q <;> simp only [hc, Placed] at hq ⊢ <;> grind
  · obtain rfl : p = q := by simpa [hl] using hq
    rw [update_self]
    exact .inr (.inl rfl)

theorem unlock (hp : pos p = .unlock e) :
    Inv (update entry e { entry e with lock := none }) disk (update pos p (.drop e)) refs dying := by
  have hpl := h.placed_at hp
  refine h.step rfl rfl (by rw [hp]; rfl) (by simp) (by simp [Placed]) (fun q _ hq => ?_) nofun
    (fun e' he => by simp [hp, Pos.freeing, he.symm]) fun _ hv => absurd (hpl.2.symm.trans hv) (by decide)
  cases hc : pos q <;> simp only [hc, Placed] at hq hpl ⊢ <;> grind

theorem drop (hp : pos p = .drop e) :
    Inv (update entry e { entry e with ref := (entry e).ref - 1 }) disk (update pos p .idle) refs
      (update dying e none) := by
  have hd : dying e = some p := (h.dying e p).mpr (by rw [hp]; rfl)
  constructor
  case count =>
    intro e'
    have := h.count e'
    grind
  case unique =>
    have := h.unique
    grind
  case dying => exact h.dying.give (by rw [hp]; rfl) rfl
  case placed =>
    intro q
    have hq := h.placed q
    by_cases hqp : q = p
    · subst hqp
      simp [Placed]
    · rw [update_of_ne hqp]
      cases hc : pos q <;> simp only [hc, Placed] at hq ⊢ <;> grind
  case locked =>
    intro e' q hl'
    have hle : (entry e').lock = some q := by grind
    have := h.locked e' q hle
    by_cases hqp : q = p
    · subst hqp
      have hpl := h.placed q
      have hee : e' ≠ e := by
        rintro rfl
        rw [hp] at hpl
        exact hpl hle
      simp only [hp, Pos.freeing, reduceCtorEq, Option.some.injEq, hee.symm, false_or] at this
      rw [update_of_ne hee]
      exact .inr (.inr this)
    · rw [update_of_ne hqp]
      grind
  case type =>
    intro e' hr hv
    have := h.type e'
    refine Or.imp_right (inval_of_update (by simp [hp])) ?_
    grind
  case live => exact h.live_keep rfl
  case free => exact h.free
  case alloc => exact h.alloc_move (by simp)

end

end Inv

end Xv6.Itable
