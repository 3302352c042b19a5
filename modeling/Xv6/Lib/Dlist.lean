import Mathlib.Data.List.Perm.Basic
import Xv6.Lib.Update

/-!
# 両方向の環状リスト

番号の間の前後のつなぎを二つの写像で持ち、番兵から一周して戻る並びを述べる。外す操作と先頭に入れる操作、番兵まで順に
見る走査を、並びの上の操作と結ぶ。
-/

namespace Xv6.Lib

open List

structure Links where
  next : Nat → Nat
  prev : Nat → Nat

namespace Links

variable {l l' : Links} {a b h x : Nat} {xs ys : List Nat}

/-- `a` から `xs` を順にたどって `b` に着き、逆にもたどれる。 -/
def Path (l : Links) : Nat → List Nat → Nat → Prop
  | a, [], b => l.next a = b ∧ l.prev b = a
  | a, x :: xs, b => l.next a = x ∧ l.prev x = a ∧ l.Path x xs b

/-- 番兵 `h` から `xs` を一度ずつたどって戻る。 -/
structure Ring (l : Links) (h : Nat) (xs : List Nat) : Prop where
  path : l.Path h xs h
  nodup : (h :: xs).Nodup

theorem path_append : l.Path a (xs ++ x :: ys) b ↔ l.Path a xs x ∧ l.Path x ys b := by
  induction xs generalizing a with
  | nil => simp [Path, and_assoc]
  | cons y xs ih => simp [Path, ih, and_assoc]

theorem Path.congr (h : l.Path a xs b) (hn : ∀ x ∈ a :: xs, l'.next x = l.next x)
    (hp : ∀ x ∈ xs ++ [b], l'.prev x = l.prev x) : l'.Path a xs b := by
  induction xs generalizing a with
  | nil => exact ⟨(hn a (by simp)).trans h.1, (hp b (by simp)).trans h.2⟩
  | cons x xs ih =>
    obtain ⟨h1, h2, h3⟩ := h
    refine ⟨(hn a (by simp)).trans h1, (hp x (by simp)).trans h2, ih h3 (fun y hy => ?_) fun y hy => ?_⟩
    · exact hn y (mem_cons_of_mem _ hy)
    · exact hp y (mem_cons_of_mem _ hy)

theorem Path.prev_mem (h : l.Path a xs b) : l.prev b ∈ a :: xs := by
  induction xs generalizing a with
  | nil => simp [h.2]
  | cons x xs ih => exact mem_cons_of_mem _ (ih h.2.2)

theorem Path.next_mem (h : l.Path a xs b) : l.next a ∈ xs ++ [b] := by
  cases xs with
  | nil | cons x xs => simp [h.1]

/-- `b->next->prev = b->prev; b->prev->next = b->next` -/
def unlink (l : Links) (b : Nat) : Links :=
  let l := { l with prev := update l.prev (l.next b) (l.prev b) }
  { l with next := update l.next (l.prev b) (l.next b) }

theorem Path.bypass (h : l.Path a xs b) (hd : (a :: xs).Nodup) (hn : ∀ x ∈ a :: xs, x ≠ l.prev b → l'.next x = l.next x)
    (hp : ∀ x ∈ xs, l'.prev x = l.prev x) (hpn : l'.next (l.prev b) = x) (hnp : l'.prev x = l.prev b) :
    l'.Path a xs x := by
  induction xs generalizing a with
  | nil => exact ⟨by rw [← h.2]; exact hpn, by rw [hnp, h.2]⟩
  | cons y ys ih =>
    obtain ⟨h1, h2, h3⟩ := h
    have hne : a ≠ l.prev b := fun he => (nodup_cons.mp hd).1 (he ▸ h3.prev_mem)
    refine ⟨(hn a (by simp) hne).trans h1, (hp y (by simp)).trans h2, ih h3 (nodup_cons.mp hd).2 ?_ ?_⟩
    · exact fun z hz => hn z (mem_cons_of_mem _ hz)
    · exact fun z hz => hp z (mem_cons_of_mem _ hz)

theorem Ring.unlink (h : l.Ring a (xs ++ b :: ys)) : (l.unlink b).Ring a (xs ++ ys) := by
  obtain ⟨hpath, hd⟩ := h
  obtain ⟨h1, h2⟩ := path_append.mp hpath
  have hsub : (a :: (xs ++ ys)).Sublist (a :: (xs ++ b :: ys)) :=
    ((sublist_cons_self b ys).append_left xs).cons_cons a
  refine ⟨?_, hd.sublist hsub⟩
  simp only [nodup_cons, mem_append, mem_cons, not_or, nodup_append] at hd
  obtain ⟨⟨haxs, hab, hays⟩, hxs, ⟨hbys, hys⟩, hdis⟩ := hd
  have hPmem := h1.prev_mem
  have hNmem := h2.next_mem
  have hNb : l.next b ≠ b := by
    intro he
    rw [he, mem_append, mem_singleton] at hNmem
    rcases hNmem with hm | hm
    · exact hbys hm
    · exact hab hm.symm
  have hprevb : (l.unlink b).prev = update l.prev (l.next b) (l.prev b) := rfl
  have hnextb : (l.unlink b).next = update l.next (l.prev b) (l.next b) := by
    simp [Links.unlink, update_of_ne hNb.symm]
  -- 手前の並びは、外した番号の次に直接つながる
  have hfront : (l.unlink b).Path a xs (l.next b) := by
    refine h1.bypass (nodup_cons.mpr ⟨haxs, hxs⟩) (fun x _ hx => ?_) (fun x hx => ?_) ?_ ?_
    · rw [hnextb, update_of_ne hx]
    · rw [hprevb, update_of_ne]
      rintro rfl
      rcases mem_append.mp hNmem with hm | hm
      · exact hdis _ hx _ (.inr hm) rfl
      · rw [mem_singleton.mp hm] at hx
        exact haxs hx
    · rw [hnextb, update_self]
    · rw [hprevb, update_self]
  cases ys with
  | nil =>
    rw [h2.1] at hfront
    simpa using hfront
  | cons y ys =>
    obtain ⟨hby, -, h3⟩ := h2
    rw [hby] at hfront hprevb
    refine path_append.mpr ⟨hfront, h3.congr (fun x hx => ?_) fun x hx => ?_⟩
    · rw [hnextb, update_of_ne]
      rintro rfl
      rcases mem_cons.mp hPmem with hm | hm
      · rw [hm] at hx
        exact hays hx
      · exact hdis _ hm _ (.inr hx) rfl
    · rw [hprevb, update_of_ne]
      rintro rfl
      rcases mem_append.mp hx with hm | hm
      · exact (nodup_cons.mp hys).1 hm
      · exact hays (by simp [mem_singleton.mp hm])

/-- `b->next = h->next; b->prev = h; h->next->prev = b; h->next = b` -/
def pushFront (l : Links) (h b : Nat) : Links :=
  let l := { l with next := update l.next b (l.next h) }
  let l := { l with prev := update l.prev b h }
  let l := { l with prev := update l.prev (l.next h) b }
  { l with next := update l.next h b }

theorem Ring.pushFront (hr : l.Ring h xs) (hb : b ∉ h :: xs) : (l.pushFront h b).Ring h (b :: xs) := by
  obtain ⟨hpath, hd⟩ := hr
  simp only [mem_cons, not_or] at hb
  obtain ⟨hbh, hbxs⟩ := hb
  have hNmem := hpath.next_mem
  have hNb : l.next h ≠ b := by
    intro he
    rw [he, mem_append, mem_singleton] at hNmem
    exact hNmem.elim hbxs hbh
  have hnext : (l.pushFront h b).next = update (update l.next b (l.next h)) h b := rfl
  have hprev : (l.pushFront h b).prev = update (update l.prev b h) (l.next h) b := by
    simp [Links.pushFront, update_of_ne (Ne.symm hbh)]
  refine ⟨⟨by rw [hnext, update_self], ?_, ?_⟩, ?_⟩
  · rw [hprev, update_of_ne hNb.symm, update_self]
  · cases xs with
    | nil =>
      refine ⟨?_, by rw [hprev, hpath.1, update_self]⟩
      rw [hnext, update_of_ne hbh, update_self, hpath.1]
    | cons x xs =>
      obtain ⟨h1, -, h3⟩ := hpath
      simp only [nodup_cons, mem_cons, not_or] at hd hbxs
      refine ⟨?_, by rw [hprev, h1, update_self], h3.congr (fun y hy => ?_) fun y hy => ?_⟩
      · rw [hnext, update_of_ne hbh, update_self, h1]
      · rw [hnext, update_of_ne, update_of_ne]
        · rintro rfl
          exact (mem_cons.mp hy).elim hbxs.1 hbxs.2
        · rintro rfl
          exact (mem_cons.mp hy).elim hd.1.1 hd.1.2
      · rw [hprev, h1, update_of_ne, update_of_ne]
        · rintro rfl
          exact (mem_append.mp hy).elim hbxs.2 fun hm => hbh (mem_singleton.mp hm)
        · rintro rfl
          exact (mem_append.mp hy).elim hd.2.1 fun hm => hd.1.1 (mem_singleton.mp hm).symm
  · simp only [nodup_cons, mem_cons, not_or] at hd ⊢
    exact ⟨⟨Ne.symm hbh, hd.1⟩, hbxs, hd.2⟩

/-! ## 走査 -/

/-- 番兵 `h` に着くまで順にたどり、最初に当てはまるものを返す。 -/
def scan (lnk : Nat → Nat) (h : Nat) (p : Nat → Bool) : Nat → Nat → Option Nat
  | 0, _ => none
  | n + 1, b => if b = h then none else if p b then some b else scan lnk h p n (lnk b)

theorem Path.scan {p n} (hpath : l.Path a xs h) (hh : h ∉ xs) (hn : xs.length < n) :
    Links.scan l.next h p n (l.next a) = xs.find? p := by
  induction xs generalizing a n with
  | nil =>
    obtain ⟨n, rfl⟩ : ∃ m, n = m + 1 := ⟨n - 1, by omega⟩
    simp [Links.scan, hpath.1]
  | cons x xs ih =>
    obtain ⟨n, rfl⟩ : ∃ m, n = m + 1 := ⟨n - 1, by omega⟩
    simp only [mem_cons, not_or] at hh
    simp only [length_cons] at hn
    simp only [Links.scan, hpath.1, if_neg (Ne.symm hh.1), find?_cons]
    cases p x with
    | true => rfl
    | false => exact ih hpath.2.2 hh.2 (by omega)

def swap (l : Links) : Links := ⟨l.prev, l.next⟩

theorem Path.reverse (hpath : l.Path a xs b) : l.swap.Path b xs.reverse a := by
  induction xs generalizing a with
  | nil => exact ⟨hpath.2, hpath.1⟩
  | cons x xs ih =>
    rw [reverse_cons]
    exact path_append.mpr ⟨ih hpath.2.2, hpath.2.1, hpath.1⟩

theorem Ring.scan_next {p n} (hr : l.Ring h xs) (hn : xs.length < n) :
    Links.scan l.next h p n (l.next h) = xs.find? p :=
  hr.path.scan (nodup_cons.mp hr.nodup).1 hn

theorem Ring.scan_prev {p n} (hr : l.Ring h xs) (hn : xs.length < n) :
    Links.scan l.prev h p n (l.prev h) = xs.reverse.find? p :=
  hr.path.reverse.scan (by simpa using (nodup_cons.mp hr.nodup).1) (by simpa using hn)

end Links

end Xv6.Lib
