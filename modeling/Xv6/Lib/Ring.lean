import Mathlib.Data.List.Basic
import Mathlib.Data.Nat.ModEq
import Xv6.Lib.Update

/-!
# 回る番号を持つ環状の領域

大きさ `N` の領域を、法 `M` で回る二つの番号で使う。番号を領域の大きさで割った余りが位置になる。
`N` が `M` を割り切れば、番号が何度回っても、領域は先入れ先出しの列を表す。
-/

namespace Xv6.Lib

open List

variable {α : Type} {N M nr nw : Nat} {data : Nat → α} {put : List α} {taken : Nat} {a : α}

/-- 入れた列 `put` と取り出した個数 `taken` に対する、領域 `data` と番号 `nr`、`nw` の関係。 -/
structure Ring (N M : Nat) (data : Nat → α) (nr nw : Nat) (put : List α) (taken : Nat) : Prop where
  read : nr = taken % M
  write : nw = put.length % M
  le : taken ≤ put.length
  room : put.length ≤ taken + N
  slot : ∀ k b, taken ≤ k → put[k]? = some b → data (k % N) = b

namespace Ring

theorem empty (N M : Nat) (data : Nat → α) : Ring N M data 0 0 [] 0 where
  read := (Nat.zero_mod M).symm
  write := (Nat.zero_mod M).symm
  le := Nat.le_refl 0
  room := Nat.zero_le _
  slot k b _ h := by simp at h

section

variable (h : Ring N M data nr nw put taken)
include h

theorem count (hM : N < M) :
    (nw + M - nr) % M = put.length - taken := by
  have h1 := h.le
  have h2 := h.room
  obtain ⟨d, hd⟩ := Nat.exists_eq_add_of_le h1
  have hpos : 0 < M := by omega
  have hr : nr < M := h.read ▸ Nat.mod_lt _ hpos
  have hdM : d < M := by omega
  have key : (nw + M - nr) + nr ≡ d + nr [MOD M] := by
    have e1 : nw + M - nr + nr = nw + M := by omega
    rw [e1]
    calc nw + M ≡ nw [MOD M] := by simp [Nat.ModEq]
      _ ≡ put.length [MOD M] := by rw [h.write]; exact Nat.mod_modEq _ _
      _ = d + taken := by omega
      _ ≡ d + nr [MOD M] := by rw [h.read]; exact (Nat.ModEq.refl d).add (Nat.mod_modEq _ _).symm
  have hmod : (nw + M - nr) % M = d % M := Nat.ModEq.add_right_cancel' nr key
  rw [hmod, Nat.mod_eq_of_lt hdM]
  omega

theorem full_iff (hM : N < M) :
    nw = (nr + N) % M ↔ put.length = taken + N := by
  have h1 := h.le
  have h2 := h.room
  have hw : put.length = taken + (put.length - taken) := by omega
  have hiff : nw = (nr + N) % M ↔ taken + (put.length - taken) ≡ taken + N [MOD M] := by
    rw [h.write, h.read, Nat.mod_add_mod, ← hw]
    rfl
  rw [hiff]
  constructor
  · intro he
    have hc := Nat.ModEq.add_left_cancel' taken he
    have := Nat.ModEq.eq_of_lt_of_lt hc (by omega) hM
    omega
  · intro he
    rw [← hw, he]

theorem empty_iff (hM : N < M) : nr = nw ↔ put.length = taken := by
  have h1 := h.le
  have hc := h.count hM
  constructor
  · intro he
    have : nw + M - nr = M := by omega
    rw [this, Nat.mod_self] at hc
    omega
  · intro he
    rw [h.read, h.write, he]

theorem poke (hd : N ∣ M) (hlt : put.length < taken + N) :
    Ring N M (update data (nw % N) a) nr nw put taken where
  __ := h
  slot k b hk hb := by
    have hlt' : k < put.length := (List.getElem?_eq_some_iff.mp hb).1
    have hne : k % N ≠ nw % N := by
      rw [h.write, Nat.mod_mod_of_dvd _ hd]
      intro hmod
      have hmod' : k ≡ put.length [MOD N] := hmod
      have := Nat.le_of_dvd (by omega) ((Nat.modEq_iff_dvd' hlt'.le).mp hmod')
      omega
    rw [update_of_ne hne]
    exact h.slot k b hk hb

theorem bump (hd : N ∣ M) (hlt : put.length < taken + N)
    (ha : data (nw % N) = a) : Ring N M data nr ((nw + 1) % M) (put ++ [a]) taken where
  read := h.read
  write := by rw [h.write, length_append, length_singleton, Nat.mod_add_mod]
  le := by rw [length_append]; exact h.le.trans (Nat.le_add_right _ _)
  room := by rw [length_append, length_singleton]; omega
  slot k b hk hb := by
    rcases Nat.lt_trichotomy k put.length with hlt' | heq | hgt
    · rw [getElem?_append_left hlt'] at hb
      exact h.slot k b hk hb
    · subst heq
      rw [getElem?_concat_length] at hb
      cases hb
      rw [← ha, h.write, Nat.mod_mod_of_dvd _ hd]
    · rw [getElem?_eq_none (by simp; omega)] at hb
      cases hb

theorem push (hd : N ∣ M) (hlt : put.length < taken + N) :
    Ring N M (update data (nw % N) a) nr ((nw + 1) % M) (put ++ [a]) taken :=
  (h.poke hd hlt).bump hd hlt (update_self ..)

theorem pop (hd : N ∣ M) (hlt : taken < put.length) :
    put[taken]? = some (data (nr % N)) ∧ Ring N M data ((nr + 1) % M) nw put (taken + 1) := by
  have hget : put[taken]? = some (put[taken]) := getElem?_eq_getElem hlt
  have hslot := h.slot taken _ le_rfl hget
  have hr : nr % N = taken % N := by rw [h.read, Nat.mod_mod_of_dvd _ hd]
  refine ⟨by rw [hget, hr, hslot], ?_, h.write, hlt, ?_, ?_⟩
  · rw [h.read, Nat.mod_add_mod]
  · have := h.room; omega
  · intro k b hk hb
    exact h.slot k b (by omega) hb

/-- 番号が異なれば、残りの列の先頭は次に読む位置にある。 -/
theorem next (hM : N < M) (hd : N ∣ M) (hne : nr ≠ nw) :
    put.drop taken = data (nr % N) :: put.drop (taken + 1) ∧ Ring N M data ((nr + 1) % M) nw put (taken + 1) := by
  have hlt := Nat.lt_of_le_of_ne h.le fun he => hne ((h.empty_iff hM).mpr he.symm)
  obtain ⟨hget, hpop⟩ := h.pop hd hlt
  rw [getElem?_eq_getElem hlt, Option.some.injEq] at hget
  exact ⟨by rw [drop_eq_getElem_cons hlt, hget], hpop⟩

theorem cut {d} (hd : taken ≤ d) (hle : d ≤ put.length) :
    Ring N M data nr (d % M) (put.take d) taken := by
  have hlen : (put.take d).length = d := by rw [length_take, Nat.min_eq_left hle]
  refine ⟨h.read, by rw [hlen], by rwa [hlen], ?_, fun k b hk hb => h.slot k b hk ?_⟩
  · rw [hlen]
    exact hle.trans h.room
  · have hlt : k < d := by
      have := (List.getElem?_eq_some_iff.mp hb).1
      omega
    rwa [List.getElem?_take_of_lt hlt] at hb

theorem advance {d} (hd : taken ≤ d) (hle : d ≤ put.length) :
    Ring N M data (d % M) nw put d where
  read := rfl
  write := h.write
  le := hle
  room := h.room.trans (Nat.add_le_add_right hd N)
  slot k b hk := h.slot k b (hd.trans hk)

theorem contents (hM : N < M) (hd : N ∣ M) :
    put.drop taken = (List.range ((nw + M - nr) % M)).map fun k => data ((nr + k) % N) := by
  rw [h.count hM]
  apply ext_getElem
  · simp
  intro k hk _
  simp only [length_drop] at hk
  have hlt : taken + k < put.length := by omega
  have hslot := h.slot (taken + k) _ (by omega) (getElem?_eq_getElem hlt)
  have hmod : (nr + k) % N = (taken + k) % N := by
    rw [h.read, Nat.add_mod, Nat.mod_mod_of_dvd _ hd, ← Nat.add_mod]
  simp only [getElem_drop, getElem_map, getElem_range, hmod, hslot]

end

end Ring

end Xv6.Lib
