import Mathlib.Data.List.Basic
import Xv6.Lib.Update

/-!
# 一方向の連結リスト

番地ごとの次の番地 `link` をたどって得る列を扱う。
-/

namespace Xv6.Lib

variable {link link' : Nat → Option Nat} {h : Option Nat} {p : Nat} {l l' : List Nat}

/-- `h` から `link` をたどると、列 `l` を通って空の番地に着く。 -/
def Chain (link : Nat → Option Nat) (h : Option Nat) : List Nat → Prop
  | [] => h = none
  | p :: l => h = some p ∧ Chain link (link p) l

theorem Chain.congr (hc : Chain link h l) (hl : ∀ p ∈ l, link' p = link p) : Chain link' h l := by
  induction l generalizing h with
  | nil => exact hc
  | cons p l ih =>
    refine ⟨hc.1, ?_⟩
    rw [hl p List.mem_cons_self]
    exact ih hc.2 fun q hq => hl q (List.mem_cons_of_mem p hq)

theorem Chain.update (hc : Chain link h l) (hp : p ∉ l) (v : Option Nat) : Chain (Function.update link p v) h l :=
  hc.congr fun _ hq => Function.update_of_ne (ne_of_mem_of_not_mem hq hp) _ _

theorem Chain.push (hc : Chain link h l) (hp : p ∉ l) : Chain (Function.update link p h) (some p) (p :: l) :=
  ⟨rfl, by rw [Function.update_self]; exact hc.update hp h⟩

theorem Chain.pop (hc : Chain link (some p) l) : ∃ l', l = p :: l' ∧ Chain link (link p) l' := by
  cases l with
  | nil => cases hc
  | cons q l =>
    obtain ⟨hq, hc⟩ := hc
    cases hq
    exact ⟨l, rfl, hc⟩

end Xv6.Lib
