import Xv6.Bio.Lemmas.Lru

/-!
# バッファキャッシュの定理
-/

namespace Xv6.Bio.Lru

open Xv6.Lib

variable {s : Cache}

/-- 着くどの状態でも、同じブロックのバッファは一つで、つなぎはすべてを通る一つの環であり、参照の数は持ち主と留めの数に等
しい。替わるのは、参照のない中で最も前に放されたバッファだけである。 -/
theorem buffer_table_ordered (h : step.Reaches binit s) :
    Unique s ∧ Linked s ∧ (∀ b, (s.buf b).refcnt = (s.buf b).held + (s.buf b).pins) ∧
      ∀ e t, step s e = some (.ok t) → OldestFirst s t := by
  have hinv : Inv s := .of_reaches h
  refine ⟨hinv.unique, ?_, hinv.count, fun e t hs => hinv.oldestFirst hs⟩
  obtain ⟨order, ho⟩ := hinv.order
  exact ⟨order, ho.ring, ho.perm⟩

def twoBlocks : Cache := step.final binit [.bget 1 5, .fill 0, .bpin 0, .brelse 0, .bget 1 6, .brelse 1]

theorem buffer_table_ordered_twoBlocks :
    (twoBlocks.buf 0).refcnt = 1 ∧ (twoBlocks.buf 1).blockno = 6 ∧ twoBlocks.released 1 = 1 ∧ Unique twoBlocks ∧
      Linked twoBlocks := by
  have h := buffer_table_ordered (s := twoBlocks) (Machine.reaches_final _)
  exact ⟨by decide +kernel, by decide +kernel, by decide +kernel, h.1, h.2.1⟩

end Xv6.Bio.Lru
