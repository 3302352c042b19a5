import Xv6.Log.Commit
import Mathlib.Data.List.Basic

/-!
# コミットと回復の途中の状態
-/

namespace Xv6.Log


open Xv6.Lib Xv6.Lib.Free List

variable {G : Geometry} {m t : Mach}

theorem getLE_putBlocks_before {d i off bs} (h : off + 4 ≤ 4 + 4 * i) :
    getLE (putBlocks d i bs) off 4 = getLE d off 4 := by
  induction bs generalizing d i with
  | nil => rfl
  | cons b bs ih =>
    simp only [putBlocks]
    rw [ih (by omega), getLE_putLE_disjoint (by omega)]

theorem getLE_putBlocks {d i bs} (hb : ∀ b ∈ bs, b < 2 ^ 32) {j}
    (hj : j < bs.length) : getLE (putBlocks d i bs) (4 + 4 * (i + j)) 4 = bs[j] := by
  induction bs generalizing d i j with
  | nil => simp at hj
  | cons b bs ih =>
    simp only [putBlocks]
    cases j with
    | zero =>
      rw [getLE_putBlocks_before (by omega)]
      exact getLE_putLE_self (hb b (by simp))
    | succ j =>
      have := ih (d := putLE d (4 + 4 * i) 4 b) (i := i + 1)
        (fun c hc => hb c (mem_cons_of_mem _ hc)) (by simpa using hj)
      rw [show i + 1 + j = i + (j + 1) by omega] at this
      simpa using this

theorem readHeader_writeHeader {d lh} (hl : lh.length ≤ logsize)
    (hb : ∀ b ∈ lh, b < 2 ^ 32) : readHeader (writeHeader d lh) = lh := by
  have hn : getLE (writeHeader d lh) 0 4 = lh.length := by
    rw [writeHeader, getLE_putBlocks_before (by omega)]
    refine getLE_putLE_self ?_
    simp only [logsize, maxopblocks] at hl
    omega
  have hs : lh.length < 2 ^ 31 := by simp only [logsize, maxopblocks] at hl; omega
  rw [readHeader, hn, if_pos hs]
  refine ext_getElem (by simp) fun j h1 h2 => ?_
  have := getLE_putBlocks (d := putLE d 0 4 lh.length) (i := 0) hb h2
  simpa [writeHeader] using this

theorem content_bread (m : Mach) (b : Nat) :
    Mach.content { m with cache := update m.cache b (some (m.content b)) } = m.content := by
  funext c
  by_cases h : c = b
  · subst h; simp [Mach.content]
  · simp [Mach.content, h]

theorem content_put (m : Mach) (b : Nat) (d : Block) :
    Mach.content { m with cache := update m.cache b (some d) } =
      update m.content b d := by
  funext c
  by_cases h : c = b
  · subst h; simp [Mach.content]
  · simp [Mach.content, h]

theorem content_bwrite (m : Mach) (b n : Nat) :
    Mach.content { m with disk := update m.disk b (m.content b), nwrites := n } =
      m.content := by
  funext c
  by_cases h : c = b
  · subst h; cases hc : m.cache c <;> simp [Mach.content, hc]
  · simp [Mach.content, h]

/-- バッファに読み込んだかどうかを問わずに見た状態。 -/
structure View where
  disk : Nat → Block
  content : Nat → Block
  lh : List Nat
  nwrites : Nat

def Mach.view (m : Mach) : View := ⟨m.disk, m.content, m.lh, m.nwrites⟩

abbrev crash {α : Type} (p : LogM α) (Q : α → View → Prop) (I : View → Prop) (m : Mach) : Prop :=
  cwp LogOp.apply LogOp.writes p (fun a t => Q a t.view) (fun t => I t.view) m

variable {α : Type} {Q : α → View → Prop} {I : View → Prop}

theorem crash_bread {b f} (h : ∀ t, t.view = m.view → crash (f (m.view.content b)) Q I t) :
    crash (bread b >>= f) Q I m := by
  rw [crash, cwp_bind]
  refine ⟨by simp [LogOp.writes], h _ ?_⟩
  simp [Mach.view, LogOp.apply, content_bread]

theorem crash_put {b d f} (h : ∀ t, t.view = { m.view with content := update m.view.content b d } →
      crash (f ()) Q I t) : crash (put b d >>= f) Q I m := by
  rw [crash, cwp_bind]
  refine ⟨by simp [LogOp.writes], h _ ?_⟩
  simp [Mach.view, LogOp.apply, content_put]

/-- `I` を問うのは、ディスクに書く `bwrite` の前だけである。 -/
theorem crash_bwrite {b f} (hI : I m.view)
    (h : ∀ t, t.view = { m.view with
      disk := update m.view.disk b (m.view.content b), nwrites := m.view.nwrites + 1 } →
      crash (f ()) Q I t) : crash (bwrite b >>= f) Q I m := by
  rw [crash, cwp_bind]
  refine ⟨fun _ => hI, h _ ?_⟩
  simp [Mach.view, LogOp.apply, content_bwrite]

theorem crash_brelse {b f} (h : crash (f ()) Q I m) :
    crash (brelse b >>= f) Q I m := by
  rw [crash, cwp_bind]
  exact ⟨by simp [LogOp.writes], h⟩

theorem crash_bunpin {b f} (h : crash (f ()) Q I m) :
    crash (bunpin b >>= f) Q I m := by
  rw [crash, cwp_bind]
  exact ⟨by simp [LogOp.writes], h⟩

theorem crash_getLh {f} (h : crash (f m.view.lh) Q I m) :
    crash (getLh >>= f) Q I m := by
  rw [crash, cwp_bind]
  exact ⟨by simp [LogOp.writes], h⟩

theorem crash_setLh {lh f} (h : ∀ t, t.view = { m.view with lh := lh } → crash (f ()) Q I t) :
    crash (setLh lh >>= f) Q I m := by
  rw [crash, cwp_bind]
  exact ⟨by simp [LogOp.writes], h _ rfl⟩

theorem crash_bind {β : Type} {p : LogM β} {f : β → LogM α}
    (h : crash p (fun b v => ∀ t, t.view = v → crash (f b) Q I t) I m) : crash (p >>= f) Q I m := by
  rw [crash, cwp_bind]
  exact cwp_mono h (fun b t ht => ht t rfl) fun _ hI => hI

theorem crash_mono {p Q' I'} (h : crash p Q I m)
    (hQ : ∀ a v, Q a v → Q' a v) (hI : ∀ v, I v → I' v) : crash p Q' I' m :=
  cwp_mono h (fun a t => hQ a t.view) fun t => hI t.view

theorem crash_skip {c : Bool} {b : Nat} {f : Unit → LogM α} (h : crash (f ()) Q I m) :
    crash ((if c then pure () else bunpin b) >>= f) Q I m := by
  cases c with
  | true => exact h
  | false => exact crash_bunpin h

theorem writeHead_crash :
    crash (writeHead G)
      (fun _ v => v = { m.view with
        disk := update m.view.disk G.start (writeHeader (m.view.content G.start) m.view.lh),
        content := update m.view.content G.start
          (writeHeader (m.view.content G.start) m.view.lh),
        nwrites := m.view.nwrites + 1 })
      (fun v => v.disk = m.view.disk ∧ v.nwrites = m.view.nwrites) m := by
  refine crash_bread fun t₁ h₁ => crash_getLh (crash_put fun t₂ h₂ => ?_)
  rw [h₁] at h₂
  refine crash_bwrite (by simp [h₂]) fun t₃ h₃ => ?_
  rw [h₂] at h₃
  refine ⟨by simp [LogOp.writes], ?_⟩
  change t₃.view = _
  simpa using h₃

theorem readHead_crash {I} :
    crash (readHead G)
      (fun _ v => v = { m.view with lh := readHeader (m.view.content G.start) }) I m := by
  refine crash_bread fun t₁ h₁ => crash_setLh fun t₂ h₂ => ⟨by simp [LogOp.writes], ?_⟩
  rw [h₁] at h₂
  exact h₂

/-- ログの中身が `new` で、`bs` のうちのいくつかが書き戻された。 -/
structure Installing (new : Nat → Block) (bs : List Nat) (u v : View) : Prop where
  outside : ∀ c, c ∉ bs → v.disk c = u.disk c
  inside : ∀ c ∈ bs, v.disk c = u.disk c ∨ v.disk c = new c
  nwrites : u.nwrites ≤ v.nwrites

theorem installLoop_crash {c : Bool} (new : Nat → Block) {bs : List Nat} {tail : Nat}
    (hlog : ∀ i (hi : i < bs.length), m.view.content (G.start + (tail + i) + 1) = new bs[i])
    (hhome : ∀ b ∈ bs, ¬ G.InLog b) (hsize : tail + bs.length + 1 ≤ G.size) (hnd : bs.Nodup) :
    crash (installLoop G c tail bs)
      (fun _ v => (∀ b, b ∉ bs → v.disk b = m.view.disk b) ∧ (∀ b ∈ bs, v.disk b = new b) ∧
        v.lh = m.view.lh ∧ (∀ b, G.InLog b → v.content b = m.view.content b) ∧
        v.nwrites = m.view.nwrites + bs.length)
      (Installing new bs m.view) m := by
  induction bs generalizing m tail with
  | nil => exact ⟨fun _ _ => rfl, by simp, rfl, fun _ _ => rfl, rfl⟩
  | cons b bs ih =>
    obtain ⟨hb, hnd⟩ := nodup_cons.mp hnd
    have hlog0 : m.view.content (G.start + tail + 1) = new b := hlog 0 (by simp)
    have hbl : ¬ G.InLog b := hhome b (by simp)
    simp only [length_cons] at hsize
    refine crash_bread fun t₁ h₁ => crash_bread fun t₂ h₂ => crash_put fun t₃ h₃ => ?_
    rw [h₂, h₁, hlog0] at h₃
    refine crash_bwrite ?_ fun t₄ h₄ => crash_skip (crash_brelse (crash_brelse ?_))
    · rw [h₃]
      exact ⟨fun _ _ => rfl, fun _ _ => .inl rfl, le_rfl⟩
    rw [h₃] at h₄
    simp only [update_self] at h₄
    have hne : ∀ i, i < bs.length → G.start + (tail + 1 + i) + 1 ≠ b := by
      intro i hi he
      exact hbl (he ▸ ⟨by omega, by omega⟩)
    refine crash_mono (@ih t₄ (tail + 1) ?_
      (fun x hx => hhome x (mem_cons_of_mem _ hx)) (by omega) hnd) ?_ ?_
    · intro i hi
      simp only [h₄]
      rw [update_of_ne (hne i hi)]
      have := hlog (i + 1) (by simpa using hi)
      rw [show tail + (i + 1) = tail + 1 + i by omega] at this
      simpa using this
    · rintro _ v ⟨h1, h2, h3, h4, h5⟩
      simp only [h₄] at h1 h3 h4 h5
      refine ⟨fun x hx => ?_, fun x hx => ?_, h3, fun x hx => ?_, ?_⟩
      · simp only [mem_cons, not_or] at hx
        rw [h1 x hx.2, update_of_ne hx.1]
      · rcases mem_cons.mp hx with rfl | hx
        · rw [h1 x hb, update_self]
        · exact h2 x hx
      · rw [h4 x hx, update_of_ne]
        rintro rfl
        exact hbl hx
      · rw [h5]; simp only [length_cons]; omega
    rintro v ⟨h1, h2, h3⟩
    simp only [h₄] at h1 h2 h3
    refine ⟨fun x hx => ?_, fun x hx => ?_, by omega⟩
    · simp only [mem_cons, not_or] at hx
      rw [h1 x hx.2, update_of_ne hx.1]
    by_cases hxb : x = b
    · subst hxb
      rw [h1 x hb, update_self]
      exact .inr rfl
    · rcases mem_cons.mp hx with hx | hx
      · exact absurd hx hxb
      · have := h2 x hx
        rwa [update_of_ne hxb] at this

theorem writeLogLoop_crash {bs tail} (hhome : ∀ b ∈ bs, ¬ G.InLog b) (hsize : tail + bs.length + 1 ≤ G.size) :
    crash (writeLogLoop G tail bs)
      (fun _ v => (∀ b, ¬ (G.start + tail < b ∧ b ≤ G.start + tail + bs.length) →
          v.disk b = m.view.disk b ∧ v.content b = m.view.content b) ∧
        (∀ i (hi : i < bs.length), v.disk (G.start + (tail + i) + 1) = m.view.content bs[i] ∧
          v.content (G.start + (tail + i) + 1) = m.view.content bs[i]) ∧
        v.lh = m.view.lh ∧ v.nwrites = m.view.nwrites + bs.length)
      (fun v => (∀ b, ¬ (G.start < b ∧ G.InLog b) → v.disk b = m.view.disk b) ∧
        v.nwrites < m.view.nwrites + bs.length) m := by
  induction bs generalizing m tail with
  | nil => exact ⟨fun _ _ => ⟨rfl, rfl⟩, by simp, rfl, rfl⟩
  | cons b bs ih =>
    have hbl : ¬ G.InLog b := hhome b (by simp)
    simp only [length_cons] at hsize
    refine crash_bread fun t₁ h₁ => crash_bread fun t₂ h₂ => crash_put fun t₃ h₃ => ?_
    rw [h₂, h₁] at h₃
    refine crash_bwrite ?_ fun t₄ h₄ => crash_brelse (crash_brelse ?_)
    · simp [h₃]
    simp only [h₃, update_self] at h₄
    have hcont : ∀ x, ¬ G.InLog x → t₄.view.content x = m.view.content x := by
      intro x hx
      simp only [h₄]
      rw [update_of_ne]
      rintro rfl
      exact hx ⟨by omega, by omega⟩
    refine crash_mono (@ih t₄ (tail + 1)
      (fun x hx => hhome x (mem_cons_of_mem _ hx)) (by omega)) ?_ ?_
    · rintro _ v ⟨h1, h2, h3, h4⟩
      refine ⟨fun x hx => ?_, fun i hi => ?_, by simpa only [h₄] using h3, ?_⟩
      · simp only [length_cons] at hx
        have := h1 x (by omega)
        simp only [h₄] at this
        rwa [update_of_ne (by omega), update_of_ne (by omega)] at this
      · cases i with
        | zero =>
          have := h1 (G.start + tail + 1) (by omega)
          simp only [h₄, update_self] at this
          simpa using this
        | succ i =>
          have hi' : i < bs.length := by simpa using hi
          have := h2 i hi'
          rw [hcont _ (hhome _ (mem_cons_of_mem _ (getElem_mem hi')))] at this
          rw [show tail + (i + 1) = tail + 1 + i by omega]
          simpa using this
      · simp only [h₄] at h4
        rw [h4]; simp only [length_cons]; omega
    rintro v ⟨h1, h2⟩
    simp only [h₄] at h1 h2
    refine ⟨fun x hx => ?_, by simp only [length_cons]; omega⟩
    rw [h1 x hx, update_of_ne]
    rintro rfl
    exact hx ⟨by omega, by omega, by omega⟩

/-- ログが空で、ログの外のブロックは `f` である。 -/
structure Clean (G : Geometry) (f d : Nat → Block) : Prop where
  header : readHeader (d G.start) = []
  home : ∀ c, ¬ G.InLog c → d c = f c

/-- 先頭のブロックが書かれ、ログに新しい中身がそろい、ホームのブロックは途中まで書き戻された。 -/
structure Committed (G : Geometry) (lh : List Nat) (old new d : Nat → Block) : Prop where
  header : readHeader (d G.start) = lh
  log : ∀ i (hi : i < lh.length), d (G.start + i + 1) = new lh[i]
  rest : ∀ c, ¬ G.InLog c → c ∉ lh → d c = old c
  home : ∀ c ∈ lh, d c = old c ∨ d c = new c

variable {f d old new : Nat → Block} {lh : List Nat}

theorem Txn.start_inLog (h : Txn G lh) : G.InLog G.start := ⟨le_rfl, by have := h.small; omega⟩

theorem readHeader_empty {e} : readHeader (writeHeader e []) = [] :=
  readHeader_writeHeader (Nat.zero_le _) (by simp)

theorem recoverFromLog_clean (h : Clean G f d) (hs : G.InLog G.start) :
    crash (recoverFromLog G) (fun _ v => Clean G f v.disk) (fun v => Clean G f v.disk) (.boot d) := by
  refine crash_bind (crash_mono readHead_crash ?_ fun _ hI => hI)
  rintro _ v rfl t₃ h₃
  have h₃ : t₃.view = { (Mach.boot d).view with lh := [] } := by
    rw [h₃, ← h.header]; rfl
  refine crash_bind (crash_getLh ?_)
  rw [h₃]
  intro t₄ h₄
  refine crash_setLh fun t₅ h₅ => crash_mono writeHead_crash ?_ ?_
  · rintro _ v rfl
    rw [h₅, h₄, h₃]
    refine ⟨?_, fun c hc => ?_⟩
    · simp only [update_self]; exact readHeader_empty
    · have : c ≠ G.start := by rintro rfl; exact hc hs
      simp only [update_of_ne this]
      exact h.home c hc
  · rintro v ⟨hv, _⟩
    rw [hv, h₅, h₄, h₃]
    exact h

/-- 写している途中で止まっても、コミットは失われない。 -/
theorem Committed.installing {u v} (h : Committed G lh old new u.disk) (ht : Txn G lh)
    (hv : Installing new lh u v) : Committed G lh old new v.disk where
  header := by
    rw [hv.outside _ fun hm => ht.home _ hm ht.start_inLog]
    exact h.header
  log i hi := by
    rw [hv.outside _ fun hm => ht.home _ hm ⟨by omega, by have := ht.small; omega⟩]
    exact h.log i hi
  rest c hc hm := by rw [hv.outside c hm]; exact h.rest c hc hm
  home c hm := by
    rcases hv.inside c hm with hd | hd
    · rw [hd]; exact h.home c hm
    · exact .inr hd

theorem Committed.finish {u v : View} {e : Block} (h : Committed G lh old new u.disk) (ht : Txn G lh)
    (hout : ∀ c, c ∉ lh → v.disk c = u.disk c) (hin : ∀ c ∈ lh, v.disk c = new c) :
    Clean G (fun c => if c ∈ lh then new c else old c)
      (update v.disk G.start (writeHeader e [])) where
  header := by rw [update_self]; exact readHeader_empty
  home c hc := by
    have hne : c ≠ G.start := by rintro rfl; exact hc ht.start_inLog
    rw [update_of_ne hne]
    by_cases hm : c ∈ lh
    · rw [if_pos hm]; exact hin c hm
    · rw [if_neg hm, hout c hm]; exact h.rest c hc hm

/-- 回復が途中で止まってもコミットは残り、終われば新しい中身になる。 -/
theorem recoverFromLog_committed (h : Committed G lh old new d) (ht : Txn G lh) :
    crash (recoverFromLog G)
      (fun _ v => Clean G (fun c => if c ∈ lh then new c else old c) v.disk)
      (fun v => Committed G lh old new v.disk) (.boot d) := by
  refine crash_bind (crash_mono readHead_crash ?_ fun _ hI => hI)
  rintro _ v rfl t₃ h₃
  have h₃ : t₃.view = { (Mach.boot d).view with lh := lh } := by
    conv_rhs => rw [← h.header]
    rw [h₃]; rfl
  have hd : t₃.view.disk = d := by rw [h₃]; rfl
  have h' : Committed G lh old new t₃.view.disk := by rwa [hd]
  have hlh : t₃.view.lh = lh := by rw [h₃]
  refine crash_bind (crash_getLh ?_)
  rw [hlh]
  refine crash_mono (installLoop_crash new (fun i hi => ?_) ht.home
    (by have := ht.small; omega) ht.nodup) ?_ fun v hv => h'.installing ht hv
  · rw [h₃, Nat.zero_add]; exact h.log i hi
  rintro _ v ⟨hout, hin, _, _, hnw⟩ t₄ h₄
  refine crash_setLh fun t₅ h₅ => crash_mono writeHead_crash ?_ ?_
  · rintro _ w rfl
    rw [h₅, h₄]
    exact h'.finish ht hout hin
  · rintro w ⟨hw, _⟩
    rw [hw, h₅, h₄]
    exact h'.installing ht ⟨hout, fun c hc => .inr (hin c hc), by change _ ≤ v.nwrites; omega⟩

def Phase (G : Geometry) (m : Mach) (v : View) : Prop :=
  (v.nwrites ≤ m.nwrites + m.lh.length → Clean G m.disk v.disk) ∧
    (m.nwrites + m.lh.length < v.nwrites → Committed G m.lh m.disk m.content v.disk)

/-- コミットのどこで止まっても、`Phase` のどれかにある。 -/
theorem commit_crash (ht : Txn G m.lh) (hempty : readHeader (m.disk G.start) = []) :
    crash (commit G) (fun _ v => Clean G m.after v.disk) (Phase G m) m := by
  have hclean : Clean G m.disk m.disk := ⟨hempty, fun _ _ => rfl⟩
  refine crash_getLh ?_
  by_cases h0 : m.lh.length > 0
  · rw [show m.view.lh = m.lh from rfl, if_pos h0]
    refine crash_bind (crash_getLh (crash_mono (writeLogLoop_crash ht.home
      (by have := ht.small; simp only [Mach.view]; omega)) ?_ ?_))
    · rintro _ v ⟨hout, hin, hlh, hnw⟩ t₁ h₁
      have hstart : t₁.view.disk G.start = m.disk G.start := by
        rw [h₁]; exact (hout _ (by omega)).1
      have hhome : ∀ c, ¬ G.InLog c → t₁.view.disk c = m.disk c := by
        intro c hc
        rw [h₁]
        refine (hout c fun hr => hc ⟨by omega, ?_⟩).1
        have := ht.small
        simp only [Mach.view] at hr
        omega
      have hclean₁ : Clean G m.disk t₁.view.disk := ⟨by rw [hstart]; exact hempty, hhome⟩
      refine crash_bind (crash_mono writeHead_crash ?_ ?_)
      · rintro _ w rfl t₂ h₂
        have hl₁ : t₁.view.lh = m.lh := by rw [h₁, hlh]; rfl
        have hl₂ : t₂.view.lh = m.lh := by rw [h₂]; exact hl₁
        have hne : ∀ i, G.start + i + 1 ≠ G.start := by intro i; omega
        have hcom : Committed G m.lh m.disk m.content t₂.view.disk := by
          rw [h₂]
          refine ⟨?_, fun i hi => ?_, fun c hc _ => ?_, fun c hc => .inl ?_⟩
          · simp only [update_self, hl₁]
            exact readHeader_writeHeader ht.fits ht.blockno
          · simp only [update_of_ne (hne i)]
            have := (hin i hi).1
            rw [Nat.zero_add] at this
            rw [h₁]; exact this
          · have : c ≠ G.start := by rintro rfl; exact hc ht.start_inLog
            simp only [update_of_ne this]; exact hhome c hc
          · have : c ≠ G.start := by rintro rfl; exact ht.home _ hc ht.start_inLog
            simp only [update_of_ne this]; exact hhome c (ht.home c hc)
        have hn₂ : t₂.view.nwrites = m.nwrites + m.lh.length + 1 := by
          rw [h₂]; simp only [h₁, hnw]; rfl
        refine crash_bind (crash_getLh ?_)
        rw [hl₂]
        refine crash_mono (installLoop_crash m.content (fun i hi => ?_) ht.home
          (by have := ht.small; omega) ht.nodup) ?_ fun x hx => ⟨fun hle => ?_, fun _ =>
            hcom.installing ht hx⟩
        · rw [h₂]
          simp only [Nat.zero_add, update_of_ne (hne i), h₁]
          have := (hin i hi).2
          rwa [Nat.zero_add] at this
        · rintro _ x ⟨hout', hin', _, _, hnw'⟩ t₃ h₃
          refine crash_setLh fun t₄ h₄ => crash_mono writeHead_crash ?_ ?_
          · rintro _ y rfl
            rw [h₄, h₃]
            exact hcom.finish ht hout' hin'
          rintro y ⟨hy, hyn⟩
          refine ⟨fun hle => ?_, fun _ => ?_⟩
          · rw [hyn, h₄, h₃] at hle; simp only [hnw', hn₂] at hle; omega
          · rw [hy, h₄, h₃]
            exact hcom.installing ht
              ⟨hout', fun c hc => .inr (hin' c hc), by change _ ≤ x.nwrites; omega⟩
        · have := hx.nwrites; rw [hn₂] at this; omega
      · rintro w ⟨hw, hwn⟩
        refine ⟨fun _ => by rw [hw]; exact hclean₁, fun hlt => ?_⟩
        rw [hwn, h₁, hnw] at hlt
        exact absurd hlt (Nat.lt_irrefl _)
    · rintro v ⟨hv, hvn⟩
      simp only [Mach.view] at hv hvn
      refine ⟨fun _ => ⟨?_, fun c hc => ?_⟩, fun hlt => by omega⟩
      · rw [hv _ (by omega)]; exact hempty
      · exact hv c fun hr => hc hr.2
  · rw [show m.view.lh = m.lh from rfl, if_neg h0]
    have hnil : m.lh = [] := eq_nil_of_length_eq_zero (by omega)
    refine ⟨hempty, fun c _ => ?_⟩
    simp [Mach.after, hnil, Mach.view]

end Xv6.Log
