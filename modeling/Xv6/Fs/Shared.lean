import Xv6.Fs.Contents

/-!
# オフセットの共有
-/

namespace Xv6.Fs.Shared

open Xv6.Lib List

variable {sb : Superblock} {u : User} {E : String → Prop} {f i off0 n k : Nat} {s s' : Store}

/-! ## 一回り -/

def writeChunk (sb : Superblock) (f addr n : Nat) : FsM (Option Nat) := do
  beginOp
  let x ← file f
  ilock sb x.ip
  let r ← writei sb x.ip (.user addr) x.off n
  match r with
  | some tot => do
    (if 0 < tot then setFile f { x with off := x.off + tot } else pure ())
    iunlock x.ip
    endOp
    return some tot
  | none =>
    iunlock x.ip
    endOp
    return none

theorem wp_congr {α : Type} {x : StateT Store (Except String) α} {Q Q' : α → Store → Prop} (h : ∀ a t, Q a t ↔ Q' a t) :
    wp x Q E s ↔ wp x Q' E s :=
  ⟨fun hx => wp_post hx fun a t => (h a t).mp, fun hx => wp_post hx fun a t => (h a t).mpr⟩

theorem filewriteLoop_chunk {addr fuel : Nat} {Q : Nat → Store → Prop} :
    wp (exec u (filewriteLoop sb f addr k n (fuel + 1))) Q E s ↔
      (k < n → wp (exec u (writeChunk sb f (addr + k) (min (n - k) writeMax))) (fun r t =>
        wp (exec u (if r = some (min (n - k) writeMax) then filewriteLoop sb f addr (k + min (n - k) writeMax) n fuel
          else pure k)) Q E t) E s) ∧ (¬k < n → Q k s) := by
  rw [filewriteLoop, exec_ite]
  simp only [writeChunk, exec_bind]
  refine and_congr (imp_congr_right fun _ => ?_) Iff.rfl
  refine wp_congr fun _ _ => wp_congr fun x _ => wp_congr fun _ _ => wp_congr fun r t => ?_
  cases r with
  | none => simp
  | some tot => simp only [exec_bind, Free.pure_eq, exec_ret, Option.some.injEq]

structure Sharing (sb : Superblock) (f i : Nat) (s : Store) : Prop where
  ok : sb.Ok
  owned : Owned sb s.blk (s.ino sb)
  tidy : Tidy sb s i
  type : (s.k.files f).type = .inode
  ip : (s.k.files f).ip = i

/-- `r` バイトを書いた一回り。書いた範囲には書き手のバイトがあり、その前は変わらない。 -/
structure Advanced (sb : Superblock) (f i : Nat) (data : Bytes) (s : Store) (r : Nat) (s' : Store) : Prop where
  sharing : Sharing sb f i s'
  off : (s'.k.files f).off = (s.k.files f).off + r
  size : 0 < r → (s.k.files f).off + r ≤ (s'.ino sb i).size
  grow : (s.ino sb i).size ≤ (s'.ino sb i).size
  new : ∀ x < r, s'.byte sb i ((s.k.files f).off + x) = data x
  old : ∀ p < (s.ino sb i).size, p < (s.k.files f).off → s'.byte sb i p = s.byte sb i p
  umem : s'.umem = s.umem

theorem Advanced.zero (h : Sharing sb f i s) (data : Bytes) : Advanced sb f i data s 0 s where
  sharing := h
  off := rfl
  size hc := absurd hc (Nat.lt_irrefl 0)
  grow := le_rfl
  new x hx := absurd hx (Nat.not_lt_zero x)
  old _ _ _ := rfl
  umem := rfl

def setF (f : Nat) (x : File) (s : Store) : Store := s.setK (s.k.setF f x)

theorem setF_self : setF f (s.k.files f) s = s := by simp [setF, Store.setK, Kernel.setF]

theorem Written.advanced {src s1 r x} (h : Sharing sb f i s)
    (hoff : (s.k.files f).off ≤ (s.ino sb i).size) (hmax : (s.k.files f).off + n ≤ maxfile * bsize)
    (hw : Written sb u i src (s.k.files f).off 0 n s r s1) (htype : x.type = .inode) (hip : x.ip = i)
    (hx : x.off = (s.k.files f).off + r.2) :
    Advanced sb f i (src.data s.umem) s r.2
      (setF f x ((s1.setD i { (s1.k.itab i).d with size := max (s1.k.itab i).d.size r.1 }).iupdated sb i)) := by
  have hi := h.tidy.cached
  have hi1 := hw.grows.cached hi
  have hwrote := hw.wrote h.ok hi hoff hmax
  have hr : Retitled (s1.k.itab i).d { (s1.k.itab i).d with size := max (s1.k.itab i).d.size r.1 } := ⟨hi1.type, rfl⟩
  generalize { (s1.k.itab i).d with size := max (s1.k.itab i).d.size r.1 } = d at *
  have hc := hwrote.cached
  constructor
  case sharing =>
    refine ⟨h.ok, hwrote.owned, ⟨⟨hc.lt, hc.ref, hc.valid, hc.type⟩, hwrote.full h.tidy.full⟩, ?_, ?_⟩
    · simpa [setF, Store.setK, Kernel.setF] using htype
    · simpa [setF, Store.setK, Kernel.setF] using hip
  case off => simpa [setF, Store.setK, Kernel.setF] using hx
  case size =>
    intro _
    exact (le_max_right _ _).trans hwrote.size.ge
  case grow => exact (le_max_left _ _).trans hwrote.size.ge
  case new =>
    intro x hx
    refine (hwrote.new _ (by omega) (by omega)).trans ?_
    rw [Nat.add_sub_cancel_left]
  case old =>
    intro p hp hlt
    have hm : s.Mapped sb i p := h.tidy.full _ (by
      have := Nat.div_mul_le_self p bsize
      omega)
    exact (hr.byte h.ok hi1 hw.grows.owned (hw.grows.mapped hi.live hm)).2.trans
      (hw.grows.byte hi.live hm fun _ hW => by omega)
  case umem => exact hwrote.umem

theorem writeChunk_spec {addr} (h : Sharing sb f i s) :
    wp (exec u (writeChunk sb f addr n))
      (fun r s' => Advanced sb f i (fun x => s.umem (addr + x)) s (r.getD 0) s') E s := by
  have hi := h.tidy.cached
  have hunlock : ∀ {t : Store} {r : Option Nat}, Advanced sb f i (fun x => s.umem (addr + x)) s (r.getD 0) t →
      wp (exec u (iunlock i)) (fun _ t => wp (exec u endOp) (fun _ t => wp (exec u (pure r))
        (fun r s' => Advanced sb f i (fun x => s.umem (addr + x)) s (r.getD 0) s') E t) E t) E t := by
    intro t r ht
    have hpos := ht.sharing.tidy.cached.ref
    simp only [iunlock, exec_bind, exec_getK, exec_ite]
    exact ⟨fun hc => absurd hpos (by omega), fun _ => ht⟩
  rw [writeChunk, exec_bind]
  refine wp_pure.mpr ?_
  rw [file, exec_bind, exec_bind, exec_getK]
  refine wp_pure.mpr ?_
  rw [h.ip, exec_bind, ilock, exec_bind, exec_getK, exec_ite]
  refine ⟨fun hc => absurd hi.ref (by omega), fun _ => ?_⟩
  rw [exec_ite]
  refine ⟨fun _ => wp_pure.mpr ?_, fun hv => absurd hi.valid hv⟩
  rw [exec_bind]
  refine writei_written h.ok h.owned hi (fun _ => ?_) fun r s1 hoff hmax hw => ?_
  · simp only [exec_bind]
    exact hunlock (r := none) (.zero h _)
  have hfiles : s1.k.files = s.k.files := by
    obtain ⟨a, ha⟩ := hw.grows.addrs
    rw [ha]
    rfl
  simp only [exec_bind]
  rw [exec_ite]
  refine ⟨fun _ => ?_, fun hz => wp_pure.mpr ?_⟩
  · rw [setFile, exec_bind, exec_getK, exec_setK]
    exact hunlock (r := some r.2) (Written.advanced h hoff hmax hw
      (x := { s.k.files f with ip := i, off := (s.k.files f).off + r.2 }) h.type rfl rfl)
  -- 一バイトも書かなければ、オフセットはそのままである。
  have hz : r.2 = 0 := Nat.eq_zero_of_not_pos hz
  have hdone := Written.advanced h hoff hmax hw (x := s.k.files f) h.type h.ip (by omega)
  rw [← hfiles] at hdone
  have hself := setF_self (f := f)
    (s := (s1.setD i { (s1.k.itab i).d with size := max (s1.k.itab i).d.size r.1 }).iupdated sb i)
  change setF f (s1.k.files f) _ = _ at hself
  rw [hself] at hdone
  exact hunlock (r := some r.2) hdone

/-! ## 系 -/

structure Call where
  pid : Nat
  user : User
  mem : Bytes
  addr : Nat
  n : Nat

/-- `loop k` は `k` まで書いてループの頭にあること、`ret r` は `r` を返したこと。 -/
inductive Phase
  | loop (k : Nat)
  | ret (r : Int)

/-- 一回りの記録。呼び出し `id` が、`pos` の位置から `len` バイトを書いた。 -/
structure Chunk where
  id : Nat
  call : Call
  pos : Nat
  len : Nat

/-- 呼び出しには、始まった順に番号を付ける。`log` は、一回りの記録を順に並べる。 -/
structure Sys where
  store : Store
  calls : List Call
  phase : Nat → Phase
  log : List Chunk

def Sys.init (s : Store) : Sys := ⟨s, [], fun _ => .ret 0, []⟩

structure Apart (sb : Superblock) (f i : Nat) (s s' : Store) : Prop where
  owned : Owned sb s'.blk (s'.ino sb)
  tidy : Tidy sb s' i
  size : (s'.ino sb i).size = (s.ino sb i).size
  byte : ∀ p < (s.ino sb i).size, s'.byte sb i p = s.byte sb i p
  file : { s'.k.files f with ref := (s.k.files f).ref } = s.k.files f

def Call.view (c : Call) (s : Store) : Store := { s with umem := c.mem }

theorem Sharing.view (h : Sharing sb f i s) (c : Call) : Sharing sb f i (c.view s) where
  __ := h
  tidy := ⟨⟨h.tidy.cached.lt, h.tidy.cached.ref, h.tidy.cached.valid, h.tidy.cached.type⟩, h.tidy.full⟩

def Call.next (c : Call) (k : Nat) : Nat := min (c.n - k) writeMax

def Sys.enter (s : Sys) (f : Nat) (c : Call) : Sys :=
  { s with
    calls := s.calls ++ [c]
    phase := update s.phase s.calls.length (if (s.store.k.files f).writable then .loop 0 else .ret (-1)) }

theorem enter_phase {s : Sys} {c : Call} :
    (s.enter f c).phase s.calls.length = if (s.store.k.files f).writable then .loop 0 else .ret (-1) :=
  update_self ..

def Sys.ran (s : Sys) (id k : Nat) (c : Call) (r : Option Nat) (st : Store) : Sys :=
  { s with
    store := st
    phase := update s.phase id (if r = some (c.next k) then .loop (k + c.next k) else .ret (-1))
    log := s.log ++ [⟨id, c, k, r.getD 0⟩] }

theorem ran_log {s : Sys} {id k : Nat} {c : Call} {r : Option Nat} {st : Store} :
    (s.ran id k c r st).log = s.log ++ [⟨id, c, k, r.getD 0⟩] := rfl

theorem ran_phase {s : Sys} {id k : Nat} {c : Call} {r : Option Nat} {st : Store} :
    (s.ran id k c r st).phase id = if r = some (c.next k) then .loop (k + c.next k) else .ret (-1) :=
  update_self ..

def Sys.leave (s : Sys) (id k : Nat) (c : Call) : Sys :=
  { s with phase := update s.phase id (.ret (if k = c.n then c.n else -1)) }

theorem leave_phase {s : Sys} {id k : Nat} {c : Call} :
    (s.leave id k c).phase id = .ret (if k = c.n then c.n else -1) := update_self ..

/-- 呼び出しの歩。一つの歩は、`begin_op` から `end_op` までの一回りである。 -/
inductive Own (sb : Superblock) (f : Nat) : Sys → Sys → Prop
  | call {s : Sys} (c : Call) (hidle : ∀ id c', s.calls[id]? = some c' → c'.pid = c.pid → ∃ r, s.phase id = .ret r) :
      Own sb f s (s.enter f c)
  | chunk {s : Sys} {id k : Nat} {c : Call} {r : Option Nat} {st : Store} (hc : s.calls[id]? = some c)
      (hp : s.phase id = .loop k) (hlt : k < c.n)
      (hrun : exec c.user (writeChunk sb f (c.addr + k) (c.next k)) (c.view s.store) = .ok (r, st)) :
      Own sb f s (s.ran id k c r st)
  | finish {s id k c} (hc : s.calls[id]? = some c) (hp : s.phase id = .loop k) (hge : ¬k < c.n) :
      Own sb f s (s.leave id k c)

/-- 呼び出しの歩か、このファイルの外の歩。 -/
inductive Step (sb : Superblock) (f i : Nat) : Sys → Sys → Prop
  | own {s t : Sys} (h : Own sb f s t) : Step sb f i s t
  | other {s : Sys} {st : Store} (h : Apart sb f i s.store st) : Step sb f i s { s with store := st }

/-! ## 不変条件 -/

def total (log : List Chunk) : Nat := (log.map Chunk.len).sum

theorem total_append (l l' : List Chunk) : total (l ++ l') = total l + total l' := by
  simp [total]

def pieces (k n : Nat) : List (Nat × Nat) :=
  if k < n then (k, min (n - k) writeMax) :: pieces (k + min (n - k) writeMax) n else []
  termination_by n - k
  decreasing_by
    have : 0 < writeMax := by decide
    omega

theorem sum_pieces (k n : Nat) : ((pieces k n).map Prod.snd).sum = n - k := by
  fun_induction pieces k n with
  | case1 k hlt ih =>
    rw [map_cons, sum_cons, ih]
    simp only
    omega
  | case2 k hge =>
    simp
    omega

def cuts (log : List Chunk) (id : Nat) : List (Nat × Nat) :=
  (log.filter fun ch => ch.id = id).map fun ch => (ch.pos, ch.len)

structure Inv (sb : Superblock) (f i off0 : Nat) (s : Sys) : Prop where
  sharing : Sharing sb f i s.store
  off : (s.store.k.files f).off = off0 + total s.log
  inside : 0 < total s.log → off0 + total s.log ≤ (s.store.ino sb i).size
  placed : ∀ pre ch post, s.log = pre ++ ch :: post → ∀ x < ch.len,
    s.store.byte sb i (off0 + total pre + x) = ch.call.mem (ch.call.addr + ch.pos + x)
  known : ∀ ch ∈ s.log, s.calls[ch.id]? = some ch.call
  loop : ∀ id c k, s.calls[id]? = some c → s.phase id = .loop k → cuts s.log id ++ pieces k c.n = pieces 0 c.n
  ret : ∀ id c, s.calls[id]? = some c → s.phase id = .ret c.n → cuts s.log id = pieces 0 c.n

theorem Inv.init (h : Sharing sb f i s) : Inv sb f i (s.k.files f).off (.init s) where
  sharing := h
  off := rfl
  inside hc := absurd hc (Nat.lt_irrefl 0)
  placed pre ch post hlog := by simp [Sys.init] at hlog
  known ch hch := by simp [Sys.init] at hch
  loop id c k hc := by simp [Sys.init] at hc
  ret id c hc := by simp [Sys.init] at hc

theorem getElem?_snoc {l : List Call} {c c' : Call} {id : Nat} (h : (l ++ [c])[id]? = some c') :
    id = l.length ∧ c' = c ∨ l[id]? = some c' := by
  by_cases hlt : id < l.length
  · rw [getElem?_append_left hlt] at h
    exact .inr h
  · rw [getElem?_append_right (Nat.le_of_not_lt hlt), getElem?_singleton] at h
    split at h
    · cases h
      exact .inl ⟨by omega, rfl⟩
    · cases h

theorem cuts_snoc {log ch id} :
    cuts (log ++ [ch]) id = cuts log id ++ if ch.id = id then [(ch.pos, ch.len)] else [] := by
  rw [cuts, filter_append, map_append, cuts]
  by_cases he : ch.id = id <;> simp [he]

variable {t : Sys}

theorem total_split {log pre post ch x} (h : log = pre ++ ch :: post) (hx : x < ch.len) :
    total pre + x < total log := by
  rw [h, total_append]
  simp only [total, map_cons, sum_cons]
  omega

section

variable (h : Inv sb f i off0 t)
include h

theorem Inv.placed_lt {pre post ch x}
    (hlog : t.log = pre ++ ch :: post) (hx : x < ch.len) : off0 + total pre + x < (t.store.ino sb i).size ∧
      off0 + total pre + x < (t.store.k.files f).off := by
  have hlt := total_split hlog hx
  have hin := h.inside (by omega)
  rw [h.off]
  omega

theorem Inv.call (c : Call) : Inv sb f i off0 (t.enter f c) := by
  have hlt : ∀ {id c'}, t.calls[id]? = some c' → id < t.calls.length := fun hc => (List.getElem?_eq_some_iff.mp hc).1
  have hnone : cuts t.log t.calls.length = [] := by
    rw [cuts, List.filter_eq_nil_iff.mpr, List.map_nil]
    intro ch hch
    have := hlt (h.known ch hch)
    simp only [decide_eq_true_eq]
    omega
  constructor
  case sharing => exact h.sharing
  case off => exact h.off
  case inside => exact h.inside
  case placed => exact h.placed
  case known =>
    intro ch hch
    have hch := h.known ch hch
    exact (getElem?_append_left (hlt hch)).trans hch
  case loop =>
    intro id c' k hc hp
    rcases update_eq hp with ⟨rfl, hq⟩ | ⟨hne, hp⟩
    · rcases getElem?_snoc hc with ⟨-, rfl⟩ | hc
      · split at hq
        · injection hq with hk
          rw [← hk]
          exact congrArg (· ++ pieces 0 c'.n) hnone
        · cases hq
      · exact absurd (hlt hc) (Nat.lt_irrefl _)
    · rcases getElem?_snoc hc with ⟨he, -⟩ | hc
      · exact absurd he hne
      · exact h.loop id c' k hc hp
  case ret =>
    intro id c' hc hp
    rcases update_eq hp with ⟨-, hp⟩ | ⟨hne, hp⟩
    · split at hp
      · cases hp
      · injection hp with hp
        omega
    · rcases getElem?_snoc hc with ⟨he, -⟩ | hc
      · exact absurd he hne
      · exact h.ret id c' hc hp

theorem Inv.finish {id k : Nat} {c : Call} (hc : t.calls[id]? = some c) (hp : t.phase id = .loop k)
    (hge : ¬k < c.n) : Inv sb f i off0 (t.leave id k c) := by
  refine ⟨h.sharing, h.off, h.inside, h.placed, h.known, fun id' c' k' hc' hp' => ?_, fun id' c' hc' hp' => ?_⟩
  · rcases update_eq hp' with ⟨-, hp'⟩ | ⟨-, hp'⟩
    · cases hp'
    · exact h.loop id' c' k' hc' hp'
  · rcases update_eq hp' with ⟨rfl, -⟩ | ⟨-, hp'⟩
    · obtain rfl : c = c' := Option.some.inj (hc.symm.trans hc')
      have hdone := h.loop id' c k hc hp
      rwa [pieces, if_neg hge, append_nil] at hdone
    · exact h.ret id' c' hc' hp'

theorem Inv.other {st} (ha : Apart sb f i t.store st) :
    Inv sb f i off0 { t with store := st } := by
  have hfile := ha.file
  constructor
  case sharing =>
    refine ⟨h.sharing.ok, ha.owned, ha.tidy, ?_, ?_⟩
    · rw [← h.sharing.type, ← hfile]
    · rw [← h.sharing.ip, ← hfile]
  case off =>
    rw [← h.off, ← hfile]
  case inside =>
    intro hpos
    exact (h.inside hpos).trans ha.size.ge
  case placed =>
    intro pre ch post hlog x hx
    rw [← h.placed pre ch post hlog x hx]
    exact ha.byte _ (h.placed_lt hlog hx).1
  case known => exact h.known
  case loop => exact h.loop
  case ret => exact h.ret

theorem Inv.chunk {id k : Nat} {c : Call} {r : Option Nat} {st : Store} (hc : t.calls[id]? = some c)
    (hp : t.phase id = .loop k) (hlt : k < c.n)
    (ha : Advanced sb f i (fun x => c.mem (c.addr + k + x)) (c.view t.store) (r.getD 0) st) :
    Inv sb f i off0 (t.ran id k c r st) := by
  have hoff := h.off
  have hsum : total (t.ran id k c r st).log = total t.log + r.getD 0 := by
    rw [ran_log, total_append]
    simp [total]
  constructor
  case sharing => exact ha.sharing
  case off =>
    rw [hsum, ← Nat.add_assoc, ← hoff]
    exact ha.off
  case inside =>
    intro hpos
    rw [hsum] at hpos ⊢
    by_cases hz : 0 < r.getD 0
    · rw [← Nat.add_assoc, ← hoff]
      exact ha.size hz
    · have hin := (h.inside (by omega)).trans ha.grow
      change _ ≤ (st.ino sb i).size
      omega
  case placed =>
    -- 最後の記録は今書いた範囲であり、ほかの記録はその前にある。
    intro pre ch post hlog x hx
    rcases eq_nil_or_concat post with rfl | ⟨post, last, rfl⟩
    · obtain ⟨rfl, hch⟩ := append_inj' hlog rfl
      cases hch
      rw [← hoff]
      exact ha.new x hx
    · rw [concat_eq_append, ← cons_append, ← append_assoc] at hlog
      obtain ⟨hlog, -⟩ := append_inj' hlog rfl
      obtain ⟨h1, h2⟩ := h.placed_lt hlog hx
      exact (ha.old _ h1 h2).trans (h.placed pre ch post hlog x hx)
  case known =>
    intro ch hch
    rcases mem_append.mp hch with hch | hch
    · exact h.known ch hch
    · rw [mem_singleton.mp hch]
      exact hc
  case loop =>
    intro id' c' k' hc' hp'
    rcases update_eq hp' with ⟨rfl, hq⟩ | ⟨hne, hp'⟩
    · obtain rfl : c = c' := Option.some.inj (hc.symm.trans hc')
      split at hq
      · rename_i hr
        injection hq with hk
        rw [← hk]
        have hloop := h.loop id' c k hc hp
        rw [pieces, if_pos hlt] at hloop
        rw [ran_log, cuts_snoc, if_pos rfl, hr, Option.getD_some, append_assoc]
        exact hloop
      · cases hq
    · rw [ran_log, cuts_snoc, if_neg hne.symm, append_nil]
      exact h.loop id' c' k' hc' hp'
  case ret =>
    intro id' c' hc' hp'
    rcases update_eq hp' with ⟨-, hp'⟩ | ⟨hne, hp'⟩
    · split at hp'
      · cases hp'
      · injection hp' with hp'
        omega
    · rw [ran_log, cuts_snoc, if_neg hne.symm, append_nil]
      exact h.ret id' c' hc' hp'

theorem Inv.step {t'} (hs : Step sb f i t t') : Inv sb f i off0 t' := by
  cases hs with
  | own hs =>
    cases hs with
    | call c _ => exact h.call c
    | chunk hc hp hlt hrun =>
      have ha := wp_ok (writeChunk_spec (E := fun _ => True) (h.sharing.view _)) hrun
      exact h.chunk hc hp hlt ha
    | finish hc hp hge => exact h.finish hc hp hge
  | other ha => exact h.other ha

end

theorem Inv.run (h : Sharing sb f i s) (hrun : Relation.ReflTransGen (Step sb f i) (.init s) t) :
    Inv sb f i (s.k.files f).off t := by
  induction hrun with
  | refl => exact .init h
  | tail _ hs ih => exact ih.step hs

/-- `filewrite` のループは、呼び出しの歩だけの列である。 -/
theorem filewriteLoop_run {c : Call} (fuel : Nat) : ∀ {k : Nat} {t : Sys}, Sharing sb f i t.store → t.calls = [c] →
    t.phase 0 = .loop k → c.n - k ≤ fuel →
    wp (exec c.user (filewriteLoop sb f c.addr k c.n fuel)) (fun k' s' => ∃ t', Relation.ReflTransGen (Own sb f) t t' ∧
      t'.calls = [c] ∧ c.view t'.store = s' ∧ t'.phase 0 = .ret (if k' = c.n then c.n else -1)) (fun _ => True)
      (c.view t.store) := by
  have hfinish : ∀ {k : Nat} {t : Sys}, t.calls = [c] → t.phase 0 = .loop k → ¬k < c.n →
      ∃ t', Relation.ReflTransGen (Own sb f) t t' ∧ t'.calls = [c] ∧ c.view t'.store = c.view t.store ∧
        t'.phase 0 = .ret (if k = c.n then c.n else -1) := fun {k t} hc hp hge =>
    ⟨_, .single (.finish (by rw [hc]; rfl) hp hge), hc, rfl, leave_phase⟩
  induction fuel with
  | zero =>
    intro k t _ hc hp hfuel
    exact hfinish hc hp (by omega)
  | succ fuel ih =>
    intro k t h hc hp hfuel
    have hmax : 0 < writeMax := by decide
    refine filewriteLoop_chunk.mpr ⟨fun hlt => ?_, fun hge => hfinish hc hp hge⟩
    refine wp_post (wp_run (writeChunk_spec (h.view c))) fun r st ⟨hrun, ha⟩ => ?_
    have hstep : Own sb f t _ := .chunk (c := c) (by rw [hc]; rfl) hp hlt hrun
    have hmem : st.umem = c.mem := ha.umem
    have hview : c.view st = st := by rw [Call.view, ← hmem]
    rw [exec_ite]
    refine ⟨fun hr => ?_, fun hr => ?_⟩
    · rw [← hview]
      -- 一回りは一バイト以上進む。
      have hnext : c.n - (k + c.next k) ≤ fuel := by
        rw [Call.next]
        omega
      refine wp_post (ih (t := t.ran 0 k c r st) ha.sharing hc ?_ hnext) fun k' s' ⟨t', hrun', hrest⟩ =>
        ⟨t', .head hstep hrun', hrest⟩
      exact ran_phase.trans (if_pos hr)
    · refine wp_pure.mpr ⟨_, .single hstep, hc, hview, ?_⟩
      rw [if_neg (Nat.ne_of_lt hlt)]
      exact ran_phase.trans (if_neg hr)

/-- `filewrite` の結果は、その呼び出しの歩だけからなる実行の結果である。 -/
theorem filewrite_run {c : Call} (h : Sharing sb f i s) : wp (exec c.user (filewrite sb f c.addr c.n))
    (fun r s' => ∃ t, Relation.ReflTransGen (Own sb f) (.init s) t ∧ t.calls = [c] ∧ c.view t.store = s' ∧
      t.phase 0 = .ret r) (fun _ => True) (c.view s) := by
  have hcall : Own sb f (.init s) ((Sys.init s).enter f c) := .call c fun id c' hc => by simp [Sys.init] at hc
  have hphase : ((Sys.init s).enter f c).phase 0 = if (s.k.files f).writable then .loop 0 else .ret (-1) := enter_phase
  rw [filewrite, exec_bind, file, exec_bind, exec_getK]
  refine wp_pure.mpr ?_
  rw [exec_ite]
  refine ⟨fun hw => wp_pure.mpr ⟨_, .single hcall, rfl, rfl, hphase.trans (if_neg ?_)⟩, fun hw => ?_⟩
  · simpa [Call.view] using hw
  have hw : (s.k.files f).writable = true := by simpa [Call.view] using hw
  have htype : ((c.view s).k.files f).type = .inode := h.type
  rw [htype, exec_bind]
  refine wp_post (filewriteLoop_run (t := (Sys.init s).enter f c) c.n h rfl (hphase.trans (if_pos hw)) (Nat.sub_le ..))
    fun k' s' ⟨t', hrun, hc, hv, hp⟩ => wp_pure.mpr ⟨t', .head hcall hrun, hc, hv, ?_⟩
  exact hp

theorem sum_by_id (log : List Chunk) (m : Nat) : total (log.filter fun ch => ch.id < m) =
    ((List.range m).map fun id => ((cuts log id).map Prod.snd).sum).sum := by
  induction m with
  | zero =>
    rw [List.filter_eq_nil_iff.mpr (by simp)]
    rfl
  | succ m ih =>
    have hcut : ((cuts log m).map Prod.snd).sum = total (log.filter fun ch => ch.id = m) := by
      rw [cuts, map_map, total]
      rfl
    rw [range_succ, map_append, sum_append, ← ih, map_singleton, sum_singleton, hcut]
    clear ih hcut
    induction log with
    | nil => rfl
    | cons ch log ih =>
      simp only [total, filter_cons, decide_eq_true_eq] at ih ⊢
      rcases Nat.lt_trichotomy ch.id m with h | h | h
      · rw [if_pos (Nat.lt_succ_of_lt h), if_pos h, if_neg (Nat.ne_of_lt h), map_cons, map_cons,
          sum_cons, sum_cons, ih, Nat.add_assoc]
      · rw [if_pos (by omega), if_neg (by omega), if_pos h, map_cons, map_cons, sum_cons, sum_cons,
          ih, Nat.add_left_comm]
      · rw [if_neg (by omega), if_neg (by omega), if_neg (by omega), ih]

/-- すべての呼び出しが `n` を返したなら、オフセットは `n` の和だけ進み、一回りの範囲は始めのオフセットから隙間なく並んで
書き手のバイトを持ち、一つの呼び出しの一回りは順にその `n` バイトを覆う。 -/
theorem shared_offset_loses_no_write (h : Sharing sb f i s) (hrun : Relation.ReflTransGen (Step sb f i) (.init s) t)
    (hret : ∀ id c, t.calls[id]? = some c → t.phase id = .ret c.n) :
    (t.store.k.files f).off = (s.k.files f).off + (t.calls.map Call.n).sum ∧
    (∀ pre ch post, t.log = pre ++ ch :: post → t.calls[ch.id]? = some ch.call ∧ ∀ x < ch.len,
      t.store.byte sb i ((s.k.files f).off + total pre + x) = ch.call.mem (ch.call.addr + ch.pos + x)) ∧
    ∀ id c, t.calls[id]? = some c → cuts t.log id = pieces 0 c.n := by
  have hinv := Inv.run h hrun
  have hcuts : ∀ id c, t.calls[id]? = some c → cuts t.log id = pieces 0 c.n := fun id c hc =>
    hinv.ret id c hc (hret id c hc)
  refine ⟨?_, fun pre ch post hlog => ⟨?_, hinv.placed pre ch post hlog⟩, hcuts⟩
  · rw [hinv.off]
    congr 1
    have hall : t.log.filter (fun ch => ch.id < t.calls.length) = t.log := by
      refine filter_eq_self.mpr fun ch hch => decide_eq_true ?_
      exact (List.getElem?_eq_some_iff.mp (hinv.known ch hch)).1
    rw [← hall, sum_by_id]
    congr 1
    refine ext_getElem (by simp) fun id hid hid' => ?_
    have hid : id < t.calls.length := by simpa using hid
    rw [getElem_map, getElem_range, getElem_map, hcuts id _ (getElem?_eq_getElem hid), sum_pieces,
      Nat.sub_zero]
  · refine hinv.known ch ?_
    rw [hlog]
    exact mem_append_right _ (mem_cons_self ..)

/-! ## 例 -/

def sharedStore : Store :=
  { exampleStore with k := { exampleStore.k with files := fun _ => ⟨.inode, 2, false, true, 1, 3, 0⟩ } }

theorem sharedStore_sharing : Sharing exampleSb 0 1 sharedStore where
  ok := ⟨by decide, by decide⟩
  owned := exampleStore_owned
  tidy := ⟨⟨by decide, by decide, rfl, by decide⟩, exampleStore_tidy.full⟩
  type := rfl
  ip := rfl

def callA : Call := ⟨0, exampleUser, fun _ => 65, 0, 2⟩

def callB : Call := ⟨1, exampleUser, fun _ => 66, 0, 3⟩

theorem filewrite_run_alone : ∃ t, Relation.ReflTransGen (Own exampleSb 0) (.init sharedStore) t ∧ t.calls = [callA] ∧
    t.phase 0 = .ret 2 := by
  have hrun := filewrite_run (c := callA) sharedStore_sharing
  have hret : ((exec callA.user (filewrite exampleSb 0 callA.addr callA.n) (callA.view sharedStore)).map Prod.fst).toOption =
      some 2 := by decide +kernel
  rw [wp] at hrun
  cases hx : exec callA.user (filewrite exampleSb 0 callA.addr callA.n) (callA.view sharedStore) with
  | error e =>
    rw [hx] at hret
    cases hret
  | ok r =>
    simp only [hx] at hrun hret
    obtain ⟨t, hsteps, hcalls, -, hphase⟩ := hrun
    exact ⟨t, hsteps, hcalls, Option.some.inj hret ▸ hphase⟩

def bothCalled : Sys := ((Sys.init sharedStore).enter 0 callA).enter 0 callB

theorem bothCalled_run : Relation.ReflTransGen (Step exampleSb 0 1) (.init sharedStore) bothCalled := by
  refine .head (.own (.call callA fun id c hc => by simp [Sys.init] at hc)) (.single (.own (.call callB fun id c hc hpid => ?_)))
  rcases getElem?_snoc hc with ⟨-, rfl⟩ | hc
  · cases hpid
  · simp [Sys.init] at hc

def bothWritten (st st' : Store) : Sys :=
  (((bothCalled.ran 1 0 callB (some 3) st).ran 0 0 callA (some 2) st').leave 1 3 callB).leave 0 2 callA

theorem bothWritten_run {st st'}
    (hB : exec callB.user (writeChunk exampleSb 0 (callB.addr + 0) (callB.next 0)) (callB.view sharedStore) =
      .ok (some 3, st))
    (hA : exec callA.user (writeChunk exampleSb 0 (callA.addr + 0) (callA.next 0)) (callA.view st) = .ok (some 2, st')) :
    Relation.ReflTransGen (Step exampleSb 0 1) (.init sharedStore) (bothWritten st st') := by
  have h1 : Step exampleSb 0 1 bothCalled (bothCalled.ran 1 0 callB (some 3) st) :=
    .own (.chunk rfl rfl (by decide) hB)
  have h2 : Step exampleSb 0 1 (bothCalled.ran 1 0 callB (some 3) st)
      ((bothCalled.ran 1 0 callB (some 3) st).ran 0 0 callA (some 2) st') :=
    .own (.chunk rfl rfl (by decide) hA)
  have h3 := bothCalled_run.trans (.head h1 (.single h2))
  exact h3.trans (.head (.own (.finish rfl rfl (by decide))) (.single (.own (.finish rfl rfl (by decide)))))

theorem bothWritten_ret {st st'} (id : Nat) (c : Call) (hc : (bothWritten st st').calls[id]? = some c) :
    (bothWritten st st').phase id = .ret c.n := by
  rcases id with _ | _ | id
  · cases hc
    rfl
  · cases hc
    rfl
  · cases hc

theorem shared_offset_loses_no_write_two : ∃ st st',
    Relation.ReflTransGen (Step exampleSb 0 1) (.init sharedStore) (bothWritten st st') ∧
    (st'.k.files 0).off = 8 ∧ st'.byte exampleSb 1 5 = 66 ∧ st'.byte exampleSb 1 6 = 65 := by
  have hrun : (match exec callB.user (writeChunk exampleSb 0 (callB.addr + 0) (callB.next 0)) (callB.view sharedStore) with
      | .ok (r, st) => decide (r = some 3) &&
          (match exec callA.user (writeChunk exampleSb 0 (callA.addr + 0) (callA.next 0)) (callA.view st) with
          | .ok (r', _) => decide (r' = some 2)
          | .error _ => false)
      | .error _ => false) = true := by decide +kernel
  split at hrun
  · rename_i r st hB
    obtain ⟨hr, hrun⟩ := Bool.and_eq_true_iff.mp hrun
    obtain rfl := of_decide_eq_true hr
    split at hrun
    · rename_i r' st' hA
      obtain rfl := of_decide_eq_true hrun
      have hsteps := bothWritten_run hB hA
      obtain ⟨hoff, hplaced, -⟩ := shared_offset_loses_no_write sharedStore_sharing hsteps bothWritten_ret
      refine ⟨st, st', hsteps, hoff, ?_, ?_⟩
      · exact (hplaced [] _ _ rfl).2 2 (by decide)
      · exact (hplaced [⟨1, callB, 0, 3⟩] _ _ rfl).2 0 (by decide)
    · cases hrun
  · cases hrun

end Xv6.Fs.Shared
