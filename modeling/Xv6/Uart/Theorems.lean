import Xv6.Lib.Ring
import Xv6.Uart.Uart

/-!
# UART の送信の定理
-/

namespace Xv6.Uart

open Xv6.Lib List

variable {x : Tx} {s t : Sys} {p q : Nat} {c : UInt8} {d : UInt32} {b : Pc} {hand : List UInt8}

theorem size_lt : uartTxBufSize < word := by decide

theorem size_dvd : uartTxBufSize ∣ word := by decide

/-! ## 領域 -/

/-- `uartstart` が書いたバイトと手に持つ `hand` は、受け付けたバイトの先頭であり、領域は残りを持つ。 -/
structure Queue (x : Tx) (hand : List UInt8) : Prop where
  ring : Ring uartTxBufSize word x.buf x.r x.w x.accepted (x.sent ++ hand).length
  order : x.sent ++ hand <+: x.accepted

def Room (x : Tx) : Prop := x.accepted.length < x.sent.length + uartTxBufSize

def Left (x : Tx) : Prop := x.sent.length < x.accepted.length

theorem sent_access {a} : (x.access a).sent = x.sent ++ a.sent.toList := by
  cases a <;> simp [Tx.sent, Tx.access, Access.sent]

theorem sent_of_none {a} (ha : a.sent = none) : (x.access a).sent = x.sent := by
  rw [sent_access, ha, Option.toList_none, append_nil]

theorem Room.access {a} (h : Room x) (ha : a.sent = none) : Room (x.access a) := by
  rw [Room, sent_of_none ha]
  exact h

theorem Left.access {a} (h : Left x) (ha : a.sent = none) : Left (x.access a) := by
  rw [Left, sent_of_none ha]
  exact h

namespace Queue

theorem room (h : Queue x []) (hf : x.full = false) : Room x := by
  have hring := h.ring
  rw [append_nil] at hring
  have hne : x.accepted.length ≠ x.sent.length + uartTxBufSize := fun he =>
    beq_eq_false_iff_ne.mp hf ((hring.full_iff size_lt).mpr he)
  exact lt_of_le_of_ne hring.room hne

theorem left (h : Queue x []) (hne : x.w ≠ x.r) : Left x := by
  have hring := h.ring
  rw [append_nil] at hring
  exact lt_of_le_of_ne hring.le fun he => hne ((hring.empty_iff size_lt).mpr he.symm).symm

theorem store (h : Queue x []) (hr : Room x) : Queue (x.store d) [] where
  ring := h.ring.poke size_dvd (by rwa [append_nil])
  order := h.order

theorem count (h : Queue x []) (hr : Room x) (hd : x.buf (x.w % uartTxBufSize) = d.toUInt8) : Queue (x.count d) [] where
  ring := h.ring.bump size_dvd (by rwa [append_nil]) hd
  order := h.order.trans (prefix_append ..)

theorem take (h : Queue x []) (hl : Left x) (hc : c = x.buf (x.r % uartTxBufSize)) : Queue x.take [c] := by
  obtain ⟨hring, horder⟩ := h
  rw [append_nil] at hring horder
  obtain ⟨hget, hpop⟩ := hring.pop size_dvd hl
  refine ⟨?_, ?_⟩
  · rw [length_append]
    exact hpop
  obtain ⟨rest, hrest⟩ := horder
  rw [← hrest, getElem?_append_right le_rfl, Nat.sub_self, ← hc] at hget
  cases rest with
  | nil => cases hget
  | cons y l =>
    obtain rfl : y = c := Option.some.inj hget
    exact ⟨l, by rw [append_assoc]; exact hrest⟩

theorem access {a} (h : Queue x hand) (ha : a.sent = none) : Queue (x.access a) hand := by
  refine ⟨?_, ?_⟩
  · rw [sent_of_none ha]
    exact h.ring
  · rw [sent_of_none ha]
    exact h.order

theorem send (h : Queue x [c]) : Queue (x.access (.thr p c)) [] := by
  have hsent : (x.access (.thr p c)).sent = x.sent ++ [c] := sent_access
  refine ⟨?_, ?_⟩
  · rw [hsent, append_nil]
    exact h.ring
  · rw [hsent, append_nil]
    exact h.order

theorem size_le (h : Queue x hand) : x.size ≤ uartTxBufSize := by
  have := h.ring.room
  rw [Tx.size, h.ring.count size_lt]
  omega

theorem accepted (h : Queue x hand) : x.accepted = x.sent ++ hand ++ x.waiting := by
  rw [Tx.waiting, Tx.size, ← h.ring.contents size_lt size_dvd]
  exact (prefix_iff_eq_append.mp h.order).symm

end Queue

theorem Polled.sync {bus} (h : Polled p bus) : Polled p (bus ++ [.sync q c]) := by
  obtain ⟨pre, v, mid, rfl, hv, hmid⟩ := h
  refine ⟨pre, v, mid ++ [.sync q c], by rw [append_assoc, cons_append], hv, fun a ha => ?_⟩
  obtain ha | ha := mem_append.mp ha
  · exact hmid a ha
  · exact ⟨q, c, mem_singleton.mp ha⟩

/-- `uartstart` は、LSR が空きを示した後にだけ THR に書く。 -/
def Prompted (bus : List Access) : Prop := ∀ pre p c, pre ++ [.thr p c] <+: bus → Polled p pre

theorem Prompted.access {bus a} (h : Prompted bus)
    (ha : ∀ p c, a = .thr p c → Polled p bus) : Prompted (bus ++ [a]) := by
  intro pre p c hpre
  obtain heq | hpre := prefix_concat_iff.mp hpre
  · obtain ⟨rfl, hc⟩ := append_inj' heq rfl
    exact ha p c (singleton_inj.mp hc).symm
  · exact h pre p c hpre

/-! ## 不変条件 -/

def Pc.hasLock : Pc → Bool
  | .putPanic _ | .putTest _ | .putStore _ | .putCount _ | .startTest | .startLsr | .startLoad | .startTake _
  | .startWake _ | .startSend _ | .leave | .putSpin => true
  | _ => false

def At (x : Tx) (p : Nat) : Pc → Prop
  | .putStore _ => Queue x [] ∧ Room x
  | .putCount c => Queue x [] ∧ Room x ∧ x.buf (x.w % uartTxBufSize) = c.toUInt8
  | .startLsr => Queue x [] ∧ Left x
  | .startLoad => Queue x [] ∧ Left x ∧ Polled p x.bus
  | .startTake c => Queue x [] ∧ Left x ∧ Polled p x.bus ∧ c = x.buf (x.r % uartTxBufSize)
  | .startWake c | .startSend c => Queue x [c] ∧ Polled p x.bus
  | _ => Queue x []

theorem At.queue (h : At x p b) : Queue x b.hand := by
  cases b
  case putStore | putCount | startLsr | startLoad | startTake | startWake | startSend => exact h.1
  all_goals exact h

theorem At.sync (h : At x p b) : At (x.access (.sync q c)) p b := by
  cases b
  case putStore => exact ⟨h.1.access rfl, h.2.access rfl⟩
  case putCount => exact ⟨h.1.access rfl, h.2.1.access rfl, h.2.2⟩
  case startLsr => exact ⟨h.1.access rfl, h.2.access rfl⟩
  case startLoad => exact ⟨h.1.access rfl, h.2.1.access rfl, h.2.2.sync⟩
  case startTake => exact ⟨h.1.access rfl, h.2.1.access rfl, h.2.2.1.sync, h.2.2.2⟩
  case startWake | startSend => exact ⟨h.1.access rfl, h.2.sync⟩
  all_goals exact Queue.access h rfl

theorem at_wakeup : At x p b.wakeup ↔ At x p b := by cases b <;> rfl

theorem hasLock_wakeup : b.wakeup.hasLock = b.hasLock := by cases b <;> rfl

/-- ロックの持ち主は、ロックを持つ位置にいる。領域は、誰も持たなければ列を表し、持ち主がいればその位置の条件を満たす。 -/
structure Inv (s : Sys) : Prop where
  lock : ∀ p, (s.pc p).hasLock = true ↔ s.lock = some p
  free : s.lock = none → Queue s.tx []
  held : ∀ p, s.lock = some p → At s.tx p (s.pc p)
  polled : Prompted s.tx.bus

namespace Inv

/-! ## 一歩 -/

theorem outside (h : Inv s) (hp : (s.pc p).hasLock = false) (hb : b.hasLock = false)
    (hx : x = s.tx ∨ ∃ c, x = s.tx.access (.sync p c)) : Inv (s.put p x b) := by
  have hne : s.lock ≠ some p := fun hl => by simp [(h.lock p).mpr hl] at hp
  refine ⟨fun q => ?_, fun hl => ?_, fun q hl => ?_, ?_⟩
  · by_cases hq : q = p
    · subst hq
      simpa [Sys.put, Sys.goto, hb] using hne
    · simpa [Sys.put, Sys.goto, hq] using h.lock q
  · obtain rfl | ⟨c, rfl⟩ := hx
    · exact h.free hl
    · exact (h.free hl).access rfl
  · have hq : q ≠ p := by
      rintro rfl
      exact hne hl
    have hpc : (s.put p x b).pc q = s.pc q := update_of_ne hq ..
    rw [hpc]
    obtain rfl | ⟨c, rfl⟩ := hx
    · exact h.held q hl
    · exact (h.held q hl).sync
  · obtain rfl | ⟨c, rfl⟩ := hx
    · exact h.polled
    · exact h.polled.access nofun

theorem goto (h : Inv s) (hp : (s.pc p).hasLock = false) (hb : b.hasLock = false) : Inv (s.goto p b) :=
  h.outside hp hb (.inl rfl)

theorem acquire (h : Inv s) (hb : b.hasLock = true) (hat : Queue s.tx [] → At s.tx p b) (ht : s.acquire p b = some t) :
    Inv t := by
  rw [Sys.acquire] at ht
  split at ht
  case isFalse => cases ht
  case isTrue hl =>
    cases ht
    refine ⟨fun q => ?_, nofun, fun q hq => ?_, h.polled⟩
    · by_cases hq : q = p
      · subst hq
        simp [Sys.goto, hb]
      · have := h.lock q
        simp [Sys.goto, hq, Ne.symm hq, hl] at this ⊢
        exact this
    · obtain rfl := Option.some.inj hq
      have hpc : ({ s with lock := some p }.goto p b).pc p = b := update_self ..
      rw [hpc]
      exact hat (h.free hl)

theorem inside (h : Inv s) (hp : (s.pc p).hasLock = true) (hb : b.hasLock = true) (hat : At x p b)
    (hx : Prompted x.bus) : Inv (s.put p x b) := by
  have hl := (h.lock p).mp hp
  have hpc : (s.put p x b).pc p = b := update_self ..
  refine ⟨fun q => ?_, fun hf => ?_, fun q hq => ?_, hx⟩
  · by_cases hq : q = p
    · subst hq
      rw [hpc]
      exact ⟨fun _ => hl, fun _ => hb⟩
    · simpa [Sys.put, Sys.goto, hq] using h.lock q
  · cases hl.symm.trans hf
  · obtain rfl := Option.some.inj (hl.symm.trans hq)
    rwa [hpc]

theorem release (h : Inv s) (hp : (s.pc p).hasLock = true) (hb : b.hasLock = false) (hx : Queue s.tx []) :
    Inv (s.release p b) := by
  have hl := (h.lock p).mp hp
  refine ⟨fun q => ?_, fun _ => hx, nofun, h.polled⟩
  by_cases hq : q = p
  · subst hq
    simp [Sys.release, Sys.goto, hb]
  · have := h.lock q
    simp [Sys.release, Sys.goto, hq, Ne.symm hq, hl] at this ⊢
    exact this

theorem wakeup (h : Inv s) : Inv { s with pc := fun q => (s.pc q).wakeup } where
  __ := h
  lock q := by
    rw [hasLock_wakeup]
    exact h.lock q
  held q hq := at_wakeup.mpr (h.held q hq)

theorem run {v echo} (h : Inv s) (hr : Uart.run s p v echo = some t) : Inv t := by
  have hat : (s.pc p).hasLock = true → At s.tx p (s.pc p) := fun hp => h.held p ((h.lock p).mp hp)
  rw [Uart.run] at hr
  generalize ha : s.pc p = a at hr hat
  have hlk : (s.pc p).hasLock = a.hasLock := congrArg Pc.hasLock ha
  cases a with
  | out | asleep c | putSpin | syncSpin => cases hr
  | putEnter c | putAgain c | intrEnter => exact h.acquire rfl id hr
  | putPanic c =>
    cases hr
    have hq : Queue s.tx [] := hat rfl
    split
    · exact h.inside hlk rfl hq h.polled
    · exact h.inside hlk rfl hq h.polled
  | putTest c =>
    cases hr
    have hq : Queue s.tx [] := hat rfl
    split
    case isTrue => exact h.release hlk rfl hq
    case isFalse hf => exact h.inside hlk rfl ⟨hq, hq.room (Bool.not_eq_true _ ▸ hf)⟩ h.polled
  | putStore c =>
    cases hr
    obtain ⟨hq, hroom⟩ := hat rfl
    exact h.inside hlk rfl ⟨hq.store hroom, hroom, update_self ..⟩ h.polled
  | putCount c =>
    cases hr
    obtain ⟨hq, hroom, hc⟩ := hat rfl
    exact h.inside hlk rfl (hq.count hroom hc) h.polled
  | startTest =>
    cases hr
    have hq : Queue s.tx [] := hat rfl
    split
    case isTrue => exact h.inside hlk rfl hq h.polled
    case isFalse hne => exact h.inside hlk rfl ⟨hq, hq.left hne⟩ h.polled
  | startLsr =>
    cases hr
    obtain ⟨hq, hleft⟩ := hat rfl
    have hbus : Prompted (s.tx.bus ++ [.lsr p v]) := h.polled.access nofun
    split
    case isTrue => exact h.inside hlk rfl (hq.access rfl) hbus
    case isFalse hv =>
      exact h.inside hlk rfl ⟨hq.access rfl, hleft.access rfl, s.tx.bus, v, [], rfl, hv, nofun⟩ hbus
  | startLoad =>
    cases hr
    obtain ⟨hq, hleft, hpoll⟩ := hat rfl
    exact h.inside hlk rfl ⟨hq, hleft, hpoll, rfl⟩ h.polled
  | startTake c =>
    cases hr
    obtain ⟨hq, hleft, hpoll, hc⟩ := hat rfl
    exact h.inside hlk rfl ⟨hq.take hleft hc, hpoll⟩ h.polled
  | startWake c =>
    cases hr
    exact h.wakeup.inside (hasLock_wakeup.trans hlk) rfl (hat rfl) h.polled
  | startSend c =>
    cases hr
    obtain ⟨hq, hpoll⟩ := hat rfl
    refine h.inside hlk rfl hq.send (h.polled.access fun q d he => ?_)
    cases he
    exact hpoll
  | leave =>
    cases hr
    exact h.release hlk rfl (hat rfl)
  | getc =>
    cases hr
    exact h.goto hlk (by split <;> rfl)
  | recv =>
    cases hr
    exact h.goto hlk rfl
  | sync cs intr =>
    cases cs with
    | nil | cons c cs =>
      cases hr
      exact h.goto hlk (by split <;> rfl)
  | syncWait c cs intr =>
    cases hr
    exact h.goto hlk (by split <;> rfl)
  | syncSend c cs intr =>
    cases hr
    exact h.outside hlk rfl (.inr ⟨_, rfl⟩)

theorem call (h : Inv s) (hb : b.hasLock = false) (hc : s.call p b = some t) : Inv t := by
  rw [Sys.call] at hc
  split at hc
  case isTrue ha =>
    cases hc
    exact h.goto (by rw [ha]; rfl) hb
  case isFalse => cases hc

theorem wake (h : Inv s) (p : Nat) : Inv (s.goto p (s.pc p).wakeup) := by
  by_cases hp : (s.pc p).hasLock = true
  · exact h.inside hp (hasLock_wakeup.trans hp) (at_wakeup.mpr (h.held p ((h.lock p).mp hp))) h.polled
  · have hp : (s.pc p).hasLock = false := Bool.not_eq_true _ ▸ hp
    exact h.goto hp (hasLock_wakeup.trans hp)

theorem step {e} (h : Inv s) (hs : Uart.step s e = some (.ok t)) : Inv t := by
  obtain ⟨u, hu, hut⟩ := Option.map_eq_some_iff.mp hs
  cases hut
  cases e with
  | putc p c | putcSync p c | intr p => exact h.call rfl hu
  | run p v echo => exact h.run hu
  | wake p =>
    cases hu
    exact h.wake p
  | panic =>
    cases hu
    exact ⟨h.lock, h.free, h.held, h.polled⟩

theorem init (buf : Nat → UInt8) : Inv (Uart.init buf) where
  lock p := ⟨nofun, nofun⟩
  free _ := ⟨.empty .., nil_prefix⟩
  held p := nofun
  polled pre p c hpre := by simp [Uart.init] at hpre

theorem of_reaches {buf} (h : Uart.step.Reaches (Uart.init buf) s) : Inv s :=
  h.inv Inv (init buf) fun _ _ _ => step

theorem queue (h : Inv s) : Queue s.tx s.hand := by
  rw [Sys.hand]
  cases hl : s.lock with
  | none => exact h.free hl
  | some p => exact (h.held p hl).queue

end Inv

/-- どの順序でも、`uartstart` が THR に書いたバイトは受け付けた順の先頭であり、残りは、持ち主の手の一つを除いて領域にある。どの書き込みの前にも、同じ者が LSR を読んで空きを知
る。 -/
theorem uart_output_queue (buf : Nat → UInt8) (h : step.Reaches (init buf) s) :
    s.tx.size ≤ uartTxBufSize ∧ s.tx.sent <+: s.tx.accepted ∧ s.tx.accepted = s.tx.sent ++ s.hand ++ s.tx.waiting ∧
      (s.lock = none → s.tx.accepted = s.tx.sent ++ s.tx.waiting) ∧
      ∀ pre p c, pre ++ [.thr p c] <+: s.tx.bus → Polled p pre := by
  have hinv := Inv.of_reaches h
  have hqueue := hinv.queue
  have hrest := hqueue.accepted
  refine ⟨hqueue.size_le, (prefix_append ..).trans hqueue.order, hrest, fun hl => ?_, hinv.polled⟩
  have hhand : s.hand = [] := by rw [Sys.hand, hl, Option.elim_none]
  rwa [hhand, append_nil] at hrest

def exampleEvents : List Event :=
  .putc 0 97 :: List.replicate 13 (.run 0 32 []) ++ .putc 1 98 :: List.replicate 8 (.run 1 0 [])

theorem uart_output_queue_two : (step.final (init fun _ => 0) exampleEvents).tx.accepted = [97] ++ [98] ∧
    (step.final (init fun _ => 0) exampleEvents).tx.sent = [97] ∧
    (step.final (init fun _ => 0) exampleEvents).tx.waiting = [98] := by
  have hsent : (step.final (init fun _ => 0) exampleEvents).tx.sent = [97] := by decide +kernel
  have hwait : (step.final (init fun _ => 0) exampleEvents).tx.waiting = [98] := by decide +kernel
  have h := (uart_output_queue (fun _ => 0) (Machine.reaches_final exampleEvents)).2.2.2.1 (by decide +kernel)
  rw [hsent, hwait] at h
  exact ⟨h, hsent, hwait⟩

/-! ## 滞らないこと -/

/-- 最後の `uartstart` が LSR を読んで空きがないと知り、その後の記録は `uartputc_sync` の書き込みだけである。 -/
def Busy (bus : List Access) : Prop :=
  ∃ pre p v mid, bus = pre ++ .lsr p v :: mid ∧ v &&& lsrTxIdle = 0 ∧ ∀ a ∈ mid, ∃ q c, a = .sync q c

/-- 送るものがないか、装置が後で割り込む。 -/
def Tx.Kicked (x : Tx) : Prop := x.w = x.r ∨ Busy x.bus

theorem Tx.Kicked.sync (h : x.Kicked) : (x.access (.sync p c)).Kicked := by
  refine h.imp_right ?_
  rintro ⟨pre, q, v, mid, hbus, hv, hmid⟩
  refine ⟨pre, q, v, mid ++ [.sync p c], by rw [Tx.access, hbus, append_assoc, cons_append], hv, fun a ha => ?_⟩
  obtain ha | ha := mem_append.mp ha
  · exact hmid a ha
  · exact ⟨p, c, mem_singleton.mp ha⟩

/-- `uartstart` を呼ぶ前と後。 -/
def Pc.settled (a : Pc) : Prop := a = .putSpin ∨ a = .leave ∨ ∃ c, a = .putPanic c ∨ a = .putTest c

structure Live (s : Sys) : Prop where
  kicked : (∀ p, s.lock = some p → (s.pc p).settled) → s.tx.Kicked
  asleep : ∀ q d, s.pc q = .asleep d → s.tx.full ∨ ∃ p c, s.pc p = .startWake c

theorem Room.full (hq : Queue x []) (h : Room x) : x.full = false := by
  have hring := hq.ring
  rw [append_nil] at hring
  exact beq_eq_false_iff_ne.mpr fun he => Nat.ne_of_lt h ((hring.full_iff size_lt).mp he)

theorem Live.outside (h : Live s) (hi : Inv s) (hp : (s.pc p).hasLock = false) (hb : ∀ d, b ≠ .asleep d)
    (hx : x = s.tx ∨ ∃ c, x = s.tx.access (.sync p c)) : Live (s.put p x b) := by
  have hkick : s.tx.Kicked → x.Kicked := by
    obtain rfl | ⟨c, rfl⟩ := hx
    exacts [id, Tx.Kicked.sync]
  have hfull : x.full = s.tx.full := by obtain rfl | ⟨c, rfl⟩ := hx <;> rfl
  have hlock := hi.lock p
  have hwake : ∀ c, (Pc.startWake c).hasLock = true := fun _ => rfl
  obtain ⟨hk, ha⟩ := h
  constructor <;> simp only [Sys.put, Sys.goto, update_apply] <;> grind

theorem Pc.wakeup_ne (d : UInt32) : b.wakeup ≠ .asleep d := by cases b <;> simp [Pc.wakeup]

theorem Live.run {v echo} (h : Live s) (hi : Inv s) (hr : Uart.run s p v echo = some t) :
    Live t := by
  have hlock := hi.lock
  have hheld := hi.held p
  have hset : s.lock = some p → (s.pc p).settled → s.tx.Kicked :=
    fun hl hp => h.kicked fun _ hq => Option.some.inj (hl.symm.trans hq) ▸ hp
  have hfull : s.lock = some p → ∀ q d, s.pc q = .asleep d → s.tx.full ∨ ∃ c, s.pc p = .startWake c := by
    intro hl q d hq
    obtain hf | ⟨r, c, hc⟩ := h.asleep q d hq
    · exact .inl hf
    · have hlr := (hlock r).mp (by rw [hc]; rfl)
      obtain rfl := Option.some.inj (hl.symm.trans hlr)
      exact .inr ⟨c, hc⟩
  have hempty : s.tx.w = s.tx.r → s.tx.Kicked := .inl
  have hbusy : v &&& lsrTxIdle = 0 → (s.tx.access (.lsr p v)).Kicked :=
    fun hv => .inr ⟨s.tx.bus, p, v, [], rfl, hv, by simp⟩
  have hkick := h.kicked
  have hasleep := h.asleep
  rw [Uart.run] at hr
  cases ha : s.pc p <;> simp only [ha, Sys.acquire] at hr hheld hset hfull
  case out | asleep | putSpin | syncSpin => cases hr
  case putEnter | putAgain | intrEnter =>
    split_ifs at hr
    cases hr
    constructor <;> simp only [Sys.goto, update_apply] <;> grind
  case recv =>
    cases hr
    exact h.outside hi (by rw [ha]; rfl) (by simp) (.inl rfl)
  case getc | syncWait =>
    cases hr
    exact h.outside hi (by rw [ha]; rfl) (by intro d; split_ifs <;> simp) (.inl rfl)
  case sync cs intr =>
    cases cs <;> cases hr <;> exact h.outside hi (by rw [ha]; rfl) (by intro d; split_ifs <;> simp) (.inl rfl)
  case syncSend =>
    cases hr
    exact h.outside hi (by rw [ha]; rfl) (by simp) (.inr ⟨_, rfl⟩)
  -- ここからは、ロックの持ち主の位置である
  all_goals
    have hl := (hlock p).mp (by rw [ha]; rfl)
    replace hheld := hheld hl
    replace hset := hset hl
    replace hfull := hfull hl
    clear hkick hasleep hlock
  case putTest c =>
    split_ifs at hr with hf <;> cases hr <;> constructor <;> simp only [Sys.release, Sys.goto, update_apply] <;>
      grind [Pc.settled]
  case startWake c =>
    cases hr
    constructor <;> simp only [Sys.goto, update_apply] <;> grind [Pc.settled, Pc.wakeup_ne]
  case startTake c =>
    cases hr
    exact ⟨fun hs => absurd (hs p hl) (by simp [Sys.put, Sys.goto, Pc.settled]), fun _ _ _ => .inr ⟨p, c, update_self ..⟩⟩
  case putStore c =>
    cases hr
    have hroom := hheld.2.full hheld.1
    constructor <;> simp only [Sys.put, Sys.goto, update_apply] <;> grind [Pc.settled]
  case putCount c =>
    cases hr
    have hroom := hheld.2.1.full hheld.1
    constructor <;> simp only [Sys.put, Sys.goto, update_apply] <;> grind [Pc.settled]
  all_goals
    cases hr
    constructor <;> simp only [Sys.put, Sys.release, Sys.goto, update_apply] <;> grind [Pc.settled, Tx.full, Tx.access]

theorem Live.step {e} (h : Live s) (hi : Inv s) (hs : Uart.step s e = some (.ok t)) : Live t := by
  obtain ⟨u, hu, hut⟩ := Option.map_eq_some_iff.mp hs
  cases hut
  cases e with
  | run p v echo => exact h.run hi hu
  | wake p =>
    cases hu
    obtain ⟨hkick, hasleep⟩ := h
    have hsettled : (s.pc p).wakeup.settled → (s.pc p).settled := by cases s.pc p <;> simp [Pc.settled, Pc.wakeup]
    constructor <;> simp only [Sys.goto, update_apply] <;> grind [Pc.wakeup, Pc.wakeup_ne]
  | panic =>
    cases hu
    exact ⟨h.kicked, h.asleep⟩
  | _ =>
    simp only [move, Sys.call] at hu
    split_ifs at hu with hp
    cases hu
    exact h.outside hi (by rw [hp]; rfl) (by simp) (.inl rfl)

/-- ロックが空いていれば、送るものが残るのは、最後の `uartstart` が LSR を読んで送信中と知った後だけであり、装置の割り込みがこれから
来る。書き手が眠るのは、領域がいっぱいのときだけである。 -/
theorem uart_never_stalls (buf : Nat → UInt8) (h : step.Reaches (init buf) s) (hl : s.lock = none) :
    (s.tx.w ≠ s.tx.r → Busy s.tx.bus) ∧ ∀ p d, s.pc p = .asleep d → s.tx.full ∧ Busy s.tx.bus := by
  have hlive : Inv s ∧ Live s := h.inv (fun s => Inv s ∧ Live s) ⟨Inv.init buf, fun _ => .inl rfl, by simp [Uart.init]⟩
    fun _ _ _ hi hs => ⟨hi.1.step hs, hi.2.step hi.1 hs⟩
  obtain ⟨hi, hkick, hasleep⟩ := hlive
  have hbusy : s.tx.w ≠ s.tx.r → Busy s.tx.bus := (hkick (by simp [hl])).resolve_left
  refine ⟨hbusy, fun p d hp => ?_⟩
  obtain hfull | ⟨q, c, hq⟩ := hasleep p d hp
  · refine ⟨hfull, hbusy fun he => ?_⟩
    rw [Tx.full, beq_iff_eq, word, uartTxBufSize] at hfull
    omega
  · have := (hi.lock q).mp (by rw [hq]; rfl)
    rw [hl] at this
    cases this

theorem uart_never_stalls_two : Busy (step.final (init fun _ => 0) exampleEvents).tx.bus :=
  (uart_never_stalls _ (Machine.reaches_final exampleEvents) (by decide +kernel)).1 (by decide +kernel)

end Xv6.Uart
