import Xv6.Virtio.Lemmas.Protocol

/-!
# virtio ディスクの定理
-/

namespace Xv6.Virtio

open Xv6.Lib

variable {s t : Sys} {e : Event} {p b : Nat} {m : String}

namespace Sound

theorem acquire (hs : Sound s) (hp : (s.procs p).chain = none) (hlock : s.lock = none) (hb : s.busy b = true)
    (halone : ∀ q, (s.procs q).buf = some b → q = p) (n : Nat) (w : Bool) :
    ∃ t, s.acquire p b n w = .ok t ∧ Sound t ∧ ∀ x, s.disk x = true → t.disk x = true := by
  rcases alloc3Desc_spec s.d with ⟨d, hd, hsame⟩ | ⟨d, i0, i1, i2, hd, htaken⟩
  · simp only [Sys.acquire, hd]
    exact ⟨_, rfl, hs.toFull hp hb halone hsame n w, fun x hx => hx⟩
  simp only [Sys.acquire, hd]
  refine ⟨_, rfl, hs.fill hp hlock hb halone htaken n w, fun x hx => ?_⟩
  simp only [Sys.go, update_apply]
  split
  · rfl
  · exact hx

theorem intr (hs : Sound s) (hlock : s.lock = some .intr) :
    (∃ t, s.intr = .ok t ∧ Sound t ∧
        ∀ x, s.disk x = true → t.disk x = false →
          ∃ p c, s.procs p = .waiting c ∧ c.b = x ∧ c.req ∈ s.finished) ∨
      s.intr = .error "virtio_disk_intr status" := by
  have hnf := hs.not_filled (by simp [hlock])
  unfold Sys.intr
  by_cases hidx : s.d.usedIdx = s.d.used.idx
  · rw [if_pos hidx]
    exact .inl ⟨_, rfl, hs.setLock hnf, fun x h1 h2 => absurd (h1.symm.trans h2) (by simp)⟩
  rw [if_neg hidx]
  obtain ⟨hdrop, -, p, c, hp, hh, hd⟩ := hs.used_entry hidx
  have hpc : (s.procs p).chain = some c := by rw [hp]; rfl
  have hbuf := (hs.linked p c hpc).buf
  rw [hh] at hbuf
  simp only [hbuf]
  split
  · exact .inr rfl
  refine .inl ⟨_, rfl, hs.clearDisk hidx hp hh hnf, fun x h1 h2 => ?_⟩
  rcases update_cases (P := fun v => v = false) h2 with ⟨hx, -⟩ | ⟨-, hx⟩
  · refine ⟨p, c, hp, hx.symm, ?_⟩
    rw [← hs.owner p c hpc]
    exact hs.done c.i0 (by rw [hdrop, hh]; exact List.mem_cons_self)
  · exact absurd (h1.symm.trans hx) (by simp)

theorem step (hs : Sound s) :
    (∀ t, Sys.step s e = some (.ok t) → Sound t ∧
        ∀ x, s.disk x = true → t.disk x = false →
          ∃ p c, s.procs p = .waiting c ∧ c.b = x ∧ c.req ∈ s.finished) ∧
      ∀ m, Sys.step s e = some (.error m) → m = "virtio_disk_intr status" := by
  have hkeep : ∀ {t : Sys}, (∀ x, s.disk x = true → t.disk x = true) → ∀ x, s.disk x = true →
      t.disk x = false → ∃ p c, s.procs p = .waiting c ∧ c.b = x ∧ c.req ∈ s.finished := by
    intro t ht x h1 h2
    exact absurd ((ht x h1).symm.trans h2) (by simp)
  cases e with
  | rw p b n w =>
    simp only [Sys.step]
    cases hp : s.procs p <;> cases hl : s.lock <;> cases hb : s.busy b <;> try simp
    have halone : ∀ q, (s.procs q).buf = some b → q = p := by
      intro q hq
      rw [hs.busy q b hq] at hb
      cases hb
    obtain ⟨u, hu, hu', hdisk⟩ := (hs.setBusy b).acquire (by simp [hp, Pos.chain]) hl (by simp) halone n w
    simp only [hl] at hu
    rw [hu]
    refine ⟨fun t ht => ?_, nofun⟩
    cases ht
    exact ⟨hu', hkeep hdisk⟩
  | retry p =>
    simp only [Sys.step]
    cases hp : s.procs p <;> cases hl : s.lock <;> try simp
    case full.none b n w =>
      have hbuf : (s.procs p).buf = some b := by rw [hp]; rfl
      obtain ⟨u, hu, hu', hdisk⟩ := hs.acquire (by rw [hp]; rfl) hl (hs.busy p b hbuf)
        (fun q hq => hs.alone q p b hq hbuf) n w
      rw [hu]
      refine ⟨fun t ht => ?_, nofun⟩
      cases ht
      exact ⟨hu', hkeep hdisk⟩
  | publish p =>
    simp only [Sys.step]
    cases hp : s.procs p <;> try simp
    exact ⟨hs.publish hp, hkeep fun x hx => hx⟩
  | resume p =>
    simp only [Sys.step]
    cases hp : s.procs p <;> cases hl : s.lock <;> try simp
    case waiting.none c =>
      unfold Sys.reap
      cases hd : s.disk c.b with
      | true => simpa using ⟨hs, hkeep fun x hx => hx⟩
      | false =>
        obtain ⟨d, hrun, hsound⟩ := hs.reap hp hd
        simp only [hrun]
        refine ⟨fun t ht => ?_, nofun⟩
        cases ht
        exact ⟨hsound, hkeep fun x hx => hx⟩
  | intrStart =>
    simp only [Sys.step]
    cases hl : s.lock <;> try simp
    exact ⟨hs.setLock (hs.not_filled (by simp [hl])), hkeep fun x hx => hx⟩
  | intrStep =>
    simp only [Sys.step]
    cases hl : s.lock with
    | none => simp
    | some holder =>
      cases holder with
      | proc p => simp
      | intr =>
        rcases hs.intr hl with ⟨u, hu, hu', hclear⟩ | hu <;> rw [hu]
        · refine ⟨fun t ht => ?_, nofun⟩
          cases ht
          exact ⟨hu', hclear⟩
        · exact ⟨nofun, fun m hm => (by cases hm; rfl)⟩
  | devTake =>
    simp only [Sys.step]
    split
    · simp
    · rename_i hne
      refine ⟨fun t ht => ?_, nofun⟩
      cases ht
      exact ⟨hs.devTake hne, hkeep fun x hx => hx⟩
  | devStatus h st =>
    simp only [Sys.step]
    split
    · rename_i hw
      split
      · refine ⟨fun t ht => ?_, nofun⟩
        cases ht
        exact ⟨hs.devStatus hw _ st, hkeep fun x hx => hx⟩
      · simp
    · simp
  | devUsed h =>
    simp only [Sys.step]
    split
    · rename_i hr
      refine ⟨fun t ht => ?_, nofun⟩
      cases ht
      exact ⟨hs.devUsed hr, hkeep fun x hx => hx⟩
    · simp

theorem of_reaches (h : Machine.Reaches Sys.step .init s) : Sound s :=
  h.inv Sound init fun _ _ v hu hv => (hu.step.1 v hv).1

end Sound

/-- 途中の要求の記述子は互いに、また空きと重ならない。`b->disk` を下ろすのは装置が終えた要求だけで、`free_desc` は失敗しない。 -/
theorem virtio_request_protocol (s : Sys) (h : Machine.Reaches Sys.step .init s) :
    (∀ p c, (s.procs p).chain = some c → c.descs.Nodup ∧ (∀ i ∈ c.descs, i < num ∧ s.d.free i = false) ∧
        ∀ q e, (s.procs q).chain = some e → q ≠ p → List.Disjoint c.descs e.descs) ∧
      (s.d.usedIdx ≠ s.d.used.idx →
        ∃ p c, s.procs p = .waiting c ∧ c.i0 = s.d.used.ring (s.d.usedIdx % num) ∧
          (s.d.info c.i0).b = some c.b ∧ s.disk c.b = true) ∧
      (∀ k ∈ s.working, s.d.statusAddr k = .status k) ∧
      (∀ e t b, Sys.step s e = some (.ok t) → s.disk b = true → t.disk b = false →
        ∃ p c, s.procs p = .waiting c ∧ c.b = b ∧ c.req ∈ s.finished) ∧
      (∀ p c, s.procs p = .waiting c → s.disk c.b = false → c.req ∈ s.finished) ∧
      (∀ e m, Sys.step s e = some (.error m) → m = "virtio_disk_intr status") ∧
      (s.d.used.idx + 2 ^ 16 - s.d.usedIdx) % 2 ^ 16 ≤ num := by
  have hs := Sound.of_reaches h
  refine ⟨fun p c hp => ?_, fun hne => ?_, fun k hk => ?_, fun e t b ht => (hs.step.1 t ht).2 b, hs.clear,
    fun e => hs.step.2, ?_⟩
  · have hl := hs.linked p c hp
    refine ⟨hl.nodup, fun i hi => ⟨hl.lt i hi, hl.used i hi⟩, fun q e hq hne i hi hi' => ?_⟩
    exact hne (hs.apart p q c e hp hq i hi hi').symm
  · obtain ⟨-, -, p, c, hp, hh, hd⟩ := hs.used_entry hne
    exact ⟨p, c, hp, hh, (hs.linked p c (by rw [hp]; rfl)).buf, hd⟩
  · obtain ⟨p, c, hp, rfl, -⟩ := (hs.pend k).mp (by simp [Sys.pending, hk])
    exact (hs.linked p c (by rw [hp]; rfl)).statusAddr
  · have hroom := hs.used.room
    rw [hs.used.count num_lt]
    omega

def outOfOrder : List Event :=
  [.rw 0 5 9 false, .publish 0, .rw 1 6 10 true, .publish 1, .devTake, .devTake, .devStatus 3 0, .devUsed 3,
    .intrStart, .intrStep]

theorem outOfOrder_run :
    ∃ s, Machine.exec Sys.step .init outOfOrder = some (.ok s) ∧
      s.procs 0 = .waiting ⟨5, 0, 1, 2, 0⟩ ∧ s.procs 1 = .waiting ⟨6, 3, 4, 5, 1⟩ ∧
        s.disk 5 = true ∧ s.disk 6 = false :=
  ⟨_, rfl, rfl, rfl, rfl, rfl⟩

theorem virtio_request_protocol_outOfOrder :
    ∃ s, Machine.exec Sys.step .init outOfOrder = some (.ok s) ∧
      s.procs 1 = .waiting ⟨6, 3, 4, 5, 1⟩ ∧ s.disk 6 = false ∧ 1 ∈ s.finished := by
  obtain ⟨s, hs, -, h1, -, hd⟩ := outOfOrder_run
  exact ⟨s, hs, h1, hd, (virtio_request_protocol s ⟨outOfOrder, hs⟩).2.2.2.2.1 1 _ h1 hd⟩

end Xv6.Virtio
