import Xv6.Fs.Names

/-!
# 失敗した `open`
-/

namespace Xv6.Fs

open Xv6.Lib

variable {sb : Superblock} {u : User} {s s0 s' : Store} {i p : Nat} {l : List Nat} {m : OMode}

/-- ディレクトリの木、inode の中身とリンクの数、`struct file` の表、記述子の表が変わっていない。 -/
structure Untouched (sb : Superblock) (s s' : Store) : Prop extends Intact sb s s' where
  files : s'.k.files = s.k.files
  procs : s'.k.procs = s.k.procs

theorem Still.untouched (h : Still sb s s') (hs : Sound sb s) : Untouched sb s s' := ⟨h.intact hs, (h 0).files, (h 0).procs⟩

/-- 空いた `struct file` か、空いた記述子がない。 -/
def Store.Crowded (s : Store) (p : Nat) : Prop :=
  (∀ f, f < nfile → (s.k.files f).ref ≠ 0) ∨ ∀ fd, fd < nofile → (s.k.procs p).ofile fd ≠ none

theorem firstIdx_none {f n} (h : firstIdx f i n = none) : ∀ j, i ≤ j → j < i + n → f j = false := by
  induction n generalizing i with
  | zero => exact fun j h1 h2 => absurd h1 (by omega)
  | succ n ih =>
    intro j h1 h2
    rw [firstIdx] at h
    split at h
    · cases h
    · rename_i hi
      by_cases hji : j = i
      · rw [hji]
        simpa using hi
      · exact ih h j (by omega) (by omega)

theorem firstIdx_some {f n j} (h : firstIdx f i n = some j) : i ≤ j ∧ j < i + n ∧ f j = true := by
  induction n generalizing i with
  | zero => cases h
  | succ n ih =>
    rw [firstIdx] at h
    split at h
    · rename_i hi
      cases h
      exact ⟨le_rfl, by omega, hi⟩
    · obtain ⟨h1, h2, h3⟩ := ih h
      exact ⟨by omega, by omega, h3⟩

theorem fileclose_fresh {f x} (href : x.ref = 1) (htype : x.type = .none)
    (hx : { x with ref := 0, type := .none } = s.k.files f) :
    wp (exec u (fileclose sb f)) (fun _ s' => s' = s) (fun _ => True) (s.setK (s.k.setF f x)) := by
  have hself : (s.setK (s.k.setF f x)).k.files f = x := update_self ..
  simp only [fileclose, file, exec_bind, exec_getK]
  refine wp_pure.mpr ?_
  rw [hself, if_neg (by omega), if_neg (by omega), exec_bind, setFile, exec_bind, exec_getK, exec_setK, htype,
    if_neg (by decide), hx]
  refine wp_pure.mpr ?_
  simp [Store.setK, Kernel.setF]

theorem openInode_spec {Q} (hfiles : ∀ f, (s.k.files f).ref = 0 → (s.k.files f).type = .none)
    (hback : (s.k.itab i).d.type = tDevice ∨ s.Crowded p →
      wp (exec u (do Fs.iunlockput sb i; endOp; return (-1 : Int))) Q (fun _ => True) s)
    (hdone : ¬s.Crowded p → ∀ (fd : Nat) s', Q fd s') : wp (exec u (openInode sb p i m)) Q (fun _ => True) s := by
  rw [openInode, exec_bind, exec_inode, exec_ite]
  refine ⟨fun hdev => hback (.inl hdev.1), fun _ => ?_⟩
  simp only [filealloc, exec_bind, exec_getK]
  cases hf : firstIdx (fun f => decide ((s.k.files f).ref = 0)) 0 nfile with
  | none =>
    refine wp_pure.mpr (hback (.inr (.inl fun f hlt => ?_)))
    simpa using firstIdx_none hf f (Nat.zero_le _) (by omega)
  | some f =>
    obtain ⟨-, hflt, hfree⟩ := firstIdx_some hf
    have hfree : (s.k.files f).ref = 0 := of_decide_eq_true hfree
    have htype := hfiles f hfree
    simp only [exec_bind]
    rw [setFile, exec_bind, exec_getK, exec_setK]
    refine wp_pure.mpr ?_
    simp only [fdalloc, proc, exec_bind, exec_getK]
    refine wp_pure.mpr ?_
    cases hfd : firstIdx (fun fd => (((s.setK (s.k.setF f { s.k.files f with ref := 1 })).k.procs p).ofile fd).isNone) 0
        nofile with
    | none =>
      refine wp_pure.mpr ?_
      rw [exec_bind]
      refine wp_post (fileclose_fresh rfl htype (by rw [← hfree, ← htype])) ?_
      rintro _ _ rfl
      refine hback (.inr (.inr fun fd hlt hnone => ?_))
      have := firstIdx_none hfd fd (Nat.zero_le _) (by omega)
      rw [Option.isNone_eq_false_iff] at this
      exact absurd hnone (Option.isSome_iff_ne_none.mp this)
    | some fd =>
      obtain ⟨-, hfdlt, hfdfree⟩ := firstIdx_some hfd
      have hroom : ¬s.Crowded p := by
        rintro (hc | hc)
        · exact hc f (by omega) hfree
        · exact hc fd (by omega) (Option.isNone_iff_eq_none.mp hfdfree)
      simp only [exec_bind]
      refine wp_of_ok fun _ _ _ => wp_pure.mpr ?_
      simp only [exec_bind]
      refine wp_of_ok fun _ _ _ => wp_of_ok fun _ _ _ => wp_of_ok fun _ _ _ => wp_of_ok fun _ _ _ => ?_
      exact wp_of_ok fun _ _ _ => wp_pure.mpr (hdone hroom fd _)

theorem Held.openInode (hs : Sound sb s0) (h : Held sb s0 (i :: l) s) (hi : i < sb.ninodes) :
    wp (exec u (openInode sb p i m)) (fun r s' => r = -1 → Held sb s0 l s') (fun _ => True) s := by
  refine openInode_spec ?_ (fun _ => h.putBack hs hi) fun _ fd _ hc => absurd hc (by omega)
  rw [h.files]
  exact hs.files

theorem Made.openInode (h : Made sb s0 tFile i s) (hs : Sound sb s0) :
    wp (exec u (openInode sb p i m)) (fun r s' => (r = -1 ↔ s0.Crowded p) ∧ (r = -1 → sb.Live (s'.ino sb) i))
      (fun _ => True) s := by
  have hcrowd : s.Crowded p ↔ s0.Crowded p := by rw [Store.Crowded, Store.Crowded, h.files, h.procs]
  refine openInode_spec ?_ (fun hbad => ?_) fun hroom fd s' => ?_
  · rw [h.files]
    exact hs.files
  · have hbad : s0.Crowded p := by
      refine hcrowd.mp (hbad.resolve_left fun hc => ?_)
      rw [← h.cached.ino_eq, h.type] at hc
      cases hc
    simp only [iunlockput, iunlock, exec_bind, exec_getK, exec_ite]
    refine ⟨fun _ => trivial, fun _ => wp_pure.mpr (wp_post (still_iput h.still h.cached.lt ?_) fun _ s' h' => ?_)⟩
    · rw [← h.cached.ino_eq]
      exact fun hc => h.nlink hc.2.2
    · exact wp_pure.mpr ⟨⟨fun _ => hbad, fun _ => rfl⟩, fun _ => (h'.1.live i).mpr h.cached.live⟩
  · have hne : (fd : Int) ≠ -1 := by omega
    exact ⟨⟨fun hc => absurd hc hne, fun hc => absurd (hcrowd.mpr hc) hroom⟩, fun hc => absurd hc hne⟩

/-- `open` が -1 を返すとき何も変わっていないのは、ファイルを作ってから、`struct file` か記述子が足りずに諦めたのではないとき
である。 -/
theorem failed_open_untouched_iff {r} (hw : Settled sb s) (path : Option (List UInt8))
    (hok : exec u (sysOpen sb p path m) s = .ok (r, s')) :
    (r = -1 → Untouched sb s s') ↔
      ¬(m.create = true ∧ (∃ x, path = some x ∧ Creates u sb p x s) ∧ s.Crowded p) := by
  have hs := hw.toSound
  have hheld : ∀ {s'}, Held sb s [] s' → Untouched sb s s' := fun h => (h.still hw.still).untouched hs
  have hpost : wp (exec u (sysOpen sb p path m)) (fun r s' => (r = -1 → Untouched sb s s') ↔
      ¬(m.create = true ∧ (∃ x, path = some x ∧ Creates u sb p x s) ∧ s.Crowded p)) (fun _ => True) s := by
    cases path with
    | none =>
      refine wp_pure.mpr ⟨fun _ => ?_, fun _ _ => hheld (.refl s)⟩
      rintro ⟨_, ⟨_, hx, _⟩, _⟩
      cases hx
    | some path =>
      have hx : (∃ x, some path = some x ∧ Creates u sb p x s) ↔ Creates u sb p path s := by simp
      simp only [hx]
      rw [sysOpen, exec_bind]
      refine wp_pure.mpr ?_
      rw [exec_ite]
      refine ⟨fun hc => ?_, fun hc => ?_⟩
      · rw [exec_bind]
        refine wp_post (create_spec hw (by decide) (by decide) (by decide) (by decide) path) ?_
        rintro r s1 ⟨hnone, hfile⟩
        obtain ⟨hyes, hno⟩ := hfile (by decide)
        by_cases hmake : Creates u sb p path s
        · -- 作った inode は、失敗しても残る。
          obtain ⟨ip, rfl, hmade⟩ := hyes hmake
          refine wp_post (hmade.openInode hs) ?_
          rintro r s2 ⟨hr, hlive⟩
          refine ⟨fun h hbad => ?_, fun h hr1 => ?_⟩
          · have hr1 := hr.mpr hbad.2.2
            exact (((h hr1).live ip).mp (hlive hr1)).2 hmade.free
          · exact absurd ⟨hc, hmake, hr.mp hr1⟩ h
        have hrest : ∀ {r : Int} {s'}, (r = -1 → Untouched sb s s') → ((r = -1 → Untouched sb s s') ↔
            ¬(m.create = true ∧ Creates u sb p path s ∧ s.Crowded p)) := fun h =>
          ⟨fun _ hbad => hmake hbad.2.1, fun _ => h⟩
        cases r with
        | none => exact wp_pure.mpr (hrest fun _ => (hnone rfl).untouched hs)
        | some ip =>
          obtain ⟨h1, hi⟩ := hno hmake ip rfl
          exact wp_post (h1.openInode hs hi) fun r s2 h2 => hrest fun hr => hheld (h2 hr)
      have hrest : ∀ {r : Int} {s'}, (r = -1 → Held sb s [] s') → ((r = -1 → Untouched sb s s') ↔
          ¬(m.create = true ∧ Creates u sb p path s ∧ s.Crowded p)) := fun h =>
        ⟨fun _ hbad => hc hbad.1, fun _ hr => hheld (h hr)⟩
      rw [exec_bind]
      refine wp_post ((Held.refl s).namei hs path) ?_
      rintro (_ | ip) s1 ⟨hnone, hsome⟩
      · exact wp_pure.mpr (hrest fun _ => hnone rfl)
      obtain ⟨h1, ha⟩ := hsome ip rfl
      simp only [exec_bind]
      refine wp_post h1.ilock ?_
      rintro _ s2 ⟨h2, _, _⟩
      rw [exec_inode, exec_ite]
      exact ⟨fun _ => wp_post (h2.putBack hs ha) fun _ _ h => hrest h,
        fun _ => wp_post (h2.openInode hs ha) fun _ _ h => hrest h⟩
  rw [wp, hok] at hpost
  exact hpost

theorem failed_open_untouched_iff_missing : ∃ s', exec exampleUser (sysOpen exampleSb 0 (some [47, 97])
    ⟨false, false, false, false, false⟩) exampleTree = .ok (-1, s') ∧ Untouched exampleSb exampleTree s' := by
  have hrun : (match exec exampleUser (sysOpen exampleSb 0 (some [47, 97]) ⟨false, false, false, false, false⟩)
      exampleTree with
      | .ok (r, _) => decide (r = -1)
      | .error _ => false) = true := by decide +kernel
  split at hrun
  · rename_i r s' hok
    obtain rfl := of_decide_eq_true hrun
    exact ⟨s', hok, (failed_open_untouched_iff exampleTree_settled _ hok).mpr (fun hc => (by cases hc.1)) rfl⟩
  · cases hrun

def exampleMode : OMode := ⟨true, false, true, false, false⟩

/-- 記述子が足りないとき、`O_CREATE` の `open` は -1 を返すが、作ったファイルは残る。 -/
theorem failed_open_creates : Settled exampleSb exampleTree ∧
    ∃ s', exec exampleUser (sysOpen exampleSb 0 (some [47, 97]) exampleMode) exampleTree = .ok (-1, s') ∧
    (exampleTree.ino exampleSb 1).size = 32 ∧ (s'.ino exampleSb 1).size = 48 ∧
    direntInum (s'.direntAt exampleSb 1 2) 0 = 2 ∧ (exampleTree.ino exampleSb 2).type = 0 ∧
    (s'.ino exampleSb 2).type = tFile ∧ (s'.ino exampleSb 2).nlink = 1 := by
  refine ⟨exampleTree_settled, ?_⟩
  have hrun : (match exec exampleUser (sysOpen exampleSb 0 (some [47, 97]) exampleMode) exampleTree with
      | .ok (r, s') => decide (r = -1 ∧ (exampleTree.ino exampleSb 1).size = 32 ∧ (s'.ino exampleSb 1).size = 48 ∧
          direntInum (s'.direntAt exampleSb 1 2) 0 = 2 ∧ (exampleTree.ino exampleSb 2).type = 0 ∧
          (s'.ino exampleSb 2).type = tFile ∧ (s'.ino exampleSb 2).nlink = 1)
      | .error _ => false) = true := by decide +kernel
  split at hrun
  · rename_i r s' hok
    obtain ⟨rfl, hrest⟩ := of_decide_eq_true hrun
    exact ⟨s', hok, hrest⟩
  · cases hrun

end Xv6.Fs
