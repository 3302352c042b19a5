import Xv6.Vm.Lemmas.Args
import Xv6.Vm.Theorems

/-!
# プログラムの実行の正しさ
-/

namespace Xv6.Vm

open Xv6.Lib

variable {L : Layout} {k k' : Kmem} {role role' : Nat → Role} {as : Nat → Option Shape} {own : Fin nproc → Option Own}
variable {s s' : Kernel} {p : Fin nproc} {r sz sp : Nat} {argv : List (List UInt8)}

/-! ## 失敗した `exec` -/

/-- プロセスの表も、使われているページの中身も、空いているページの集合も変わらない。 -/
structure Unchanged (s s' : Kernel) : Prop where
  kernel : s' = { s with k := s'.k }
  free : ∀ q, q ∈ s'.k.freelist ↔ q ∈ s.k.freelist
  refcnt : ∀ q, s'.k.refcnt q = s.k.refcnt q
  mem : ∀ q, q ∉ s.k.freelist → s'.k.mem q = s.k.mem q
  leaf : ∀ p r, (s.proc p).pagetable = some r → ∀ u < 2 ^ 26, s'.k.leaf r u = s.k.leaf r u

theorem Inv.unchanged (h : Inv L s role as own) (hw : World L k' role' as) (hr : Restored s.k role as k' role') :
    Unchanged s { s with k := k' } where
  kernel := rfl
  free q := by
    rw [hw.free q, h.world.free q, hr.roles q]
  refcnt := hr.refcnt
  mem q hq := hr.mem q fun hc => hq ((h.world.free q).mpr hc)
  leaf p r hpt u hu := by
    obtain ⟨o, ho, rfl, _, _, hsp⟩ := h.root_owned hpt
    exact hr.leaf _ _ u hsp hu

theorem wp_liftP {α : Type} {S : Sys} {E : String → Prop} {x : PM α} {Q : α → Sys → Prop} :
    wp (liftP x) Q E S ↔ wp x (fun a s => Q a { S with kern := s }) E S.kern := by
  unfold wp liftP
  cases x S.kern <;> rfl

theorem sysExec_spec {S : Sys} {o : Own} {E : String → Prop} (h : Inv L S.kern role as own) (ho : own p = some o)
    (files : List UInt8 → Option File) :
    wp (sysExec L files p) (fun res S' => res = -1 → S' = { S with kern := S'.kern } ∧ Unchanged S.kern S'.kern) E S := by
  obtain ⟨_, hpt, _, _⟩ := h.of_some ho
  have hsp := h.space p o ho
  have hz : S.kern.k.NoZero ((S.kern.proc p).pagetable.getD 0) := by
    rw [hpt]
    exact h.world.noZero hsp
  -- 引数のページをすべて返した後の状態。
  have hdone : ∀ {k1 : Kmem} {role1 : Nat → Role}, Holding L as S.kern.k role [] k1 role1 →
      Unchanged S.kern { S.kern with k := k1 } := fun hh => h.unchanged hh.world (hh.done h.world)
  simp only [sysExec, wp_bind, wp_liftP]
  refine wp_post (argraw_spec (by decide)) ?_
  rintro uargv _ ⟨-, rfl⟩
  simp only [argstr, wp_bind]
  refine wp_post (argraw_spec (by decide)) ?_
  rintro addr _ ⟨-, rfl⟩
  refine wp_post (fetchstr_spec hz _ _ _) ?_
  rintro ⟨n, path⟩ _ ⟨rfl, -⟩
  simp only [wp_ite]
  refine ⟨fun _ => wp_pure.mpr fun _ => ⟨rfl, hdone (.refl h.world)⟩, fun _ => ?_⟩
  simp only [wp_bind, wp_liftP]
  refine wp_post (fetchArgs_spec (s := S.kern) hsp hpt maxarg (.refl h.world)) ?_
  rintro ⟨ok, argv⟩ _ ⟨k1, role1, rfl, h1⟩
  cases ok with
  | false =>
    simp only [wp_bind, wp_liftP]
    refine wp_post (freeArgs_spec (s := S.kern) argv h1) ?_
    rintro _ _ ⟨k2, role2, rfl, h2⟩
    exact wp_pure.mpr fun _ => ⟨rfl, hdone h2⟩
  | true =>
    have hi1 : Inv L { S.kern with k := k1 } role1 as own := h.frame h1.world fun q hq => h1.held_start hq
    simp only [execNamed, wp_bind, wp_get, wp_liftP]
    refine wp_post (exec_step hi1 ho _ _) ?_
    rintro res s2 ⟨role2, hstep⟩
    cases hstep with
    | failed hw hr _ _ =>
      simp only [show ((-1 : Int) < 0) by decide, if_true, wp_pure]
      refine wp_post (freeArgs_spec (s := S.kern) argv (h1.restored hw hr)) ?_
      rintro _ _ ⟨k3, role3, rfl, h3⟩
      exact fun _ => ⟨trivial, hdone h3⟩
    | started hi2 hh _ _ _ =>
      simp only [List.length_map, if_neg (show ¬((argv.length : Int) < 0) by omega), wp_bind, wp_modify, wp_pure]
      refine wp_post (freeArgs_spec (s := s2) argv (.of_held hi2.world h1.nodup fun q hq => hh q (h1.held q hq))) ?_
      rintro _ _ ⟨k3, role3, rfl, h3⟩
      intro hc
      omega

/-- どのファイルでも、どこで空きページが尽きても、`exec` も `sys_exec` も止まらず、-1 を返せば何も変わらない。 -/
theorem exec_all_or_nothing {S : Sys} (h : Reachable L S.kern) (hp : (S.kern.proc p).state = .runnable) :
    (∀ file argv, ∃ res s', exec L p file argv S.kern = .ok (res, s') ∧ (res = -1 → Unchanged S.kern s')) ∧
    ∀ files, ∃ res S', sysExec L files p S = .ok (res, S') ∧
      (res = -1 → S'.name = S.name ∧ S'.priority = S.priority ∧ Unchanged S.kern S'.kern) := by
  obtain ⟨role, as, own, hi⟩ := h.inv
  obtain ⟨o, ho⟩ := hi.some_of_runnable (p := p) (by simp [hp])
  constructor
  · intro file argv
    obtain ⟨res, s', hok, role', hstep⟩ := wp_exists (exec_step hi ho file argv)
    refine ⟨res, s', hok, fun hres => ?_⟩
    cases hstep with
    | failed hw hr _ _ => exact hi.unchanged hw hr
    | started => omega
  intro files
  obtain ⟨res, S', hok, hpost⟩ := wp_exists (sysExec_spec hi ho files)
  refine ⟨res, S', hok, fun hres => ?_⟩
  obtain ⟨hS, hu⟩ := hpost hres
  rw [hS]
  exact ⟨rfl, rfl, hu⟩

def exampleElf : File where
  size := 64
  data := ofList [0x7F, 0x45, 0x4C, 0x46]

theorem exec_all_or_nothing_noPages : ∃ s s', Reachable exampleLayout s ∧ (s.proc exampleProc).state = .runnable ∧
    exec exampleLayout exampleProc (some exampleElf) [] s = .ok (-1, s') ∧ Unchanged s s' := by
  obtain ⟨s, hr, hc⟩ := example_exists (n := 7) (by decide) (by decide) []
    (fun s => decide ((s.proc exampleProc).state = .runnable ∧
      (exec exampleLayout exampleProc (some exampleElf) [] s).toOption.map (·.1) = some (-1)))
    (by decide +kernel)
  obtain ⟨hp, hres⟩ := of_decide_eq_true hc
  have h : Reachable exampleLayout (Sys.mk s (fun _ _ => 0) fun _ => 20).kern := hr
  obtain ⟨res, s', hok, hu⟩ := (exec_all_or_nothing h hp).1 (some exampleElf) []
  rw [show exec exampleLayout exampleProc (some exampleElf) [] s = .ok (res, s') from hok] at hres
  obtain rfl : res = -1 := by simpa [Except.toOption] using hres
  exact ⟨s, s', hr, hp, hok, hu rfl⟩

/-- 一番上のページに、引数 `argv` が積まれている。`i` 番目の文字列の番地は `ptr i` で、`sp` はポインタの配列の番地である。 -/
structure ArgStack (k : Kmem) (r sz : Nat) (argv : List (List UInt8)) (sp : Nat) (ptr : Nat → Nat) : Prop where
  aligned : sp % 16 = 0
  base : sz - pgsize ≤ sp
  array : sp + 8 * (argv.length + 1) ≤ sz
  pointer : ∀ i < argv.length, getLE (k.at r) (sp + 8 * i) 8 = ptr i
  null : getLE (k.at r) (sp + 8 * argv.length) 8 = 0
  inside : ∀ i (hi : i < argv.length), sz - pgsize ≤ ptr i ∧ ptr i + argv[i].length + 1 ≤ sz
  string : ∀ i (hi : i < argv.length), ∀ j (hj : j < argv[i].length), k.at r (ptr i + j) = argv[i][j]
  nul : ∀ i (hi : i < argv.length), k.at r (ptr i + argv[i].length) = 0
  apart : ∀ i j (hj : j < argv.length), i < j → ptr j + argv[j].length + 1 ≤ ptr i
  below : ∀ i < argv.length, sp + 8 * (argv.length + 1) ≤ ptr i
  stack : ∀ a, sz - pgsize ≤ a → a < sz → has (k.leaf r (a / pgsize)) pteU
  guard : ∀ a, sz - 2 * pgsize ≤ a → a < sz - pgsize → has (k.leaf r (a / pgsize)) pteU = false
  large : 2 * pgsize ≤ sz
  pushed : ∀ i (hi : i < argv.length), argv[i].length + 1 ≤ (if i = 0 then sz else ptr (i - 1)) ∧
    ptr i = pushdown (if i = 0 then sz else ptr (i - 1)) (argv[i].length + 1)

theorem Stacked.argStack (h : Stacked k r sz argv sp) : ArgStack k r sz argv sp (argPtr sz argv) := by
  have hfits := h.fits
  have hpage := h.page
  have hlarge := h.large
  have hlow := h.low
  have hsp := h.sp_eq
  have hmod := argsSize_mod argv
  have hru : (argv.length + 1) * 8 ≤ roundup16 ((argv.length + 1) * 8) ∧ roundup16 ((argv.length + 1) * 8) % 16 = 0 := by
    simp only [roundup16]
    omega
  simp only [Fits] at hfits
  have htop : argsSize argv ≤ sz := by omega
  have htake : ∀ i, argsSize (argv.take i) ≤ argsSize argv := by
    intro i
    rcases Nat.le_total i argv.length with hi | hi
    · have := argsSize_take_le argv hi
      rwa [List.take_length] at this
    · rw [List.take_of_length_le hi]
  have hprev : ∀ i, (if i = 0 then sz else argPtr sz argv (i - 1)) = sz - argsSize (argv.take i) := by
    intro i
    cases i with
    | zero | succ i => rfl
  constructor
  case aligned =>
    simp only [pgsize] at hpage
    omega
  case base => omega
  case array => omega
  case pointer => exact h.pointer
  case null => exact h.null
  case inside =>
    intro i hi
    have h1 := argPtr_add_le hi htop
    have h2 := htake (i + 1)
    refine ⟨?_, by omega⟩
    simp only [argPtr]
    omega
  case string =>
    intro i hi j hj
    rw [h.string i hi j hj.le, ofList, List.getD_eq_getElem _ _ hj]
  case nul =>
    intro i hi
    rw [h.string i hi _ le_rfl, ofList, List.getD_eq_default _ _ le_rfl]
  case apart =>
    intro i j hj hij
    have h1 := argPtr_add_le hj htop
    have h2 := argsSize_take_le argv (show i + 1 ≤ j from hij)
    refine h1.trans ?_
    simp only [argPtr]
    omega
  case below =>
    intro i hi
    have h2 := htake (i + 1)
    simp only [argPtr]
    omega
  case stack =>
    intro a h1 h2
    have hdiv : a / pgsize = sz / pgsize - 1 := by
      simp only [pgsize] at h1 h2 hpage hlarge ⊢
      omega
    rw [hdiv]
    exact h.user
  case guard =>
    intro a h1 h2
    have hdiv : a / pgsize = sz / pgsize - 2 := by
      simp only [pgsize] at h1 h2 hpage hlarge ⊢
      omega
    rw [hdiv]
    exact h.guard
  case large => exact hlarge
  case pushed =>
    intro i hi
    have h1 := argsSize_take_succ argv hi
    have h2 := htake (i + 1)
    have h3 := argsSize_mod (argv.take i)
    have h4 : argv[i].length + 1 ≤ roundup16 (argv[i].length + 1) := by
      simp only [roundup16]
      omega
    have hn : argv[i].length + 1 ≤ sz - argsSize (argv.take i) := by omega
    have h16 : (sz - argsSize (argv.take i)) % 16 = 0 := by
      simp only [pgsize] at hpage
      omega
    have h64 : sz - argsSize (argv.take i) < 2 ^ 64 := by
      simp only [maxva] at hlow
      omega
    rw [hprev i]
    refine ⟨hn, ?_⟩
    rw [(pushdown_eq h16 hn h64).1, argPtr, h1, Nat.sub_sub]

/-- `exec` が成功すれば引数の数を返し、新しいスタックに引数が正しく積まれている。失敗するのは、ほかの原因を除けば、引数が
スタックのページに収まらないときに限る。 -/
theorem exec_argument_stack (h : Reachable L s) (hp : (s.proc p).state = .runnable) (file : Option File)
    (argv : List (List UInt8)) (hmax : argv.length ≤ maxarg - 1) (hshort : ∀ a ∈ argv, a.length < pgsize) :
    ∃ res s' tf, exec L p file argv s = .ok (res, s') ∧ (s.proc p).trapframe = some tf ∧
      (res ≠ -1 → res = argv.length ∧ ∃ r sp ptr, (s'.proc p).pagetable = some r ∧ (s'.proc p).trapframe = some tf ∧
        s'.k.pte tf 15 = sp ∧ s'.k.pte tf 6 = sp ∧ ArgStack s'.k r (s'.proc p).sz argv sp ptr) ∧
      (s'.k.failed = s.k.failed → Loadable L tf file s.k → (res = -1 ↔ ¬Fits argv)) := by
  obtain ⟨role, as, own, hi⟩ := h.inv
  obtain ⟨o, ho⟩ := hi.some_of_runnable (p := p) (by simp [hp])
  obtain ⟨_, _, htf, _⟩ := hi.of_some ho
  have hlt : argv.length < maxarg := by
    simp only [maxarg] at hmax ⊢
    omega
  obtain ⟨res, s', hok, role', hstep⟩ := wp_exists (exec_step hi ho file argv)
  refine ⟨res, s', o.tf, hok, htf, ?_⟩
  cases hstep with
  | failed hw hr hf hfit =>
    refine ⟨fun hne => absurd rfl hne, fun hf' hl => ⟨fun _ => ?_, fun _ => rfl⟩⟩
    exact (hfit hshort hlt hl).resolve_left fun hc => absurd hf' (Nat.ne_of_gt hc)
  | @started s' role' as' own' r sz sp hi' _ _ hp' hst =>
    obtain ⟨hstk, h15, h6⟩ := hst hshort hlt
    refine ⟨fun _ => ⟨rfl, r, sp, argPtr sz argv, ?_, ?_, h15, h6, ?_⟩, fun _ _ => ⟨fun hc => ?_, fun hc => ?_⟩⟩
    · rw [hp']
    · rw [hp']
      exact htf
    · rw [hp']
      exact hstk.argStack
    · omega
    · exact absurd hstk.fits hc

theorem exec_of_image {f tf x k1} (htf : (s.proc p).trapframe = some tf)
    (hlen : f.readi 0 64 = 64) (hmagic : f.elfhdr.magic = elfMagic) (hrun : execImage L tf f argv s.k = .ok (some x, k1)) :
    wp (exec L p (some f) argv) (fun res _ => res = argv.length) (fun _ => True) s := by
  simp only [exec]
  rw [if_neg (not_not.mpr hlen), if_neg (not_not.mpr hmagic)]
  simp only [wp_bind, wp_get, wp_liftK, htf, Option.getD_some]
  refine wp_of_ok fun res k2 hrun' => ?_
  rw [hrun] at hrun'
  cases hrun'
  simp only [wp_bind, wp_liftK, wp_setProc]
  exact wp_of_ok fun _ _ _ => wp_of_ok fun _ _ _ => wp_of_ok fun _ _ _ => wp_of_ok fun _ _ _ => rfl

theorem exec_argument_stack_echo : ∃ s s' r tf sp ptr, Reachable exampleLayout s ∧
    exec exampleLayout exampleProc (some exampleElf) [[0x65, 0x63, 0x68, 0x6F]] s = .ok (1, s') ∧
    (s'.proc exampleProc).pagetable = some r ∧ s'.k.pte tf 15 = sp ∧
    ArgStack s'.k r (s'.proc exampleProc).sz [[0x65, 0x63, 0x68, 0x6F]] sp ptr := by
  obtain ⟨s, hr, hc⟩ := example_exists (n := 20) (by decide) (by decide) []
    (fun s => decide ((s.proc exampleProc).state = .runnable ∧ (s.proc exampleProc).trapframe = some (kernbase + 64) ∧
      (execImage exampleLayout (kernbase + 64) exampleElf [[0x65, 0x63, 0x68, 0x6F]] s.k).toOption.map (·.1.isSome) =
        some true))
    (by decide +kernel)
  obtain ⟨hp, htf, hrun⟩ := of_decide_eq_true hc
  obtain ⟨res, s', tf, hok, _, hpost, _⟩ := exec_argument_stack hr hp (some exampleElf) [[0x65, 0x63, 0x68, 0x6F]]
    (by decide) (by decide)
  cases himg : execImage exampleLayout (kernbase + 64) exampleElf [[0x65, 0x63, 0x68, 0x6F]] s.k with
  | error e =>
    rw [himg] at hrun
    cases hrun
  | ok x =>
    obtain ⟨_ | x, k1⟩ := x
    · rw [himg] at hrun
      cases hrun
    have hres := exec_of_image htf (by decide) (by decide +kernel) himg
    rw [wp, hok] at hres
    obtain rfl : res = 1 := hres
    obtain ⟨_, r, sp, ptr, hpt, _, h15, _, hst⟩ := hpost (by decide)
    exact ⟨s, s', r, tf, sp, ptr, hr, hok, hpt, h15, hst⟩

end Xv6.Vm
