import Xv6.Vm.Lemmas.Rewrite

/-!
# `exec` の仕様
-/

namespace Xv6.Vm

open Xv6.Lib List

variable {L : Layout} {k k0 k' : Kmem} {role role0 role' : Nat → Role} {as : Nat → Option Shape}
variable {r t v sz : Nat} {sh : Shape} {E : String → Prop}

structure Image (L : Layout) (as : Nat → Option Shape) (t r : Nat) (role0 : Nat → Role) (sz : Nat) (k : Kmem)
    (role : Nat → Role) : Prop where
  world : World L k role (update as r (some ⟨Finset.range (npages sz), true, some t⟩))
  held : ∀ p, role0 p = .held → role p = .held

/-- 使われていたページは何も変わらず、新しく使われたページは `r` の表と写像だけである。 -/
structure Draft (L : Layout) (as : Nat → Option Shape) (t r : Nat) (k0 : Kmem) (role0 : Nat → Role) (sz : Nat) (k : Kmem)
    (role : Nat → Role) : Prop extends Image L as t r role0 sz k role where
  none : as r = none
  roles : ∀ p, role0 p ≠ .free → role p = role0 p
  refcnt : ∀ p, role0 p ≠ .free → k.refcnt p = k0.refcnt p
  mem : ∀ p, role0 p ≠ .free → k.mem p = k0.mem p
  leaf : ∀ r' s u, as r' = some s → u < 2 ^ 26 → k.leaf r' u = k0.leaf r' u
  fresh : ∀ v < npages sz, role0 (pte2pa (k.leaf r v)) = .free
  tables : ∀ p path, role p = .table r path → role0 p = .free
  spent : Spent role0 r (· ∈ Finset.range (npages sz)) k role

def AllUser (k : Kmem) (r sz : Nat) : Prop := ∀ v < npages sz, has (k.leaf r v) pteU

structure Restored (k0 : Kmem) (role0 : Nat → Role) (as : Nat → Option Shape) (k' : Kmem) (role' : Nat → Role) : Prop where
  roles : ∀ p, role' p = role0 p
  refcnt : ∀ p, k'.refcnt p = k0.refcnt p
  mem : ∀ p, role0 p ≠ .free → k'.mem p = k0.mem p
  leaf : ∀ r' s u, as r' = some s → u < 2 ^ 26 → k'.leaf r' u = k0.leaf r' u

theorem Restored.refl (k : Kmem) (role : Nat → Role) (as : Nat → Option Shape) : Restored k role as k role where
  roles _ := rfl
  refcnt _ := rfl
  mem _ _ := rfl
  leaf _ _ _ _ _ := rfl

theorem Same.restored (h : Same k k' role role' as) : Restored k role as k' role' where
  __ := h
  roles p := congrFun h.roles p

theorem Image.of_roles (hw : World L k role (update as r (some ⟨Finset.range (npages sz), true, some t⟩)))
    (hr : ∀ p, role0 p ≠ .free → role p = role0 p) : Image L as t r role0 sz k role :=
  ⟨hw, fun p hp => (hr p (by simp [hp])).trans hp⟩

theorem flags2perm_lt (flags : Nat) : pteR ||| pteU ||| flags2perm flags < 1024 := by
  simp only [flags2perm]
  split <;> split <;> decide

namespace Draft

theorem self (as : Nat → Option Shape) (r sz t : Nat) :
    update as r (some ⟨Finset.range (npages sz), true, some t⟩) r =
      some ⟨Finset.range (npages sz), true, some t⟩ := update_self ..

section

variable (h : Draft L as t r k0 role0 sz k role)
include h

theorem free_start {p} (hp : role p = .free) : role0 p = .free := by
  by_contra hc
  rw [h.roles p hc] at hp
  exact hc hp

theorem mine {p} (hp : Mine k role r (Finset.range (npages sz)) p) :
    role0 p = .free := by
  rcases hp with hf | ⟨v, hv, rfl⟩
  · exact h.free_start hf
  · exact h.fresh v (Finset.mem_range.mp hv)

theorem ne_root {r' s} (hs : as r' = some s) : r' ≠ r := by
  rintro rfl
  rw [h.none] at hs
  cases hs

theorem other {r' s} (hs : as r' = some s) (sz' : Nat) :
    update as r (some ⟨Finset.range (npages sz'), true, some t⟩) r' = some s := by
  rwa [update_of_ne (h.ne_root hs)]

end

theorem start (h : World L k0 role0 as) (hn : NewSpace L as t k0 role0 r k role) : Draft L as t r k0 role0 0 k role := by
  have hnp : npages 0 = 0 := by decide
  have hnone : as r = Option.none := by
    by_contra hc
    obtain ⟨s, hs⟩ := Option.ne_none_iff_exists'.mp hc
    have := h.roots r s hs
    rw [hn.was] at this
    cases this
  have htab : ∀ p path, role0 p ≠ .table r path := by
    intro p path hp
    have := h.owned p r path hp
    rw [hnone] at this
    cases this
  constructor
  case none => exact hnone
  case toImage =>
    refine .of_roles ?_ fun p hp => hn.ext.role_eq hp
    rw [hnp, Finset.range_zero]
    exact hn.world
  case roles => exact fun p hp => hn.ext.role_eq hp
  case refcnt => exact hn.ext.refcnt
  case mem => exact fun p hp => hn.ext.mem p hp (htab p)
  case leaf => exact hn.leaf
  case fresh =>
    intro v hv
    rw [hnp] at hv
    exact absurd hv (Nat.not_lt_zero v)
  case tables =>
    intro p path hp
    by_contra hc
    rw [hn.ext.role_eq hc] at hp
    exact htab p path hp
  case spent => exact (Spent.refl role0 r _ k0).ext hn.ext (fun u hu => by simp [hnp] at hu) fun u hu => by simp [hnp] at hu

theorem uvmalloc {oldsz newsz xperm} (h : Draft L as t r k0 role0 oldsz k role)
    (hx : pteR ||| pteU ||| xperm < 1024) :
    wp (uvmalloc L r oldsz newsz xperm) (fun res k' => ∃ role',
      (res = 0 ∧ Draft L as t r k0 role0 oldsz k' role' ∧ k.failed ≤ k'.failed ∧ (k.failed < k'.failed ∨ newsz = 0)) ∨
      (res ≠ 0 ∧ oldsz ≤ res ∧ newsz ≤ res ∧ (res = newsz ∨ res = oldsz) ∧ Draft L as t r k0 role0 res k' role' ∧
        (AllUser k r oldsz → AllUser k' r res) ∧ k'.failed = k.failed)) E k := by
  have hself : update as r (some ⟨Finset.range (npages oldsz), true, some t⟩) r =
      some { (⟨∅, true, some t⟩ : Shape) with dom := Finset.range (npages oldsz) } := update_self ..
  have hlow : ∀ u < npages oldsz, u < 2 ^ 26 := fun u hu => h.world.dom_lt hself (Finset.mem_range.mpr hu)
  -- 使われていたページの性質は、成否によらず `Kept` から得られる。
  have kept : ∀ {sz' : Nat} {k' : Kmem} {role' : Nat → Role}, oldsz ≤ sz' →
      World L k' role' (update as r (some ⟨Finset.range (npages sz'), true, some t⟩)) →
      Vm.Kept r (npages oldsz) k role (update as r (some ⟨Finset.range (npages oldsz), true, some t⟩)) k' role' →
      (∀ v, npages oldsz ≤ v → v < npages sz' → role (pte2pa (k'.leaf r v)) = .free) →
      Spent role r (fun u => npages oldsz ≤ u ∧ u < npages sz') k' role' → Draft L as t r k0 role0 sz' k' role' := by
    intro sz' k' role' hle hw hk hfresh hsp
    have hmono := npages_mono hle
    have hroles : ∀ p, role0 p ≠ .free → role' p = role0 p := fun p hp =>
      (hk.roles p (by rwa [h.roles p hp])).trans (h.roles p hp)
    constructor
    case toImage => exact .of_roles hw hroles
    case none => exact h.none
    case roles => exact hroles
    case refcnt => exact fun p hp => (hk.refcnt p (by rwa [h.roles p hp])).trans (h.refcnt p hp)
    case mem =>
      intro p hp
      rw [hk.mem p (by rwa [h.roles p hp]) fun path hc => hp (h.tables p path hc), h.mem p hp]
    case leaf =>
      intro r' s u hs hu
      rw [hk.leaf r' s u (h.other hs _) hu (.inl (h.ne_root hs)), h.leaf r' s u hs hu]
    case fresh =>
      intro v hv
      by_cases ho : v < npages oldsz
      · rw [hk.leaf r _ v hself (hlow v ho) (.inr (.inl ho))]
        exact h.fresh v ho
      · exact h.free_start (hfresh v (by omega) hv)
    case tables =>
      intro p path hp
      by_contra hc
      have hp0 := h.roles p hc
      rw [hk.roles p (by rwa [hp0])] at hp
      exact hc (h.tables p path hp)
    case spent =>
      refine (h.spent.trans hself h.world (fun u hu => ⟨Finset.mem_range.mp hu, hu⟩) hk hsp).mono fun u hu => ?_
      rw [Finset.mem_range] at hu ⊢
      omega
  refine wp_post (uvmalloc_spent h.world hself hx) ?_
  rintro res k' ⟨role', ⟨hlt, rfl, rfl, rfl⟩ | ⟨hle, rfl, hg, hsp⟩ | ⟨hle, rfl, hw, hk, hsp, hf⟩⟩
  · exact ⟨role', .inr ⟨by omega, le_rfl, by omega, .inr rfl, h, fun hU => hU, rfl⟩⟩
  · have hw := hg.world
    rw [update_idem] at hw
    have hd := kept hle hw hg.kept hg.fresh hsp
    by_cases h0 : res = 0
    · have h1 : oldsz = res := by omega
      exact ⟨role', .inl ⟨h0, h1 ▸ hd, hg.failed.ge, .inr h0⟩⟩
    refine ⟨role', .inr ⟨h0, hle, le_rfl, .inl rfl, hd, fun hU v hv => ?_, hg.failed⟩⟩
    by_cases ho : v < npages oldsz
    · rw [hg.kept.leaf r _ v hself (hlow v ho) (.inr (.inl ho))]
      exact hU v ho
    · rw [pte_eq_add (k'.leaf r v), hg.flags v (by omega) hv]
      exact has_user_perm xperm _
  · exact ⟨role', .inl ⟨rfl, kept le_rfl hw hk (fun v h1 h2 => by omega) (hsp.mono fun _ hc => hc.elim),
      hf.le, .inl hf⟩⟩

theorem setPage (h : Draft L as t r k0 role0 sz k role) (hv : v < npages sz) (d : Bytes) :
    Draft L as t r k0 role0 sz (k.setPage (pte2pa (k.leaf r v)) d) role ∧
      (k.setPage (pte2pa (k.leaf r v)) d).leaf r = k.leaf r := by
  have hs := h.world.space r _ (self as r sz t)
  have hu := hs.user v (Finset.mem_range.mpr hv)
  have hnt : ∀ r' path, role (pte2pa (k.leaf r v)) ≠ .table r' path := by simp [hu]
  have hl : ∀ r' s u, update as r (some ⟨Finset.range (npages sz), true, some t⟩) r' = some s →
      (k.setPage (pte2pa (k.leaf r v)) d).leaf r' u = k.leaf r' u := fun r' s u hs' =>
    h.world.toTyped.leaf_setPage hnt d (h.world.roots r' s hs') u
  have hlr : (k.setPage (pte2pa (k.leaf r v)) d).leaf r = k.leaf r := funext fun u => hl r _ u (self as r sz t)
  refine ⟨{ h with world := h.world.setPage hnt d, mem := ?mem, leaf := ?leaf, fresh := ?fresh, spent := ?spent }, hlr⟩
  case mem =>
    intro p hp
    have hne : p ≠ pte2pa (k.leaf r v) := fun he => hp (he ▸ h.fresh v hv)
    rw [← h.mem p hp]
    exact update_of_ne hne _ _
  case leaf =>
    intro r' s u hs' hu'
    rw [hl r' s u (h.other hs' sz), h.leaf r' s u hs' hu']
  case fresh =>
    intro u hu'
    rw [hlr]
    exact h.fresh u hu'
  case spent =>
    intro p hp
    have := h.spent p hp
    rwa [← hlr] at this

theorem of_rewritten (h : Draft L as t r k0 role0 sz k role) {val}
    (hw : Rewritten L (update as r (some ⟨Finset.range (npages sz), true, some t⟩)) r
      ⟨Finset.range (npages sz), true, some t⟩ val k role k' role') : Draft L as t r k0 role0 sz k' role' := by
  have hout : ∀ p, role0 p ≠ .free → ¬Mine k role r (Finset.range (npages sz)) p := fun p hp hm => hp (h.mine hm)
  have hroles : ∀ p, role0 p ≠ .free → role' p = role0 p := fun p hp =>
    (hw.kept p (hout p hp)).1.trans (h.roles p hp)
  constructor
  case toImage => exact .of_roles hw.world hroles
  case none => exact h.none
  case roles => exact hroles
  case refcnt => exact fun p hp => (hw.kept p (hout p hp)).2.1.trans (h.refcnt p hp)
  case mem => exact fun p hp => ((hw.kept p (hout p hp)).2.2 fun path hc => hp (h.tables p path hc)).trans (h.mem p hp)
  case leaf =>
    intro r' s u hs hu
    rw [hw.leaf r' s u (h.other hs sz) hu (.inl (h.ne_root hs)), h.leaf r' s u hs hu]
  case fresh =>
    intro v hv
    exact h.mine (hw.mine _ (.inr ⟨v, Finset.mem_range.mpr hv, rfl⟩))
  case tables =>
    intro p path hp
    by_contra hc
    rw [(hw.kept p (hout p hc)).1] at hp
    exact hc (h.tables p path hp)
  case spent => exact hw.spent role0 (fun p hm => h.mine hm) h.spent

end Draft

theorem loadsegLoop_spec {va offset n f} (fuel : Nat) :
    ∀ {i : Nat} {k : Kmem}, Draft L as t r k0 role0 sz k role → AllUser k r sz → va + n ≤ sz →
      wp (loadsegLoop r va f offset n fuel i) (fun _ k' => Draft L as t r k0 role0 sz k' role ∧ AllUser k' r sz ∧
        k'.failed = k.failed) E k := by
  induction fuel with
  | zero => exact fun h hU _ => ⟨h, hU, rfl⟩
  | succ fuel ih =>
    intro i k h hU hle
    rw [loadsegLoop, wp_ite]
    refine ⟨fun hi => ?_, fun _ => ⟨h, hU, rfl⟩⟩
    have hself := Draft.self as r sz t
    have hs := h.world.space r _ hself
    have hv := page_lt_npages (show va + i < sz by omega)
    have hlt := lt_maxva_of_div (hs.dom_lt (Finset.mem_range.mpr hv))
    have hacc : k.access r (va + i) pteU = some (pte2pa (k.leaf r ((va + i) / pgsize))) := by
      rw [Kmem.access, if_pos ⟨hlt, hs.valid _ (Finset.mem_range.mpr hv), hU _ hv, hU _ hv⟩]
    rw [wp_bind, wp_walkaddr h.world hself, hacc]
    simp only [Option.getD_some, if_neg (h.world.access_ne_zero hself hacc), wp_bind, wp_modify]
    obtain ⟨h1, hl1⟩ := h.setPage hv (blit (k.mem (pte2pa (k.leaf r ((va + i) / pgsize)))) 0 f.data
      ((offset + i) % 2 ^ 32) (f.readi ((offset + i) % 2 ^ 32) (min (n - i) pgsize)))
    have hU1 : AllUser (k.setPage (pte2pa (k.leaf r ((va + i) / pgsize))) (blit
        (k.mem (pte2pa (k.leaf r ((va + i) / pgsize)))) 0 f.data ((offset + i) % 2 ^ 32)
        (f.readi ((offset + i) % 2 ^ 32) (min (n - i) pgsize)))) r sz := by
      intro u hu
      rw [hl1]
      exact hU u hu
    rw [wp_ite]
    exact ⟨fun _ => ⟨h1, hU1, rfl⟩, fun _ => ih h1 hU1 hle⟩

theorem execSegs_spec (f : File) (n : Nat) : ∀ {off sz : Nat} {k : Kmem} {role : Nat → Role},
    Draft L as t r k0 role0 sz k role → AllUser k r sz →
    wp (execSegs L f r n off sz) (fun res k' => ∃ role', Draft L as t r k0 role0 res.2 k' role' ∧
      (res.1 = true → AllUser k' r res.2) ∧ k.failed ≤ k'.failed) E k := by
  induction n with
  | zero => exact fun h hU => ⟨_, h, fun _ => hU, le_rfl⟩
  | succ n ih =>
    intro off sz k role h hU
    simp only [execSegs, wp_ite]
    have hpost : ∃ role', Draft L as t r k0 role0 sz k role' ∧ (false = true → AllUser k r sz) ∧ k.failed ≤ k.failed :=
      ⟨role, h, nofun, le_rfl⟩
    refine ⟨fun _ => wp_pure.mpr hpost, fun _ => ⟨fun _ => ih h hU, fun _ => ⟨fun _ => wp_pure.mpr hpost, fun hfs =>
      ⟨fun _ => wp_pure.mpr hpost, fun _ => ⟨fun _ => wp_pure.mpr hpost, fun _ => ?_⟩⟩⟩⟩⟩
    rw [wp_bind]
    refine wp_post (h.uvmalloc (flags2perm_lt _)) ?_
    rintro sz1 k1 ⟨role1, ⟨rfl, h1, hf1, _⟩ | ⟨h0, hle, hge, _, h1, hU1, hf1⟩⟩
    · rw [if_pos rfl]
      exact wp_pure.mpr ⟨role1, h1, nofun, hf1⟩
    rw [if_neg h0, wp_bind]
    have hmod := Nat.mod_le (f.proghdr off).filesz (2 ^ 32)
    generalize (f.proghdr off).filesz % 2 ^ 32 = filesz at hmod ⊢
    refine wp_post (loadsegLoop_spec _ h1 (hU1 hU) (by omega)) fun res k2 ⟨h2, hU2, hf2⟩ => ?_
    rw [wp_ite]
    refine ⟨fun _ => wp_pure.mpr ⟨role1, h2, nofun, by omega⟩, fun _ => ?_⟩
    refine wp_post (ih h2 hU2) ?_
    rintro res' k3 ⟨role3, h3, hU3, hf3⟩
    exact ⟨role3, h3, hU3, by omega⟩

def roundup16 (n : Nat) : Nat := (n + 15) / 16 * 16

def argsSize (argv : List (List UInt8)) : Nat := (argv.map fun a => roundup16 (a.length + 1)).sum

def Fits (argv : List (List UInt8)) : Prop := argsSize argv + roundup16 ((argv.length + 1) * 8) ≤ pgsize

def argPtr (top : Nat) (argv : List (List UInt8)) (i : Nat) : Nat := top - argsSize (argv.take (i + 1))

theorem argsSize_cons (a : List UInt8) (argv : List (List UInt8)) :
    argsSize (a :: argv) = roundup16 (a.length + 1) + argsSize argv := sum_cons

theorem argPtr_succ (top : Nat) (a : List UInt8) (argv : List (List UInt8)) (i : Nat) :
    argPtr top (a :: argv) (i + 1) = argPtr (top - roundup16 (a.length + 1)) argv i := by
  rw [argPtr, argPtr, take_succ_cons, argsSize_cons, Nat.sub_sub]

theorem le_roundup16 (n : Nat) : n ≤ roundup16 n := by
  simp only [roundup16]
  omega

/-- 下げた `sp` は 0 を跨がず、16 の倍数のままである。 -/
theorem pushdown_eq {sp n} (h16 : sp % 16 = 0) (hn : n ≤ sp) (hlt : sp < 2 ^ 64) :
    pushdown sp n = sp - roundup16 n ∧ roundup16 n ≤ sp := by
  simp only [pushdown, roundup16]
  omega

/-- 引数を積み始められる状態。`stackbase` から `top` まではユーザーがアクセスできる。 -/
structure Pushable (k : Kmem) (r stackbase top : Nat) (argv : List (List UInt8)) (sp : Nat) : Prop where
  covers : k.Covers r stackbase (top - stackbase)
  short : ∀ a ∈ argv, a.length < pgsize
  base : pgsize ≤ stackbase
  lt : top < 2 ^ 64
  low : stackbase ≤ sp
  high : sp ≤ top
  aligned : sp % 16 = 0

theorem Pushable.pushdown_eq {stackbase top sp n argv}
    (h : Pushable k r stackbase top argv sp) (hn : n ≤ pgsize) :
    pushdown sp n = sp - roundup16 n ∧ roundup16 n ≤ sp := by
  have h1 := h.base
  have h2 := h.low
  have h3 := h.high
  have h4 := h.lt
  exact Vm.pushdown_eq h.aligned (by omega) (by omega)

theorem Pushable.cons_eq {stackbase top sp a argv} (h : Pushable k r stackbase top (a :: argv) sp) :
    pushdown sp (a.length + 1) = sp - roundup16 (a.length + 1) ∧ roundup16 (a.length + 1) ≤ sp :=
  h.pushdown_eq (h.short a mem_cons_self)

theorem Draft.copyout (h : Draft L as t r k0 role0 sz k role) (dstva : Nat) (src : Bytes) (len : Nat) :
    wp (copyout L r dstva src len) (fun res k' => ∃ role' m, m ≤ len ∧ Draft L as t r k0 role0 sz k' role' ∧
      Rewritten L (update as r (some ⟨Finset.range (npages sz), true, some t⟩)) r
        ⟨Finset.range (npages sz), true, some t⟩ (written dstva src 0 m) k role k' role' ∧
      (¬res < 0 → m = len) ∧ (¬res < 0 → k'.failed = k.failed) ∧ k.failed ≤ k'.failed ∧
      (res < 0 → k.Covers r dstva len → k.failed < k'.failed)) E k := by
  refine wp_post (copyoutLoop_rewrites (Draft.self as r sz t) src len dstva 0 h.world (Nat.le_refl len)) ?_
  rintro res k' ⟨role', m, hm, hw, _, ⟨rfl, hml, hf⟩ | ⟨rfl, hc⟩⟩
  · exact ⟨role', m, hm, h.of_rewritten hw, hw, fun _ => hml, fun _ => hf, hf.ge, fun hc => absurd hc (by decide)⟩
  refine ⟨role', m, hm, h.of_rewritten hw, hw, fun hc => absurd (by decide) hc, fun hc => absurd (by decide) hc, ?_, ?_⟩
  · rcases hc with hc | ⟨_, _, hc⟩
    · exact hc.le
    · exact hc.ge
  rintro - hcov
  rcases hc with hc | ⟨hlt, hno, _⟩
  · exact hc
  · have := Kmem.covers_iff.mp hcov (dstva + m) (by omega) (by omega)
    rw [hno] at this
    cases this

/-- 書いたバイトは `sp'` から `sp` までにあり、`i` 番目の文字列は `argPtr sp argv i` にある。 -/
structure Pushed (val : Nat → Option UInt8) (argv : List (List UInt8)) (sp sp' : Nat) : Prop where
  size : sp' + argsSize argv = sp
  outside : ∀ a, a < sp' ∨ sp ≤ a → val a = none
  string : ∀ i (hi : i < argv.length), ∀ j ≤ argv[i].length, val (argPtr sp argv i + j) = some (ofList argv[i] j)

theorem Pushed.cons {val1 val2 : Nat → Option UInt8} {a : List UInt8} {argv : List (List UInt8)} {sp sp' : Nat}
    (h : Pushed val2 argv (sp - roundup16 (a.length + 1)) sp') (hle : roundup16 (a.length + 1) ≤ sp)
    (hval : ∀ x, val1 x = written (sp - roundup16 (a.length + 1)) (ofList a) 0 (a.length + 1) x) :
    Pushed (fun x => (val2 x).or (val1 x)) (a :: argv) sp sp' := by
  have hlen := le_roundup16 (a.length + 1)
  have hsize := h.size
  constructor
  case size =>
    rw [argsSize_cons]
    omega
  case outside =>
    intro x hx
    rw [h.outside x (by omega), hval, written, if_neg (by omega)]
    rfl
  case string =>
    intro i hi j hj
    cases i with
    | zero =>
      have hz : argPtr sp (a :: argv) 0 = sp - roundup16 (a.length + 1) := by
        simp [argPtr, argsSize]
      simp only [getElem_cons_zero] at hj ⊢
      rw [hz, h.outside _ (.inr (by omega)), hval, written, if_pos ⟨by omega, by omega⟩]
      rw [Option.none_or, Nat.zero_add, Nat.add_sub_cancel_left]
    | succ i =>
      simp only [getElem_cons_succ] at hj ⊢
      rw [argPtr_succ, h.string i (by simpa using hi) j hj]
      rfl

theorem execArgs_spec {stackbase : Nat} (top : Nat) (argv : List (List UInt8)) : ∀ {argc sp : Nat} {ustack : List Nat} {k : Kmem}
    {role : Nat → Role}, Draft L as t r k0 role0 sz k role →
    wp (execArgs L r stackbase argv argc sp ustack) (fun res k' => ∃ role' val, Draft L as t r k0 role0 sz k' role' ∧
      Rewritten L (update as r (some ⟨Finset.range (npages sz), true, some t⟩)) r
        ⟨Finset.range (npages sz), true, some t⟩ val k role k' role' ∧ k.failed ≤ k'.failed ∧
      (Pushable k r stackbase top argv sp →
        (res = none → k.failed < k'.failed ∨ maxarg < argc + argv.length ∨ sp < stackbase + argsSize argv) ∧
        ∀ sp' ustack', res = some (sp', ustack') → k'.failed = k.failed ∧ stackbase ≤ sp' ∧ Pushed val argv sp sp' ∧
          ustack' = ustack ++ (List.range argv.length).map (argPtr sp argv))) E k := by
  induction argv with
  | nil =>
    intro argc sp ustack k role h
    refine ⟨role, fun _ => none, h, Rewritten.refl h.world, le_rfl, fun hp => ⟨nofun, ?_⟩⟩
    rintro sp' ustack' ⟨⟩
    exact ⟨rfl, hp.low, ⟨rfl, fun _ _ => rfl, fun i hi => absurd hi (Nat.not_lt_zero i)⟩, (append_nil _).symm⟩
  | cons a argv ih =>
    intro argc sp ustack k role h
    simp only [execArgs, wp_ite]
    refine ⟨fun hmax => ?_, fun hmax => ⟨fun hlow => ?_, fun hlow => ?_⟩⟩
    · refine wp_pure.mpr ⟨role, fun _ => none, h, Rewritten.refl h.world, le_rfl, fun hp => ⟨fun _ => ?_, ?_⟩⟩
      · refine .inr (.inl ?_)
        rw [length_cons]
        omega
      · exact fun sp' ustack' hc => (by cases hc)
    · refine wp_pure.mpr ⟨role, fun _ => none, h, Rewritten.refl h.world, le_rfl, fun hp => ⟨fun _ => ?_, ?_⟩⟩
      · have hpd := hp.cons_eq
        refine .inr (.inr ?_)
        rw [argsSize_cons]
        omega
      · exact fun sp' ustack' hc => (by cases hc)
    rw [wp_bind]
    refine wp_post (h.copyout _ _ _) ?_
    rintro res k1 ⟨role1, m, hm, h1, hw1, hml, hf1, hle1, hcov1⟩
    split
    case isTrue hneg =>
      refine wp_pure.mpr ⟨role1, _, h1, hw1, hle1, fun hp => ⟨fun _ => .inl (hcov1 hneg fun x hx1 hx2 => ?_), ?_⟩⟩
      · have hpd := hp.cons_eq
        have hru := le_roundup16 (a.length + 1)
        have := hp.high
        exact hp.covers x (by omega) (by omega)
      · exact fun sp' ustack' hc => (by cases hc)
    case isFalse hpos =>
      refine wp_post (ih h1) ?_
      rintro res' k2 ⟨role2, val, h2, hw2, hle2, hpost⟩
      refine ⟨role2, _, h2, hw1.trans hw2, by omega, fun hp => ?_⟩
      have hpd := hp.cons_eq
      have hf := hf1 hpos
      have hp1 : Pushable k1 r stackbase top argv (pushdown sp (a.length + 1)) := by
        refine { hp with
          covers := (hw1.covers h.world (Draft.self as r sz t) _ _).mpr hp.covers
          short := fun b hb => hp.short b (mem_cons_of_mem a hb), low := ?low, high := ?high, aligned := ?aligned }
        case low => omega
        case high =>
          have := hp.high
          omega
        case aligned => exact Nat.mul_mod_left ..
      obtain ⟨hnone, hsome⟩ := hpost hp1
      refine ⟨fun hr => ?_, fun sp' ustack' hr => ?_⟩
      · rw [argsSize_cons, length_cons]
        have := hnone hr
        omega
      obtain ⟨hf2, hlo, hpushed, hus⟩ := hsome sp' ustack' hr
      rw [hpd.1] at hpushed hus
      refine ⟨hf2.trans hf, hlo, hpushed.cons hpd.2 fun x => ?_, ?_⟩
      · rw [hml hpos, hpd.1]
      · rw [hus, length_cons, range_succ_eq_map, map_cons, map_map, append_assoc,
          singleton_append]
        refine congrArg (ustack ++ ·) (congrArg₂ List.cons ?_ (map_congr_left fun i _ => ?_))
        · simp [argPtr, argsSize]
        · exact (argPtr_succ sp a argv i).symm

/-- 番兵のページは、ユーザーから見えなくなる。 -/
theorem Draft.uvmclear (h : Draft L as t r k0 role0 sz k role) (hv : v < npages sz) :
    wp (uvmclear r (v * pgsize)) (fun _ k' => Draft L as t r k0 role0 sz k' role ∧ has (k'.leaf r v) pteU = false ∧
      (∀ u < npages sz, u ≠ v → k'.leaf r u = k.leaf r u) ∧ k'.failed = k.failed) E k := by
  have hself := Draft.self as r sz t
  have hs := h.world.space r _ hself
  have hmem : v ∈ Finset.range (npages sz) := Finset.mem_range.mpr hv
  have hlow : ∀ u < npages sz, u < 2 ^ 26 := fun u hu => hs.dom_lt (Finset.mem_range.mpr hu)
  have hdiv : v * pgsize / pgsize = v := Nat.mul_div_cancel v (by decide)
  have hva := page_lt_maxva (hlow v hv)
  simp only [Vm.uvmclear, wp_bind, wp_walk_false hva]
  have hV := hs.valid v hmem
  have hR := hs.readable v hmem
  rcases h.world.find_access hself (v * pgsize) with ⟨_, hl⟩ | ⟨q, hf, hpte, hq⟩
  · rw [hdiv] at hl
    rw [hl, has_zero] at hV
    cases hV
  rw [hdiv] at hpte
  simp only [hf, wp_bind, wp_get, hpte, setPte, wp_modify]
  have hbit : ∀ j, j ≠ 4 → has (clear (k.leaf r v) pteU) (2 ^ j) = has (k.leaf r v) (2 ^ j) := by
    intro j hj
    rw [show pteU = 2 ^ 4 from rfl, has_clear]
    simp [hj.symm]
  have hw : clear (k.leaf r v) pteU < 2 ^ 64 := clear_lt (hpte ▸ Kmem.pte_lt k _ _)
  have hpa : pte2pa (clear (k.leaf r v) pteU) = pte2pa (k.leaf r v) := clear_div (i := 4) (by decide)
  have hsub : Within (clear (k.leaf r v) pteU) (k.leaf r v) := by
    intro i _ _ hi
    rw [show pteU = 2 ^ 4 from rfl, has_clear] at hi
    exact (Bool.and_eq_true_iff.mp hi).1
  have h1 := h.world.weaken hself hq hmem hw ((hbit 0 (by decide)).trans hV) ((hbit 1 (by decide)).trans hR) hpa hsub
  rw [update_idem] at h1
  have hleaf : ∀ r' s u, update as r (some ⟨Finset.range (npages sz), true, some t⟩) r' = some s → u < 2 ^ 26 →
      (k.setPte q (px 0 (v * pgsize)) (clear (k.leaf r v) pteU)).leaf r' u =
        if r' = r ∧ u = v then clear (k.leaf r v) pteU else k.leaf r' u :=
    fun r' s u hs' hu => h.world.toTyped.leaf_setLeaf hq hw (hlow v hv) hu (h.world.roots r' s hs')
  -- 指す先の物理ページはどれも変わらない。
  have hsame : ∀ u < npages sz, pte2pa ((k.setPte q (px 0 (v * pgsize)) (clear (k.leaf r v) pteU)).leaf r u) =
      pte2pa (k.leaf r u) := by
    intro u hu
    rw [hleaf r _ u hself (hlow u hu)]
    split
    · rename_i he
      rw [hpa, he.2]
    · rfl
  refine ⟨?_, ?_, fun u hu hne => ?_, rfl⟩
  · refine { h with world := h1, mem := ?mem, leaf := ?leaf, fresh := ?fresh, spent := ?spent }
    case mem =>
      intro p hp
      have hne : p ≠ q := fun he => hp (h.tables p _ (he ▸ hq))
      rw [← h.mem p hp]
      exact update_of_ne hne _ _
    case leaf =>
      intro r' s u hs' hu
      rw [hleaf r' s u (h.other hs' sz) hu, if_neg fun hc => h.ne_root hs' hc.1, h.leaf r' s u hs' hu]
    case fresh =>
      intro u hu
      rw [hsame u hu]
      exact h.fresh u hu
    case spent =>
      intro p hp
      rcases h.spent p hp with hf | ht | ⟨u, hu, he, h1⟩
      · exact .inl hf
      · exact .inr (.inl ht)
      · exact .inr (.inr ⟨u, hu, (hsame u (Finset.mem_range.mp hu)).trans he, h1⟩)
  · rw [hleaf r _ v hself (hlow v hv), if_pos ⟨rfl, rfl⟩, show pteU = 2 ^ 4 from rfl, has_clear]
    simp
  · rw [hleaf r _ u hself (hlow u hu), if_neg fun hc => hne hc.2]

theorem npages_pgroundup (sz : Nat) : npages (pgroundup sz) = npages sz := by
  simp only [npages, pgroundup, pgsize]
  omega

theorem argsSize_mod (argv : List (List UInt8)) : argsSize argv % 16 = 0 := by
  induction argv with
  | nil => rfl
  | cons a argv ih =>
    rw [argsSize_cons, roundup16]
    omega

/-- `exec` の作るスタック。引数の文字列とポインタの配列が、番地 `sz` から下に順に並ぶ。 -/
structure Stacked (k : Kmem) (r sz : Nat) (argv : List (List UInt8)) (sp : Nat) : Prop where
  fits : Fits argv
  page : sz % pgsize = 0
  large : 2 * pgsize ≤ sz
  low : sz < maxva
  sp_eq : sp + (argsSize argv + roundup16 ((argv.length + 1) * 8)) = sz
  string : ∀ i (hi : i < argv.length), ∀ j ≤ argv[i].length, k.at r (argPtr sz argv i + j) = ofList argv[i] j
  pointer : ∀ i < argv.length, getLE (k.at r) (sp + 8 * i) 8 = argPtr sz argv i
  null : getLE (k.at r) (sp + 8 * argv.length) 8 = 0
  guard : has (k.leaf r (sz / pgsize - 2)) pteU = false
  user : has (k.leaf r (sz / pgsize - 1)) pteU

theorem ofWords_byte (l : List Nat) (i : Nat) {j} (hj : j < 8) :
    ofWords l (8 * i + j) = UInt8.ofNat (l.getD i 0 / 256 ^ j) := by
  rw [ofWords, show (8 * i + j) / 8 = i by omega, show (8 * i + j) % 8 = j by omega]

theorem argsSize_append (l l' : List (List UInt8)) : argsSize (l ++ l') = argsSize l + argsSize l' := by
  rw [argsSize, map_append, sum_append]
  rfl

theorem argsSize_take_succ (argv : List (List UInt8)) {i} (hi : i < argv.length) :
    argsSize (argv.take (i + 1)) = argsSize (argv.take i) + roundup16 (argv[i].length + 1) := by
  rw [take_succ_eq_append_getElem hi, argsSize_append]
  rfl

theorem argsSize_take_le (argv : List (List UInt8)) {i j} (hij : i ≤ j) :
    argsSize (argv.take i) ≤ argsSize (argv.take j) := by
  obtain ⟨l, hl⟩ := take_prefix_take_left (l := argv) hij
  rw [← hl, argsSize_append]
  exact Nat.le_add_right ..

theorem argPtr_add_le {top i argv} (hi : i < argv.length) (htop : argsSize argv ≤ top) :
    argPtr top argv i + argv[i].length + 1 ≤ top - argsSize (argv.take i) := by
  have h1 := argsSize_take_succ argv hi
  have h2 := argsSize_take_le argv (show i + 1 ≤ argv.length from hi)
  rw [take_length] at h2
  simp only [argPtr, roundup16] at h1 ⊢
  omega

theorem Stacked.congr {argv sp} (h : Stacked k r sz argv sp)
    (hseen : ∀ u < npages sz, SeenEq k k' r u) : Stacked k' r sz argv sp := by
  have hfits := h.fits
  have hsp := h.sp_eq
  have hlarge := h.large
  have hru := le_roundup16 ((argv.length + 1) * 8)
  have hat : ∀ a < sz, k'.at r a = k.at r a := by
    intro a ha
    exact (hseen (a / pgsize) (page_lt_npages ha)).2 _ (Nat.mod_lt _ (by decide))
  have hword : ∀ i ≤ argv.length, getLE (k'.at r) (sp + 8 * i) 8 = getLE (k.at r) (sp + 8 * i) 8 := fun i hi =>
    getLE_congr fun a h1 h2 => hat a (by omega)
  have hpage : ∀ u < sz / pgsize, has (k'.leaf r u) pteU = has (k.leaf r u) pteU := by
    intro u hu
    refine (hseen u ?_).1
    simp only [npages, pgroundup, pgsize] at hu ⊢
    omega
  have hn : 2 ≤ sz / pgsize := (Nat.le_div_iff_mul_le (by decide)).mpr hlarge
  refine { h with string := ?string, pointer := ?pointer, null := ?null, guard := ?guard, user := ?user }
  case string =>
    intro i hi j hj
    have hle := argPtr_add_le hi (show argsSize argv ≤ sz by omega)
    rw [hat _ (by omega), h.string i hi j hj]
  case pointer =>
    intro i hi
    rw [hword i hi.le, h.pointer i hi]
  case null =>
    rw [hword _ le_rfl, h.null]
  case guard =>
    rw [hpage _ (by omega)]
    exact h.guard
  case user =>
    rw [hpage _ (by omega)]
    exact h.user

/-- 積んだバイトは、`argv` として読み戻せる。 -/
theorem Pushed.stacked {val argv sp}
    (h : Pushed val argv sz sp) (hw : Rewritten L as r ⟨Finset.range (npages sz), true, some t⟩
      (fun a => (written (sp - roundup16 ((argv.length + 1) * 8))
        (ofWords ((List.range argv.length).map (argPtr sz argv))) 0 ((argv.length + 1) * 8) a).or (val a)) k role k' role')
    (hpage : sz % pgsize = 0) (hlarge : 2 * pgsize ≤ sz) (hlow : sz < maxva)
    (hbase : sz - pgsize ≤ sp - roundup16 ((argv.length + 1) * 8)) (hle : roundup16 ((argv.length + 1) * 8) ≤ sp)
    (hguard : has (k.leaf r (sz / pgsize - 2)) pteU = false) (huser : has (k.leaf r (sz / pgsize - 1)) pteU) :
    Stacked k' r sz argv (sp - roundup16 ((argv.length + 1) * 8)) := by
  have hsize := h.size
  have hru := le_roundup16 ((argv.length + 1) * 8)
  have hdom : ∀ a < sz, a / pgsize ∈ Finset.range (npages sz) := fun a ha => Finset.mem_range.mpr (page_lt_npages ha)
  have hword : ∀ i ≤ argv.length,
      getLE (k'.at r) (sp - roundup16 ((argv.length + 1) * 8) + 8 * i) 8 =
        ((List.range argv.length).map (argPtr sz argv)).getD i 0 % 256 ^ 8 := by
    intro i hi
    refine getLE_of_digits fun j hj => ?_
    rw [hw.at_eq (hdom _ (by omega)), written, if_pos (by omega), ← ofWords_byte _ i hj]
    rw [Option.some_or, Option.getD_some]
    congr 1
    omega
  constructor
  case fits =>
    simp only [Fits]
    omega
  case page => exact hpage
  case large => exact hlarge
  case low => exact hlow
  case sp_eq => omega
  case string =>
    intro i hi j hj
    have hval := h.string i hi j hj
    -- 書かれたバイトは `sp` から `sz` までにある。
    have hin : sp ≤ argPtr sz argv i + j ∧ argPtr sz argv i + j < sz := by
      by_contra hc
      rw [h.outside _ (by omega)] at hval
      cases hval
    rw [hw.at_eq (hdom _ hin.2), written, if_neg (by omega), Option.none_or, hval, Option.getD_some]
  case pointer =>
    intro i hi
    have hlt : argPtr sz argv i < 256 ^ 8 := by
      simp only [argPtr, maxva] at hlow ⊢
      omega
    rw [hword i hi.le, getD_eq_getElem _ _ (by simpa using hi), getElem_map, getElem_range,
      Nat.mod_eq_of_lt hlt]
  case null =>
    rw [hword _ le_rfl, getD_eq_default _ _ (by simp)]
    rfl
  case guard =>
    have hd : sz / pgsize - 2 ∈ Finset.range (npages sz) := by
      rw [Finset.mem_range]
      simp only [npages, pgroundup, pgsize] at hlarge ⊢
      omega
    rw [hw.user _ hd]
    exact hguard
  case user =>
    have hd : sz / pgsize - 1 ∈ Finset.range (npages sz) := by
      rw [Finset.mem_range]
      simp only [npages, pgroundup, pgsize] at hlarge ⊢
      omega
    rw [hw.user _ hd]
    exact huser

theorem execStack_spec (h : Draft L as t r k0 role0 sz k role) (hU : AllUser k r sz) (argv : List (List UInt8)) :
    wp (execStack L r sz argv) (fun res k' => ∃ role', Draft L as t r k0 role0 res.2 k' role' ∧ k.failed ≤ k'.failed ∧
      ((∀ a ∈ argv, a.length < pgsize) → argv.length < maxarg →
        (res.1 = none → k.failed < k'.failed ∨ ¬Fits argv) ∧
        ∀ sp, res.1 = some sp → Stacked k' r res.2 argv sp)) E k := by
  have h0 : Draft L as t r k0 role0 (pgroundup sz) k role := by
    have he := npages_pgroundup sz
    refine { h with world := ?world, fresh := ?fresh, spent := ?spent }
    case world =>
      rw [he]
      exact h.world
    case fresh =>
      rw [he]
      exact h.fresh
    case spent =>
      rw [he]
      exact h.spent
  have hU0 : AllUser k r (pgroundup sz) := by
    intro v hv
    rw [npages_pgroundup] at hv
    exact hU v hv
  simp only [execStack, wp_bind]
  refine wp_post (h0.uvmalloc (by decide)) ?_
  rintro sz1 k1 ⟨role1, ⟨rfl, h1, hf1, hf1'⟩ | ⟨hz, hle, hge, heq, h1, hU1, hf1⟩⟩
  · rw [if_pos rfl]
    refine wp_pure.mpr ⟨role1, h1, hf1, fun _ _ => ⟨fun _ => .inl ?_, by simp⟩⟩
    refine hf1'.resolve_right fun hc => ?_
    simp only [pgsize] at hc
    omega
  have hsz1 : sz1 = npages sz * pgsize + 2 * pgsize := by
    have : 0 < pgsize := by decide
    rw [npages_mul]
    omega
  have hnp : npages sz1 = npages sz + 2 := by
    rw [hsz1]
    simp only [npages, pgroundup, pgsize]
    omega
  have hguard : sz1 - 2 * pgsize = npages sz * pgsize := by omega
  have hin : npages sz < npages sz1 := by omega
  simp only [if_neg hz, wp_bind, hguard]
  refine wp_post (h1.uvmclear hin) ?_
  rintro _ k2 ⟨h2, hg2, hl2, hf2⟩
  have hself := Draft.self as r sz1 t
  have hlow := (h2.world.space r _ hself).low (npages sz + 1) (Finset.mem_range.mpr (by omega))
  have hmax : sz1 < maxva := by
    simp only [tfV, maxva, pgsize] at hlow hsz1 ⊢
    omega
  have huser : has (k2.leaf r (npages sz + 1)) pteU := by
    rw [hl2 _ (by omega) (by omega)]
    exact hU1 hU0 _ (by omega)
  have hpush : (∀ a ∈ argv, a.length < pgsize) → Pushable k2 r (sz1 - pgsize) sz1 argv sz1 := by
    intro hshort
    constructor
    case covers =>
      intro a ha1 ha2
      have hdiv : a / pgsize = npages sz + 1 := by
        simp only [pgsize] at ha1 ha2 hsz1 ⊢
        omega
      rw [hdiv]
      exact ⟨by omega, (h2.world.space r _ hself).valid _ (Finset.mem_range.mpr (by omega)), huser⟩
    case short => exact hshort
    case base => omega
    case lt =>
      simp only [maxva] at hmax
      omega
    case low => omega
    case high => exact le_rfl
    case aligned =>
      simp only [pgsize] at hsz1
      omega
  refine wp_post (execArgs_spec sz1 argv h2) ?_
  rintro res k3 ⟨role3, val, h3, hw3, hf3, hpost⟩
  cases res with
  | none =>
    refine wp_pure.mpr ⟨role3, h3, by omega, fun hshort hmaxarg => ⟨fun _ => ?_, by simp⟩⟩
    have hnone := (hpost (hpush hshort)).1 rfl
    simp only [Fits]
    omega
  | some x =>
    obtain ⟨sp, ustack⟩ := x
    have hsp : (∀ a ∈ argv, a.length < pgsize) → argv.length < maxarg →
        Pushed val argv sz1 sp ∧ sz1 - pgsize ≤ sp ∧ ustack = (List.range argv.length).map (argPtr sz1 argv) ∧
        pushdown sp ((argv.length + 1) * 8) = sp - roundup16 ((argv.length + 1) * 8) ∧
        roundup16 ((argv.length + 1) * 8) ≤ sp := by
      intro hshort hmaxarg
      obtain ⟨_, hlo, hp, hus⟩ := (hpost (hpush hshort)).2 sp ustack rfl
      have hsize := hp.size
      have hmod := argsSize_mod argv
      have h64 := (hpush hshort).lt
      have h16 := (hpush hshort).aligned
      refine ⟨hp, hlo, hus, pushdown_eq (by omega) ?_ (by omega)⟩
      simp only [maxarg, pgsize] at hmaxarg hlo hsz1
      omega
    simp only [wp_ite]
    refine ⟨fun hlt => ?_, fun hge' => ?_⟩
    · refine wp_pure.mpr ⟨role3, h3, by omega, fun hshort hmaxarg => ⟨fun _ => .inr ?_, by simp⟩⟩
      obtain ⟨hp, _, _, hpd, hru⟩ := hsp hshort hmaxarg
      have hsize := hp.size
      simp only [Fits]
      omega
    rw [wp_bind]
    refine wp_post (h3.copyout _ _ _) ?_
    rintro res k4 ⟨role4, m, hm, h4, hw4, hml, hf4, hle4, hcov4⟩
    rw [wp_ite]
    refine ⟨fun hneg => ?_, fun hpos => ?_⟩
    · refine wp_pure.mpr ⟨role4, h4, by omega, fun hshort hmaxarg => ⟨fun _ => .inl ?_, by simp⟩⟩
      obtain ⟨hp, _, _, hpd, hru⟩ := hsp hshort hmaxarg
      have hsize := hp.size
      have hru' := le_roundup16 ((argv.length + 1) * 8)
      have := hcov4 hneg fun a ha1 ha2 =>
        (hw3.covers h2.world hself _ _).mpr (hpush hshort).covers a (by omega) (by omega)
      omega
    refine wp_pure.mpr ⟨role4, h4, by omega, fun hshort hmaxarg => ⟨by simp, ?_⟩⟩
    rintro sp' ⟨⟩
    obtain ⟨hp, _, hus, hpd, hru⟩ := hsp hshort hmaxarg
    have hdiv : sz1 / pgsize = npages sz + 2 := by
      simp only [pgsize] at hsz1 ⊢
      omega
    have hw := hw3.trans hw4
    rw [hml hpos, hpd, hus] at hw
    rw [hpd]
    refine hp.stacked hw ?_ ?_ hmax (by omega) hru ?_ ?_
    · simp only [pgsize] at hsz1 ⊢
      omega
    · omega
    · rw [hdiv]
      exact hg2
    · rw [hdiv]
      exact huser

/-- 作りかけの空間を返すと、始める前に戻る。 -/
theorem Draft.free (h0 : World L k0 role0 as) (h : Draft L as t r k0 role0 sz k role) :
    wp (procFreepagetable L r sz) (fun _ k' => ∃ role', World L k' role' as ∧ Restored k0 role0 as k' role' ∧
      k'.failed = k.failed) E k := by
  refine wp_post (procFreepagetable_spec h.world (Draft.self as r sz t)) ?_
  rintro _ k' ⟨role', hg⟩
  have hw := hg.world
  rw [update_idem, ← h.none, update_eq_self] at hw
  have hout : ∀ p, role0 p ≠ .free → k'.refcnt p = k0.refcnt p := by
    intro p hp
    rw [hg.refOut p (fun u hu he => hp (he ▸ h.fresh u (Finset.mem_range.mp hu))) fun path hc => hp (h.tables p path hc),
      h.refcnt p hp]
  have hroles : ∀ p, role' p = role0 p := by
    intro p
    by_cases hp : role0 p = .free
    · rw [hp]
      rcases h.spent p hp with hf | ⟨path, ht⟩ | ⟨u, hu, rfl, h1⟩
      · rw [hg.other p (by simp [hf]) (by simp [hf]), hf]
      · exact hg.table p path ht
      · rw [hg.user _ ((h.world.space r _ (Draft.self as r sz t)).user u hu), hg.refIn u hu, h1, if_pos rfl]
    have hr := h.roles p hp
    by_cases hu : role p = .user
    · rw [hg.user p hu, hout p hp, ← hr, hu, if_neg]
      have := h0.counts p
      rw [← hr, hu] at this
      simp only [Role.Counts] at this
      omega
    · rw [hg.other p hu fun path hc => hp (h.tables p path hc), hr]
  refine ⟨role', hw, ⟨hroles, fun p => ?_, fun p hp => ?_, fun r' s u hs hu => ?_⟩, hg.failed⟩
  · by_cases hp : role0 p = .free
    · have h1 := hw.counts p
      have h2 := h0.counts p
      rw [hroles p, hp] at h1
      rw [hp] at h2
      exact h1.trans h2.symm
    · exact hout p hp
  · rw [hg.mem p (by rwa [hroles p]), h.mem p hp]
  · rw [hg.leaf r' s u (h.ne_root hs) (h.other hs sz) hu, h.leaf r' s u hs hu]

def Loads (L : Layout) (t : Nat) (f : File) (k : Kmem) : Prop :=
  ∃ r k1 sz k2, procPagetable L t k = .ok (some r, k1) ∧
    execSegs L f r f.elfhdr.phnum (f.elfhdr.phoff % 2 ^ 32) 0 k1 = .ok ((true, sz), k2)

theorem execImage_spec (h : World L k role as) (ht : t < physpages) (f : File) (argv : List (List UInt8)) :
    wp (execImage L t f argv) (fun res k' => ∃ role', k.failed ≤ k'.failed ∧
      ((res = none ∧ World L k' role' as ∧ Restored k role as k' role' ∧
        ((∀ a ∈ argv, a.length < pgsize) → argv.length < maxarg → Loads L t f k → k.failed < k'.failed ∨ ¬Fits argv)) ∨
      (∃ r sz sp, res = some (r, sz, sp) ∧ Draft L as t r k role sz k' role' ∧
        ((∀ a ∈ argv, a.length < pgsize) → argv.length < maxarg → Stacked k' r sz argv sp)))) E k := by
  simp only [execImage, wp_bind]
  refine wp_post (wp_run (procPagetable_spec h ht)) ?_
  rintro res k1 ⟨hrun1, role1, ⟨rfl, h1, hsame, hf1, _⟩ | ⟨r, rfl, hn⟩⟩
  · refine wp_pure.mpr ⟨role1, by omega, .inl ⟨rfl, h1, hsame.restored, fun _ _ hl => ?_⟩⟩
    obtain ⟨r, k1', sz, k2, hrun, _⟩ := hl
    rw [hrun1] at hrun
    cases hrun
  have h0 := Draft.start h hn
  have hf1 := hn.failed
  have hU0 : AllUser k1 r 0 := fun v hv => absurd hv (by simp [show npages 0 = 0 by decide])
  simp only [wp_bind]
  refine wp_post (wp_run (execSegs_spec f _ h0 hU0)) ?_
  rintro ⟨ok, sz⟩ k2 ⟨hrun2, role2, h2, hU2, hf2⟩
  cases ok with
  | false =>
    simp only [wp_bind]
    refine wp_post (h2.free h) ?_
    rintro _ k3 ⟨role3, h3, hres, hf3⟩
    refine wp_pure.mpr ⟨role3, by omega, .inl ⟨rfl, h3, hres, fun _ _ hl => ?_⟩⟩
    obtain ⟨r', k1', sz', k2', hrun, hrun'⟩ := hl
    rw [hrun1] at hrun
    cases hrun
    rw [hrun2] at hrun'
    cases hrun'
  | true =>
    simp only [wp_bind]
    refine wp_post (execStack_spec h2 (hU2 rfl) argv) ?_
    rintro ⟨sp, sz1⟩ k3 ⟨role3, h3, hf3, hpost⟩
    cases sp with
    | none =>
      simp only [wp_bind]
      refine wp_post (h3.free h) ?_
      rintro _ k4 ⟨role4, h4, hres, hf4⟩
      refine wp_pure.mpr ⟨role4, by omega, .inl ⟨rfl, h4, hres, fun hshort hmax _ => ?_⟩⟩
      exact ((hpost hshort hmax).1 rfl).imp_left fun hlt => by omega
    | some sp =>
      exact wp_pure.mpr ⟨role3, by omega, .inr ⟨r, sz1, sp, rfl, h3, fun hshort hmax =>
        (hpost hshort hmax).2 sp rfl⟩⟩

end Xv6.Vm
