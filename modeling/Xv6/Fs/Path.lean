import Xv6.Fs.Names

/-!
# パスの解決
-/

namespace Xv6.Fs

open Xv6.Lib List

variable {sb : Superblock} {u : User} {s s0 : Store} {i j n p c : Nat} {name : Name} {path : List UInt8} {elems : List Name}

/-! ## 要素 -/

/-- `/` を含まない極大な空でない要素を、先頭の `DIRSIZ` バイトに切る。 -/
def components (path : List UInt8) : List Name := ((path.splitOn slash).filter (· ≠ [])).map (·.take dirsiz)

theorem splitOn_slash (x y : List UInt8) : (x ++ slash :: y).splitOn slash = x.splitOn slash ++ y.splitOn slash :=
  splitOnP_append_cons x y (by decide)

theorem components_append (x y : List UInt8) : components (x ++ slash :: y) = components x ++ components y := by
  rw [components, splitOn_slash, filter_append, map_append, components, components]

theorem components_nil : components [] = [] := by decide

theorem components_dropWhile (path : List UInt8) : components (path.dropWhile (· = slash)) = components path := by
  induction path with
  | nil => rfl
  | cons c path ih =>
    by_cases hc : c = slash
    · rw [dropWhile_cons_of_pos (by simpa using hc), ih, hc]
      exact (components_append [] path).symm
    · rw [dropWhile_cons_of_neg (by simpa using hc)]

theorem components_single {x} (hx : slash ∉ x) (hne : x ≠ []) : components x = [x.take dirsiz] := by
  rw [components, splitOn_eq_singleton hx, filter_cons_of_pos (by simpa using hne)]
  rfl

theorem components_first {d r} (hd : d ≠ slash) : components (d :: r) =
    ((d :: r).takeWhile (· ≠ slash)).take dirsiz :: components ((d :: r).dropWhile (· ≠ slash)) := by
  have hsplit := takeWhile_append_dropWhile (p := fun c : UInt8 => decide (c ≠ slash)) (l := d :: r)
  have hno : slash ∉ (d :: r).takeWhile (· ≠ slash) := fun hm => by simpa using mem_takeWhile_imp hm
  have hne : (d :: r).takeWhile (· ≠ slash) ≠ [] := by
    rw [takeWhile_cons_of_pos (by simpa using hd)]
    exact cons_ne_nil _ _
  conv_lhs => rw [← hsplit]
  cases hy : (d :: r).dropWhile (· ≠ slash) with
  | nil => rw [append_nil, components_single hno hne, components_nil]
  | cons e y =>
    have he : e = slash := by
      have := head?_dropWhile_not (fun c : UInt8 => decide (c ≠ slash)) (d :: r)
      rw [hy] at this
      simpa using this
    have hslash : components (slash :: y) = components y := components_append [] y
    rw [he, components_append, components_single hno hne, hslash]
    rfl

theorem skipelem_components {name rest} (h : skipelem path = some (name, rest)) :
    components path = name :: components rest ∧ rest.length < path.length := by
  rw [skipelem] at h
  cases hp : path.dropWhile (· = slash) with
  | nil =>
    rw [hp] at h
    cases h
  | cons d r =>
    have hd : d ≠ slash := by
      have := head?_dropWhile_not (fun c : UInt8 => decide (c = slash)) path
      rw [hp] at this
      simpa using this
    rw [hp] at h
    simp only [cons_ne_nil, if_false, Option.some.injEq, Prod.mk.injEq] at h
    obtain ⟨rfl, rfl⟩ := h
    refine ⟨by rw [components_dropWhile, ← components_dropWhile path, hp, components_first hd], ?_⟩
    have hlen := (dropWhile_suffix (l := path) fun c => decide (c = slash)).length_le
    rw [hp] at hlen
    have htail : ((d :: r).dropWhile fun c => decide (c ≠ slash)).length ≤ r.length := by
      rw [dropWhile_cons_of_pos (by simpa using hd)]
      exact (dropWhile_suffix _).length_le
    have hrest := (dropWhile_suffix (l := (d :: r).dropWhile fun c => decide (c ≠ slash))
      fun c => decide (c = slash)).length_le
    rw [length_cons] at hlen
    omega

theorem skipelem_none (h : skipelem path = none) : components path = [] := by
  rw [skipelem] at h
  split at h
  case isTrue hnil => rw [← components_dropWhile, hnil, components_nil]
  case isFalse => cases h

theorem pathElems_eq (hn : path.length ≤ n) : pathElems n path = components path := by
  induction n generalizing path with
  | zero =>
    obtain rfl := eq_nil_of_length_eq_zero (Nat.le_zero.mp hn)
    rfl
  | succ n ih =>
    rw [pathElems]
    cases hv : skipelem path with
    | none => exact (skipelem_none hv).symm
    | some v =>
      obtain ⟨heq, hlt⟩ := skipelem_components hv
      rw [heq]
      exact congrArg (v.1 :: ·) (ih (by omega))

/-! ## `name` -/

/-- `skipelem` が `name` に行う書き込み。長い要素には、終わりの零を書かない。 -/
def nameStores (elem : List UInt8) : List (UInt8 × Nat) :=
  if dirsiz ≤ elem.length then (elem.take dirsiz).zipIdx else elem.zipIdx ++ [(0, elem.length)]

def applyStores (b : Bytes) (w : List (UInt8 × Nat)) : Bytes := w.foldl (fun b v => update b v.2 v.1) b

def cname (b : Bytes) : Name := ((List.range dirsiz).map b).takeWhile (· ≠ 0)

def skipelemAt (path : List UInt8) : Option (List (UInt8 × Nat) × List UInt8) :=
  let path := path.dropWhile (· = slash)
  if path = [] then none
  else some (nameStores (path.takeWhile (· ≠ slash)), (path.dropWhile (· ≠ slash)).dropWhile (· = slash))

theorem nameStores_lt (elem : List UInt8) : ∀ v ∈ nameStores elem, v.2 < dirsiz := by
  intro v hv
  rw [nameStores] at hv
  split at hv
  case isTrue =>
    have := (mem_zipIdx hv).2.1
    rw [length_take] at this
    omega
  case isFalse hlt =>
    obtain hv | hv := mem_append.mp hv
    · have := (mem_zipIdx hv).2.1
      omega
    · rw [mem_singleton.mp hv]
      exact Nat.lt_of_not_le hlt

theorem applyStores_zipIdx (l : List UInt8) (k : Nat) (b : Bytes) (x : Nat) :
    applyStores b (l.zipIdx k) x = if k ≤ x ∧ x < k + l.length then l.getD (x - k) 0 else b x := by
  induction l generalizing k b with
  | nil => simp [applyStores]
  | cons c l ih =>
    have hstep : applyStores b ((c :: l).zipIdx k) = applyStores (update b k c) (l.zipIdx (k + 1)) := rfl
    rw [hstep, ih, length_cons]
    by_cases hx : x = k
    · subst hx
      rw [if_neg (by omega), if_pos (by omega), Nat.sub_self, update_self]
      rfl
    rw [update_of_ne hx]
    by_cases hin : k + 1 ≤ x ∧ x < k + 1 + l.length
    · rw [if_pos hin, if_pos (by omega)]
      obtain ⟨y, rfl⟩ := Nat.exists_eq_add_of_le hin.1
      have h1 : k + 1 + y - (k + 1) = y := by omega
      have h2 : k + 1 + y - k = y + 1 := by omega
      rw [h1, h2]
      rfl
    · rw [if_neg hin, if_neg (by omega)]

theorem cname_stores {elem} (hz : (0 : UInt8) ∉ elem) (b : Bytes) :
    cname (applyStores b (nameStores elem)) = elem.take dirsiz := by
  have hall : ∀ c ∈ elem, decide (c ≠ 0) = true := fun c hc => decide_eq_true fun h0 => hz (h0 ▸ hc)
  by_cases hlong : dirsiz ≤ elem.length
  · have hlen : (elem.take dirsiz).length = dirsiz := by rw [length_take, Nat.min_eq_left hlong]
    have hbytes : (List.range dirsiz).map (applyStores b (nameStores elem)) = elem.take dirsiz := by
      refine ext_getElem (by rw [length_map, length_range, hlen]) fun x hx hx' => ?_
      rw [getElem_map, getElem_range, nameStores, if_pos hlong, applyStores_zipIdx, hlen, if_pos (by omega)]
      exact getD_eq_getElem _ _ hx'
    rw [cname, hbytes, takeWhile_eq_self_iff]
    exact fun c hc => hall c (mem_of_mem_take hc)
  -- 短い要素の直後には零がある。
  obtain ⟨m, hm⟩ : ∃ m, dirsiz = elem.length + (m + 1) := ⟨dirsiz - elem.length - 1, by omega⟩
  have hstores : applyStores b (nameStores elem) = update (applyStores b elem.zipIdx) elem.length 0 := by
    rw [nameStores, if_neg hlong, applyStores, foldl_append]
    rfl
  have hbytes : (List.range elem.length).map (applyStores b (nameStores elem)) = elem := by
    refine ext_getElem (by rw [length_map, length_range]) fun x hx hx' => ?_
    rw [getElem_map, getElem_range, hstores, update_of_ne (by omega), applyStores_zipIdx,
      if_pos (by omega)]
    exact getD_eq_getElem _ _ hx'
  have hend : applyStores b (nameStores elem) elem.length = 0 := by rw [hstores, update_self]
  rw [cname, hm, range_add, map_append, hbytes, range_succ_eq_map, map_cons, map_cons,
    Nat.add_zero, hend, takeWhile_append_of_pos hall, takeWhile_cons_of_neg (by decide), append_nil,
    take_of_length_le (by omega)]

theorem skipelemAt_eq (hz : (0 : UInt8) ∉ path) (b : Bytes) :
    (skipelemAt path).map (fun v => (cname (applyStores b v.1), v.2)) = skipelem path := by
  by_cases hp : path.dropWhile (· = slash) = []
  · simp only [skipelemAt, skipelem, if_pos hp, Option.map_none]
  · have hsub : ∀ c ∈ (path.dropWhile (· = slash)).takeWhile (· ≠ slash), c ∈ path := fun c hc =>
      (dropWhile_suffix _).subset ((takeWhile_sublist _).subset hc)
    simp only [skipelemAt, skipelem, if_neg hp, Option.map_some]
    rw [cname_stores fun h0 => hz (hsub 0 h0)]

theorem skipelemAt_lt {v} (h : skipelemAt path = some v) : ∀ w ∈ v.1, w.2 < dirsiz := by
  by_cases hp : path.dropWhile (· = slash) = []
  · simp only [skipelemAt, if_pos hp] at h
    cases h
  · simp only [skipelemAt, if_neg hp, Option.some.injEq] at h
    subst h
    exact nameStores_lt _

/-! ## 畳み込み -/

/-- ディレクトリ `i` で名前 `name` を探す。ディレクトリでなければ、見つからない。 -/
def Store.walk (sb : Superblock) (s : Store) (i : Nat) (name : Name) : Option Nat :=
  if (s.ino sb i).type = tDir then (s.entryOf sb i name).map fun y => direntInum (s.direntAt sb i y) 0 else none

def Store.resolve (sb : Superblock) (s : Store) (i : Nat) (elems : List Name) : Option Nat := elems.foldlM (s.walk sb) i

def Store.resolveParent (sb : Superblock) (s : Store) (i : Nat) (elems : List Name) : Option (Nat × Name) := do
  let name ← elems.getLast?
  let d ← s.resolve sb i elems.dropLast
  if (s.ino sb d).type = tDir then some (d, name) else none

def Store.target (sb : Superblock) (s : Store) (parent : Bool) (i : Nat) (elems : List Name) : Option (Nat × Name) :=
  if parent then s.resolveParent sb i elems else (s.resolve sb i elems).map fun j => (j, [])

theorem resolve_cons : s.resolve sb i (name :: elems) = (s.walk sb i name).bind fun j => s.resolve sb j elems := rfl

theorem resolveParent_single :
    s.resolveParent sb i [name] = if (s.ino sb i).type = tDir then some (i, name) else none := rfl

theorem resolveParent_cons (hne : elems ≠ []) : s.resolveParent sb i (name :: elems) =
    (s.walk sb i name).bind fun j => s.resolveParent sb j elems := by
  obtain ⟨e, elems, rfl⟩ := exists_cons_of_ne_nil hne
  simp only [Store.resolveParent, getLast?_cons_cons, dropLast_cons_cons, resolve_cons]
  cases (e :: elems).getLast? <;> cases s.walk sb i name <;> rfl

theorem target_cons {parent} (h : ¬(parent = true ∧ elems = [])) : s.target sb parent i (name :: elems) =
    (s.walk sb i name).bind fun j => s.target sb parent j elems := by
  cases parent with
  | true => exact resolveParent_cons fun hc => h ⟨rfl, hc⟩
  | false =>
    simp only [Store.target, resolve_cons]
    cases s.walk sb i name <;> rfl

theorem target_of_not_dir {parent} (hdir : (s.ino sb i).type ≠ tDir) :
    s.target sb parent i (name :: elems) = none := by
  by_cases hlast : parent = true ∧ elems = []
  · obtain ⟨rfl, rfl⟩ := hlast
    rw [Store.target, if_pos rfl, resolveParent_single, if_neg hdir]
  · rw [target_cons hlast, Store.walk, if_neg hdir]
    rfl

/-! ## `namex` -/

/-- 項目の指す inode、参照のある inode とルートは、割り当てられている。 -/
structure Tree (sb : Superblock) (s : Store) : Prop extends Sound sb s where
  entryLive : ∀ i y, i < sb.ninodes → (s.ino sb i).type = tDir → direntSize * (y + 1) ≤ (s.ino sb i).size →
    direntInum (s.direntAt sb i y) 0 ≠ 0 → (s.ino sb (direntInum (s.direntAt sb i y) 0)).type ≠ 0
  refLive : ∀ i, i < sb.ninodes → 0 < (s.k.itab i).ref → (s.ino sb i).type ≠ 0
  rootLive : (s.ino sb rootino).type ≠ 0

theorem Tree.walk (h : Tree sb s) (hi : i < sb.ninodes) (hw : s.walk sb i name = some j) :
    j < sb.ninodes ∧ (s.ino sb j).type ≠ 0 := by
  rw [Store.walk] at hw
  split at hw
  case isTrue hdir =>
    obtain ⟨y, hy, rfl⟩ := Option.map_eq_some_iff.mp hw
    obtain ⟨hm, hsize, -⟩ := entryOf_eq_some.mp hy
    exact ⟨h.entry i y hi hdir hsize hm.1, h.entryLive i y hi hdir hsize hm.1⟩
  case isFalse => cases hw

/-- パスの途中で、次の inode が表になく、たどってきた inode の参照を持つ表に空きがない。 -/
def Store.Overruns (sb : Superblock) (s : Store) (parent : Bool) : Nat → List Name → Prop
  | _, [] => False
  | i, name :: rest => ¬(parent = true ∧ rest = []) ∧
    ∃ j, s.walk sb i name = some j ∧ (s.Jams sb [i] j ∨ s.Overruns sb parent j rest)

theorem not_overruns {parent} (h : s.walk sb i name = none) : ¬s.Overruns sb parent i (name :: elems) := by
  rintro ⟨-, j, hj, -⟩
  rw [h] at hj
  cases hj

theorem Held.namexLoop_target {E} (ht : Tree sb s0) (parent : Bool) (elems : List Name) :
    ∀ {i : Nat} {s : Store}, Held sb s0 [i] s → i < sb.ninodes → (s0.ino sb i).type ≠ 0 →
    (s0.Overruns sb parent i elems → E "iget: no inodes") →
    wp (exec u (Fs.namexLoop sb parent i elems)) (fun r s' => ¬s0.Overruns sb parent i elems ∧
      r = s0.target sb parent i elems ∧ Held sb s0 (r.map Prod.fst).toList s') E s := by
  have hs := ht.toSound
  induction elems with
  | nil =>
    intro i s h hi hlive hE
    rw [Fs.namexLoop, exec_ite]
    refine ⟨fun hp => ?_, fun hp => wp_pure.mpr ⟨not_false, ?_, h⟩⟩
    · rw [exec_bind]
      refine wp_post (h.iput hs hi) fun _ s' h' => wp_pure.mpr ⟨not_false, ?_, h'.1⟩
      rw [Store.target, if_pos hp]
      rfl
    · rw [Store.target, if_neg hp]
      rfl
  | cons name rest ih =>
    intro i s h hi hlive hE
    rw [Fs.namexLoop, exec_bind]
    refine wp_post (h.ilock_or (fun hc => absurd h.ref_pos (by omega)) fun hc => absurd hc hlive) ?_
    rintro _ s1 ⟨h1, hl1, _⟩
    rw [exec_bind, exec_inode, hl1.d, exec_ite]
    refine ⟨fun hdir => ?_, fun hdir => ?_⟩
    · simp only [exec_bind]
      refine wp_post (h1.iunlockput hs hi) fun _ s2 h2 => wp_pure.mpr ⟨not_overruns ?_, (target_of_not_dir hdir).symm, h2.1⟩
      rw [Store.walk, if_neg hdir]
    have hdir : (s0.ino sb i).type = tDir := not_not.mp hdir
    rw [exec_ite]
    refine ⟨fun hlast => ?_, fun hmore => ?_⟩
    · simp only [iunlock, exec_bind, exec_getK, exec_ite]
      refine ⟨fun hc => absurd h1.ref_pos (by omega), fun _ => wp_pure.mpr ⟨fun hc => hc.1 hlast, ?_, h1⟩⟩
      obtain ⟨hp, rfl⟩ := hlast
      rw [Store.target, if_pos hp, resolveParent_single, if_pos hdir]
    rw [exec_bind]
    have hwalk : s0.walk sb i name = (s0.entryOf sb i name).map fun y => direntInum (s0.direntAt sb i y) 0 := by
      rw [Store.walk, if_pos hdir]
    refine wp_post (h1.dirlookup_found hs ⟨hl1, hi, hdir⟩ fun y hy hj => hE ⟨hmore, _, ?_, .inl hj⟩) ?_
    · rw [hwalk, hy, Option.map_some]
    rintro (_ | ⟨off, next⟩) s2 hfound
    · obtain rfl := hfound.miss rfl
      have hnone := Option.map_eq_none_iff.mp hfound.entry.symm
      simp only [exec_bind]
      rw [hnone, Option.map_none] at hwalk
      refine wp_post (h1.iunlockput hs hi) fun _ s3 h3 => wp_pure.mpr ⟨not_overruns hwalk, ?_, h3.1⟩
      rw [target_cons hmore, hwalk]
      rfl
    obtain ⟨y, hy, heq⟩ := Option.map_eq_some_iff.mp hfound.entry.symm
    cases heq
    rw [hy, Option.map_some] at hwalk
    obtain ⟨hn, hnlive⟩ := ht.walk hi hwalk
    obtain ⟨h2, hroom⟩ := hfound.hit _ _ rfl
    simp only [exec_bind]
    refine wp_post ((h2.perm (.swap i _ [])).iunlockput hs hi) fun _ s3 h3 => ?_
    rw [target_cons hmore, hwalk]
    refine wp_post (ih h3.1 hn hnlive fun h => hE ⟨hmore, _, hwalk, .inr h⟩) fun _ s4 h4 => ⟨?_, h4.2⟩
    rintro ⟨-, j, hj, hbad⟩
    rw [hwalk] at hj
    cases hj
    exact hbad.elim hroom h4.1

def start (path : List UInt8) (c : Nat) : Nat := if path.head? = some slash then rootino else c

/-- 解決が `iget` で止まる。 -/
def Store.Stops (sb : Superblock) (s : Store) (parent : Bool) (path : List UInt8) (c : Nat) : Prop :=
  path.head? = some slash ∧ s.Jams sb [] rootino ∨ s.Overruns sb parent (start path c) (components path)

theorem namex_target {E} (ht : Tree sb s) (hcwd : (s.k.procs p).cwd = some c) (path : List UInt8)
    (parent : Bool) (hE : s.Stops sb parent path c → E "iget: no inodes") :
    wp (exec u (namex sb p path parent)) (fun r s' => ¬s.Stops sb parent path c ∧
      r = s.target sb parent (start path c) (components path) ∧ Held sb s (r.map Prod.fst).toList s') E s := by
  have h : Held sb s [] s := .refl s
  unfold Store.Stops start at *
  rw [namex, pathElems_eq le_rfl, exec_ite]
  refine ⟨fun hroot => ?_, fun hrel => ?_⟩
  · simp only [exec_bind, if_pos hroot] at hE ⊢
    refine wp_post (h.iget_or fun hj => hE (.inl ⟨hroot, hj⟩)) ?_
    rintro _ s1 ⟨h1, -, hroom⟩
    refine wp_post (h1.namexLoop_target ht parent _ ht.root ht.rootLive fun ho => hE (.inr ho)) fun _ s2 h2 => ⟨?_, h2.2⟩
    exact fun hc => hc.elim (fun hj => hroom hj.2) h2.1
  obtain ⟨hc, hpos⟩ := ht.cwd p c hcwd
  simp only [proc, exec_bind, exec_getK, if_neg hrel] at hE ⊢
  refine wp_pure.mpr ?_
  rw [hcwd]
  simp only [exec_bind]
  refine wp_post (h.idup hpos) fun _ s1 h1 => ?_
  refine wp_post (h1.namexLoop_target ht parent _ hc (ht.refLive c hc hpos) fun ho => hE (.inr ho)) fun _ s2 h2 =>
    ⟨?_, h2.2⟩
  exact fun hbad => hbad.elim (fun hj => hrel hj.1) h2.1

/-- `namei` はパスの要素を順に探した inode の、`nameiparent` は最後の要素の手前のディレクトリの参照だけを得る。`NULL` なら参照を
残さない。止まるのは、たどる inode が表になく、表に空きもないとき、そのときだけである。 -/
theorem path_resolution (ht : Tree sb s) (hcwd : (s.k.procs p).cwd = some c) (hz : (0 : UInt8) ∉ path) :
    wp (exec u (namei sb p path)) (fun r s' => ¬s.Stops sb false path c ∧
      r = s.resolve sb (start path c) (components path) ∧ Held sb s r.toList s')
      (fun msg => msg = "iget: no inodes" ∧ s.Stops sb false path c) s ∧
    wp (exec u (nameiparent sb p path)) (fun r s' => ¬s.Stops sb true path c ∧
      r = s.resolveParent sb (start path c) (components path) ∧ Held sb s (r.map Prod.fst).toList s')
      (fun msg => msg = "iget: no inodes" ∧ s.Stops sb true path c) s ∧
    ∀ rest, rest <:+ path →
      (∀ b, (skipelemAt rest).map (fun v => (cname (applyStores b v.1), v.2)) = skipelem rest) ∧
      ∀ v, skipelemAt rest = some v → ∀ w ∈ v.1, w.2 < dirsiz := by
  refine ⟨?_, namex_target ht hcwd path true fun h => ⟨rfl, h⟩, fun rest hrest => ⟨fun b => ?_, fun v hv => skipelemAt_lt hv⟩⟩
  · rw [namei, exec_bind]
    refine wp_post (namex_target ht hcwd path false fun h => ⟨rfl, h⟩) ?_
    rintro r s' ⟨hgo, hr, h'⟩
    refine wp_pure.mpr ⟨hgo, ?_, h'⟩
    rw [hr, Store.target, if_neg (by decide), Option.map_map]
    exact Option.map_id'
  · exact skipelemAt_eq (fun h0 => hz (hrest.subset h0)) b

/-! ## 例 -/

theorem exampleTree_tree : Tree exampleSb exampleTree where
  toSound := exampleTree_sound
  entryLive i y hi hd hy _ := by
    obtain rfl := exampleTree_dir hi hd
    have hy : y < 2 := by
      change 16 * (y + 1) ≤ 32 at hy
      omega
    interval_cases y <;> decide +kernel
  refLive := exampleTree_settled.refs
  rootLive := by decide

theorem path_resolution_dot : exampleTree.resolve exampleSb (start [47, 46] 1) (components [47, 46]) = some 1 ∧
    wp (exec exampleUser (namei exampleSb 0 [47, 46])) (fun r s' => r = some 1 ∧ Held exampleSb exampleTree [1] s')
      (fun msg => msg = "iget: no inodes" ∧ exampleTree.Stops exampleSb false [47, 46] 1) exampleTree := by
  have hres : exampleTree.resolve exampleSb (start [47, 46] 1) (components [47, 46]) = some 1 := by decide +kernel
  refine ⟨hres, ?_⟩
  have hnamei := (path_resolution (u := exampleUser) (p := 0) (c := 1) exampleTree_tree rfl
    (show (0 : UInt8) ∉ [47, 46] by decide)).1
  rw [hres] at hnamei
  refine wp_post hnamei ?_
  rintro r s' ⟨-, hr, h'⟩
  rw [hr] at h'
  exact ⟨hr, h'⟩

/-- inode の表がいっぱいの例。ルートに `"a"` があり、ほかの 49 個は開かれたまま消されている。 -/
def crowdSb : Superblock := ⟨64, 64, 2, 7⟩

def crowdDinode (i : Nat) : Dinode :=
  if i = 1 then ⟨tDir, 0, 0, 1, 48, fun k => if k = 0 then 8 else 0⟩
  else if i = 51 then ⟨tFile, 0, 0, 1, 0, fun _ => 0⟩
  else if 2 ≤ i ∧ i ≤ 50 then ⟨tFile, 0, 0, 0, 0, fun _ => 0⟩
  else .empty 0

def crowd : Store where
  blk b :=
    if 2 ≤ b ∧ b < 6 then
      (List.range ipb).foldl (fun d k => putDinode d (dinodeOff k) (crowdDinode ((b - 2) * ipb + k))) fun _ => 0
    else if b = 7 then fun i => if i = 0 then 255 else if i = 1 then 1 else 0
    else if b = 8 then blit (blit (direntBytes dot 1) 16 (direntBytes dotdot 1) 0 16) 32 (direntBytes [97] 51) 0 16
    else fun _ => 0
  k :=
    { itab := fun i =>
        if 1 ≤ i ∧ i ≤ 50 then ⟨if i = 1 then 5 else 1, true, crowdDinode i⟩ else ⟨0, false, .empty 0⟩
      files := fun f => if f < 49 then ⟨.inode, 1, true, true, f + 2, 0, 0⟩ else ⟨.none, 0, false, false, 0, 0, 0⟩
      procs := fun p =>
        if p < 5 then ⟨true, fun fd => if fd < 16 ∧ 16 * p + fd < 49 then some (16 * p + fd) else none, some 1⟩
        else ⟨false, fun _ => none, none⟩ }
  umem := fun _ => 0

theorem crowd_type : ∀ i < 64, (crowd.ino crowdSb i).type = (crowdDinode i).type := by decide +kernel

theorem crowd_dir : ∀ i < 64, (crowd.ino crowdSb i).type = tDir → i = 1 := by decide +kernel

theorem crowd_addrs (hi : crowdSb.Live (crowd.ino crowdSb) i) (hne : i ≠ 1) :
    (crowd.ino crowdSb i).addrs = fun _ => 0 := by
  have hi64 : i < 64 := hi.1
  by_cases h51 : i = 51
  · subst h51
    funext k
    by_cases hk : k < ndirect + 1
    · exact (show ∀ k < 13, (crowd.ino crowdSb 51).addrs k = 0 by decide +kernel) k hk
    · exact if_neg hk
  have hlive := hi.2
  rw [crowd_type i hi64] at hlive
  have hrange : 2 ≤ i ∧ i ≤ 50 := by
    by_contra hc
    exact hlive (by simp [crowdDinode, hne, h51, hc, Dinode.empty])
  have hitab : crowd.k.itab i = ⟨1, true, crowdDinode i⟩ := by
    simp only [crowd, if_neg hne, if_pos (show 1 ≤ i ∧ i ≤ 50 by omega)]
  rw [Store.ino, hitab, if_pos ⟨Nat.one_pos, rfl⟩]
  simp [crowdDinode, hne, h51, hrange]

theorem crowd_tree : Tree crowdSb crowd where
  ok := ⟨by decide, by decide⟩
  owned := by
    refine owned_one 1 (fun i hi hne => crowd_addrs hi hne) rfl (by decide) (by decide +kernel) fun b hb _ => ?_
    exact (show ∀ b < 8, crowdSb.used crowd.blk b = true by decide +kernel) b hb
  full i hi hd bn hlt := by
    obtain rfl := crowd_dir i hi hd
    have hbn : bn = 0 := by
      change bn * 1024 < 48 at hlt
      omega
    rw [hbn, Dinode.block, single_slot rfl]
    decide
  small i hi hd := by
    obtain rfl := crowd_dir i hi hd
    decide
  whole i hi hd := by
    obtain rfl := crowd_dir i hi hd
    decide
  entry i y hi hd hy _ := by
    obtain rfl := crowd_dir i hi hd
    exact (show ∀ y < 3, direntInum (crowd.direntAt crowdSb 1 y) 0 < 64 by decide +kernel) y (by
      change 16 * (y + 1) ≤ 48 at hy
      omega)
  links := show ∀ i < 64, (crowd.ino crowdSb i).type ≠ 0 → (crowd.ino crowdSb i).nlink ≠ 0 ∨ 0 < (crowd.k.itab i).ref by
    decide +kernel
  root := by decide
  cwd p i hp := by
    by_cases h5 : p < 5
    · simp only [crowd, if_pos h5, Option.some.injEq] at hp
      subst hp
      decide
    · simp only [crowd, if_neg h5] at hp
      cases hp
  files f hf := by
    by_cases h49 : f < 49
    · simp only [crowd, if_pos h49] at hf
      cases hf
    · simp only [crowd, if_neg h49]
  entryLive i y hi hd hy _ := by
    obtain rfl := crowd_dir i hi hd
    exact (show ∀ y < 3, (crowd.ino crowdSb (direntInum (crowd.direntAt crowdSb 1 y) 0)).type ≠ 0 by decide +kernel) y (by
      change 16 * (y + 1) ≤ 48 at hy
      omega)
  refLive := show ∀ i < 64, 0 < (crowd.k.itab i).ref → (crowd.ino crowdSb i).type ≠ 0 by decide +kernel
  rootLive := by decide

theorem path_resolution_full : Tree crowdSb crowd ∧ (crowd.k.procs 0).cwd = some 1 ∧
    crowd.resolve crowdSb (start [47, 97] 1) (components [47, 97]) = some 51 ∧
    exec exampleUser (namei crowdSb 0 [47, 97]) crowd = .error "iget: no inodes" := by
  refine ⟨crowd_tree, rfl, by decide +kernel, ?_⟩
  have hrun : (match exec exampleUser (namei crowdSb 0 [47, 97]) crowd with
      | .ok _ => false
      | .error msg => decide (msg = "iget: no inodes")) = true := by decide +kernel
  split at hrun
  · cases hrun
  · rename_i msg herr
    rw [herr, of_decide_eq_true hrun]

end Xv6.Fs
