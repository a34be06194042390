import Artorias.ThreadTimeout
import Artorias.TravelVisits

/-!
# What a timeout pass gets

The pass takes `asthread_remove_timeout_threads` for a split of the pool into
the due threads and the rest, and hands what comes back to
`rb_tree_postorder_travel`. Here is exactly when that is so: the split needs a
sibling at the cut, the threads that come back are all due only if the right
spine below the cut is, and the traversal stays out of the pool only if the
root was due.
-/

namespace Artorias

/-! ## The subtree that comes back -/

/-- `t` is what the links lead to from `q`; parents and colours do not count. -/
def LinksAt (h : Addr → RbNode Addr) : Option Addr → Tree Addr → Prop
  | q, .nil => q = none
  | q, .node _ l x r => q = some x ∧ LinksAt h (h x).left l ∧ LinksAt h (h x).right r

theorem TreeAt.links {h : Addr → RbNode Addr} {p : Option Addr} {t : Tree Addr}
    (ht : TreeAt h p t) : LinksAt h t.root t := by
  induction t generalizing p with
  | nil => rfl
  | node c l x r ihl ihr =>
      obtain ⟨hx, hl, hr⟩ := ht
      refine ⟨rfl, ?_, ?_⟩
      · rw [hx]
        exact ihl hl
      · rw [hx]
        exact ihr hr

theorem LinksAt.toList_eq {h : Addr → RbNode Addr} {q : Option Addr} {t u : Tree Addr}
    (ht : LinksAt h q t) (hu : LinksAt h q u) : t.toList = u.toList := by
  induction t generalizing q u with
  | nil =>
      cases u with
      | nil => rfl
      | node c l x r => exact absurd (ht.symm.trans hu.1) (by simp)
  | node c l x r ihl ihr =>
      cases u with
      | nil => exact absurd (hu.symm.trans ht.1) (by simp)
      | node c' l' x' r' =>
          obtain rfl : x = x' := Option.some.inj (ht.1.symm.trans hu.1)
          rw [Tree.toList_node, Tree.toList_node, ihl ht.2.1 hu.2.1, ihr ht.2.2 hu.2.2]

/-- A pool holds one list only: the tree in memory has one order. -/
theorem PoolHolds.unique {s : ThreadMem} {p : Addr} {xs ys : List Addr} (hx : PoolHolds s p xs)
    (hy : PoolHolds s p ys) : xs = ys := by
  obtain ⟨⟨t, _, ht, -, rfl⟩, -⟩ := hx
  obtain ⟨⟨u, _, hu, -, rfl⟩, -⟩ := hy
  have hroot : t.root = u.root := ht.root.symm.trans hu.root
  exact ht.tree.links.toList_eq (hroot ▸ hu.tree.links)

/-! ## The split -/

/-- `asthread_remove_timeout_threads` completes, the subtree at the node it
returns and the pool it leaves share out the threads `xs`, and the pool is a
valid red-black tree by deadline. -/
def TimeoutSplits (s : ThreadMem) (p : Addr) (now : Int) (xs : List Addr) : Prop :=
  ∃ s' ret t rest, Ends (fun k => asthreadRemoveTimeoutThreads k s p now) (s', ret)
    ∧ LinksAt s'.nodes ret t ∧ PoolHolds s' p rest ∧ (t.toList ++ rest).Perm xs

theorem not_cutAt_of_rootDue {s : ThreadMem} {p : Addr} {now : Int} (h : RootDue s p now)
    (f x : Addr) : ¬CutAt s p now f x := by
  obtain ⟨r, hr, hdue⟩ := h
  rintro ⟨hf, -, -⟩
  rw [hr, liveSpine_some] at hf
  omega

/-- Where the function ends, the cut had a sibling: otherwise `rb_tree_remove_subtree` reads
through NULL. -/
theorem timeout_sibling {s : ThreadMem} {p : Addr} {now : Int} {xs : List Addr}
    {res : ThreadMem × Option Addr} (h : PoolHolds s p xs)
    (hrun : Ends (fun k => asthreadRemoveTimeoutThreads k s p now) res) (f x : Addr)
    (hcut : CutAt s p now f x) : (s.nodes f).right ≠ none := by
  cases timeoutCut h now with
  | nothing _ _ hnone => exact absurd hcut (hnone f x)
  | root _ _ _ _ _ hdue => exact absurd hcut (not_cutAt_of_rootDue hdue f x)
  | sibling _ g _ _ _ _ _ _ huniq hright =>
      rw [huniq f x hcut]
      exact hright
  | alone _ _ _ _ _ hfail =>
      obtain ⟨k, hk⟩ := hrun
      exact absurd hk (hfail k res)

/-- The pool is split exactly when the due node at the cut, if there is one, has
a sibling. -/
theorem timeout_splits_iff {s : ThreadMem} (h : PoolReachable s) (p : Addr) (now : Int) :
    (∃ xs, PoolHolds s p xs ∧ TimeoutSplits s p now xs)
      ↔ ∀ f x, CutAt s p now f x → (s.nodes f).right ≠ none := by
  constructor
  · rintro ⟨xs, hxs, s', ret, t, rest, hrun, -⟩ f x hcut
    exact timeout_sibling hxs hrun f x hcut
  · intro hsib
    obtain ⟨members, hmem⟩ := poolReachable_inv h
    refine ⟨members p, hmem.holds p, ?_⟩
    cases timeoutCut (hmem.holds p) now with
    | nothing hrun => exact ⟨s, none, .nil, members p, hrun, rfl, hmem.holds p, .refl _⟩
    | root s' x t rest hrun _ hx ht hrest hsplit =>
        refine ⟨s', some x, t, rest, hrun, ?_, hrest, hsplit ▸ .refl _⟩
        rw [← hx]
        exact ht.links
    | sibling s' f x t rest hrun _ _ _ _ hx _ ht _ hrest hsplit =>
        refine ⟨s', some x, t, rest, hrun, ?_, hrest, hsplit ▸ .refl _⟩
        rw [← hx]
        exact ht.links
    | alone f x hcut _ hright => exact absurd hright (hsib f x hcut)

def freshPools (ets : Addr → Int) : ThreadMem where
  threads th := ⟨ets th, none, .ready, .simple, none, []⟩
  nodes _ := ⟨none, none, none, .red⟩
  pools _ := none

/-- `s` after `th` has been added to pool 0. -/
def addedTo (s : ThreadMem) (th : Addr) : ThreadMem :=
  match asthreadThAddToPool 9 s th (some 0) with
  | .ok (s', _) => s'
  | .error _ => s

theorem freshPools_reachable (ets : Addr → Int) : PoolReachable (freshPools ets) :=
  .init ⟨fun _ => rfl, fun _ => rfl⟩

theorem addedTo_reachable {s : ThreadMem} (h : PoolReachable s) {th : Addr}
    (hfree : (s.threads th).pool = none) : PoolReachable (addedTo s th) := by
  rw [addedTo]
  split
  · rename_i hrun
    exact .step h (.add th (some 0) hfree ⟨9, hrun⟩)
  · exact h

/-- Deadline 5 at the root, 1 to its left, nothing to its right. -/
def twoPool : ThreadMem :=
  addedTo (addedTo (freshPools fun th => if th = 1 then 5 else 1) 1) 2

theorem twoPool_reachable : PoolReachable twoPool :=
  addedTo_reachable (addedTo_reachable (freshPools_reachable _) rfl) rfl

theorem twoPool_cut : CutAt twoPool 0 2 1 2 := ⟨.here (by decide), rfl, by decide⟩

/-- At time 2 the due thread is cut out below a root that has no other child: its sibling is
NULL. -/
theorem twoPool_not_split :
    ¬∀ s, PoolReachable s → ∀ p now, ∃ xs, PoolHolds s p xs ∧ TimeoutSplits s p now xs := by
  intro hall
  obtain ⟨xs, hxs, _, _, _, _, hrun, -⟩ := hall twoPool twoPool_reachable 0 2
  exact timeout_sibling hxs hrun 1 2 twoPool_cut rfl

theorem twoPool_split_iff :
    (∃ xs, PoolHolds twoPool 0 xs ∧ TimeoutSplits twoPool 0 2 xs)
      ↔ ∀ f x, CutAt twoPool 0 2 f x → (twoPool.nodes f).right ≠ none :=
  timeout_splits_iff twoPool_reachable 0 2

/-! ## Who is due -/

theorem rightSpine_mem {h : Addr → RbNode Addr} {p : Option Addr} {t : Tree Addr} {y : Addr}
    (ht : TreeAt h p t) (hy : RightSpine h t.root y) : y ∈ t.toList := by
  induction t generalizing p with
  | nil => cases hy
  | node c l x r _ ihr =>
      obtain ⟨hx, -, hr⟩ := ht
      cases hy with
      | here => simp
      | down hy =>
          rw [hx] at hy
          simp [ihr hr hy]

/-- The right spine of a tree that is sorted by deadline ends in the greatest one, so a
spine that is due makes the whole tree due. -/
theorem rightSpine_max {s : ThreadMem} {p : Option Addr} {t : Tree Addr} {y : Addr}
    (ht : TreeAt s.nodes p t) (hsorted : EtSorted s t.toList) (hy : y ∈ t.toList) :
    ∃ z, RightSpine s.nodes t.root z ∧ s.et y ≤ s.et z := by
  induction t generalizing p y with
  | nil => cases hy
  | node c l x r _ ihr =>
      obtain ⟨hx, -, hr⟩ := ht
      have hright : (s.nodes x).right = r.root := by rw [hx]
      obtain ⟨-, hxr, hl⟩ := List.pairwise_append.mp hsorted
      obtain ⟨hxle, hr'⟩ := List.pairwise_cons.mp hxr
      cases hroot : r.root with
      | none =>
          cases r with
          | node _ _ _ _ => cases hroot
          | nil =>
              refine ⟨x, .here, ?_⟩
              rcases List.mem_append.mp hy with hy | hy
              · exact hl y hy x (by simp)
              · exact Int.le_of_eq (congrArg s.et (List.mem_singleton.mp hy))
      | some w =>
          -- whatever stands before `r` is at most its root
          have hw := Tree.root_mem hroot
          obtain ⟨y', hy', hle⟩ : ∃ y' ∈ r.toList, s.et y ≤ s.et y' := by
            rcases List.mem_append.mp hy with hy | hy
            · exact ⟨w, hw, hl y hy w (List.mem_cons_of_mem x hw)⟩
            · rcases List.mem_cons.mp hy with rfl | hy
              · exact ⟨w, hw, hxle w hw⟩
              · exact ⟨y, hy, Int.le_refl _⟩
          obtain ⟨z, hz, hle'⟩ := ihr hr hr' hy'
          exact ⟨z, .down (hright ▸ hz), Int.le_trans hle hle'⟩

/-- At a cut with a sibling the subtree of the due node comes back as it was, with nothing
in it rearranged. -/
theorem timeout_returns {s : ThreadMem} {p : Addr} {now : Int} {xs : List Addr} {f x : Addr}
    (h : PoolHolds s p xs) (hcut : CutAt s p now f x) (hright : (s.nodes f).right ≠ none) :
    ∃ s' u, Ends (fun k => asthreadRemoveTimeoutThreads k s p now) (s', some x)
      ∧ u.root = some x ∧ TreeAt s.nodes (some f) u ∧ LinksAt s'.nodes (some x) u := by
  cases timeoutCut h now with
  | nothing _ _ hnone => exact absurd hcut (hnone f x)
  | root _ _ _ _ _ hdue => exact absurd hcut (not_cutAt_of_rootDue hdue f x)
  | sibling s' g y u _ hrun _ hg huniq _ hy hu hu' =>
      obtain rfl := huniq f x hcut
      cases hg.2.1.symm.trans hcut.2.1
      exact ⟨s', u, hrun, hy, hu, hy ▸ hu'.links⟩
  | alone g y hg huniq hnone =>
      obtain rfl := huniq f x hcut
      exact absurd hnone hright

/-- Under a root that is not due, with a left spine on which nobody is due, nobody is:
whatever is not on the spine is later than something on it. -/
theorem not_due_of_spine {s : ThreadMem} {now : Int} {p : Option Addr} {t : Tree Addr}
    (ht : TreeAt s.nodes p t) (hsorted : EtSorted s t.toList)
    (hroot : ∀ x, t.root = some x → now < s.et x)
    (hspine : ∀ f y, LiveSpine s now t.root f → (s.nodes f).left = some y → now < s.et y) :
    ∀ y ∈ t.toList, now < s.et y := by
  induction t generalizing p with
  | nil => intro y hy; cases hy
  | node c l x r ihl _ =>
      obtain ⟨hx, hl, -⟩ := ht
      have hleft : (s.nodes x).left = l.root := by rw [hx]
      have hnow := hroot x rfl
      obtain ⟨hsl, hsr, -⟩ := List.pairwise_append.mp hsorted
      -- the left subtree by induction, the right one by the order
      have hlive : ∀ z ∈ l.toList, now < s.et z := by
        refine ihl hl hsl (fun z hz => hspine x z (.here hnow) (hleft.trans hz)) ?_
        intro f y hf hy
        exact hspine f y (.down hnow (hleft ▸ hf)) hy
      intro y hy
      rcases List.mem_append.mp hy with hy | hy
      · exact hlive y hy
      · rcases List.mem_cons.mp hy with rfl | hy
        · exact hnow
        · have hle := (List.pairwise_cons.mp hsr).1 y hy
          omega

/-- The function answers NULL exactly when nobody in the pool is due, and otherwise takes at
least one thread out of it. -/
theorem timeout_null_iff {s s' : ThreadMem} {p : Addr} {now : Int} {xs : List Addr}
    {ret : Option Addr} (h : PoolHolds s p xs)
    (hrun : Ends (fun k => asthreadRemoveTimeoutThreads k s p now) (s', ret)) :
    (ret = none ↔ ∀ y ∈ xs, now < s.et y)
      ∧ ((∃ y ∈ xs, s.et y ≤ now) →
        ∃ rest, PoolHolds s' p rest ∧ rest.Sublist xs ∧ rest.length < xs.length) := by
  -- what comes back is a tree with a due root, and the pool keeps the rest
  have htaken : ∀ {x : Addr} {t : Tree Addr} {rest : List Addr}, t.root = some x → s.et x ≤ now →
      xs = t.toList ++ rest → PoolHolds s' p rest →
      (some x = none ↔ ∀ y ∈ xs, now < s.et y)
        ∧ ((∃ y ∈ xs, s.et y ≤ now) →
          ∃ rest, PoolHolds s' p rest ∧ rest.Sublist xs ∧ rest.length < xs.length) := by
    intro x t rest hx hdue hxs hrest
    have hmem := Tree.root_mem hx
    constructor
    · refine iff_of_false (by simp) ?_
      intro hall
      have hlt := hall x (by rw [hxs]; exact List.mem_append_left _ hmem)
      omega
    · rintro -
      have hpos := List.length_pos_of_mem hmem
      rw [hxs]
      exact ⟨rest, hrest, List.sublist_append_right .., by simp; omega⟩
  cases timeoutCut h now with
  | nothing hrun' hnot hnone =>
      cases Ends.unique (mono_asthreadRemoveTimeoutThreads s p now) hrun hrun'
      have hlive : ∀ y ∈ xs, now < s.et y := by
        obtain ⟨⟨t, _, hm, -, rfl⟩, hsorted⟩ := h
        have hroot : s.pools p = t.root := hm.root
        refine not_due_of_spine hm.tree hsorted ?_ ?_
        · intro x hx
          by_contra hdue
          exact hnot ⟨x, hroot.trans hx, by omega⟩
        · intro f y hf hy
          by_contra hdue
          exact hnone f y ⟨hroot ▸ hf, hy, by omega⟩
      refine ⟨iff_of_true rfl hlive, ?_⟩
      rintro ⟨y, hy, hdue⟩
      have hlt := hlive y hy
      omega
  | root _ x t rest hrun' hroot hx ht hrest hxs hle =>
      cases Ends.unique (mono_asthreadRemoveTimeoutThreads s p now) hrun hrun'
      exact htaken hx (hle x (Tree.root_mem hx)) hxs hrest
  | sibling _ f x t rest hrun' _ hcut _ _ hx _ _ _ hrest hxs =>
      cases Ends.unique (mono_asthreadRemoveTimeoutThreads s p now) hrun hrun'
      exact htaken hx hcut.2.2 hxs hrest
  | alone f x _ _ _ hfail =>
      obtain ⟨k, hk⟩ := hrun
      exact absurd hk (hfail k _)

theorem twoPool_null_iff :
    ∃ s' x xs, Ends (fun k => asthreadRemoveTimeoutThreads k twoPool 0 7) (s', some x)
      ∧ PoolHolds twoPool 0 xs ∧ (some x = none ↔ ∀ y ∈ xs, 7 < twoPool.et y)
      ∧ ((∃ y ∈ xs, twoPool.et y ≤ 7) →
        ∃ rest, PoolHolds s' 0 rest ∧ rest.Sublist xs ∧ rest.length < xs.length) := by
  obtain ⟨members, hmem⟩ := poolReachable_inv twoPool_reachable
  obtain ⟨m, x, _, _, hrun, -⟩ :=
    asthreadRemoveTimeoutThreads_root (hmem.holds 0)
      (show RootDue twoPool 0 7 from ⟨1, rfl, by decide⟩)
  exact ⟨_, x, _, hrun, hmem.holds 0, timeout_null_iff (hmem.holds 0) hrun⟩

/-- Everything that comes back is due exactly when, at a cut, the whole right spine from the
due node on is: the function looks at the root of the subtree only, and the rest of it may
be later. -/
theorem timeout_due_iff {s s' : ThreadMem} {p : Addr} {now : Int} {xs : List Addr}
    {ret : Option Addr} {t : Tree Addr} (h : PoolHolds s p xs)
    (hrun : Ends (fun k => asthreadRemoveTimeoutThreads k s p now) (s', ret))
    (ht : LinksAt s'.nodes ret t) :
    (∀ y ∈ t.toList, s.et y ≤ now)
      ↔ ∀ f x, CutAt s p now f x → ∀ y, RightSpine s.nodes (some x) y → s.et y ≤ now := by
  cases timeoutCut h now with
  | nothing hrun' _ hnone =>
      cases Ends.unique (mono_asthreadRemoveTimeoutThreads s p now) hrun hrun'
      cases t with
      | nil => exact ⟨fun _ f x hcut => absurd hcut (hnone f x), fun _ y hy => by cases hy⟩
      | node c l x r => cases ht.1
  | root _ x u _ hrun' hdue hx hu _ _ hle =>
      cases Ends.unique (mono_asthreadRemoveTimeoutThreads s p now) hrun hrun'
      rw [ht.toList_eq (hx ▸ hu.links)]
      exact ⟨fun _ f x hcut => absurd hcut (not_cutAt_of_rootDue hdue f x), fun _ => hle⟩
  | sibling _ f x u rest hrun' _ hcut huniq _ hx hu hu' _ _ hsplit =>
      cases Ends.unique (mono_asthreadRemoveTimeoutThreads s p now) hrun hrun'
      rw [ht.toList_eq (hx ▸ hu'.links)]
      constructor
      · intro hall g y hg z hz
        obtain rfl := huniq g y hg
        cases hcut.2.1.symm.trans hg.2.1
        exact hall z (rightSpine_mem hu (hx ▸ hz))
      · intro hspine y hy
        have hsorted : EtSorted s u.toList := by
          have hxs := h.2
          rw [hsplit] at hxs
          exact (List.pairwise_append.mp hxs).1
        obtain ⟨z, hz, hle⟩ := rightSpine_max hu hsorted hy
        rw [hx] at hz
        exact Int.le_trans hle (hspine f x hcut z hz)
  | alone _ _ _ _ _ hfail =>
      obtain ⟨k, hk⟩ := hrun
      exact absurd hk (hfail k _)

/-- Deadlines 10 at the root, 1 to its left with 3 to the right of that, and 20
to the root's right. -/
def lateChildPool : ThreadMem :=
  addedTo (addedTo (addedTo (addedTo (freshPools fun th =>
    if th = 1 then 10 else if th = 2 then 20 else if th = 3 then 1 else 3) 1) 2) 3) 4

theorem lateChildPool_reachable : PoolReachable lateChildPool :=
  addedTo_reachable (addedTo_reachable (addedTo_reachable (addedTo_reachable
    (freshPools_reachable _) rfl) rfl) rfl) rfl

theorem lateChildPool_cut : CutAt lateChildPool 0 2 1 3 := ⟨.here (by decide), rfl, by decide⟩

theorem lateChildPool_late : RightSpine lateChildPool.nodes (some 3) 4 := .down .here

/-- At time 2 the thread with deadline 3 comes back, as the child of the one with deadline
1. -/
theorem lateChildPool_not_due :
    ¬∀ (s s' : ThreadMem) (p : Addr) (now : Int) (xs : List Addr) (ret : Option Addr)
        (t : Tree Addr), PoolHolds s p xs →
        Ends (fun k => asthreadRemoveTimeoutThreads k s p now) (s', ret) →
        LinksAt s'.nodes ret t → ∀ y ∈ t.toList, s.et y ≤ now := by
  intro hall
  obtain ⟨members, hmem⟩ := poolReachable_inv lateChildPool_reachable
  obtain ⟨s', u, hrun, hx, hu, hu'⟩ := timeout_returns (hmem.holds 0) lateChildPool_cut
    (show (lateChildPool.nodes 1).right ≠ none by decide)
  have hdue := hall _ _ _ _ _ _ _ (hmem.holds 0) hrun hu' 4
    (rightSpine_mem hu (hx ▸ lateChildPool_late))
  exact absurd hdue (by decide)

theorem lateChildPool_due_iff :
    ∃ s' u, Ends (fun k => asthreadRemoveTimeoutThreads k lateChildPool 0 2) (s', some 3)
      ∧ LinksAt s'.nodes (some 3) u
      ∧ ((∀ y ∈ u.toList, lateChildPool.et y ≤ 2)
        ↔ ∀ f x, CutAt lateChildPool 0 2 f x → ∀ y, RightSpine lateChildPool.nodes (some x) y →
          lateChildPool.et y ≤ 2) := by
  obtain ⟨members, hmem⟩ := poolReachable_inv lateChildPool_reachable
  obtain ⟨s', u, hrun, -, -, hu⟩ := timeout_returns (hmem.holds 0) lateChildPool_cut
    (show (lateChildPool.nodes 1).right ≠ none by decide)
  exact ⟨s', u, hrun, hu, timeout_due_iff (hmem.holds 0) hrun hu⟩

/-! ## What the traversal visits -/

/-- The traversal of what came back at `x` visits the threads of `t`, each
once, visits none of `rest` and changes no link of `rest`. -/
def TravelStays {τ : Type} (func : Addr → RbMem Addr × τ → CRun (RbMem Addr × τ)) (w : τ)
    (m : RbMem Addr) (x : Addr) (t : Tree Addr) (rest : List Addr) : Prop :=
  ∃ m' w' log, Ends (fun k => rbTreePostorderTravel (logged func) k (m, w, []) (some x))
      (m', w', log)
    ∧ log.Perm t.toList ∧ (∀ y ∈ log, y ∉ rest) ∧ ∀ y ∈ rest, m'.nodes y = m.nodes y

theorem travelStays_rootDue {τ : Type}
    {func : Addr → RbMem Addr × τ → CRun (RbMem Addr × τ)} {s s' : ThreadMem} {p : Addr}
    {now : Int} {xs rest : List Addr} {x : Addr} {t : Tree Addr} {w : τ} (h : PoolHolds s p xs)
    (hfunc : Visits func xs)
    (hrun : Ends (fun k => asthreadRemoveTimeoutThreads k s p now) (s', some x))
    (ht : LinksAt s'.nodes (some x) t) (hstay : TravelStays func w (s'.pool p) x t rest) :
    RootDue s p now := by
  have hmono := mono_asthreadRemoveTimeoutThreads s p now
  cases timeoutCut h now with
  | nothing hrun' => cases Ends.unique hmono hrun hrun'
  | root _ _ _ _ _ hdue => exact hdue
  | sibling _ f _ u urest hrun' _ _ _ _ hx _ hu hf _ hsplit =>
      -- the parent link of `x` leads back into the pool
      cases Ends.unique hmono hrun hrun'
      obtain ⟨m', w', log, hrun, hperm, -⟩ := hstay
      have hnd := h.1.nodup
      rw [hsplit] at hnd hfunc
      obtain ⟨ys, rfl, hne⟩ := rbTreePostorderTravel_attached hfunc hu hx hnd hf hrun
      have hlen := hperm.length_eq
      rw [ht.toList_eq (hx ▸ hu.links), List.length_append, u.postorder_perm.length_eq] at hlen
      exact absurd (List.length_eq_zero_iff.mp (by omega)) hne
  | alone _ _ _ _ _ hfail =>
      obtain ⟨k, hk⟩ := hrun
      exact absurd hk (hfail k _)

/-- The traversal keeps to the subtree that came back exactly when the root was due:
there its parent link is cut. Otherwise it still leads into the pool, and the traversal
climbs on. -/
theorem timeout_travel_iff {τ : Type}
    {func : Addr → RbMem Addr × τ → CRun (RbMem Addr × τ)} {s s' : ThreadMem} {p : Addr}
    {now : Int} {xs rest : List Addr} {x : Addr} {t : Tree Addr} (w : τ) (h : PoolHolds s p xs)
    (hfunc : Visits func xs)
    (hrun : Ends (fun k => asthreadRemoveTimeoutThreads k s p now) (s', some x))
    (ht : LinksAt s'.nodes (some x) t) (hrest : PoolHolds s' p rest) :
    TravelStays func w (s'.pool p) x t rest ↔ RootDue s p now := by
  refine ⟨travelStays_rootDue h hfunc hrun ht, ?_⟩
  intro hdue
  have hmono := mono_asthreadRemoveTimeoutThreads s p now
  cases timeoutCut h now with
  | nothing hrun' => cases Ends.unique hmono hrun hrun'
  | root _ _ u urest hrun' _ hx hu hurest hsplit =>
      cases Ends.unique hmono hrun hrun'
      obtain rfl := hrest.unique hurest
      have hnd := h.1.nodup
      rw [hsplit] at hnd hfunc
      obtain ⟨-, -, hdisj⟩ := List.nodup_append.mp hnd
      obtain ⟨m', w', htravel, hk⟩ :=
        rbTreePostorderTravel_detached hfunc (m := s'.pool p) w hu hx hnd
      have hlist := ht.toList_eq (hx ▸ hu.links)
      refine ⟨m', w', u.postorder, htravel, hlist ▸ u.postorder_perm, ?_, hk⟩
      intro y hy hyr
      exact hdisj y (u.postorder_perm.mem_iff.mp hy) y hyr rfl
  | sibling _ _ _ _ _ _ hnot => exact absurd hdue hnot
  | alone f x hcut => exact absurd hcut (not_cutAt_of_rootDue hdue f x)

/-- Deadline 5 at the root, 1 to its left, 9 to its right. -/
def threePool : ThreadMem :=
  addedTo (addedTo (addedTo (freshPools fun th =>
    if th = 1 then 5 else if th = 2 then 1 else 9) 1) 2) 3

theorem threePool_reachable : PoolReachable threePool :=
  addedTo_reachable (addedTo_reachable (addedTo_reachable (freshPools_reachable _) rfl) rfl) rfl

theorem threePool_cut : CutAt threePool 0 2 1 2 := ⟨.here (by decide), rfl, by decide⟩

theorem visits_skip (L : List Addr) :
    Visits (fun _ (s : RbMem Addr × Unit) => .ok s) L :=
  ⟨fun _ s => ⟨s, rfl⟩, fun _ _ _ _ _ hrun _ _ _ => by cases hrun; rfl⟩

/-- At time 2 the traversal of the due thread goes on to the root of the pool. -/
theorem threePool_not_stays :
    ¬∀ (s s' : ThreadMem) (p : Addr) (now : Int) (xs rest : List Addr) (x : Addr)
        (t : Tree Addr), PoolHolds s p xs →
        Ends (fun k => asthreadRemoveTimeoutThreads k s p now) (s', some x) →
        LinksAt s'.nodes (some x) t → PoolHolds s' p rest →
        ∀ func : Addr → RbMem Addr × Unit → CRun (RbMem Addr × Unit), Visits func xs →
          TravelStays func () (s'.pool p) x t rest := by
  intro hall
  obtain ⟨members, hmem⟩ := poolReachable_inv threePool_reachable
  cases timeoutCut (hmem.holds 0) 2 with
  | nothing _ _ hnone => exact absurd threePool_cut (hnone 1 2)
  | root _ _ _ _ _ hdue => exact absurd threePool_cut (not_cutAt_of_rootDue hdue 1 2)
  | sibling s' _ x u rest hrun hnot _ _ _ hx _ hu _ hrest =>
      have hu' := hx ▸ hu.links
      exact hnot (travelStays_rootDue (hmem.holds 0) (visits_skip _) hrun hu'
        (hall _ _ _ _ _ _ _ _ (hmem.holds 0) hrun hu' hrest _ (visits_skip _)))
  | alone f x _ huniq hnone =>
      obtain rfl := huniq 1 2 threePool_cut
      exact absurd hnone (by decide)

/-- At time 7 the root is due, and the traversal keeps to what came back. -/
theorem threePool_travel_iff :
    ∃ s' x u rest, Ends (fun k => asthreadRemoveTimeoutThreads k threePool 0 7) (s', some x)
      ∧ LinksAt s'.nodes (some x) u ∧ PoolHolds s' 0 rest
      ∧ (TravelStays (fun _ (s : RbMem Addr × Unit) => .ok s) () (s'.pool 0) x u rest
        ↔ RootDue threePool 0 7) := by
  obtain ⟨members, hmem⟩ := poolReachable_inv threePool_reachable
  have hdue : RootDue threePool 0 7 := ⟨1, rfl, by decide⟩
  cases timeoutCut (hmem.holds 0) 7 with
  | nothing _ hnot => exact absurd hdue hnot
  | root s' x u rest hrun _ hx hu hrest =>
      exact ⟨s', x, u, rest, hrun, hx ▸ hu.links, hrest,
        timeout_travel_iff () (hmem.holds 0) (visits_skip _) hrun (hx ▸ hu.links) hrest⟩
  | sibling _ _ _ _ _ _ hnot => exact absurd hdue hnot
  | alone f x hcut => exact absurd hcut (not_cutAt_of_rootDue hdue f x)

end Artorias
