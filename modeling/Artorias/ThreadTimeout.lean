import Artorias.RbTravel
import Artorias.ThreadPool

/-!
# Taking the due threads out of a pool

`asthread_remove_timeout_threads` has four ways to go (`TimeoutCut`): nothing
to take, the root is due, the topmost due node `x` of the left spine has a
sibling, or it has none. In the first three it takes a prefix of the order
out; in the last it reads through NULL.
-/

namespace Artorias

/-! ## Spines -/

/-- `f` is reached from `q` by left links, and no node up to `f` is due. -/
inductive LiveSpine (s : ThreadMem) (now : Int) : Option Addr → Addr → Prop where
  | here {f : Addr} : now < s.et f → LiveSpine s now (some f) f
  | down {x f : Addr} : now < s.et x → LiveSpine s now (s.nodes x).left f →
      LiveSpine s now (some x) f

/-- `y` is reached from `q` by right links. -/
inductive RightSpine (h : Addr → RbNode Addr) : Option Addr → Addr → Prop where
  | here {y : Addr} : RightSpine h (some y) y
  | down {x y : Addr} : RightSpine h (h x).right y → RightSpine h (some x) y

/-- The one place where `asthread_remove_timeout_threads` cuts a subtree out of a pool whose
root is not due: `x` is the topmost due node of the left spine of pool `p`, and `f` its
parent. -/
def CutAt (s : ThreadMem) (p : Addr) (now : Int) (f x : Addr) : Prop :=
  LiveSpine s now (s.pools p) f ∧ (s.nodes f).left = some x ∧ s.et x ≤ now

def RootDue (s : ThreadMem) (p : Addr) (now : Int) : Prop :=
  ∃ r, s.pools p = some r ∧ s.et r ≤ now

theorem liveSpine_some {s : ThreadMem} {now : Int} {x f : Addr} :
    LiveSpine s now (some x) f ↔
      now < s.et x ∧ (f = x ∨ LiveSpine s now (s.nodes x).left f) := by
  constructor
  · intro h
    cases h with
    | here hx => exact ⟨hx, .inl rfl⟩
    | down hx hf => exact ⟨hx, .inr hf⟩
  · rintro ⟨hx, rfl | hf⟩
    · exact .here hx
    · exact .down hx hf

theorem liveSpine_none {s : ThreadMem} {now : Int} {f : Addr} : ¬LiveSpine s now none f := nofun

/-- The walk down the left spine, from below a root that is not due: it finds nobody who is
due, or the topmost one, below a spine on which nobody is. -/
theorem leftSpine_spec {s : ThreadMem} {now : Int} {p : Option Addr} {c : Color}
    {l r : Tree Addr} {x : Addr} (ht : TreeAt s.nodes p (.node c l x r)) (hx : now < s.et x) :
    (Ends (fun k => cloop (leftSpineBody s now) k l.root) none
        ∧ ∀ f y, LiveSpine s now (some x) f → (s.nodes f).left = some y → now < s.et y)
      ∨ ∃ f qs sub y, Ends (fun k => cloop (leftSpineBody s now) k l.root) (some y)
        ∧ .node c l x r = plug (f :: qs) sub ∧ (∀ g ∈ f :: qs, g.side = .left)
        ∧ sub.root = some y ∧ s.et y ≤ now ∧ LiveSpine s now (some x) f.item
        ∧ ∀ g z, LiveSpine s now (some x) g → (s.nodes g).left = some z → s.et z ≤ now →
            g = f.item := by
  induction l generalizing p c x r with
  | nil =>
      have hleft : (s.nodes x).left = none := by rw [ht.1]; rfl
      refine .inl ⟨Ends.cloop_inr rfl, ?_⟩
      intro f y hf hy
      rw [liveSpine_some, hleft] at hf
      rcases hf with ⟨-, rfl | hf⟩
      · rw [hleft] at hy
        cases hy
      · exact absurd hf liveSpine_none
  | node c' l' y r' ih _ =>
      have hleft : (s.nodes x).left = some y := by rw [ht.1]; rfl
      by_cases hy : now < s.et y
      · -- `y` is not due: on with its left subtree
        have hturn : leftSpineBody s now (some y) = .ok (.inl l'.root) := by
          rw [leftSpineBody, if_pos hy, ht.2.1.1]
        rcases ih ht.2.1 hy with ⟨hrun, hlive⟩ | ⟨f, qs, sub, z, hrun, hplug, hside, hz, hdue,
          hf, huniq⟩
        · refine .inl ⟨hrun.cloop_inl hturn, ?_⟩
          intro f z hf hz
          rw [liveSpine_some, hleft] at hf
          rcases hf with ⟨-, rfl | hf⟩
          · cases hleft.symm.trans hz
            exact hy
          · exact hlive f z hf hz
        · refine .inr ⟨f, qs ++ [⟨.left, c, x, r⟩], sub, z, hrun.cloop_inl hturn, ?_, ?_, hz, hdue,
            .down hx (hleft ▸ hf), ?_⟩
          · rw [← List.cons_append, plug_append, ← hplug]
            rfl
          · intro g hg
            rw [← List.cons_append, List.mem_append, List.mem_singleton] at hg
            rcases hg with hg | rfl
            · exact hside g hg
            · rfl
          · intro g w hg hw hwdue
            rw [liveSpine_some, hleft] at hg
            rcases hg with ⟨-, rfl | hg⟩
            · cases hleft.symm.trans hw
              omega
            · exact huniq g w hg hw hwdue
      · have hturn : leftSpineBody s now (some y) = .ok (.inr (some y)) := by
          rw [leftSpineBody, if_neg hy]
        refine .inr ⟨⟨.left, c, x, r⟩, [], .node c' l' y r', y, Ends.cloop_inr hturn, rfl, by simp,
          rfl, by omega, .here hx, fun g w hg hw hwdue => ?_⟩
        rw [liveSpine_some, hleft, liveSpine_some] at hg
        rcases hg with ⟨-, rfl | ⟨hlt, -⟩⟩
        · rfl
        · exact absurd hlt hy

/-- The walk down the right spine, from a root that is due, stops at the last node of it
that is due. -/
theorem rightSpine_spec {s : ThreadMem} {now : Int} {p : Option Addr} {c : Color}
    {l r : Tree Addr} {x : Addr} (ht : TreeAt s.nodes p (.node c l x r)) (hx : s.et x ≤ now) :
    ∃ qs cn ln n rn, Ends (fun k => cloop (rightSpineBody s now) k x) n
      ∧ .node c l x r = plug qs (.node cn ln n rn) ∧ (∀ g ∈ qs, g.side = .right)
      ∧ s.et n ≤ now := by
  induction r generalizing p c l x with
  | nil =>
      refine ⟨[], c, l, x, .nil, Ends.cloop_inr ?_, rfl, by simp, hx⟩
      rw [rightSpineBody, ht.1]
      rfl
  | node c' l' y r' _ ih =>
      have hright : (s.nodes x).right = some y := by rw [ht.1]; rfl
      by_cases hy : s.et y ≤ now
      · obtain ⟨qs, cn, ln, n, rn, hrun, hplug, hside, hn⟩ := ih ht.2.2 hy
        refine ⟨qs ++ [⟨.right, c, x, l⟩], cn, ln, n, rn, hrun.cloop_inl ?_, ?_, ?_, hn⟩
        · simp only [rightSpineBody, hright, if_pos hy]
        · rw [plug_append, ← hplug]
          rfl
        · intro g hg
          rw [List.mem_append, List.mem_singleton] at hg
          rcases hg with hg | rfl
          · exact hside g hg
          · rfl
      · refine ⟨[], c, l, x, _, Ends.cloop_inr ?_, rfl, by simp, hx⟩
        simp only [rightSpineBody, hright, if_neg hy]

/-! ## The root is due -/

/-- Cutting the right link of `n` leaves two trees: what was to the right of it, with a
black root, and the rest. -/
theorem cutRightSpine_spec {m : RbMem Addr} {qs : List (Frame Addr)} {c : Color}
    {l r : Tree Addr} {n : Addr} (h : MemAt m qs (.node c l n r)) :
    MemAt (cutRightSpine m n) [] r.blacken
      ∧ TreeAt (cutRightSpine m n).nodes none (plug qs (.node c l n .nil))
      ∧ ∀ y ∉ (Tree.node c l n r).toList, (cutRightSpine m n).nodes y = m.nodes y := by
  obtain ⟨hn, hl, hr⟩ := h.tree
  have hnd := (plug_perm qs _).nodup_iff.mp h.nodup
  have hcut : cutRightSpine m n
      = (((m.setRoot r.root).setParentIf r.root none).setColorIf r.root .black).setChild .right
        n none := by
    rw [cutRightSpine, hn]
    cases r.root <;> rfl
  have hleft : (Tree.node c l n r).toList.Nodup := (List.nodup_append.mp hnd).1
  obtain ⟨hndl, hndnr, hdisj⟩ := List.nodup_append.mp hleft
  obtain ⟨hnr, hndr⟩ := List.nodup_cons.mp hndnr
  have hpath : ∀ y ∈ pathItems qs, y ∉ (Tree.node c l n r).toList := fun y hy hyt =>
    (List.nodup_append.mp hnd).2.2 y hyt y hy rfl
  have hout : ∀ y, y ≠ n → y ∉ r.toList → (cutRightSpine m n).nodes y = m.nodes y := by
    intro y hyn hyr
    have hyroot : r.root ≠ some y := fun he => hyr (Tree.root_mem he)
    rw [hcut, RbMem.setChild_of_ne _ _ _ hyn]
    have hcol := keeps_setColorIf (m := (m.setRoot r.root).setParentIf r.root none)
      (L := r.toList) (q := r.root) .black (fun x hx => Tree.root_mem hx) y hyr
    rw [hcol, RbMem.setParentIf_of_ne _ _ hyroot, RbMem.setRoot_nodes]
  refine ⟨?_, ?_, ?_⟩
  · have hmoved : MemAt ((m.setRoot r.root).setParentIf r.root none) [] r :=
      ⟨RbMem.setParentIf_root .., trivial,
        TreeAt.setParentIf (m := m.setRoot r.root) none hr hndr, hndr⟩
    obtain ⟨hroot, -, htree, hnodup⟩ := hmoved.blackenIf
    rw [hcut]
    refine ⟨hroot, trivial, htree.congr ?_, hnodup⟩
    intro y hy
    rw [Tree.toList_blacken] at hy
    exact RbMem.setChild_of_ne _ _ _ fun he => hnr (he ▸ hy)
  · have hnode : (cutRightSpine m n).nodes n = ⟨parentOf qs, l.root, none, c⟩ := by
      have hnroot : r.root ≠ some n := fun he => hnr (Tree.root_mem he)
      have hcol := keeps_setColorIf (m := (m.setRoot r.root).setParentIf r.root none)
        (L := r.toList) (q := r.root) .black (fun x hx => Tree.root_mem hx) n hnr
      rw [hcut, RbMem.setChild_self, hcol, RbMem.setParentIf_of_ne _ _ hnroot,
        RbMem.setRoot_nodes, hn]
      rfl
    have hwhole : MemAt ((cutRightSpine m n).setRoot m.root) qs (.node c l n .nil) := by
      refine ⟨h.root, h.path.congr ?_, ⟨hnode, hl.congr ?_, trivial⟩, ?_⟩
      · intro y hy
        have hyt := hpath y hy
        simp only [Tree.toList_node, List.mem_append, List.mem_cons, not_or] at hyt
        exact hout y hyt.2.1 hyt.2.2
      · intro y hy
        exact hout y (fun he => hdisj y hy n (by simp) he) fun hyr =>
          hdisj y hy y (by simp [hyr]) rfl
      · refine (plug_perm qs _).nodup_iff.mpr (hnd.sublist (List.Sublist.append_right ?_ _))
        simp
    exact (memAt_root.mp hwhole).tree
  · intro y hy
    simp only [Tree.toList_node, List.mem_append, List.mem_cons, not_or] at hy
    exact hout y hy.2.1 hy.2.2

/-! ## The four ways -/

theorem mono_asthreadRemoveTimeoutThreads (s : ThreadMem) (p : Addr) (now : Int) :
    Mono fun k => asthreadRemoveTimeoutThreads k s p now := by
  simp only [asthreadRemoveTimeoutThreads]
  cases s.pools p with
  | none => exact mono_const _
  | some root =>
      refine ((mono_cloop _ _).bind fun _ => mono_const _).ite ((mono_cloop _ _).bind fun ret => ?_)
      cases ret with
      | none => exact mono_const _
      | some sub => exact (mono_rbTreeRemoveSubtree _ _).bind fun _ => mono_const _

/-- What `asthread_remove_timeout_threads` does on pool `p`, which holds `xs`. -/
inductive TimeoutCut (s : ThreadMem) (p : Addr) (now : Int) (xs : List Addr) : Prop where
  | nothing :
      Ends (fun k => asthreadRemoveTimeoutThreads k s p now) (s, none) →
      ¬RootDue s p now → (∀ f x, ¬CutAt s p now f x) → TimeoutCut s p now xs
  | root (s' : ThreadMem) (x : Addr) (t : Tree Addr) (rest : List Addr) :
      Ends (fun k => asthreadRemoveTimeoutThreads k s p now) (s', some x) →
      RootDue s p now → t.root = some x → TreeAt s'.nodes none t → PoolHolds s' p rest →
      xs = t.toList ++ rest → (∀ y ∈ t.toList, s.et y ≤ now) → TimeoutCut s p now xs
  | sibling (s' : ThreadMem) (f x : Addr) (t : Tree Addr) (rest : List Addr) :
      Ends (fun k => asthreadRemoveTimeoutThreads k s p now) (s', some x) →
      ¬RootDue s p now → CutAt s p now f x → (∀ g y, CutAt s p now g y → g = f) →
      (s.nodes f).right ≠ none → t.root = some x → TreeAt s.nodes (some f) t →
      TreeAt s'.nodes (some f) t → f ∈ rest → PoolHolds s' p rest → xs = t.toList ++ rest →
      TimeoutCut s p now xs
  | alone (f x : Addr) :
      CutAt s p now f x → (∀ g y, CutAt s p now g y → g = f) → (s.nodes f).right = none →
      (∀ k r, asthreadRemoveTimeoutThreads k s p now ≠ .ok r) → TimeoutCut s p now xs

theorem after_of_right {ι : Type} {qs : List (Frame ι)} (hqs : ∀ f ∈ qs, f.side = .right) :
    after qs = [] := by
  induction qs with
  | nil => rfl
  | cons f qs ih =>
      rw [after, ih fun g hg => hqs g (by simp [hg]), Frame.after, hqs f (by simp)]
      rfl

/-- The branch on a root that is due: the threads that are due, and maybe more that are no
later than one of them, become a tree of their own, and the pool is left with a valid tree
of the others. -/
theorem asthreadRemoveTimeoutThreads_root {s : ThreadMem} {p : Addr} {now : Int} {xs : List Addr}
    (h : PoolHolds s p xs) (hdue : RootDue s p now) :
    ∃ m x t rest, Ends (fun k => asthreadRemoveTimeoutThreads k s p now) (s.setPool p m, some x)
      ∧ t.root = some x ∧ TreeAt m.nodes none t ∧ PoolHolds (s.setPool p m) p rest
      ∧ xs = t.toList ++ rest ∧ (∀ y ∈ t.toList, s.et y ≤ now)
      ∧ ∀ y ∉ xs, m.nodes y = s.nodes y := by
  obtain ⟨⟨tree, N, hm, hrb, rfl⟩, hsorted⟩ := h
  obtain ⟨x, hroot, hx⟩ := hdue
  cases tree with
  | nil => cases hroot.symm.trans hm.root
  | node c l y r =>
      obtain rfl : x = y := Option.some.inj (hroot.symm.trans hm.root)
      obtain ⟨qs, cn, ln, n, rn, hrun, hplug, hside, hn⟩ := rightSpine_spec hm.tree hx
      rw [hplug] at hm hrb
      obtain ⟨hrest, htaken, hout⟩ := cutRightSpine_spec (memAt_root.mpr hm)
      obtain ⟨k, hk⟩ : ∃ k, RB rn.blacken .black k := by
        obtain ⟨c', k, -, hnode⟩ := hrb.unplug
        cases hnode with
        | red _ hr => exact ⟨_, hr.blacken_black⟩
        | @black _ _ _ _ cr _ _ hr =>
            cases cr with
            | red => exact ⟨_, hr.blacken⟩
            | black => exact ⟨_, hr.blacken_black⟩
      have htree : (plug qs (.node cn ln n .nil)).toList = before qs ++ ln.toList ++ [n] := by
        simp [toList_plug, after_of_right hside]
      have hlist : (Tree.node c l x r).toList = before qs ++ ln.toList ++ [n] ++ rn.toList := by
        simp [hplug, toList_plug, after_of_right hside]
      rw [hlist] at hsorted ⊢
      obtain ⟨htaken', hrest', -⟩ := List.pairwise_append.mp hsorted
      refine ⟨cutRightSpine (s.pool p) n, x, plug qs (.node cn ln n .nil), rn.toList, ?_, ?_,
        htaken,
        ⟨?_, ?_⟩, by rw [htree], fun y hy => ?_, fun y hy => hout y fun hyn => hy ?_⟩
      · simp only [asthreadRemoveTimeoutThreads, hroot, if_pos hx]
        exact Ends.bind (mono_cloop _ _) (mono_const _) hrun (Ends.const rfl)
      · rw [← rootOf_eq]
        exact (rootOf_eq qs (.node cn ln n rn)).trans (congrArg Tree.root hplug.symm)
      · rw [ThreadMem.setPool_pool_self]
        exact ⟨_, k, hrest, hk, Tree.toList_blacken rn⟩
      · exact EtSorted.congr (s := s) hrest' fun _ _ => rfl
      · rw [htree, List.mem_append, List.mem_singleton] at hy
        rcases hy with hy | rfl
        · have hle := (List.pairwise_append.mp htaken').2.2 y hy n (by simp)
          omega
        · exact hn
      · simp only [Tree.toList_node, List.mem_append, List.mem_cons, List.not_mem_nil, or_false]
          at hyn ⊢
        tauto

theorem timeoutCut_spine {s : ThreadMem} {p : Addr} {now : Int} {c : Color} {N : Nat}
    {l r : Tree Addr} {x : Addr} (h : MemAt (s.pool p) [] (.node c l x r))
    (hrb : RB (.node c l x r) .black N) (hsorted : EtSorted s (Tree.node c l x r).toList)
    (hx : now < s.et x) : TimeoutCut s p now (Tree.node c l x r).toList := by
  have hroot : s.pools p = some x := h.root
  have hleft : (s.nodes x).left = l.root := congrArg RbNode.left h.tree.1
  have hnot : ¬RootDue s p now := by
    rintro ⟨y, hy, hdue⟩
    cases hroot.symm.trans hy
    omega
  have hstart : ∀ k, asthreadRemoveTimeoutThreads k s p now = (do
      let ret ← cloop (leftSpineBody s now) k l.root
      ret.elim (.ok (s, none)) fun sub => do
        let m ← rbTreeRemoveSubtree k (s.pool p) sub
        .ok (s.setPool p m, some sub)) := by
    intro k
    simp only [asthreadRemoveTimeoutThreads, hroot, hleft]
    rw [if_neg (by omega)]
    refine bind_congr fun ret => ?_
    cases ret <;> rfl
  rcases leftSpine_spec h.tree hx with ⟨hrun, hlive⟩ | ⟨f, qs, sub, y, hrun, hplug, hside, hy,
    hdue, hf, huniq⟩
  · refine .nothing ?_ hnot ?_
    · simp only [hstart]
      exact Ends.bind (mono_cloop _ _) (mono_const _) hrun (Ends.const rfl)
    · intro f y hcut
      obtain ⟨hf, hy, hdue⟩ := hcut
      rw [hroot] at hf
      have := hlive f y hf hy
      omega
  · rw [hplug] at h hrb hsorted ⊢
    have hm := memAt_root.mpr h
    have hfleft : (s.nodes f.item).left = some y := by
      have hchild := hm.frame.2.2.1
      rw [hside f (by simp), hy] at hchild
      exact hchild
    have hcut : CutAt s p now f.item y := ⟨hroot ▸ hf, hfleft, hdue⟩
    have huniq' : ∀ g z, CutAt s p now g z → g = f.item := fun g z hg =>
      huniq g z (hroot ▸ hg.1) hg.2.1 hg.2.2
    have hfright : (s.nodes f.item).right = f.sib.root := by
      have hchild := hm.frame.2.2.2
      rw [hside f (by simp)] at hchild
      exact hchild
    cases hsib : f.sib.root with
    | none =>
        have hnil : f.sib = .nil := by
          cases hs : f.sib with
          | nil => rfl
          | node _ _ _ _ => rw [hs] at hsib; cases hsib
        refine .alone _ _ hcut huniq' (hfright.trans hsib) fun k res hres => ?_
        rw [hstart] at hres
        obtain ⟨ret, hret, hrest⟩ := cbind_eq_ok.mp hres
        cases Ends.unique (mono_cloop _ _) ⟨k, hret⟩ hrun
        simp only [Option.elim_some, rbTreeRemoveSubtree_null hm hy hnil, cbind_error] at hrest
        cases hrest
    | some z =>
        have hne : f.sib ≠ .nil := by
          intro hnil
          rw [hnil] at hsib
          cases hsib
        obtain ⟨m', hrun', hrest, hk⟩ := rbTreeRemoveSubtree_holds hm hy hrb hne
        have hlist : (plug (f :: qs) sub).toList = sub.toList ++ after (f :: qs) := by
          rw [toList_plug, before_of_left hside, List.nil_append]
        have hafter : before (f :: qs) ++ after (f :: qs) = after (f :: qs) := by
          rw [before_of_left hside, List.nil_append]
        have hnd := hm.nodup
        rw [hlist] at hnd hsorted ⊢
        rw [hafter] at hrest hk
        refine .sibling (s.setPool p m') _ _ _ _ ?_ hnot hcut huniq' (by rw [hfright, hsib]; simp)
          hy hm.tree ?_ ?_ ⟨?_, ?_⟩ rfl
        · simp only [hstart]
          exact Ends.bind (a := some y) (mono_cloop _ _) ((mono_rbTreeRemoveSubtree _ _).bind
            fun _ => mono_const _) hrun
              (Ends.bind (mono_rbTreeRemoveSubtree _ _) (mono_const _) hrun'
              (Ends.const rfl))
        · exact hm.tree.congr fun z hz => hk z fun hza =>
            (List.nodup_append.mp hnd).2.2 z hz z hza rfl
        · rw [after, Frame.after, hside f (by simp)]
          exact List.mem_append_left _ (List.mem_cons_self ..)
        · rw [ThreadMem.setPool_pool_self]
          exact hrest
        · exact EtSorted.congr (s := s) (List.pairwise_append.mp hsorted).2.1 fun _ _ => rfl

/-- Every pool goes one of the four ways: it is empty, nobody on its left spine is due, a
subtree is cut out at a due node, or its root is due. -/
theorem timeoutCut {s : ThreadMem} {p : Addr} {xs : List Addr} (h : PoolHolds s p xs)
    (now : Int) : TimeoutCut s p now xs := by
  obtain ⟨⟨t, N, hm, hrb, rfl⟩, hsorted⟩ := h
  cases t with
  | nil =>
      have hroot : s.pools p = none := hm.root
      refine .nothing ⟨0, by simp only [asthreadRemoveTimeoutThreads, hroot]⟩ ?_ fun f x hcut => ?_
      · rintro ⟨r, hr, -⟩
        cases hroot.symm.trans hr
      · exact liveSpine_none (hroot ▸ hcut.1)
  | node c l x r =>
      by_cases hx : s.et x ≤ now
      · have hdue : RootDue s p now := ⟨x, hm.root, hx⟩
        obtain ⟨m, y, t, rest, hrun, hy, ht, hrest, hsplit, hle, -⟩ :=
          asthreadRemoveTimeoutThreads_root ⟨⟨_, N, hm, hrb, rfl⟩, hsorted⟩ hdue
        exact .root _ y t rest hrun hdue hy ht hrest hsplit hle
      · exact timeoutCut_spine hm hrb hsorted (by omega)

end Artorias
