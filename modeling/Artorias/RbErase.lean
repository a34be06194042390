import Artorias.RbInsert
import Artorias.RbDelete

/-!
# Inserting and deleting

`RbHolds m xs`: the memory holds a valid red-black tree whose in-order
sequence is `xs`. The operations of `rb_tree.h` on that level: an insertion
followed by its repair puts the node where the order wants it,
`rb_tree_delete` takes it out, and nothing outside the tree changes.
-/

namespace Artorias

variable {ι : Type} [DecidableEq ι]

/-! ## Valid trees -/

/-- The tree is laid out with all its links, has a black root, no red node
with a red child and equal black heights, and reads `xs` in order. -/
def RbHolds (m : RbMem ι) (xs : List ι) : Prop :=
  ∃ t N, MemAt m [] t ∧ RB t .black N ∧ t.toList = xs

omit [DecidableEq ι] in
theorem RbHolds.nodup {m : RbMem ι} {xs : List ι} (h : RbHolds m xs) : xs.Nodup := by
  obtain ⟨t, N, ht, -, rfl⟩ := h
  exact ht.nodup

omit [DecidableEq ι] in
theorem RbHolds.congr {m m' : RbMem ι} {xs : List ι} (h : RbHolds m xs)
    (hroot : m'.root = m.root) (hnodes : ∀ y ∈ xs, m'.nodes y = m.nodes y) :
    RbHolds m' xs := by
  obtain ⟨t, N, ht, hrb, rfl⟩ := h
  exact ⟨t, N, ⟨hroot.trans ht.root, trivial, ht.tree.congr hnodes, ht.nodup⟩, hrb, rfl⟩

/-- `f` ends in a valid tree that reads `xs`, and writes in `L` only. -/
def RbEnds (f : Nat → CRun (RbMem ι)) (m : RbMem ι) (L xs : List ι) : Prop :=
  ∃ m', Ends f m' ∧ RbHolds m' xs ∧ Keeps L m m'

omit [DecidableEq ι] in
/-- Any node of a valid tree can be brought into the hole: the tree is a path to it, and the
balance splits into that of the path and that of the subtree. -/
theorem RbHolds.focus {m : RbMem ι} {xs : List ι} {n : ι} (h : RbHolds m xs)
    (hn : n ∈ xs) :
    ∃ ps c l r, MemAt m ps (.node c l n r) ∧ (plug ps (.node c l n r)).toList = xs
      ∧ ∃ k, RBPath ps c k ∧ RB (.node c l n r) c k := by
  obtain ⟨t, N, ht, hrb, rfl⟩ := h
  obtain ⟨ps, c, l, r, rfl⟩ := Tree.exists_plug hn
  obtain ⟨c', k, hp, hnode⟩ := hrb.unplug
  obtain rfl : c = c' := hnode.color_eq
  exact ⟨ps, c, l, r, memAt_root.mpr ht, rfl, k, hp, hnode⟩

/-! ## Insertion -/

/-- `rb_tree_insert`, then `rb_tree_insert_case`: the new node stands behind everything that
it is not less than, in a valid tree. -/
theorem rbTreeInsert_holds (lt : ι → ι → Bool) {m : RbMem ι} {xs : List ι} {n : ι}
    (h : RbHolds m xs) (hn : n ∉ xs) (hlt : ∀ a b c, ¬lt a b → ¬lt b c → ¬lt a c)
    (hxs : xs.Pairwise fun a b => ¬lt b a) :
    ∃ m1 bs as, Ends (fun k => rbTreeInsert lt k m n) m1
      ∧ RbEnds (fun k => rbTreeInsertCase k m1 n) m (n :: xs) (bs ++ n :: as)
      ∧ bs ++ as = xs ∧ (∀ x ∈ bs, ¬lt n x) ∧ ∀ x ∈ as, lt n x := by
  obtain ⟨t, N, ht, hrb, rfl⟩ := h
  obtain ⟨m1, hrun1, h1, hk1⟩ := rbTreeInsert_spec lt ht hn
  have hpath : RBPath (descend (fun x => if lt n x then .left else .right) t) .black 0 := by
    have hplug : RB (plug (descend (fun x => if lt n x then .left else .right) t) .nil)
        .black N := by
      rw [plug_descend]
      exact hrb
    obtain ⟨c, k, hp, hnil⟩ := hplug.unplug
    cases hnil
    exact hp
  obtain ⟨m', hrun, h', hk⟩ := rbTreeInsertCase_spec h1 rfl (.red .nil .nil) hpath
  obtain ⟨N', hrb'⟩ := insertFix_rb (.red .nil .nil) hpath (t := .node .red .nil n .nil)
  obtain ⟨hb, ha⟩ := descend_ordered (fun a b => lt a b = true) hlt n hxs
  have hsplit := toList_descend (fun x => if lt n x then .left else .right) t
  have hlist : (plug (descend (fun x => if lt n x then .left else .right) t)
      (.node .red .nil n .nil)).toList
      = before (descend (fun x => if lt n x then .left else .right) t)
        ++ n :: after (descend (fun x => if lt n x then .left else .right) t) := by
    simp [toList_plug]
  refine ⟨m1, _, _, hrun1, ⟨m', hrun, ⟨_, N', h', hrb', ?_⟩, hk1.trans ?_⟩, hsplit, hb, ha⟩
  · rw [Tree.toList_blacken, toList_insertFix, hlist]
  · rw [hlist] at hk
    intro y hy
    refine hk y fun hmem => hy ?_
    rw [← hsplit]
    simpa [or_left_comm] using hmem

/-! ## Deletion -/

/-- What may be left at a place of colour `c` and height `n` when the node
there has been dropped: for a black node, a tree one black node short. -/
def Dropped (u : Tree ι) : Color → Nat → Prop
  | .red, n => RB u .black n
  | .black, n => ∃ c k, n = k + 1 ∧ RB u c k

/-- The end of both branches of `rb_tree_delete`: where a red node was dropped nothing is
left to do, and where a black one was the repair makes the tree valid again. -/
theorem deleteCase_ends {m m0 : RbMem ι} {ps : List (Frame ι)} {u : Tree ι} {c : Color}
    {n : Nat} {L : List ι} (h : MemAt m ps u) (hp : RBPath ps c n) (hu : Dropped u c n)
    (hL : ∀ y ∈ (plug ps u).toList, y ∈ L) (hk : Keeps L m0 m) :
    RbEnds (fun k => if c = .black then rbTreeDeleteCase k m u.root (parentOf ps) else .ok m)
      m0 L (plug ps u).toList := by
  cases c with
  | red =>
      obtain ⟨N, hrb⟩ := hp.black_of_any.plug hu
      exact ⟨m, Ends.const rfl, ⟨_, N, memAt_root.mp h, hrb, rfl⟩, hk⟩
  | black =>
      obtain ⟨c', k, rfl, hu⟩ := hu
      obtain ⟨m', hrun, h', hk'⟩ := rbTreeDeleteCase_spec h hu hp
      obtain ⟨N, hrb⟩ := deleteFix_rb hu hp
      exact ⟨m', hrun, ⟨_, N, h', hrb, toList_deleteFix ps u⟩, hk.trans (hk'.mono hL)⟩

/-- `remove_node_has_one_child` on a node with at most one child: the child, if there is
one, takes its place, and the tree is repaired. -/
theorem removeNodeHasOneChild_ends {m : RbMem ι} {ps : List (Frame ι)} {c : Color}
    {l r : Tree ι} {x : ι} {n : Nat} (h : MemAt m ps (.node c l x r)) (hp : RBPath ps c n)
    (ht : RB (.node c l x r) c n) (hone : l = .nil ∨ r = .nil) :
    RbEnds (fun k => removeNodeHasOneChild k m x) m (plug ps (.node c l x r)).toList
      (before ps ++ (l.toList ++ r.toList) ++ after ps) := by
  obtain ⟨hx, hl, hr⟩ := h.tree
  -- the child that may be there
  obtain ⟨u, hroot, hu, hlist, hdrop⟩ : ∃ u, (if l.root = none then r.root else l.root) = u.root
      ∧ TreeAt m.nodes (some x) u ∧ u.toList = l.toList ++ r.toList ∧ Dropped u c n := by
    rcases hone with rfl | rfl
    · refine ⟨r, rfl, hr, rfl, ?_⟩
      cases ht with
      | red _ hr => exact hr
      | black _ hr => exact ⟨_, _, rfl, hr⟩
    · refine ⟨l, by cases l <;> rfl, hl, by simp, ?_⟩
      cases ht with
      | red hl _ => exact hl
      | black hl _ => exact ⟨_, _, rfl, hl⟩
  have hsub : u.toList.Sublist (Tree.node c l x r).toList := by
    rw [hlist, Tree.toList_node]
    exact (List.sublist_cons_self x r.toList).append_left _
  have hL : ∀ y ∈ (plug ps u).toList, y ∈ (plug ps (.node c l x r)).toList := fun y hy =>
    mem_plug.mpr ((mem_plug.mp hy).imp_left fun hyu => hsub.subset hyu)
  have hxu : x ∉ (plug ps u).toList := by
    have hnd := (plug_perm ps _).nodup_iff.mp h.nodup
    have hnode :=
      ((Side.left.perm_toList_node c l x r).append_right (pathItems ps)).nodup_iff.mp hnd
    simp only [List.cons_append, List.nodup_cons, List.mem_append, not_or] at hnode
    rw [mem_plug, hlist, List.mem_append]
    tauto
  obtain ⟨h', hk⟩ := h.lift rfl hu hsub
  have hends := deleteCase_ends h' hp hdrop hL (hk.mono hL)
  rw [toList_plug ps u, hlist] at hends
  simpa only [removeNodeHasOneChild, hx, hroot, hk x hxu] using hends

/-! ## Two children -/

omit [DecidableEq ι] in
/-- The loop down to the leftmost node of the right subtree, which is the next node in the
order. -/
theorem leftmostLoop_spec {m : RbMem ι} {p : Option ι} {t : Tree ι} {x : ι}
    (ht : TreeAt m.nodes p t) (hx : t.root = some x) :
    ∃ qs cl leaf rc, t = plug qs (.node cl .nil leaf rc) ∧ (∀ f ∈ qs, f.side = .left)
      ∧ Ends (fun k => cloop (leftmostBody m) k x) leaf := by
  induction t generalizing p x with
  | nil => cases hx
  | node c l y r ihl _ =>
      obtain rfl : y = x := Option.some.inj hx
      obtain ⟨hy, hl, -⟩ := ht
      cases hroot : l.root with
      | none =>
          cases l with
          | nil =>
              refine ⟨[], c, y, r, rfl, by simp, Ends.cloop_inr ?_⟩
              simp only [leftmostBody, hy, Tree.root_nil]
          | node _ _ _ _ => cases hroot
      | some z =>
          obtain ⟨qs, cl, leaf, rc, rfl, hqs, hrun⟩ := ihl hl hroot
          refine ⟨qs ++ [⟨.left, c, y, r⟩], cl, leaf, rc, ?_, ?_, Ends.cloop_inl ?_ hrun⟩
          · rw [plug_append]
            rfl
          · intro f hf
            rcases List.mem_append.mp hf with hf | hf
            · exact hqs f hf
            · rw [List.mem_singleton.mp hf]
          · simp only [leftmostBody, hy, hroot]

omit [DecidableEq ι] in
theorem plug_leaf_perm (qs : List (Frame ι)) (c : Color) (x : ι) (u : Tree ι) :
    (plug qs (.node c .nil x u)).toList.Perm (x :: (plug qs u).toList) :=
  (plug_perm qs _).trans ((plug_perm qs u).symm.cons x)

omit [DecidableEq ι] in
/-- The nodes that `swap_node_with_leaf` writes one after the other are all different,
although they are handed in through several pointers. -/
theorem MemAt.leaf_apart {m : RbMem ι} {qs ps : List (Frame ι)} {c cl : Color}
    {n leaf : ι} {l rc : Tree ι}
    (h : MemAt m (qs ++ ⟨.right, c, n, l⟩ :: ps) (.node cl .nil leaf rc)) :
    (n :: leaf :: (l.toList ++ ((plug qs rc).toList ++ pathItems ps))).Nodup := by
  refine List.Perm.nodup_iff ?_ |>.mp h.nodup
  rw [plug_append, plug_cons]
  refine (plug_perm ps _).trans ?_
  refine ((Side.perm_toList_node .right c _ n l).append_right _).trans ?_
  rw [List.cons_append]
  refine List.Perm.cons n ?_
  have hleaf := ((plug_leaf_perm qs cl leaf rc).append_right (l.toList)).append_right
    (pathItems ps)
  refine hleaf.trans ?_
  rw [List.cons_append, List.cons_append, ← List.append_assoc]
  exact (List.perm_append_comm.append_right _).cons leaf

/-- `detachLeaf` on a memory in which the pointer to `n` may be redirected already, since
the source redirects it first. -/
theorem detachLeaf_spec {m m1 : RbMem ι} {qs ps : List (Frame ι)} {c cl : Color} {n leaf : ι}
    {l rc : Tree ι} (h : MemAt m (qs ++ ⟨.right, c, n, l⟩ :: ps) (.node cl .nil leaf rc))
    (hqs : ∀ f ∈ qs, f.side = .left) (hk1 : Keeps (pathItems ps) m m1) :
    ∃ m2, detachLeaf m1 n leaf rc.root
        = .ok (m2, parentOf (qs ++ ⟨.right, c, leaf, l⟩ :: ps))
      ∧ TreeAt m2.nodes (some leaf) (plug qs rc)
      ∧ (m2.nodes leaf).right = (plug qs rc).root ∧ m2.root = m1.root
      ∧ Keeps (leaf :: (plug qs rc).toList) m1 m2 := by
  obtain ⟨hleaf, -, hrc⟩ := h.tree
  obtain ⟨hn, hleafn, hnd⟩ : (n ∉ leaf :: (l.toList ++ ((plug qs rc).toList ++ pathItems ps)))
      ∧ (leaf ∉ l.toList ++ ((plug qs rc).toList ++ pathItems ps))
      ∧ (l.toList ++ ((plug qs rc).toList ++ pathItems ps)).Nodup := by
    simpa only [List.nodup_cons, and_assoc] using h.leaf_apart
  simp only [List.mem_cons, List.mem_append, not_or] at hn hleafn
  obtain ⟨-, hndr, -⟩ := List.nodup_append.mp hnd
  obtain ⟨hndr, -, hdisj⟩ := List.nodup_append.mp hndr
  have hl1 : m1.nodes leaf = _ := (hk1 leaf hleafn.2.2).trans hleaf
  have hr1 : ∀ y ∈ (plug qs rc).toList, m1.nodes y = m.nodes y := fun y hy =>
    hk1 y fun hyp => hdisj y hy y hyp rfl
  cases qs with
  | nil =>
      refine ⟨m1, ?_, hrc.congr fun y hy => hr1 y hy, by rw [hl1]; rfl, rfl, Keeps.refl _ _⟩
      simp only [detachLeaf, hl1, List.nil_append, parentOf, if_true]
  | cons f qs =>
      have hside : f.side = .left := hqs f (by simp)
      have hout : ∀ y ∈ (Tree.node cl .nil leaf rc).toList,
          y ∉ pathItems (f :: qs ++ ⟨.right, c, n, l⟩ :: ps) := fun y hy hyp =>
        (List.nodup_append.mp ((plug_perm _ _).nodup_iff.mp h.nodup)).2.2 y hy y hyp rfl
      obtain ⟨hlift, -⟩ := h.lift rfl hrc (by simp)
      have hitem : f.item ∈ (plug (f :: qs) rc).toList :=
        mem_plug.mpr (.inr (by simp [pathItems]))
      have hfn : f.item ≠ n := fun he => hn.2.2.1 (he ▸ hitem)
      have hnr : (m1.nodes n).right = (plug (f :: qs) rc).root := by
        rw [hk1 n hn.2.2.2, ← rootOf_eq]
        exact (memAt_plug.mp h).frame.2.2.1.trans (rootOf_eq _ _).symm
      obtain ⟨r0, hr0, hroot0⟩ := rootOf_mem f qs rc.root
      rw [rootOf_eq] at hroot0
      have hr0mem : r0 ∈ (plug (f :: qs) rc).toList := mem_plug.mpr (.inr hr0)
      have hlr0 : leaf ≠ r0 := fun he => hleafn.2.1 (he ▸ hr0mem)
      -- the memory `lift` speaks of differs from the source's at `leaf` and `r0`
      have hrelink : (m.setParentIf rc.root (some f.item)).relink (some f.item) leaf rc.root
          = (m.setParentIf rc.root (some f.item)).setChild .left f.item rc.root := by
        rw [← hside]
        refine relink_frame (h.path.congr fun y hy => m.setParentIf_of_ne _ fun he => ?_)
          (hout leaf (by simp)) rc.root
        exact hout y (by simp [Tree.root_mem he]) hy
      rw [List.cons_append, parentOf, hrelink] at hlift
      refine ⟨(((m1.setParentIf rc.root (some f.item)).setChild .left f.item
        rc.root).setChild .right leaf (some r0)).setParent r0 (some leaf), ?_, ?_, ?_,
        m1.setParentIf_root _ _, ?_⟩
      · have hread : ((m1.setParentIf rc.root (some f.item)).setChild .left f.item
            rc.root).nodes n = m1.nodes n := by
          rw [RbMem.setChild_of_ne _ _ _ (Ne.symm hfn), m1.setParentIf_of_ne _ fun he =>
            hn.2.2.1 (mem_plug.mpr (.inl (Tree.root_mem he)))]
        simp only [detachLeaf, hl1, List.cons_append, parentOf, Option.some.injEq, hfn,
          if_false, deref_some, cbind_ok]
        rw [RbMem.setChild_of_ne _ _ _ hn.1, hread, hnr, hroot0, deref_some, cbind_ok]
      · have hmoved := (memAt_plug.mp (show MemAt _ (f :: qs ++ ⟨.right, c, n, l⟩ :: ps) rc
          from hlift)).tree.setParentIf (some leaf) hndr
        rw [hroot0] at hmoved
        refine hmoved.congr fun y hy => RbMem.setParent_congr ?_ _ _
        have hyl : y ≠ leaf := fun he => hleafn.2.1 (he ▸ hy)
        rw [RbMem.setChild_of_ne _ _ _ hyl]
        exact RbMem.setChild_congr (RbMem.setParentIf_congr (hr1 y hy) _ _) _ _ _
      · rw [RbMem.setParent_of_ne _ _ hlr0, RbMem.setChild_self, hroot0]
        rfl
      · intro y hy
        simp only [List.mem_cons, not_or] at hy
        have hyr : y ≠ r0 := fun he => hy.2 (he ▸ hr0mem)
        have hyf : y ≠ f.item := fun he => hy.2 (he ▸ hitem)
        rw [RbMem.setParent_of_ne _ _ hyr, RbMem.setChild_of_ne _ _ _ hy.1,
          RbMem.setChild_of_ne _ _ _ hyf, m1.setParentIf_of_ne _ fun he =>
            hy.2 (mem_plug.mpr (.inl (Tree.root_mem he)))]

omit [DecidableEq ι] in
theorem before_of_left {qs : List (Frame ι)} (hqs : ∀ f ∈ qs, f.side = .left) :
    before qs = [] := by
  induction qs with
  | nil => rfl
  | cons f qs ih =>
      rw [before, ih fun g hg => hqs g (by simp [hg]), Frame.before, hqs f (by simp)]
      rfl

omit [DecidableEq ι] in
theorem RBPath.rename {qs ps : List (Frame ι)} {s : Side} {c c' : Color} {x y : ι}
    {u : Tree ι} {n : Nat} (h : RBPath (qs ++ ⟨s, c, x, u⟩ :: ps) c' n) :
    RBPath (qs ++ ⟨s, c, y, u⟩ :: ps) c' n := by
  induction qs generalizing c' n with
  | nil =>
      cases h with
      | red hu hp => exact .red hu hp
      | black hu hp => exact .black hu hp
  | cons f qs ih =>
      cases h with
      | red hu hp => exact .red hu (ih hp)
      | black hu hp => exact .black hu (ih hp)

theorem mono_rbTreeDeleteCase (m : RbMem ι) (n fa : Option ι) :
    Mono fun k => rbTreeDeleteCase k m n fa :=
  (mono_cloop _ _).bind fun _ => mono_const _

theorem mono_swapNodeWithLeaf (m : RbMem ι) (n leaf : ι) :
    Mono fun k => swapNodeWithLeaf k m n leaf :=
  (mono_const _).bind fun _ => (mono_const _).bind fun _ =>
    (mono_rbTreeDeleteCase _ _ _).ite (mono_const _)

theorem mono_rbTreeDelete (m : RbMem ι) (n : ι) : Mono fun k => rbTreeDelete k m n :=
  Mono.ite (Mono.ite (mono_rbTreeDeleteCase _ _ _) (mono_const _))
    ((mono_const _).bind fun _ => (mono_cloop _ _).bind fun _ => mono_swapNodeWithLeaf _ _ _)

/-- The writes of `swap_node_with_leaf`, up to the repair: `leaf` stands where `n` was, and
its own place is taken by its right child. -/
theorem swapLeaf_spec {m : RbMem ι} {qs ps : List (Frame ι)} {c cl : Color} {n leaf : ι}
    {l rc : Tree ι} (h : MemAt m (qs ++ ⟨.right, c, n, l⟩ :: ps) (.node cl .nil leaf rc))
    (hqs : ∀ f ∈ qs, f.side = .left) (hl : l ≠ .nil) :
    ∃ m', (∀ k, swapNodeWithLeaf k m n leaf
        = if cl = .black then
            rbTreeDeleteCase k m' rc.root (parentOf (qs ++ ⟨.right, c, leaf, l⟩ :: ps))
          else .ok m')
      ∧ MemAt m' (qs ++ ⟨.right, c, leaf, l⟩ :: ps) rc
      ∧ Keeps (leaf :: (l.toList ++ ((plug qs rc).toList ++ pathItems ps))) m m' := by
  have hapart := h.leaf_apart
  obtain ⟨hn, hleafn, hnd⟩ : (n ∉ leaf :: (l.toList ++ ((plug qs rc).toList ++ pathItems ps)))
      ∧ (leaf ∉ l.toList ++ ((plug qs rc).toList ++ pathItems ps))
      ∧ (l.toList ++ ((plug qs rc).toList ++ pathItems ps)).Nodup := by
    simpa only [List.nodup_cons, and_assoc] using hapart
  have hnd' : (leaf :: (l.toList ++ ((plug qs rc).toList ++ pathItems ps))).Nodup :=
    List.nodup_cons.mpr ⟨hleafn, hnd⟩
  simp only [List.mem_cons, List.mem_append, not_or] at hn hleafn
  obtain ⟨hndl, hndr, hdl⟩ := List.nodup_append.mp hnd
  obtain ⟨-, hndp, hdr⟩ := List.nodup_append.mp hndr
  obtain ⟨l0, hl0⟩ : ∃ l0, l.root = some l0 := by
    cases l with
    | nil => exact absurd rfl hl
    | node _ _ y _ => exact ⟨y, rfl⟩
  have hl0mem := Tree.root_mem hl0
  obtain ⟨hleaf, -, -⟩ := h.tree
  have htop : MemAt m ps (.node c l n (plug qs (.node cl .nil leaf rc))) :=
    memAt_fill.mp (memAt_plug.mp h)
  obtain ⟨hnode, htl, -⟩ := htop.tree
  -- the pointer to `n`
  obtain ⟨hr1, hp1, hk1⟩ := PathAt.relink (v := some leaf) htop.root htop.path hndp hn.2.2.2
  obtain ⟨m2, hrun2, ht2, hright2, hr2, hk2⟩ := detachLeaf_spec h hqs hk1
  have hn2 : m2.nodes n = m.nodes n := by
    rw [hk2 n (by simp [hn.1, hn.2.2.1]), hk1 n hn.2.2.2]
  -- the links of `leaf`
  let m5 := ((m2.setParent leaf (parentOf ps)).setColor leaf c).setChild .left leaf (some l0)
  have hk5 : ∀ y, y ≠ leaf → m5.nodes y = m2.nodes y := fun y hy => by
    rw [RbMem.setChild_of_ne _ _ _ hy, RbMem.setColor_of_ne _ _ hy, RbMem.setParent_of_ne _ _ hy]
  have hout : ∀ y, y ≠ leaf → y ∉ l.toList → y ∉ (plug qs rc).toList →
      (m5.setParent l0 (some leaf)).nodes y = (m.relink (parentOf ps) n (some leaf)).nodes y := by
    intro y hyl hy hyr
    have hyl0 : y ≠ l0 := fun he => hy (he ▸ hl0mem)
    rw [RbMem.setParent_of_ne _ _ hyl0, hk5 y hyl, hk2 y (by simp [hyl, hyr])]
  have hleaf0 : leaf ≠ l0 := fun he => hleafn.1 (he ▸ hl0mem)
  refine ⟨m5.setParent l0 (some leaf), ?_, ?_, ?_⟩
  · intro k
    have hnl : ∀ v, (m2.setParent leaf v).nodes n = m.nodes n := fun v => by
      rw [RbMem.setParent_of_ne _ _ hn.1, hn2]
    have hnc : ∀ v c', ((m2.setParent leaf v).setColor leaf c').nodes n = m.nodes n :=
      fun v c' => by rw [RbMem.setColor_of_ne _ _ hn.1, hnl]
    have hnd : ∀ v c' w, (((m2.setParent leaf v).setColor leaf c').setChild .left leaf w).nodes n
        = m.nodes n := fun v c' w => by rw [RbMem.setChild_of_ne _ _ _ hn.1, hnc]
    simp only [swapNodeWithLeaf, hnode, hk1 leaf hleafn.2.2, hleaf, Tree.root_nil, hrun2, cbind_ok,
      hn2, hnl, hnc, hnd, hl0, deref_some]
    rfl
  · have hchain : ∀ y ∈ (plug qs rc).toList,
        (m5.setParent l0 (some leaf)).nodes y = m2.nodes y := fun y hy => by
      have hyl0 : y ≠ l0 := fun he => hdl l0 hl0mem y (List.mem_append_left _ hy) he.symm
      have hyl : y ≠ leaf := fun he => hleafn.2.1 (he ▸ hy)
      rw [RbMem.setParent_of_ne _ _ hyl0, hk5 y hyl]
    have hself : (m5.setParent l0 (some leaf)).nodes leaf
        = ⟨parentOf ps, some l0, (plug qs rc).root, c⟩ := by
      rw [RbMem.setParent_of_ne _ _ hleaf0, RbMem.setChild_self, RbMem.setColor_self,
        RbMem.setParent_self, ← hright2]
      rfl
    refine memAt_plug.mpr (memAt_fill.mpr ⟨?_, ?_, ⟨?_, ?_, ht2.congr hchain⟩, ?_⟩)
    · exact hr2.trans hr1
    · refine hp1.congr fun y hy => hout y ?_ ?_ ?_
      · exact fun he => hleafn.2.2 (he ▸ hy)
      · exact fun hyl => hdl y hyl y (List.mem_append_right _ hy) rfl
      · exact fun hyr => hdr y hyr y hy rfl
    · rw [hself, hl0]
    · have hmoved := htl.setParentIf (some leaf) hndl
      rw [hl0] at hmoved
      refine hmoved.congr fun y hy => RbMem.setParent_congr ?_ _ _
      have hyl : y ≠ leaf := fun he => hleafn.1 (he ▸ hy)
      rw [hk5 y hyl, hk2 y ?_, hk1 y fun hyp => hdl y hy y (List.mem_append_right _ hyp) rfl]
      simp only [List.mem_cons, hyl, false_or]
      exact fun hyr => hdl y hy y (List.mem_append_left _ hyr) rfl
    · refine ((plug_perm ps _).trans ?_).nodup_iff.mpr hnd'
      have hperm := (Side.perm_toList_node .left c l leaf (plug qs rc)).append_right
        (pathItems ps)
      rwa [List.cons_append, List.append_assoc] at hperm
  · intro y hy
    simp only [List.mem_cons, List.mem_append, not_or] at hy
    rw [hout y hy.1 hy.2.1 hy.2.2.1, hk1 y hy.2.2.2]

theorem swapNodeWithLeaf_ends {m : RbMem ι} {qs ps : List (Frame ι)} {c cl : Color}
    {n leaf : ι} {l rc : Tree ι} {N : Nat}
    (h : MemAt m (qs ++ ⟨.right, c, n, l⟩ :: ps) (.node cl .nil leaf rc))
    (hrb : RB (plug (qs ++ ⟨.right, c, n, l⟩ :: ps) (.node cl .nil leaf rc)) .black N)
    (hqs : ∀ f ∈ qs, f.side = .left) (hl : l ≠ .nil) :
    RbEnds (fun k => swapNodeWithLeaf k m n leaf) m
      (plug (qs ++ ⟨.right, c, n, l⟩ :: ps) (.node cl .nil leaf rc)).toList
      (before ps ++ (l.toList ++ (plug qs (.node cl .nil leaf rc)).toList) ++ after ps) := by
  obtain ⟨m', hrun, h', hk⟩ := swapLeaf_spec h hqs hl
  obtain ⟨c', k, hp, hleaf⟩ := hrb.unplug
  obtain rfl : cl = c' := hleaf.color_eq
  have hdrop : Dropped rc cl k := by
    cases hleaf with
    | red _ hrc => exact hrc
    | black _ hrc => exact ⟨_, _, rfl, hrc⟩
  have hlist : (plug (qs ++ ⟨.right, c, leaf, l⟩ :: ps) rc).toList
      = before ps ++ (l.toList ++ (plug qs (.node cl .nil leaf rc)).toList) ++ after ps := by
    rw [plug_append, plug_cons, toList_plug, toList_plug qs, before_of_left hqs]
    simp [Frame.fill, Side.node, toList_plug, before_of_left hqs]
  have hL : ∀ y ∈ leaf :: (l.toList ++ ((plug qs rc).toList ++ pathItems ps)),
      y ∈ (plug (qs ++ ⟨.right, c, n, l⟩ :: ps) (.node cl .nil leaf rc)).toList := by
    intro y hy
    simp only [List.mem_cons, List.mem_append, mem_plug] at hy
    simp only [plug_append, plug_cons, Frame.fill, mem_plug, Side.node, Tree.toList_node,
      Tree.toList_nil, List.mem_append, List.mem_cons, List.nil_append]
    tauto
  rw [← hlist]
  simp only [hrun]
  refine deleteCase_ends h' hp.rename hdrop (fun y hy => hL y ?_) (hk.mono hL)
  rw [plug_append, plug_cons, mem_plug] at hy
  simp only [Frame.fill, Side.node, Tree.toList_node, List.mem_append, List.mem_cons] at hy
  simp only [List.mem_cons, List.mem_append]
  tauto

/-- `rb_tree_delete` takes `n` out of the order, leaves a valid tree, and touches nothing
outside it. -/
theorem rbTreeDelete_holds {m : RbMem ι} {bs as : List ι} {n : ι}
    (h : RbHolds m (bs ++ n :: as)) :
    RbEnds (fun k => rbTreeDelete k m n) m (bs ++ n :: as) (bs ++ as) := by
  obtain ⟨ps, c, l, r, hm, hlist, k, hp, hrb⟩ := h.focus (n := n) (by simp)
  have hnd := h.nodup
  -- the order determines what stands before and after `n`
  obtain ⟨rfl, rfl⟩ : before ps ++ l.toList = bs ∧ r.toList ++ after ps = as := by
    have hsplit : (before ps ++ l.toList) ++ n :: (r.toList ++ after ps) = bs ++ n :: as := by
      rw [← hlist, toList_plug]
      simp
    obtain ⟨-, hn, hdisj⟩ := List.nodup_append.mp (hsplit ▸ hnd)
    obtain ⟨hb, -, ha⟩ := (List.append_cons_inj_of_notMem
      (fun hmem => hdisj n hmem n (by simp) rfl) (List.nodup_cons.mp hn).1).mp hsplit
    exact ⟨hb, ha⟩
  obtain ⟨hx, -, hr⟩ := hm.tree
  have hout : before ps ++ l.toList ++ (r.toList ++ after ps)
      = before ps ++ (l.toList ++ r.toList) ++ after ps := by simp
  rw [hout, ← hlist]
  by_cases hone : l = .nil ∨ r = .nil
  · have htest : (m.nodes n).left = none ∨ (m.nodes n).right = none := by
      rw [hx]
      rcases hone with rfl | rfl <;> simp
    simpa only [rbTreeDelete, if_pos htest] using removeNodeHasOneChild_ends hm hp hrb hone
  · rw [not_or] at hone
    obtain ⟨x, hxl⟩ := Tree.root_of_ne_nil hone.1
    obtain ⟨y, hyr⟩ := Tree.root_of_ne_nil hone.2
    have htest : ¬((m.nodes n).left = none ∨ (m.nodes n).right = none) := by
      rw [hx]
      simp [hxl, hyr]
    obtain ⟨qs, cl, leaf, rc, rfl, hqs, hleaf⟩ := leftmostLoop_spec hr hyr
    obtain ⟨N, hN⟩ := hp.plug hrb
    have hplug : plug ps (.node c l n (plug qs (.node cl .nil leaf rc)))
        = plug (qs ++ ⟨.right, c, n, l⟩ :: ps) (.node cl .nil leaf rc) := by
      rw [plug_append]
      rfl
    rw [hplug] at hN ⊢
    obtain ⟨m', hrun, h', hk⟩ := swapNodeWithLeaf_ends
      (memAt_plug.mpr (memAt_fill.mpr hm)) hN hqs hone.1
    refine ⟨m', ?_, h', hk⟩
    have hwhole := Ends.bind (g := fun leaf k => swapNodeWithLeaf k m n leaf)
      (mono_cloop _ _) (mono_swapNodeWithLeaf m n leaf) hleaf hrun
    have hright : (m.nodes n).right = some y := by rw [hx]; exact hyr
    simp only [rbTreeDelete, if_neg htest]
    rw [hright]
    exact hwhole

end Artorias
