import Artorias.RbErase

/-!
# Cutting a subtree out

`rb_tree_remove_subtree` on the place of a subtree: the sibling takes the
place of the parent, and the parent is inserted again at the edge of the
sibling's subtree, where the order wants it. Without a sibling the function
reads through NULL. The subtree itself is not written at all; in particular
its root keeps its parent link.
-/

namespace Artorias

variable {ι : Type} [DecidableEq ι]

/-! ## `swap_node_with_subtree` -/

theorem setParent_setColor (m : RbMem ι) (x : ι) (p : Option ι) (c : Color) :
    (m.setColor x c).setParent x p = (m.setParent x p).setColor x c := by
  simp [RbMem.setColor, RbMem.setParent, RbMem.put, RbNode.setColor, RbNode.setParent]

/-- After the repair, `u` with its root blackened is in a valid tree at the place of the
hole of `ps`. -/
def SettledAt (m m' : RbMem ι) (ps : List (Frame ι)) (u : Tree ι) : Prop :=
  ∃ qs N, MemAt m' qs u.blacken ∧ RB (plug qs u.blacken) .black N
    ∧ before qs = before ps ∧ after qs = after ps ∧ Keeps (plug ps u).toList m m'

/-- One of the two nodes is red, or there is no grandparent: blackening the sibling is
enough. -/
theorem settledAt_blacken {m m1 : RbMem ι} {ps : List (Frame ι)} {u : Tree ι} {N : Nat}
    (h : MemAt m1 ps u) (hk : Keeps (plug ps u).toList m m1)
    (hrb : RB (plug ps u.blacken) .black N) :
    SettledAt m (m1.setColorIf u.root .black) ps u :=
  ⟨ps, N, h.blackenIf, hrb, rfl, rfl, hk.trans (keeps_setColorIf _ fun _ hx =>
    mem_plug.mpr (.inl (Tree.root_mem hx)))⟩

/-- Both nodes are black: the sibling's subtree is one black node short in its new place,
and `rb_tree_delete_case` repairs around it. -/
theorem settledAt_deleteCase {m m1 : RbMem ι} {ps : List (Frame ι)} {u : Tree ι} {n : Nat}
    (h : MemAt m1 ps u) (hk : Keeps (plug ps u).toList m m1) (hu : RB u .black n)
    (hp : RBPath ps .black (n + 1)) :
    ∃ m', Ends (fun k => rbTreeDeleteCase k m1 u.root (parentOf ps)) m'
      ∧ SettledAt m m' ps u := by
  obtain ⟨m', hrun, h', hk'⟩ := rbTreeDeleteCase_spec h hu hp
  obtain ⟨qs, hqs, hb, ha⟩ := deleteFix_around ps u
  obtain ⟨N, hN⟩ := deleteFix_rb hu hp
  rw [hqs] at h' hN
  exact ⟨m', hrun, qs, N, memAt_root.mpr h', hN, hb, ha, hk.trans hk'⟩

/-- The place of the parent is taken by the sibling, and the tree there is valid again,
whatever the two colours were. -/
theorem swapNodeWithSubtree_spec {m : RbMem ι} {d : Side} {cf cs : Color} {fa y : ι}
    {l r t : Tree ι} {ps : List (Frame ι)} {N : Nat}
    (h : MemAt m (⟨d, cf, fa, .node cs l y r⟩ :: ps) t)
    (hrb : RB (plug (⟨d, cf, fa, .node cs l y r⟩ :: ps) t) .black N) :
    ∃ m', Ends (fun k => swapNodeWithSubtree k m fa (some y)) m'
      ∧ SettledAt m m' ps (.node cs l y r) := by
  have hsub : (Tree.node cs l y r).toList.Sublist (d.node cf t fa (.node cs l y r)).toList := by
    cases d <;> simp [Side.node]
  obtain ⟨hlift, hk⟩ := (memAt_fill.mp h).lift (Side.root_node ..) h.path.2.1 hsub
  rw [setParentIf_relink, Tree.root_node] at hlift hk
  obtain ⟨c, n, hp, -⟩ := RB.unplug hrb
  have hpar : (m.nodes fa).parent = parentOf ps := h.frame.1
  cases ps with
  | nil =>
      obtain ⟨N', hN'⟩ : ∃ N', RB (Tree.node cs l y r).blacken .black N' := by
        cases hp with
        | red hu _ => exact ⟨_, hu.blacken_black⟩
        | @black _ _ _ cu _ _ _ hu _ =>
            cases cu with
            | red => exact ⟨_, hu.blacken⟩
            | black => exact ⟨_, hu.blacken_black⟩
      refine ⟨_, ⟨0, ?_⟩, settledAt_blacken hlift hk hN'⟩
      simp only [swapNodeWithSubtree, hpar, parentOf, deref_some, cbind_ok, setParent_setColor]
      rfl
  | cons g ps =>
      have hfa : fa ∉ (plug (g :: ps) (.node cs l y r)).toList := by
        have hnd := (plug_perm _ t).nodup_iff.mp h.nodup
        rw [pathItems] at hnd
        rw [mem_plug, ← List.mem_append]
        exact (List.nodup_cons.mp (List.nodup_append.mp hnd).2.1).1
      have hcf : (((m.relink (some g.item) fa (some y)).setParent y (some g.item)).nodes
          fa).color = cf := (congrArg RbNode.color (hk fa hfa)).trans h.frame.2.1
      have hcs : (((m.relink (some g.item) fa (some y)).setParent y (some g.item)).nodes
          y).color = cs := congrArg RbNode.color hlift.tree.1
      have hrun : ∀ k, swapNodeWithSubtree k m fa (some y)
          = if cf = .red ∨ cs = .red then
              .ok (((m.relink (some g.item) fa (some y)).setParent y (some g.item)).setColor y
                .black)
            else rbTreeDeleteCase k
              ((m.relink (some g.item) fa (some y)).setParent y (some g.item)) (some y)
              (some g.item) := by
        intro k
        simp only [swapNodeWithSubtree, hpar, parentOf, deref_some, cbind_ok, hcf, hcs]
      by_cases hred : cf = .red ∨ cs = .red
      · have hN' : ∃ N', RB (plug (g :: ps) (Tree.node cs l y r).blacken) .black N' := by
          cases hp with
          | red hu hp => exact hp.black_of_any.plug hu.blacken_black
          | black hu hp =>
              obtain rfl : cs = .red := hred.resolve_left (by decide)
              cases hu with
              | red hl hr => exact hp.plug (RB.red hl hr).blacken
        obtain ⟨N', hN'⟩ := hN'
        exact ⟨_, ⟨0, (hrun 0).trans (if_pos hred)⟩, settledAt_blacken hlift hk hN'⟩
      · rw [not_or] at hred
        cases hp with
        | red hu hp => exact absurd rfl hred.1
        | black hu hp =>
            cases hu with
            | red hl hr => exact absurd rfl hred.2
            | black hl hr =>
                obtain ⟨m', hend, hsettled⟩ := settledAt_deleteCase hlift hk (.black hl hr) hp
                refine ⟨m', ?_, hsettled⟩
                simp only [hrun, if_neg (not_or.mpr hred)]
                exact hend

/-! ## `rb_tree_remove_subtree` -/

omit [DecidableEq ι] in
theorem descend_const_edge (d : Side) (t : Tree ι) (x : ι) :
    before (descend (fun _ => d) t) ++ x :: after (descend (fun _ => d) t)
      = (d.node .red .nil x t).toList := by
  have hsplit := toList_descend (fun _ => d) t
  cases d with
  | left =>
      rw [before_descend_left, List.nil_append] at hsplit
      rw [before_descend_left, hsplit]
      rfl
  | right =>
      rw [after_descend_right, List.append_nil] at hsplit
      rw [after_descend_right, hsplit]
      rfl

theorem mono_swapNodeWithSubtree (m : RbMem ι) (n : ι) (sub : Option ι) :
    Mono fun k => swapNodeWithSubtree k m n sub := by
  simp only [swapNodeWithSubtree]
  cases (m.nodes n).parent with
  | none => exact mono_const _
  | some gf =>
      exact (mono_const _).bind fun _ => (mono_const _).ite (mono_rbTreeDeleteCase _ _ _)

theorem mono_insertFrom (side : ι → Side) (m : RbMem ι) (n : ι) (top : Option ι) :
    Mono fun k => insertFrom side k m n top :=
  (mono_cloop _ _).bind fun _ => mono_const _

theorem mono_rbTreeInsertCase (m : RbMem ι) (n : ι) : Mono fun k => rbTreeInsertCase k m n :=
  (mono_cloop _ _).bind fun _ => mono_const _

theorem mono_rbTreeRemoveSubtree (m : RbMem ι) (sub : ι) :
    Mono fun k => rbTreeRemoveSubtree k m sub := by
  simp only [rbTreeRemoveSubtree]
  cases (m.nodes sub).parent with
  | none => exact mono_const _
  | some fa =>
      exact (mono_swapNodeWithSubtree _ _ _).bind fun _ =>
        (mono_insertFrom _ _ _ _).bind fun _ => mono_rbTreeInsertCase _ _

/-- The tests of the source find out the parent, the side and the sibling. -/
theorem rbTreeRemoveSubtree_eq {m : RbMem ι} {f : Frame ι} {ps : List (Frame ι)}
    {t : Tree ι} {sub : ι} (h : MemAt m (f :: ps) t) (ht : t.root = some sub) (k : Nat) :
    rbTreeRemoveSubtree k m sub = (do
      let m ← swapNodeWithSubtree k m f.item f.sib.root
      let (m, _) ← rbTreeInsertToMost f.side k m f.sib.root f.item
      rbTreeInsertCase k m f.item) := by
  have hside : (if (m.nodes f.item).left = some sub then Side.left else Side.right)
      = f.side := by
    have hleft := h.child_eq_iff ht .left
    rw [RbNode.child_left] at hleft
    cases hs : f.side with
    | left => exact if_pos (hleft.mpr hs)
    | right => exact if_neg fun he => by have := hleft.mp he; simp_all
  simp only [rbTreeRemoveSubtree, h.parent ht, parentOf, hside, h.frame.2.2.2]

/-- With a sibling, what is left is a valid tree again: the sibling stands for the parent,
and the parent goes back in at the edge. -/
theorem rbTreeRemoveSubtree_holds {m : RbMem ι} {f : Frame ι} {ps : List (Frame ι)}
    {t : Tree ι} {sub : ι} {N : Nat} (h : MemAt m (f :: ps) t) (ht : t.root = some sub)
    (hrb : RB (plug (f :: ps) t) .black N) (hsib : f.sib ≠ .nil) :
    RbEnds (fun k => rbTreeRemoveSubtree k m sub) m (before (f :: ps) ++ after (f :: ps))
      (before (f :: ps) ++ after (f :: ps)) := by
  have hrun := rbTreeRemoveSubtree_eq h ht
  obtain ⟨d, cf, fa, sib⟩ := f
  cases sib with
  | nil => exact absurd rfl hsib
  | node cs l y r =>
      -- the order of what is left
      have hrest : before (⟨d, cf, fa, .node cs l y r⟩ :: ps)
            ++ after (⟨d, cf, fa, .node cs l y r⟩ :: ps)
          = before ps ++ (d.node .red .nil fa (.node cs l y r)).toList ++ after ps := by
        cases d <;> simp [before, after, Frame.before, Frame.after, Side.pick, Side.node]
      have hmem : ∀ z, z ∈ before ps ++ (d.node .red .nil fa (.node cs l y r)).toList ++ after ps
          ↔ z = fa ∨ z ∈ (plug ps (.node cs l y r)).toList := by
        intro z
        simp only [toList_plug, List.mem_append, (d.perm_toList_node ..).mem_iff, List.mem_cons,
          Tree.toList_nil, List.not_mem_nil, false_or]
        tauto
      obtain ⟨m1, hrun1, qs, N1, h1, hrb1, hb, ha, hk1⟩ := swapNodeWithSubtree_spec h hrb
      have hqs : (plug qs (Tree.node cs l y r).blacken).toList
          = (plug ps (.node cs l y r)).toList := by
        rw [toList_plug, toList_plug, hb, ha, Tree.toList_blacken]
      have hfa : fa ∉ (plug qs (Tree.node cs l y r).blacken).toList := by
        rw [hqs, mem_plug, ← List.mem_append]
        have hnd := (plug_perm _ t).nodup_iff.mp h.nodup
        exact (List.nodup_cons.mp (List.nodup_append.mp hnd).2.1).1
      obtain ⟨m2, hrun2, h2, -, hk2⟩ := insertFrom_spec (fun _ => d) h1 (by simp) hfa
      have hplace : RB (plug (descend (fun _ => d) (Tree.node cs l y r).blacken ++ qs) .nil)
          .black N1 := by
        rw [plug_append, plug_descend]
        exact hrb1
      obtain ⟨c, n, hp, hnil⟩ := hplace.unplug
      cases hnil
      obtain ⟨m3, hrun3, h3, hk3⟩ := rbTreeInsertCase_spec h2 rfl (.red .nil .nil) hp
      obtain ⟨N3, hrb3⟩ := insertFix_rb (.red .nil .nil) hp (t := .node .red .nil fa .nil)
      have hlist : (plug (descend (fun _ => d) (Tree.node cs l y r).blacken ++ qs)
            (.node .red .nil fa .nil)).toList
          = before ps ++ (d.node .red .nil fa (.node cs l y r)).toList ++ after ps := by
        rw [toList_plug, before_append, after_append, hb, ha]
        have hedge := descend_const_edge d (Tree.node cs l y r).blacken fa
        have hnode : (d.node .red .nil fa (Tree.node cs l y r).blacken).toList
            = (d.node .red .nil fa (.node cs l y r)).toList := by cases d <;> rfl
        rw [← hnode, ← hedge]
        simp
      rw [hrest]
      refine ⟨m3, ?_, ⟨_, N3, h3, hrb3, ?_⟩,
        (hk1.mono ?_).trans ((hk2.mono ?_).trans (hk3.mono ?_))⟩
      · simp only [hrun]
        exact Ends.bind (mono_swapNodeWithSubtree _ _ _)
          ((mono_insertFrom _ _ _ _).bind fun _ => mono_rbTreeInsertCase _ _) hrun1
          (Ends.bind (mono_insertFrom _ _ _ _) (mono_rbTreeInsertCase _ _) hrun2 hrun3)
      · rw [Tree.toList_blacken, toList_insertFix, hlist]
      · exact fun z hz => (hmem z).mpr (.inr hz)
      · intro z hz
        rw [hmem, ← hqs]
        exact List.mem_cons.mp hz
      · intro z hz
        rwa [hlist] at hz

/-- Without a sibling, `rb_tree_remove_subtree` reads through NULL. -/
theorem rbTreeRemoveSubtree_null {m : RbMem ι} {f : Frame ι} {ps : List (Frame ι)}
    {t : Tree ι} {sub : ι} (h : MemAt m (f :: ps) t) (ht : t.root = some sub)
    (hsib : f.sib = .nil) (k : Nat) : rbTreeRemoveSubtree k m sub = .error .null := by
  rw [rbTreeRemoveSubtree_eq h ht, hsib]
  have hnull : swapNodeWithSubtree k m f.item none = .error .null := by
    rw [swapNodeWithSubtree]
    cases (m.nodes f.item).parent <;> rfl
  rw [Tree.root_nil, hnull]
  rfl

end Artorias
