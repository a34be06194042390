import Mathlib.Order.Defs.Unbundled
import Artorias.RbRemove

/-!
# The operations on sorted trees

`RbSorted lt m xs`: the memory holds a valid red-black tree that reads `xs`
in order, and `xs` is sorted by `lt`. The three operations of `rb_tree.h` on
that level, each with the repair it needs: an insertion puts the new node
behind its equals (`rbTree_insert_sorted`), a deletion takes one node out
(`rbTree_delete_sorted`), and cutting takes out one subtree and leaves the
rest in its order (`rbTree_removeSubtree_sorted`).
-/

namespace Artorias

variable {ι : Type} [DecidableEq ι]

/-! ## Sorted trees -/

/-- No node is less than one in front of it. -/
structure RbSorted (lt : ι → ι → Bool) (m : RbMem ι) (xs : List ι) : Prop where
  holds : RbHolds m xs
  sorted : xs.Pairwise fun a b => ¬lt b a

omit [DecidableEq ι] in
theorem RbSorted.sublist {lt : ι → ι → Bool} {m m' : RbMem ι} {xs ys : List ι}
    (h : RbSorted lt m xs) (hm : RbHolds m' ys) (hsub : ys.Sublist xs) : RbSorted lt m' ys :=
  ⟨hm, h.sorted.sublist hsub⟩

omit [DecidableEq ι] in
theorem not_lt_trans (lt : ι → ι → Bool) [IsStrictWeakOrder ι fun a b => lt a b = true]
    (a b c : ι) (hab : ¬lt a b) (hbc : ¬lt b c) : ¬lt a c := by
  intro hac
  have htrans : ∀ x y z, lt x y → lt y z → lt x z :=
    IsTrans.trans (r := fun a b => lt a b = true)
  by_cases hba : lt b a
  · exact hbc (htrans b a c hba hac)
  by_cases hcb : lt c b
  · exact hab (htrans a c b hac hcb)
  have hincomp := @IsStrictWeakOrder.incomp_trans ι (fun a b => lt a b = true) _ a b c
    ⟨hab, hba⟩ ⟨hbc, hcb⟩
  exact hincomp.1 hac

/-- Three nodes that are their own keys. -/
def threeNodes : RbMem Nat where
  root := some 2
  nodes
    | 1 => ⟨some 2, none, none, .red⟩
    | 2 => ⟨none, some 1, some 3, .black⟩
    | 3 => ⟨some 2, none, none, .red⟩
    | _ => ⟨none, none, none, .black⟩

theorem threeNodes_sorted : RbSorted (fun a b => decide (a < b)) threeNodes [1, 2, 3] := by
  refine ⟨⟨.node .black (.node .red .nil 1 .nil) 2 (.node .red .nil 3 .nil), 1, ?_, ?_, rfl⟩,
    by decide⟩
  · exact ⟨rfl, trivial, ⟨rfl, ⟨rfl, trivial, trivial⟩, ⟨rfl, trivial, trivial⟩⟩, by decide⟩
  · exact .black (.red .nil .nil) (.red .nil .nil)

/-! ## Insertion -/

/-- `rb_tree_insert` followed by `rb_tree_insert_case`. -/
def rbTreeInsertRepaired (lt : ι → ι → Bool) (fuel : Nat) (m : RbMem ι) (n : ι) :
    CRun (RbMem ι) := do
  let m ← rbTreeInsert lt fuel m n
  rbTreeInsertCase fuel m n

theorem mono_rbTreeInsertRepaired (lt : ι → ι → Bool) (m : RbMem ι) (n : ι) :
    Mono fun k => rbTreeInsertRepaired lt k m n :=
  (Mono.bind (mono_insertFrom _ m n _) fun _ => mono_const _).bind
    fun m' => mono_rbTreeInsertCase m' n

/-- The new node comes to stand behind everything that it is not less than, and in front of
everything that it is less than: where elements are equal, the newest is last. -/
theorem RbSorted.insert (lt : ι → ι → Bool) [IsStrictWeakOrder ι fun a b => lt a b = true]
    {m : RbMem ι} {xs : List ι} {n : ι} (h : RbSorted lt m xs) (hn : n ∉ xs) :
    ∃ m' bs as, Ends (fun k => rbTreeInsertRepaired lt k m n) m' ∧ RbHolds m' (bs ++ n :: as)
      ∧ xs = bs ++ as ∧ (∀ x ∈ bs, ¬lt n x) ∧ (∀ x ∈ as, lt n x) ∧ Keeps (n :: xs) m m' := by
  obtain ⟨m1, bs, as, hrun1, ⟨m', hrun, h', hk⟩, hxs, hbs, has⟩ :=
    rbTreeInsert_holds lt h.holds hn (not_lt_trans lt) h.sorted
  have hmono : Mono fun k => rbTreeInsert lt k m n :=
    Mono.bind (mono_insertFrom _ m n _) fun _ => mono_const _
  exact ⟨m', bs, as, Ends.bind hmono (mono_rbTreeInsertCase m1 n) hrun1 hrun, h', hxs.symm, hbs,
    has, hk⟩

omit [DecidableEq ι] in
theorem pairwise_insert (lt : ι → ι → Bool) [IsStrictWeakOrder ι fun a b => lt a b = true]
    {bs as : List ι} {n : ι} (h : (bs ++ as).Pairwise fun a b => ¬lt b a)
    (hbs : ∀ x ∈ bs, ¬lt n x) (has : ∀ x ∈ as, lt n x) :
    (bs ++ n :: as).Pairwise fun a b => ¬lt b a := by
  obtain ⟨hsb, hsa, hba⟩ := List.pairwise_append.mp h
  have hna : ∀ x ∈ as, ¬lt x n := by
    intro x hx hxn
    have htrans := IsTrans.trans (r := fun a b => lt a b = true) n x n (has x hx) hxn
    exact Std.Irrefl.irrefl (r := fun a b => lt a b = true) n htrans
  refine List.pairwise_append.mpr ⟨hsb, List.pairwise_cons.mpr ⟨hna, hsa⟩, ?_⟩
  intro a ha b hb
  rcases List.mem_cons.mp hb with rfl | hb
  · exact hbs a ha
  · exact hba a ha b hb

theorem rbTree_insert_sorted (lt : ι → ι → Bool) [IsStrictWeakOrder ι fun a b => lt a b = true]
    {m : RbMem ι} {xs : List ι} {n : ι} (h : RbSorted lt m xs) (hn : n ∉ xs) :
    ∃ m' bs as, Ends (fun k => rbTreeInsertRepaired lt k m n) m'
      ∧ RbSorted lt m' (bs ++ n :: as) ∧ xs = bs ++ as
      ∧ (∀ x ∈ bs, ¬lt n x) ∧ (∀ x ∈ as, lt n x) ∧ Keeps (n :: xs) m m' := by
  obtain ⟨m', bs, as, hrun, h', hxs, hbs, has, hk⟩ := h.insert lt hn
  have hsorted := h.sorted
  rw [hxs] at hsorted
  exact ⟨m', bs, as, hrun, ⟨h', pairwise_insert lt hsorted hbs has⟩, hxs, hbs, has, hk⟩

theorem threeNodes_insert :
    ∃ m' bs as, Ends (fun k => rbTreeInsertRepaired (fun a b => decide (a < b)) k threeNodes 4) m'
      ∧ RbSorted (fun a b => decide (a < b)) m' (bs ++ 4 :: as) ∧ [1, 2, 3] = bs ++ as
      ∧ (∀ x ∈ bs, ¬decide (4 < x)) ∧ (∀ x ∈ as, decide (4 < x))
      ∧ Keeps [4, 1, 2, 3] threeNodes m' :=
  haveI : IsStrictWeakOrder Nat fun a b => decide (a < b) = true :=
    { irrefl := by simp
      trans := by simp only [decide_eq_true_eq]; omega
      incomp_trans := by simp only [decide_eq_true_eq]; omega }
  rbTree_insert_sorted _ threeNodes_sorted (by decide)

/-! ## Deletion -/

theorem RbHolds.delete {m : RbMem ι} {xs : List ι} {n : ι} (h : RbHolds m xs) (hn : n ∈ xs) :
    RbEnds (fun k => rbTreeDelete k m n) m xs (xs.erase n) := by
  obtain ⟨bs, as, hbs, rfl, hout⟩ := List.exists_erase_eq hn
  rw [hout]
  exact rbTreeDelete_holds h

theorem rbTree_delete_sorted (lt : ι → ι → Bool) {m : RbMem ι} {xs : List ι} {n : ι}
    (h : RbSorted lt m xs) (hn : n ∈ xs) :
    ∃ m', Ends (fun k => rbTreeDelete k m n) m' ∧ RbSorted lt m' (xs.erase n)
      ∧ n ∉ xs.erase n ∧ Keeps xs m m' := by
  obtain ⟨m', hrun, h', hk⟩ := h.holds.delete hn
  exact ⟨m', hrun, h.sublist h' List.erase_sublist, h.holds.nodup.not_mem_erase, hk⟩

theorem threeNodes_delete :
    ∃ m', Ends (fun k => rbTreeDelete k threeNodes 2) m'
      ∧ RbSorted (fun a b => decide (a < b)) m' [1, 3] ∧ 2 ∉ [1, 3]
        ∧ Keeps [1, 2, 3] threeNodes m' :=
  rbTree_delete_sorted _ threeNodes_sorted (n := 2) (by decide)

/-! ## Cutting a subtree out -/

/-- The other child of the parent of `sub`. -/
def siblingOf (m : RbMem ι) (sub : ι) : Option ι :=
  match (m.nodes sub).parent with
  | none => none
  | some fa => if (m.nodes fa).left = some sub then (m.nodes fa).right else (m.nodes fa).left

theorem MemAt.siblingOf_eq {m : RbMem ι} {f : Frame ι} {ps : List (Frame ι)} {t : Tree ι} {sub : ι}
    (h : MemAt m (f :: ps) t) (ht : t.root = some sub) : siblingOf m sub = f.sib.root := by
  have hside := h.child_eq_iff ht .left
  rw [RbNode.child_left] at hside
  have hsib := h.frame.2.2.2
  simp only [siblingOf, h.parent ht, parentOf]
  cases hs : f.side with
  | left =>
      rw [hs] at hsib
      rw [if_pos (hside.mpr hs), ← hsib]
      rfl
  | right =>
      rw [hs] at hsib
      rw [if_neg (fun he => by cases hs.symm.trans (hside.mp he)), ← hsib]
      rfl

theorem filter_plug {ps : List (Frame ι)} {t : Tree ι} (hn : (plug ps t).toList.Nodup) :
    (plug ps t).toList.filter (fun y => y ∉ t.toList) = before ps ++ after ps := by
  rw [toList_plug] at hn ⊢
  obtain ⟨hbt, -, hdisj⟩ := List.nodup_append.mp hn
  have hb : ∀ y ∈ before ps, y ∉ t.toList := by
    intro y hy hyt
    exact (List.nodup_append.mp hbt).2.2 y hy y hyt rfl
  have ha : ∀ y ∈ after ps, y ∉ t.toList := by
    intro y hy hyt
    exact hdisj y (by simp [hyt]) y hy rfl
  have hself : t.toList.filter (fun y => y ∉ t.toList) = [] := by simp
  rw [List.filter_append, List.filter_append, hself, List.append_nil,
    List.filter_eq_self.mpr (by simpa using hb), List.filter_eq_self.mpr (by simpa using ha)]

/-- Cutting out the subtree `u` of `sub`, when `sub` is the root or has a sibling: what is
left is the order without the nodes of `u`, in a valid tree. -/
theorem RbHolds.removeSubtree {m : RbMem ι} {xs : List ι} {sub : ι} (h : RbHolds m xs)
    (hsub : sub ∈ xs) (hsib : m.root = some sub ∨ siblingOf m sub ≠ none) :
    ∃ u, TreeAt m.nodes (m.nodes sub).parent u ∧ u.root = some sub
      ∧ RbEnds (fun k => rbTreeRemoveSubtree k m sub) m (xs.filter fun y => y ∉ u.toList)
        (xs.filter fun y => y ∉ u.toList) := by
  obtain ⟨ps, c, l, r, hm, rfl, k, hp, hnode⟩ := h.focus hsub
  have hparent : (m.nodes sub).parent = parentOf ps := hm.parent rfl
  refine ⟨.node c l sub r, ?_⟩
  rw [hparent, filter_plug hm.nodup]
  cases ps with
  | nil =>
      have hrun : ∀ k, rbTreeRemoveSubtree k m sub = .ok (m.setRoot none) := by
        intro k
        simp only [rbTreeRemoveSubtree, hparent, parentOf]
      refine ⟨hm.tree, rfl, m.setRoot none, ⟨0, hrun 0⟩, ?_, fun _ _ => rfl⟩
      exact ⟨.nil, 0, ⟨rfl, trivial, trivial, .nil⟩, .nil, rfl⟩
  | cons f ps =>
      have hne : f.sib ≠ .nil := by
        rcases hsib with hroot | hsib
        · exact absurd hroot.symm hm.root_ne
        · rw [hm.siblingOf_eq rfl] at hsib
          intro he
          rw [he] at hsib
          exact hsib rfl
      obtain ⟨N, hrb⟩ := hp.plug hnode
      exact ⟨hm.tree, rfl, rbTreeRemoveSubtree_holds hm rfl hrb hne⟩

/-- The subtree `u` of `sub` goes, when `sub` is the root or has a sibling; everything else
stays, in the order it was, and is all that is written. -/
theorem rbTree_removeSubtree_sorted (lt : ι → ι → Bool) {m : RbMem ι} {xs : List ι} {sub : ι}
    (h : RbSorted lt m xs) (hsub : sub ∈ xs)
    (hsib : m.root = some sub ∨ siblingOf m sub ≠ none) :
    ∃ u m', TreeAt m.nodes (m.nodes sub).parent u ∧ u.root = some sub
      ∧ Ends (fun k => rbTreeRemoveSubtree k m sub) m'
      ∧ RbSorted lt m' (xs.filter fun y => y ∉ u.toList)
      ∧ Keeps (xs.filter fun y => y ∉ u.toList) m m' := by
  obtain ⟨u, hu, hroot, m', hrun, h', hk⟩ := h.holds.removeSubtree hsub hsib
  exact ⟨u, m', hu, hroot, hrun, h.sublist h' List.filter_sublist, hk⟩

theorem threeNodes_removeSubtree :
    ∃ u m', TreeAt threeNodes.nodes (some 2) u ∧ u.root = some 1
      ∧ Ends (fun k => rbTreeRemoveSubtree k threeNodes 1) m'
      ∧ RbSorted (fun a b => decide (a < b)) m' ([1, 2, 3].filter fun y => y ∉ u.toList)
      ∧ Keeps ([1, 2, 3].filter fun y => y ∉ u.toList) threeNodes m' :=
  have hmem : 1 ∈ [1, 2, 3] := by decide
  rbTree_removeSubtree_sorted _ threeNodes_sorted hmem (.inr (by decide))

end Artorias
