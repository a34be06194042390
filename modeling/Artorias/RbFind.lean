import Artorias.RbOps

/-!
# Finding a key

`rb_tree_find` goes right when the key is not less, and the rotations move nodes
with equal keys to either side of each other. What it needs is only that the
tree is sorted: every operation keeps that (`RbRun.sorted`), over any history,
so the search finds a key whenever the tree contains it (`rbTreeFind_iff`).
-/

namespace Artorias

variable {ι κ : Type}

/-! ## The search -/

/-- One turn of the loop; `eq` and `lt` are the macro's two tests of the key. -/
def findBody (eq lt : ι → Bool) (m : RbMem ι) : Option ι → CRun (Option ι ⊕ Option ι)
  | none => .ok (.inr none)
  | some x =>
      if eq x then .ok (.inr (some x))
      else .ok (.inl (if lt x then (m.nodes x).left else (m.nodes x).right))

/-- `rb_tree_find` -/
def rbTreeFind (eq lt : κ → ι → Bool) (fuel : Nat) (m : RbMem ι) (key : κ) : CRun (Option ι) :=
  cloop (findBody (eq key) (lt key) m) fuel m.root

/-- What a search among `xs` for what `eq` picks out should give. -/
def Found (eq : ι → Bool) (xs : List ι) : Option ι → Prop
  | some x => x ∈ xs ∧ eq x
  | none => ∀ x ∈ xs, ¬eq x

section
variable {lt eq : κ → κ → Bool} [IsStrictWeakOrder κ fun a b => lt a b = true]
  (heq : ∀ a b, eq a b ↔ ¬lt a b ∧ ¬lt b a)
include heq

theorem not_eq_of_lt {k a b : κ} (ha : lt k a) (hab : ¬lt b a) : ¬eq k b := by
  intro hb
  exact not_lt_trans lt k b a ((heq k b).mp hb).1 hab ha

theorem not_eq_of_not_lt {k a b : κ} (hlt : ¬lt k a) (hne : ¬eq k a) (hba : ¬lt a b) : ¬eq k b := by
  intro hb
  have hak : lt a k := by
    by_contra hak
    exact hne ((heq k a).mpr ⟨hlt, hak⟩)
  exact not_lt_trans lt a b k hba ((heq k b).mp hb).2 hak

/-- The search ends with a node that has the key, if there is one in the subtree: of a node
that has not got it, the side that the turn leaves cannot have it either, by the order. -/
theorem findLoop_found {key : ι → κ} {k : κ} {m : RbMem ι} {p : Option ι} {t : Tree ι}
    (ht : TreeAt m.nodes p t) (hs : t.toList.Pairwise fun a b => ¬lt (key b) (key a)) :
    ∃ r, Ends (fun f =>
      cloop (findBody (fun x => eq k (key x)) (fun x => lt k (key x)) m) f t.root) r
      ∧ Found (fun x => eq k (key x)) t.toList r := by
  induction t generalizing p with
  | nil => exact ⟨none, .cloop_inr rfl, by simp [Found]⟩
  | node c l x r ihl ihr =>
      obtain ⟨hx, hl, hr⟩ := ht
      rw [Tree.toList_node] at hs ⊢
      obtain ⟨hsl, hsr, hlr⟩ := List.pairwise_append.mp hs
      obtain ⟨hxr, hsr⟩ := List.pairwise_cons.mp hsr
      rw [Tree.root_node]
      by_cases hek : eq k (key x)
      · refine ⟨some x, .cloop_inr (by simp only [findBody, if_pos hek]), ?_, hek⟩
        exact List.mem_append_right _ (List.mem_cons_self ..)
      by_cases hlt : lt k (key x)
      · obtain ⟨out, hrun, hout⟩ := ihl hl hsl
        refine ⟨out, .cloop_inl ?_ hrun, ?_⟩
        · simp only [findBody, if_neg hek, if_pos hlt, hx]
        · cases out with
          | some y => exact ⟨List.mem_append_left _ hout.1, hout.2⟩
          | none =>
              intro y hy
              rcases List.mem_append.mp hy with hy | hy
              · exact hout y hy
              rcases List.mem_cons.mp hy with rfl | hy
              · exact hek
              · exact not_eq_of_lt heq hlt (hxr y hy)
      · obtain ⟨out, hrun, hout⟩ := ihr hr hsr
        refine ⟨out, .cloop_inl ?_ hrun, ?_⟩
        · simp only [findBody, if_neg hek, if_neg hlt, hx]
        · cases out with
          | some y =>
              exact ⟨List.mem_append_right _ (List.mem_cons_of_mem x hout.1), hout.2⟩
          | none =>
              intro y hy
              rcases List.mem_append.mp hy with hy | hy
              · exact not_eq_of_not_lt heq hlt hek (hlr y hy x (List.mem_cons_self ..))
              rcases List.mem_cons.mp hy with rfl | hy
              · exact hek
              · exact hout y hy

end

/-! ## Histories -/

/-- Comparing nodes by their keys. -/
def byKey {ι : Type} (lt : κ → κ → Bool) (key : ι → κ) (a b : ι) : Bool := lt (key a) (key b)

instance {lt : κ → κ → Bool} [h : IsStrictWeakOrder κ fun a b => lt a b = true] {key : ι → κ} :
    IsStrictWeakOrder ι fun a b => byKey lt key a b = true where
  irrefl a := h.irrefl (key a)
  trans a b c := h.trans (key a) (key b) (key c)
  incomp_trans a b c := h.incomp_trans (key a) (key b) (key c)

theorem TreeAt.eq_of_root {h : ι → RbNode ι} {p q : Option ι} {t u : Tree ι} (ht : TreeAt h p t)
    (hu : TreeAt h q u) (hroot : t.root = u.root) : t = u := by
  induction t generalizing p q u with
  | nil =>
      cases u with
      | nil => rfl
      | node c l x r => cases hroot
  | node c l x r ihl ihr =>
      cases u with
      | nil => cases hroot
      | node c' l' x' r' =>
          obtain rfl : x = x' := Option.some.inj hroot
          obtain ⟨hx, hl, hr⟩ := ht
          obtain ⟨hx', hl', hr'⟩ := hu
          obtain ⟨-, hll, hrr, rfl⟩ := RbNode.mk.inj (hx.symm.trans hx')
          rw [ihl hl hl' hll, ihr hr hr' hrr]

variable [DecidableEq ι]

/-- A history of a tree that now contains `xs`. Nodes outside of it, and their
keys, change at will. -/
inductive RbRun (lt : κ → κ → Bool) : RbMem ι → (ι → κ) → List ι → Prop where
  | empty (m : RbMem ι) (key : ι → κ) (hroot : m.root = none) : RbRun lt m key []
  | insert {m m' : RbMem ι} {key : ι → κ} {xs : List ι} {n : ι} (h : RbRun lt m key xs)
      (hn : n ∉ xs) (hrun : Ends (fun k => rbTreeInsertRepaired (byKey lt key) k m n) m') :
      RbRun lt m' key (n :: xs)
  | delete {m m' : RbMem ι} {key : ι → κ} {xs : List ι} {n : ι} (h : RbRun lt m key xs)
      (hn : n ∈ xs) (hrun : Ends (fun k => rbTreeDelete k m n) m') :
      RbRun lt m' key (xs.erase n)
  | removeSubtree {m m' : RbMem ι} {key : ι → κ} {xs : List ι} {sub : ι} {u : Tree ι}
      (h : RbRun lt m key xs) (hsub : sub ∈ xs)
      (hsib : m.root = some sub ∨ siblingOf m sub ≠ none)
      (hu : TreeAt m.nodes (m.nodes sub).parent u) (hroot : u.root = some sub)
      (hrun : Ends (fun k => rbTreeRemoveSubtree k m sub) m') :
      RbRun lt m' key (xs.filter fun y => y ∉ u.toList)
  | outside {m m' : RbMem ι} {key key' : ι → κ} {xs : List ι} (h : RbRun lt m key xs)
      (hroot : m'.root = m.root) (hnodes : ∀ y ∈ xs, m'.nodes y = m.nodes y)
      (hkeys : ∀ y ∈ xs, key' y = key y) : RbRun lt m' key' xs

theorem RbRun.sorted {lt : κ → κ → Bool} [IsStrictWeakOrder κ fun a b => lt a b = true]
    {m : RbMem ι} {key : ι → κ} {xs : List ι} (h : RbRun lt m key xs) :
    ∃ ys, RbSorted (byKey lt key) m ys ∧ ys.Perm xs := by
  induction h with
  | empty m key hroot =>
      exact ⟨[], ⟨⟨.nil, 0, ⟨hroot, trivial, trivial, .nil⟩, .nil, rfl⟩, .nil⟩, .nil⟩
  | @insert m m' key xs n _ hn hrun ih =>
      obtain ⟨ys, hys, hperm⟩ := ih
      have hny : n ∉ ys := fun hmem => hn (hperm.mem_iff.mp hmem)
      obtain ⟨m₁, bs, as, hrun₁, h₁, rfl, hbs, has, -⟩ := hys.insert _ hny
      cases Ends.unique (mono_rbTreeInsertRepaired _ m n) hrun hrun₁
      exact ⟨bs ++ n :: as, ⟨h₁, pairwise_insert _ hys.sorted hbs has⟩,
        List.perm_middle.trans (hperm.cons n)⟩
  | @delete m m' key xs n _ hn hrun ih =>
      obtain ⟨ys, hys, hperm⟩ := ih
      obtain ⟨m₁, hrun₁, h₁, -⟩ := hys.holds.delete (hperm.mem_iff.mpr hn)
      cases Ends.unique (mono_rbTreeDelete m n) hrun hrun₁
      exact ⟨ys.erase n, hys.sublist h₁ List.erase_sublist, hperm.erase n⟩
  | @removeSubtree m m' key xs sub u _ hsub hsib hu hroot hrun ih =>
      obtain ⟨ys, hys, hperm⟩ := ih
      obtain ⟨u₁, hu₁, hroot₁, m₁, hrun₁, h₁, -⟩ :=
        hys.holds.removeSubtree (hperm.mem_iff.mpr hsub) hsib
      obtain rfl := hu.eq_of_root hu₁ (hroot.trans hroot₁.symm)
      cases Ends.unique (mono_rbTreeRemoveSubtree m sub) hrun hrun₁
      exact ⟨_, hys.sublist h₁ List.filter_sublist, hperm.filter _⟩
  | @outside m m' key key' xs _ hroot hnodes hkeys ih =>
      obtain ⟨ys, hys, hperm⟩ := ih
      refine ⟨ys, ⟨hys.holds.congr hroot fun y hy => hnodes y (hperm.mem_iff.mp hy), ?_⟩, hperm⟩
      refine List.Pairwise.imp_of_mem ?_ hys.sorted
      intro a b ha hb hab
      rw [byKey, hkeys a (hperm.mem_iff.mp ha), hkeys b (hperm.mem_iff.mp hb)]
      exact hab

theorem rbTreeFind_iff {lt eq : κ → κ → Bool} [IsStrictWeakOrder κ fun a b => lt a b = true]
    (heq : ∀ a b, eq a b ↔ ¬lt a b ∧ ¬lt b a) {m : RbMem ι} {key : ι → κ} {xs : List ι}
    (h : RbRun lt m key xs) (k : κ) :
    ∃ r, Ends (fun f => rbTreeFind (fun k x => eq k (key x)) (fun k x => lt k (key x)) f m k) r
      ∧ (∀ x, r = some x → x ∈ xs ∧ eq k (key x))
      ∧ (r = none ↔ ∀ x ∈ xs, ¬eq k (key x)) := by
  obtain ⟨ys, ⟨⟨t, N, ht, -, rfl⟩, hsorted⟩, hperm⟩ := h.sorted
  obtain ⟨r, hrun, hfound⟩ := findLoop_found heq (k := k) ht.tree hsorted
  refine ⟨r, ?_, ?_, ?_⟩
  · have hroot : m.root = t.root := ht.root
    simp only [rbTreeFind, hroot]
    exact hrun
  · rintro x rfl
    exact ⟨hperm.mem_iff.mp hfound.1, hfound.2⟩
  · cases r with
    | none => exact iff_of_true rfl fun x hx => hfound x (hperm.mem_iff.mpr hx)
    | some x =>
        have hx := hperm.mem_iff.mp hfound.1
        exact iff_of_false (by simp) fun hall => hall x hx hfound.2

/-- A tree without nodes. -/
def noNodes : RbMem Nat := ⟨none, fun _ => ⟨none, none, none, .black⟩⟩

/-- Two nodes with the same key, of which a search finds one. -/
theorem noNodes_find :
    ∃ m₁ m₂ r,
      rbTreeInsertRepaired (byKey (fun a b => decide (a < b)) (· / 2)) 3 noNodes 4 = .ok m₁
        ∧ rbTreeInsertRepaired (byKey (fun a b => decide (a < b)) (· / 2)) 3 m₁ 5 = .ok m₂
        ∧ Ends (fun f => rbTreeFind (fun k x => decide (k = x / 2)) (fun k x => decide (k < x / 2))
            f m₂ 2) r
        ∧ (∀ x, r = some x → x ∈ [5, 4] ∧ decide (2 = x / 2))
        ∧ (r = none ↔ ∀ x ∈ [5, 4], ¬decide (2 = x / 2)) := by
  have : IsStrictWeakOrder Nat fun a b => decide (a < b) = true :=
    { irrefl := by simp
      trans := by simp only [decide_eq_true_eq]; omega
      incomp_trans := by simp only [decide_eq_true_eq]; omega }
  have heq (a b : Nat) : decide (a = b) ↔ ¬decide (a < b) ∧ ¬decide (b < a) := by
    simp only [decide_eq_true_eq]
    omega
  have h₀ : RbRun (fun a b => decide (a < b)) noNodes (· / 2) [] := .empty _ _ rfl
  have h₁ := h₀.insert (n := 4) (by decide) ⟨3, rfl⟩
  have h₂ := h₁.insert (n := 5) (by decide) ⟨3, rfl⟩
  obtain ⟨r, hr⟩ := rbTreeFind_iff heq h₂ 2
  exact ⟨_, _, r, rfl, rfl, hr⟩

end Artorias
