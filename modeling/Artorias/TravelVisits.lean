import Artorias.RbOps
import Artorias.RbTravel

/-!
# What the destructive traversal does to its nodes

The traversal of a subtree, for visitors that keep an invariant about the nodes
still to be visited (`I`) and may write anything else: free the node they get,
or put it into another tree. `turnUses` writes down which nodes a turn touches.
Over a whole traversal each node is visited once, its children before it, and
what has been visited is not touched any more (`rbTreePostorderTravel_uses`).
With a NULL parent link at the root that is all (`rbTreePostorderTravel_detached`);
with another link the traversal climbs on (`rbTreePostorderTravel_attached`).
-/

namespace Artorias

variable {ι τ : Type} [DecidableEq ι]

/-! ## The nodes a turn touches -/

inductive Use (ι : Type) where
  | access (x : ι)
  | visit (x : ι)
deriving Repr, DecidableEq

namespace Use

def node : Use ι → ι
  | access x => x
  | visit x => x

def visited : Use ι → Option ι
  | access _ => none
  | visit x => some x

/-- After the visit of a node, nothing that touches it. -/
def Before (u v : Use ι) : Prop := ∀ x, u.visited = some x → v.node ≠ x

end Use

/-- A turn reads the node it is at. At a leaf it then reads and writes the
parent, and calls the visitor last. -/
def turnUses (m : RbMem ι) : Option ι → List (Use ι)
  | none => []
  | some tn =>
      if (m.nodes tn).left ≠ none then [.access tn]
      else if (m.nodes tn).right ≠ none then [.access tn]
      else match (m.nodes tn).parent with
        | none => [.access tn, .visit tn]
        | some fa => [.access tn, .access fa, .visit tn]

/-- `travelBody` with its uses written down. -/
def tracedBody (func : ι → RbMem ι × τ → CRun (RbMem ι × τ)) :
    ((RbMem ι × τ) × Option ι) × List (Use ι) →
      CRun ((((RbMem ι × τ) × Option ι) × List (Use ι)) ⊕ ((RbMem ι × τ) × List (Use ι)))
  | (s, log) =>
      match travelBody func s with
      | .ok (.inl s') => .ok (.inl (s', log ++ turnUses s.1.1 s.2))
      | .ok (.inr r) => .ok (.inr (r, log))
      | .error e => .error e

def tracedTravel (func : ι → RbMem ι × τ → CRun (RbMem ι × τ)) (fuel : Nat) (s : RbMem ι × τ)
    (tn : Option ι) : CRun ((RbMem ι × τ) × List (Use ι)) :=
  cloop (tracedBody func) fuel ((s, tn), [])

theorem tracedBody_ok {func : ι → RbMem ι × τ → CRun (RbMem ι × τ)}
    {s s' : (RbMem ι × τ) × Option ι} (log : List (Use ι)) (h : travelBody func s = .ok (.inl s')) :
    tracedBody func (s, log) = .ok (.inl (s', log ++ turnUses s.1.1 s.2)) := by
  simp only [tracedBody, h]

/-- Writing the uses down changes nothing of what the loop does. -/
theorem tracedLoop_fst (func : ι → RbMem ι × τ → CRun (RbMem ι × τ)) (k : Nat)
    (s : (RbMem ι × τ) × Option ι) (log : List (Use ι)) :
    (cloop (tracedBody func) k (s, log)).map Prod.fst = cloop (travelBody func) k s := by
  induction k generalizing s log with
  | zero => rfl
  | succ k ih =>
      rw [cloop, cloop]
      cases hbody : travelBody func s with
      | error e => simp only [tracedBody, hbody]; rfl
      | ok res =>
          cases res with
          | inl s' => simpa only [tracedBody, hbody] using ih s' _
          | inr r => simp only [tracedBody, hbody]; rfl

theorem tracedTravel_fst (func : ι → RbMem ι × τ → CRun (RbMem ι × τ)) (fuel : Nat)
    (s : RbMem ι × τ) (tn : Option ι) :
    (tracedTravel func fuel s tn).map Prod.fst = rbTreePostorderTravel func fuel s tn :=
  tracedLoop_fst func fuel (s, tn) []

theorem Goes.untraced {func : Nat → ι → RbMem ι × τ → CRun (RbMem ι × τ)}
    {s s' : (RbMem ι × τ) × Option ι} {log log' : List (Use ι)}
    (h : Goes (fun k => tracedBody (func k)) (s, log) (s', log')) :
    Goes (fun k => travelBody (func k)) s s' := by
  obtain ⟨n, K, hn⟩ := h
  refine ⟨n, K, ?_⟩
  intro k hk j
  rw [← tracedLoop_fst (func k) (n + j) s log, hn k hk, tracedLoop_fst]

omit [DecidableEq ι] in
theorem access_self (m : RbMem ι) (x : ι) : Use.access x ∈ turnUses m (some x) := by
  simp only [turnUses]
  split_ifs
  · simp
  · simp
  · cases (m.nodes x).parent <;> simp

/-- Around the call of the visitor, a turn writes no other nodes than those in `turnUses`,
and what it does depends on no others. -/
theorem turnUses_footprint {m m' n : RbMem ι} {x : ι} {w : τ} {q : Option ι}
    (hrun : travelBody (fun _ s => .ok s) ((m, w), some x) = .ok (.inl ((n, w), q)))
    (hm : ∀ y, Use.access y ∈ turnUses m (some x) → m'.nodes y = m.nodes y) :
    (∀ y, Use.access y ∉ turnUses m (some x) → n.nodes y = m.nodes y)
      ∧ turnUses m' (some x) = turnUses m (some x)
      ∧ ∃ n', travelBody (fun _ s => .ok s) ((m', w), some x) = .ok (.inl ((n', w), q))
        ∧ ∀ y, Use.access y ∈ turnUses m (some x) → n'.nodes y = n.nodes y := by
  have hx := hm x (access_self m x)
  have huses : turnUses m' (some x) = turnUses m (some x) := by simp only [turnUses, hx]
  by_cases hl : (m.nodes x).left ≠ none
  · simp only [travelBody, hx, if_pos hl] at hrun ⊢
    cases hrun
    exact ⟨fun _ _ => rfl, huses, m', rfl, hm⟩
  by_cases hr : (m.nodes x).right ≠ none
  · simp only [travelBody, hx, if_neg hl, if_pos hr] at hrun ⊢
    cases hrun
    exact ⟨fun _ _ => rfl, huses, m', rfl, hm⟩
  -- the leaf: its parent is in `turnUses`
  have hparent : ∀ y, (m.nodes x).parent = some y → Use.access y ∈ turnUses m (some x) := by
    intro y hy
    simp [turnUses, hl, hr, hy]
  simp only [travelBody, hx, if_neg hl, if_neg hr] at hrun ⊢
  cases hrun
  refine ⟨?_, huses, cutLink m' (m.nodes x).parent x, rfl, ?_⟩
  · intro y hy
    exact cutLink_of_ne m x fun he => hy (hparent y he)
  · intro y hy
    exact cutLink_congr (m := m) (m.nodes x).parent x (hm y hy)

/-! ## The uses of a subtree -/

/-- `us` are uses of the nodes of `t` and of `p` over it: every node of `t` is
visited once, in postorder, and not used afterwards. -/
structure UsesOf (p : Option ι) (t : Tree ι) (us : List (Use ι)) : Prop where
  visits : us.filterMap Use.visited = t.postorder
  nodes : ∀ u ∈ us, u.node ∈ t.toList ∨ p = some u.node
  safe : us.Pairwise Use.Before

namespace UsesOf

variable {p : Option ι} {t l r : Tree ι} {x : ι} {us vs : List (Use ι)}

omit [DecidableEq ι]

theorem nil : UsesOf p (.nil : Tree ι) [] := ⟨rfl, by simp, .nil⟩

theorem down (h : UsesOf (some x) t us) : UsesOf (some x) t (.access x :: us) where
  visits := h.visits
  nodes u hu := by
    rcases List.mem_cons.mp hu with rfl | hu
    · exact .inr rfl
    · exact h.nodes u hu
  safe := List.pairwise_cons.mpr ⟨fun _ _ _ hx => (by cases hx), h.safe⟩

theorem mem_of_visited (h : UsesOf p t us) {u : Use ι} (hu : u ∈ us) {y : ι}
    (hy : u.visited = some y) : y ∈ t.toList := by
  rw [← t.postorder_perm.mem_iff, ← h.visits]
  exact List.mem_filterMap.mpr ⟨u, hu, hy⟩

/-- A node comes after its subtrees: their uses first, then those of the turn that visits
it. -/
theorem node {c : Color} (hl : UsesOf (some x) l us) (hr : UsesOf (some x) r vs)
    (hn : (Tree.node c l x r).toList.Nodup) (hp : ∀ f, p = some f → f ∉ (Tree.node c l x r).toList)
    {ws : List (Use ι)} (hws : ws = .access x :: (p.map Use.access).toList ++ [.visit x]) :
    UsesOf p (.node c l x r) (us ++ (vs ++ ws)) := by
  obtain ⟨-, hnxr, hdisj⟩ := List.nodup_append.mp hn
  obtain ⟨hxr, -⟩ := List.nodup_cons.mp hnxr
  have hwsNode : ∀ u ∈ ws, u.node = x ∨ p = some u.node := by
    rw [hws]
    cases p <;> simp [Use.node]
  have hwsSafe : ws.Pairwise Use.Before := by
    rw [hws]
    cases p <;> simp [Use.Before, Use.visited]
  refine ⟨?_, ?_, ?_⟩
  · have hwsVisits : ws.filterMap Use.visited = [x] := by
      rw [hws]
      cases p <;> rfl
    rw [List.filterMap_append, List.filterMap_append, hl.visits, hr.visits, hwsVisits,
      Tree.postorder, List.append_assoc]
  · intro u hu
    rw [Tree.toList_node, List.mem_append, List.mem_cons]
    rcases List.mem_append.mp hu with hu | hu
    · rcases hl.nodes u hu with hu | hu
      · exact .inl (.inl hu)
      · exact .inl (.inr (.inl (Option.some.inj hu).symm))
    · rcases List.mem_append.mp hu with hu | hu
      · rcases hr.nodes u hu with hu | hu
        · exact .inl (.inr (.inr hu))
        · exact .inl (.inr (.inl (Option.some.inj hu).symm))
      · rcases hwsNode u hu with hu | hu
        · exact .inl (.inr (.inl hu))
        · exact .inr hu
  · -- the nodes of one subtree are none of what comes later
    have hlast : ∀ v ∈ ws, ∀ y, y ∈ (Tree.node c l x r).toList → y ≠ x → v.node ≠ y := by
      intro v hv y hy hyx he
      rcases hwsNode v hv with hx | hv
      · exact hyx (he.symm.trans hx)
      · exact hp _ hv (he ▸ hy)
    refine List.pairwise_append.mpr ⟨hl.safe,
      List.pairwise_append.mpr ⟨hr.safe, hwsSafe, ?_⟩, ?_⟩
    · intro u hu v hv y hy
      have hyr := hr.mem_of_visited hu hy
      exact hlast v hv y (by simp [hyr]) fun he => hxr (he ▸ hyr)
    · intro u hu v hv y hy he
      have hyl := hl.mem_of_visited hu hy
      have hyx : y ≠ x := hdisj y hyl x (by simp)
      rcases List.mem_append.mp hv with hv | hv
      · rcases hr.nodes v hv with hvr | hvx
        · exact hdisj y hyl y (by simp [← he, hvr]) rfl
        · exact hyx (he.symm.trans (Option.some.inj hvx).symm)
      · exact hlast v hv y (by simp [hyl]) hyx he

end UsesOf

/-! ## The traversal -/

/-- A visitor that comes back with enough fuel, and keeps `I`. -/
structure VisitsWith (func : Nat → ι → RbMem ι × τ → CRun (RbMem ι × τ))
    (I : List ι → RbMem ι × τ → Prop) : Prop where
  visit : ∀ n rest s, I (n :: rest) s → ∃ s' K, (∀ k ≥ K, func k n s = .ok s') ∧ I rest s'
    ∧ ∀ y ∈ rest, s'.1.nodes y = s.1.nodes y
  write : ∀ rest m m' w, I rest (m, w) → (∀ y, y ∉ rest → m'.nodes y = m.nodes y) → I rest (m', w)

variable {func : Nat → ι → RbMem ι × τ → CRun (RbMem ι × τ)} {I : List ι → RbMem ι × τ → Prop}

/-- The visit of a node without children, which is a turn of the loop: the visitor leaves
the nodes still to be visited alone, and so the loop goes on at the parent. -/
theorem travel_visit (hfunc : VisitsWith func I) {m : RbMem ι} {w : τ} {x : ι} {rest : List ι}
    (log : List (Use ι)) (hI : I (x :: rest) (m, w)) (hl : (m.nodes x).left = none)
    (hr : (m.nodes x).right = none) (hp : ∀ f, (m.nodes x).parent = some f → f ∈ rest) :
    ∃ s', Goes (fun k => tracedBody (func k)) (((m, w), some x), log)
        ((s', (m.nodes x).parent),
          log ++ (.access x :: ((m.nodes x).parent.map Use.access).toList ++ [.visit x]))
      ∧ I rest s' ∧ ∀ y ∈ rest, s'.1.nodes y = (cutLink m (m.nodes x).parent x).nodes y := by
  have hcut : I (x :: rest) (cutLink m (m.nodes x).parent x, w) := by
    refine hfunc.write _ m _ w hI fun y hy => cutLink_of_ne m x fun he => ?_
    exact hy (.tail _ (hp y he))
  obtain ⟨s', K, hrun, hI', hk⟩ := hfunc.visit x rest _ hcut
  refine ⟨s', .step (K := K) fun k hk => ?_, hI', hk⟩
  have hturn : travelBody (func k) ((m, w), some x) = .ok (.inl (s', (m.nodes x).parent)) := by
    rw [travelBody_visit _ _ hl hr, hrun k hk]
    rfl
  rw [tracedBody_ok log hturn]
  simp only [turnUses, hl, hr, ne_eq, not_true, if_false]
  cases (m.nodes x).parent <;> rfl

/-- What the traversal does to the subtree `t` under `p`, `rest` coming later. -/
def TravelGoes (func : Nat → ι → RbMem ι × τ → CRun (RbMem ι × τ))
    (I : List ι → RbMem ι × τ → Prop) (p : Option ι) (t : Tree ι) (rest : List ι) : Prop :=
  ∀ m w x log, TreeAt m.nodes p t → t.root = some x → I (t.postorder ++ rest) (m, w) →
    ∃ s' us, Goes (fun k => tracedBody (func k)) (((m, w), some x), log) ((s', p), log ++ us)
      ∧ UsesOf p t us ∧ I rest s' ∧ ∀ y ∈ rest, s'.1.nodes y = (cutLink m p x).nodes y

/-- At a node `x` whose side `s` is next, the loop goes through that child and comes back
with the link cut. -/
theorem travel_down {x : ι} {u : Tree ι} {rest : List ι}
    (htravel : TravelGoes func I (some x) u rest)
    {s : Side} {m : RbMem ι} {w : τ} (log : List (Use ι)) (hu : TreeAt m.nodes (some x) u)
    (hx : x ∈ rest) (hI : I (u.postorder ++ rest) (m, w)) (hs : (m.nodes x).child s = u.root)
    (hleft : s = .right → (m.nodes x).left = none) :
    ∃ s' us, Goes (fun k => tracedBody (func k)) (((m, w), some x), log) ((s', some x), log ++ us)
      ∧ UsesOf (some x) u us ∧ I rest s' ∧ s'.1.nodes x = (m.nodes x).setChild s none
      ∧ ∀ y ∈ rest, y ≠ x → s'.1.nodes y = m.nodes y := by
  cases hroot : u.root with
  | none =>
      cases u with
      | node _ _ _ _ => cases hroot
      | nil =>
          refine ⟨(m, w), [], ?_, .nil, hI, ?_, fun _ _ _ => rfl⟩
          · rw [List.append_nil]
            exact .refl _
          · cases s <;> simp only [RbNode.child_left, RbNode.child_right, Tree.root_nil] at hs <;>
              rw [RbNode.setChild, ← hs]
  | some z =>
      obtain ⟨s', us, hrun, hus, hI', hkeep⟩ := htravel m w z (log ++ [.access x]) hu hroot hI
      rw [hroot] at hs
      have hturn : ∀ k, travelBody (func k) ((m, w), some x) = .ok (.inl ((m, w), some z))
          ∧ turnUses m (some x) = [.access x] := by
        intro k
        cases s with
        | left =>
            simp only [RbNode.child_left] at hs
            simp [travelBody, turnUses, hs]
        | right =>
            simp only [RbNode.child_right] at hs
            simp [travelBody, turnUses, hs, hleft rfl]
      refine ⟨s', .access x :: us, ?_, hus.down, hI', ?_, ?_⟩
      · refine .trans (.step (K := 0) fun k _ => ?_) (by simpa using hrun)
        rw [tracedBody_ok log (hturn k).1, (hturn k).2]
      · rw [hkeep x hx]
        cases s with
        | left =>
            simp only [RbNode.child_left] at hs
            simp [cutLink, hs]
        | right => simp [cutLink, hleft rfl]
      · intro y hy hyx
        rw [hkeep y hy, cutLink_of_ne _ _ fun he => hyx (Option.some.inj he).symm]

/-- The traversal of a subtree, by induction on it: the loop comes out at its parent with
the whole subtree visited, each node once. -/
theorem travel_goes (hfunc : VisitsWith func I) {t : Tree ι} {p : Option ι} {rest : List ι}
    (hn : t.toList.Nodup) (hrest : ∀ y ∈ t.toList, y ∉ rest) (hp : ∀ f, p = some f → f ∈ rest) :
    TravelGoes func I p t rest := by
  induction t generalizing p rest with
  | nil => intro m w x log _ hx; cases hx
  | node c l x r ihl ihr =>
      intro m w x' log ht hx hI
      obtain rfl : x = x' := Option.some.inj hx
      obtain ⟨hnode, hl, hr⟩ := ht
      obtain ⟨hnl, hnxr, hdisj⟩ := List.nodup_append.mp hn
      obtain ⟨hxr, hnr⟩ := List.nodup_cons.mp hnxr
      have hxrest : x ∉ rest := hrest x (by simp)
      have hmemr : ∀ y, y ∈ r.postorder ↔ y ∈ r.toList := fun y => r.postorder_perm.mem_iff
      simp only [Tree.postorder, List.append_assoc] at hI
      have hgol := @ihl (some x) (r.postorder ++ ([x] ++ rest)) hnl
        (fun y hy hyr => by
          simp only [List.mem_append, List.mem_singleton, hmemr] at hyr
          rcases hyr with hyr | rfl | hyr
          · exact hdisj y hy y (by simp [hyr]) rfl
          · exact hdisj y hy y (by simp) rfl
          · exact hrest y (by simp [hy]) hyr)
        (fun f hf => by rw [← Option.some.inj hf]; simp)
      obtain ⟨s1, us, hrun1, hus, hI1, hx1, hk1⟩ :=
        travel_down (s := .left) hgol log hl (by simp) hI
        (by rw [hnode]; rfl) (by simp)
      have hgor := @ihr (some x) ([x] ++ rest) hnr
        (fun y hy hyr => by
          rcases List.mem_cons.mp hyr with rfl | hyr
          · exact hxr hy
          · exact hrest y (by simp [hy]) hyr)
        (fun f hf => by rw [← Option.some.inj hf]; simp)
      obtain ⟨s2, vs, hrun2, hvs, hI2, hx2, hk2⟩ :=
        travel_down (s := .right) (m := s1.1) (w := s1.2)
        hgor (log ++ us) (hr.congr fun y hy => hk1 y (by simp [hmemr, hy]) fun he => hxr (he ▸ hy))
        (by simp) hI1 (by rw [hx1, hnode]; rfl) (by rw [hx1]; simp [RbNode.setChild])
      rw [hx1, hnode] at hx2
      have hparent : (s2.1.nodes x).parent = p := by rw [hx2]; rfl
      obtain ⟨s3, hrun3, hI3, hk3⟩ :=
        travel_visit hfunc (m := s2.1) (w := s2.2) (log ++ us ++ vs) hI2
        (by rw [hx2]; rfl) (by rw [hx2]; rfl) (by rw [hparent]; exact hp)
      rw [hparent] at hrun3 hk3
      have huses := hus.node hvs hn (p := p) (fun f hf hft => hrest f hft (hp f hf)) rfl
      refine ⟨s3, _, ?_, huses, hI3, ?_⟩
      · simpa only [List.append_assoc] using hrun1.trans (hrun2.trans hrun3)
      · intro y hy
        have hyx : y ≠ x := fun he => hxrest (he ▸ hy)
        rw [hk3 y hy]
        refine cutLink_congr p x ?_
        rw [hk2 y (by simp [hy]) hyx, hk1 y (by simp [hy]) hyx]

/-- The traversal from a root with a NULL parent link ends after the root. -/
theorem tracedTravel_goes (hfunc : VisitsWith func I) {m : RbMem ι} {w : τ} {t : Tree ι}
    (ht : TreeAt m.nodes none t) (hn : t.toList.Nodup) (hI : I t.postorder (m, w)) :
    ∃ s' us K, (∀ k ≥ K, tracedTravel (func k) k (m, w) t.root = .ok (s', us))
      ∧ UsesOf none t us ∧ I [] s' := by
  cases hx : t.root with
  | none =>
      cases t with
      | node _ _ _ _ => cases hx
      | nil =>
          refine ⟨(m, w), [], 1, ?_, .nil, hI⟩
          intro k hk
          obtain ⟨j, rfl⟩ := Nat.exists_eq_add_of_le' hk
          rfl
  | some x =>
      obtain ⟨s', us, hrun, hus, hI', -⟩ := @travel_goes _ _ _ _ _ hfunc t none [] hn
        (fun _ _ => List.not_mem_nil) (fun f hf => by cases hf) m w x [] ht hx
        (by rwa [List.append_nil])
      obtain ⟨K, hK⟩ := hrun.ends (b := (s', us)) fun _ => rfl
      exact ⟨s', us, K, hK, hus, hI'⟩

/-- Under a NULL parent link the traversal visits the subtree and nothing else. -/
theorem rbTreePostorderTravel_visits (hfunc : VisitsWith func I) {m : RbMem ι} {w : τ} {t : Tree ι}
    {x : ι} (ht : TreeAt m.nodes none t) (hx : t.root = some x) (hn : t.toList.Nodup)
    (hI : I t.postorder (m, w)) :
    ∃ s' K, (∀ k ≥ K, rbTreePostorderTravel (func k) k (m, w) (some x) = .ok s') ∧ I [] s' := by
  obtain ⟨s', us, K, hrun, -, hI'⟩ := tracedTravel_goes hfunc ht hn hI
  refine ⟨s', K, ?_, hI'⟩
  intro k hk
  rw [← tracedTravel_fst, ← hx, hrun k hk]
  rfl

/-! ## Visitors with a record -/

section

variable {func : ι → RbMem ι × τ → CRun (RbMem ι × τ)} {m : RbMem ι} {t : Tree ι} {x : ι}
  {rest : List ι}

omit [DecidableEq ι] in
theorem Visits.logged {xs : List ι} (hfunc : Visits func xs) {ys : List ι} (hn : ys.Nodup)
    (hmem : ∀ y ∈ ys, y ∈ xs) :
    VisitsWith (fun _ => logged func) fun rest s => s.2.2 ++ rest = ys where
  visit n rest := by
    rintro ⟨m, w, log⟩ rfl
    obtain ⟨⟨m', w'⟩, hrun⟩ := hfunc.ends n (m, w)
    refine ⟨(m', w', log ++ [n]), 0, ?_, by simp, ?_⟩
    · intro k _
      rw [Artorias.logged, hrun]
      rfl
    · intro y hy
      refine hfunc.frame n m w m' w' hrun y (hmem y (by simp [hy])) ?_
      rintro rfl
      exact (List.nodup_cons.mp (List.nodup_append.mp hn).2.1).1 hy
  write _ _ _ _ h _ := h

/-- Up to the parent link of its root, a subtree is visited in postorder, and of what is
outside only the link to it is written. -/
theorem travel_logged (hfunc : Visits func (t.toList ++ rest)) (w : τ) {p : Option ι}
    (ht : TreeAt m.nodes p t) (hx : t.root = some x) (hn : (t.toList ++ rest).Nodup)
    (hp : ∀ f, p = some f → f ∈ rest) :
    ∃ m' w', Goes (fun _ => travelBody (logged func)) ((m, w, []), some x)
        ((m', w', t.postorder), p)
      ∧ ∀ y ∈ rest, m'.nodes y = (cutLink m p x).nodes y := by
  have hperm := t.postorder_perm.append_right rest
  obtain ⟨hnt, -, hdisj⟩ := List.nodup_append.mp hn
  obtain ⟨⟨m', w', log⟩, us, hrun, -, hlog, hk⟩ := travel_goes
    (hfunc.logged (hperm.nodup_iff.mpr hn) fun y hy => hperm.mem_iff.mp hy) hnt
    (fun y hy hyr => hdisj y hy y hyr rfl) hp m (w, []) x [] ht hx rfl
  obtain rfl : log = t.postorder := List.append_cancel_right hlog
  exact ⟨m', w', hrun.untraced, hk⟩

/-- Under a NULL parent link the traversal ends with the subtree visited in postorder, and
has written nothing outside. -/
theorem rbTreePostorderTravel_detached (hfunc : Visits func (t.toList ++ rest)) (w : τ)
    (ht : TreeAt m.nodes none t) (hx : t.root = some x) (hn : (t.toList ++ rest).Nodup) :
    ∃ m' w', Ends (fun k => rbTreePostorderTravel (logged func) k (m, w, []) (some x))
        (m', w', t.postorder)
      ∧ ∀ y ∈ rest, m'.nodes y = m.nodes y := by
  obtain ⟨m', w', hgoes, hk⟩ := travel_logged hfunc w ht hx hn (by simp)
  obtain ⟨K, hK⟩ := hgoes.ends (b := (m', w', t.postorder)) fun _ => rfl
  exact ⟨m', w', ⟨K, hK K (Nat.le_refl K)⟩, hk⟩

/-- Under a parent link that is not NULL the traversal, if it ends at all, has visited more
than the subtree. -/
theorem rbTreePostorderTravel_attached (hfunc : Visits func (t.toList ++ rest)) {m' : RbMem ι}
    {f : ι} {w w' : τ} {log : List ι} (ht : TreeAt m.nodes (some f) t) (hx : t.root = some x)
    (hn : (t.toList ++ rest).Nodup) (hf : f ∈ rest)
    (hrun : Ends (fun k => rbTreePostorderTravel (logged func) k (m, w, []) (some x))
      (m', w', log)) :
    ∃ ys, log = t.postorder ++ ys ∧ ys ≠ [] := by
  obtain ⟨m1, w1, hgoes, -⟩ := travel_logged hfunc w ht hx hn
    (fun g hg => Option.some.inj hg ▸ hf)
  obtain ⟨k, hk⟩ := hgoes.ends_of hrun
  obtain ⟨ys, hys, hne⟩ := travelLoop_visits hk
  exact ⟨ys, hys, hne (by simp)⟩

end

/-! ## The order of the visits -/

omit [DecidableEq ι] in
/-- In postorder a child comes before its parent. -/
theorem TreeAt.child_before {h : ι → RbNode ι} {p : Option ι} {t : Tree ι} (ht : TreeAt h p t)
    {x y : ι} (hx : x ∈ t.toList)
    {s : Side} (hy : (h x).child s = some y) : [y, x].Sublist t.postorder := by
  induction t generalizing p with
  | nil => cases hx
  | node c l z r ihl ihr =>
      obtain ⟨hz, hl, hr⟩ := ht
      rw [Tree.postorder]
      rcases List.mem_append.mp hx with hx | hx
      · exact (ihl hl hx).trans ((List.sublist_append_left ..).trans (List.sublist_append_left ..))
      · rcases List.mem_cons.mp hx with rfl | hx
        · have hmem : y ∈ l.postorder ++ r.postorder := by
            rw [List.mem_append, l.postorder_perm.mem_iff, r.postorder_perm.mem_iff]
            rw [hz] at hy
            cases s with
            | left => exact .inl (Tree.root_mem hy)
            | right => exact .inr (Tree.root_mem hy)
          exact (List.singleton_sublist.mpr hmem).append (.refl [x])
        · exact (ihr hr hx).trans
            ((List.sublist_append_right ..).trans (List.sublist_append_left ..))

/-- Any visitor that comes back and leaves the nodes still to be visited alone is called on
every node once, on each after its children, and the traversal does not touch a node that
has been visited. -/
theorem rbTreePostorderTravel_uses (hfunc : VisitsWith func I) {m : RbMem ι} {w : τ} {t : Tree ι}
    (ht : TreeAt m.nodes none t) (hn : t.toList.Nodup) (hI : I t.postorder (m, w)) :
    ∃ s' us K, (∀ k ≥ K, rbTreePostorderTravel (func k) k (m, w) t.root = .ok s'
        ∧ tracedTravel (func k) k (m, w) t.root = .ok (s', us))
      ∧ (us.filterMap Use.visited).Perm t.toList
      ∧ (∀ x ∈ t.toList, ∀ s y, (m.nodes x).child s = some y →
        [y, x].Sublist (us.filterMap Use.visited))
      ∧ us.Pairwise Use.Before := by
  obtain ⟨s', us, K, hrun, hus, -⟩ := tracedTravel_goes hfunc ht hn hI
  refine ⟨s', us, K, fun k hk => ⟨?_, hrun k hk⟩, ?_, ?_, hus.safe⟩
  · rw [← tracedTravel_fst, hrun k hk]
    rfl
  · rw [hus.visits]
    exact t.postorder_perm
  · intro x hx s y hy
    rw [hus.visits]
    exact ht.child_before hx hy

/-- A visitor that overwrites the node it gets. -/
def scribble (_ : Nat) (n : Nat) : RbMem Nat × Unit → CRun (RbMem Nat × Unit)
  | (m, w) => .ok (m.put n ⟨some n, some n, some n, .red⟩, w)

theorem visitsWith_scribble : VisitsWith scribble fun rest _ => rest.Nodup where
  visit n rest := by
    rintro ⟨m, w⟩ hnd
    refine ⟨_, 0, fun _ _ => rfl, (List.nodup_cons.mp hnd).2, ?_⟩
    intro y hy
    exact RbMem.put_of_ne _ _ fun he => (List.nodup_cons.mp hnd).1 (he ▸ hy)
  write _ _ _ _ h _ := h

theorem scribble_uses :
    ∃ s' us K, (∀ k ≥ K, rbTreePostorderTravel (scribble k) k (threeNodes, ()) (some 2) = .ok s'
        ∧ tracedTravel (scribble k) k (threeNodes, ()) (some 2) = .ok (s', us))
      ∧ (us.filterMap Use.visited).Perm [1, 2, 3]
      ∧ (∀ x ∈ [1, 2, 3], ∀ s y, (threeNodes.nodes x).child s = some y →
        [y, x].Sublist (us.filterMap Use.visited))
      ∧ us.Pairwise Use.Before :=
  rbTreePostorderTravel_uses visitsWith_scribble
    (t := .node .black (.node .red .nil 1 .nil) 2 (.node .red .nil 3 .nil))
    ⟨rfl, ⟨rfl, trivial, trivial⟩, ⟨rfl, trivial, trivial⟩⟩ (by decide) (by decide)

end Artorias
