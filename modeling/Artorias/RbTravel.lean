import Artorias.RbRotate

/-!
# The destructive traversal, turn by turn

`rb_tree_postorder_travel` for any visitor and any links: what one turn does,
what a whole run keeps (`rbTreePostorderTravel_keeps`), and that a record or a
count of the visits changes nothing else. It leaves a subtree through the
parent link of the subtree's root, whatever that is.
-/

namespace Artorias

variable {ι τ : Type}

/-! ## Visitors -/

def Tree.postorder : Tree ι → List ι
  | .nil => []
  | .node _ l x r => l.postorder ++ r.postorder ++ [x]

theorem Tree.postorder_perm (t : Tree ι) : t.postorder.Perm t.toList := by
  induction t with
  | nil => exact .nil
  | node c l x r ihl ihr =>
      rw [postorder, toList, List.append_assoc]
      refine ihl.append ?_
      exact (@List.perm_append_comm _ _ [x]).trans (ihr.cons x)

/-- The visitor, with a record of the nodes it was called on. -/
def logged (func : ι → RbMem ι × τ → CRun (RbMem ι × τ)) (n : ι) :
    RbMem ι × (τ × List ι) → CRun (RbMem ι × (τ × List ι))
  | (m, w, log) => do
      let (m, w) ← func n (m, w)
      .ok (m, w, log ++ [n])

/-- The visitor, with a sum of what its calls count for. -/
def counted (func : ι → RbMem ι × τ → CRun (RbMem ι × τ)) (count : ι → τ → Nat) (n : ι) :
    RbMem ι × (τ × Nat) → CRun (RbMem ι × (τ × Nat))
  | (m, w, c) => do
      let (m, w') ← func n (m, w)
      .ok (m, w', c + count n w)

/-- A visitor that comes back, and writes no node of `L` but the one it visits. -/
structure Visits (func : ι → RbMem ι × τ → CRun (RbMem ι × τ)) (L : List ι) : Prop where
  ends : ∀ n s, ∃ s', func n s = .ok s'
  frame : ∀ n m w m' w', func n (m, w) = .ok (m', w') →
    ∀ y ∈ L, y ≠ n → m'.nodes y = m.nodes y

variable [DecidableEq ι]

/-- The memory with the link to `x` cut in its parent. -/
def cutLink (m : RbMem ι) (p : Option ι) (x : ι) : RbMem ι :=
  match p with
  | none => m
  | some f =>
      if (m.nodes f).left = some x then m.setChild .left f none
      else m.setChild .right f none

theorem cutLink_of_ne (m : RbMem ι) {p : Option ι} (x : ι) {y : ι} (h : p ≠ some y) :
    (cutLink m p x).nodes y = m.nodes y := by
  cases p with
  | none => rfl
  | some f =>
      have hy : y ≠ f := fun he => h (by rw [he])
      simp only [cutLink]
      split <;> exact m.setChild_of_ne _ _ hy

theorem cutLink_congr {m m' : RbMem ι} {y : ι} (p : Option ι) (x : ι)
    (h : m'.nodes y = m.nodes y) : (cutLink m' p x).nodes y = (cutLink m p x).nodes y := by
  by_cases hp : p = some y
  · subst hp
    simp only [cutLink, h]
    split <;> exact RbMem.setChild_congr h _ _ _
  · rw [cutLink_of_ne _ _ hp, cutLink_of_ne _ _ hp, h]

/-! ## Any links -/

/-- A turn at a node without children cuts it off its parent, visits it, and goes up. -/
theorem travelBody_visit (func : ι → RbMem ι × τ → CRun (RbMem ι × τ)) {m : RbMem ι} (w : τ) {x : ι}
    (hl : (m.nodes x).left = none) (hr : (m.nodes x).right = none) :
    travelBody func ((m, w), some x) = (do
      let s ← func x (cutLink m (m.nodes x).parent x, w)
      .ok (.inl (s, (m.nodes x).parent))) := by
  simp only [travelBody, hl, hr, ne_eq, not_true, if_false]
  rfl

/-- What every visit keeps, the traversal keeps, whatever the links are and wherever they
lead. -/
theorem rbTreePostorderTravel_keeps {func : ι → RbMem ι × τ → CRun (RbMem ι × τ)} {P : τ → Prop}
    (hfunc : ∀ n m w s, P w → func n (m, w) = .ok s → P s.2) {k : Nat} {s s' : RbMem ι × τ}
    {tn : Option ι} (h : P s.2) (hrun : rbTreePostorderTravel func k s tn = .ok s') : P s'.2 := by
  refine @cloop_keeps _ _ (travelBody func) (fun s => P s.1.2) (fun s => P s.2)
    ?_ ?_ k (s, tn) s' h hrun
  · intro s s' hs hbody
    obtain ⟨⟨m, w⟩, tn⟩ := s
    cases tn with
    | none => cases hbody
    | some x =>
        simp only [travelBody] at hbody
        split at hbody
        · cases hbody
          exact hs
        · split at hbody
          · cases hbody
            exact hs
          · obtain ⟨s1, hvisit, hbody⟩ := cbind_eq_ok.mp hbody
            cases hbody
            exact hfunc x _ w s1 hs hvisit
  · intro s b hs hbody
    obtain ⟨⟨m, w⟩, tn⟩ := s
    cases tn with
    | none =>
        cases hbody
        exact hs
    | some x =>
        simp only [travelBody] at hbody
        split at hbody
        · cases hbody
        · split at hbody
          · cases hbody
          · obtain ⟨s1, -, hbody⟩ := cbind_eq_ok.mp hbody
            cases hbody

/-- Counting changes nothing else: the counted traversal does what the traversal does. -/
theorem rbTreePostorderTravel_counted (func : ι → RbMem ι × τ → CRun (RbMem ι × τ))
    (count : ι → τ → Nat) (k : Nat) (m : RbMem ι) (w : τ) (c : Nat) (tn : Option ι) :
    (rbTreePostorderTravel (counted func count) k (m, w, c) tn).map (fun s => (s.1, s.2.1))
      = rbTreePostorderTravel func k (m, w) tn := by
  unfold rbTreePostorderTravel
  induction k generalizing m w c tn with
  | zero => rfl
  | succ k ih =>
      cases tn with
      | none => rfl
      | some x =>
          rw [cloop, cloop]
          by_cases hl : (m.nodes x).left ≠ none
          · simp only [travelBody, if_pos hl]
            exact ih m w c _
          · by_cases hr : (m.nodes x).right ≠ none
            · simp only [travelBody, if_neg hl, if_pos hr]
              exact ih m w c _
            · rw [not_ne_iff] at hl hr
              rw [travelBody_visit _ _ hl hr, travelBody_visit _ _ hl hr, counted]
              cases func x (cutLink m (m.nodes x).parent x, w) with
              | error e => rfl
              | ok s => exact ih s.1 s.2 _ _

/-! ## Visitors with a record -/

omit [DecidableEq ι] in
theorem logged_log {func : ι → RbMem ι × τ → CRun (RbMem ι × τ)} {n : ι} {m m' : RbMem ι}
    {w w' : τ} {log log' : List ι} (h : logged func n (m, w, log) = .ok (m', w', log')) :
    log' = log ++ [n] := by
  obtain ⟨⟨m1, w1⟩, -, hret⟩ := cbind_eq_ok.mp h
  cases hret
  rfl

/-- A turn at a node either goes down, with nothing visited, or visits the node. -/
theorem travelBody_cases {func : ι → RbMem ι × τ → CRun (RbMem ι × τ)} {m : RbMem ι} {w : τ}
    {log : List ι} {tn : ι} {res : ((RbMem ι × τ × List ι) × Option ι) ⊕ (RbMem ι × τ × List ι)}
    (h : travelBody (logged func) ((m, w, log), some tn) = .ok res) :
    (∃ q, q ≠ none ∧ res = .inl ((m, w, log), q))
      ∨ ∃ m' w' q, res = .inl ((m', w', log ++ [tn]), q) := by
  simp only [travelBody] at h
  by_cases hl : (m.nodes tn).left ≠ none
  · rw [if_pos hl] at h
    exact .inl ⟨_, hl, (Except.ok.inj h).symm⟩
  · rw [if_neg hl] at h
    by_cases hr : (m.nodes tn).right ≠ none
    · rw [if_pos hr] at h
      exact .inl ⟨_, hr, (Except.ok.inj h).symm⟩
    · rw [if_neg hr] at h
      obtain ⟨⟨m', w', log'⟩, hvisit, hret⟩ := cbind_eq_ok.mp h
      rw [logged_log hvisit] at hret
      exact .inr ⟨m', w', _, (Except.ok.inj hret).symm⟩

/-- From any node the traversal visits something before it ends, since it ends only at NULL,
where a visit has led. -/
theorem travelLoop_visits {func : ι → RbMem ι × τ → CRun (RbMem ι × τ)} {k : Nat}
    {m m' : RbMem ι} {w w' : τ} {log log' : List ι} {q : Option ι}
    (h : cloop (travelBody (logged func)) k ((m, w, log), q) = .ok (m', w', log')) :
    ∃ ys, log' = log ++ ys ∧ (q ≠ none → ys ≠ []) := by
  induction k generalizing m w log q with
  | zero => cases h
  | succ k ih =>
      cases q with
      | none =>
          rw [cloop_inr (b := (m, w, log)) rfl] at h
          cases h
          exact ⟨[], by simp, by simp⟩
      | some tn =>
          cases hturn : travelBody (logged func) ((m, w, log), some tn) with
          | error e => rw [cloop_error hturn] at h; cases h
          | ok res =>
              rcases travelBody_cases hturn with ⟨q', hq', rfl⟩ | ⟨m1, w1, q', rfl⟩
              · rw [cloop_inl hturn] at h
                obtain ⟨ys, hys, hne⟩ := ih h
                exact ⟨ys, hys, fun _ => hne hq'⟩
              · rw [cloop_inl hturn] at h
                obtain ⟨ys, hys, -⟩ := ih h
                exact ⟨tn :: ys, by simp [hys], by simp⟩

end Artorias
