import Mathlib.Data.List.Basic

/-!
# Machines fed one symbol at a time

A machine steps on one symbol, may fail there, and has ended once it wants no
more of them. `feed` gives it a list and counts what it takes; `Runs` is the
same as a relation, for runs that take everything. What a machine does does
not depend on how its input is cut into lists (`feed_append`,
`feedChunks_eq`). Machines that simulate each other (`Sim`) take the same
number of symbols and fail alike.
-/

namespace Artorias

structure Machine (σ β ε : Type) where
  step : σ → β → Except ε σ
  ended : σ → Bool

namespace Machine

variable {σ τ β ε : Type}

/-- Feed a list; what is counted is the symbols taken. -/
def feed (m : Machine σ β ε) (s : σ) : List β → Except ε (σ × Nat)
  | [] => .ok (s, 0)
  | b :: bs =>
      if m.ended s then .ok (s, 0)
      else
        match m.step s b with
        | .ok s' => (m.feed s' bs).map fun r => (r.1, r.2 + 1)
        | .error e => .error e

/-- Every symbol of the list is taken. -/
inductive Runs (m : Machine σ β ε) : σ → List β → σ → Prop where
  | nil {s : σ} : Runs m s [] s
  | cons {s s' s'' : σ} {b : β} {bs : List β} : m.ended s = false → m.step s b = .ok s' →
      Runs m s' bs s'' → Runs m s (b :: bs) s''

/-- While the list is fed, each step that is taken meets `P`; nothing is asked of the steps
after a failure or after the end. -/
def EachStep (m : Machine σ β ε) (P : σ → β → Prop) (s : σ) : List β → Prop
  | [] => True
  | b :: bs =>
      m.ended s = false → P s b ∧ ∀ s', m.step s b = .ok s' → m.EachStep P s' bs

/-! ## Runs -/

section

variable {m : Machine σ β ε} {s s' s'' : σ} {b : β} {xs ys : List β}

theorem Runs.single (hs : m.ended s = false) (h : m.step s b = .ok s') : m.Runs s [b] s' :=
  .cons hs h .nil

theorem Runs.append (h : m.Runs s xs s') (h' : m.Runs s' ys s'') : m.Runs s (xs ++ ys) s'' := by
  induction h with
  | nil => exact h'
  | cons hs hstep _ ih => exact .cons hs hstep (ih h')

theorem Runs.split (h : m.Runs s (xs ++ ys) s'') : ∃ s', m.Runs s xs s' ∧ m.Runs s' ys s'' := by
  induction xs generalizing s with
  | nil => exact ⟨s, .nil, h⟩
  | cons x xs ih =>
      cases h with
      | cons hs hstep h =>
          obtain ⟨s', hxs, hys⟩ := ih h
          exact ⟨s', .cons hs hstep hxs, hys⟩

theorem Runs.det {u : σ} (h : m.Runs s xs s') (h' : m.Runs s xs u) : s' = u := by
  induction h with
  | nil =>
      cases h'
      rfl
  | cons _ hstep _ ih =>
      cases h' with
      | cons _ hstep' h' =>
          rw [hstep] at hstep'
          cases hstep'
          exact ih h'

theorem Runs.not_ended (h : m.Runs s xs s') (hxs : xs ≠ []) : m.ended s = false := by
  cases h with
  | nil => exact absurd rfl hxs
  | cons hs _ _ => exact hs

/-- What each step preserves, a run preserves. Only steps of a machine that has not ended
count. -/
theorem Runs.inv {I : σ → Prop} (h : m.Runs s xs s')
    (hstep : ∀ ⦃s b s'⦄, I s → m.ended s = false → m.step s b = .ok s' → I s') (hs : I s) :
    I s' := by
  induction h with
  | nil => exact hs
  | cons hend hok _ ih => exact ih (hstep hs hend hok)

/-! ## Feeding -/

theorem feed_ended (hs : m.ended s = true) : m.feed s xs = .ok (s, 0) := by
  cases xs with
  | nil => rfl
  | cons x xs => rw [feed, if_pos hs]

theorem feed_cons_ok (hs : m.ended s = false) (h : m.step s b = .ok s') :
    m.feed s (b :: xs) = (m.feed s' xs).map fun r => (r.1, r.2 + 1) := by
  rw [feed, if_neg (by simp [hs]), h]

theorem feed_cons_error {e : ε} (hs : m.ended s = false) (h : m.step s b = .error e) :
    m.feed s (b :: xs) = .error e := by
  rw [feed, if_neg (by simp [hs]), h]

theorem Runs.feed (h : m.Runs s xs s') : m.feed s xs = .ok (s', xs.length) := by
  induction h with
  | nil => rfl
  | cons hs hstep _ ih =>
      rw [feed_cons_ok hs hstep, ih]
      rfl

/-- Feeding stops at the end of the list or where the machine has ended, and what it has
taken by then is a run. -/
theorem feed_spec {n : Nat} (h : m.feed s xs = .ok (s', n)) :
    n ≤ xs.length ∧ m.Runs s (xs.take n) s' ∧ (n = xs.length ∨ m.ended s' = true) := by
  induction xs generalizing s n with
  | nil =>
      cases h
      exact ⟨Nat.le_refl _, .nil, .inl rfl⟩
  | cons x xs ih =>
      cases hs : m.ended s with
      | true =>
          rw [feed_ended hs] at h
          cases h
          exact ⟨Nat.zero_le _, .nil, .inr hs⟩
      | false =>
          cases hstep : m.step s x with
          | error e =>
              rw [feed_cons_error hs hstep] at h
              cases h
          | ok u =>
              rw [feed_cons_ok hs hstep] at h
              cases hu : m.feed u xs with
              | error e =>
                  rw [hu] at h
                  cases h
              | ok r =>
                  rw [hu] at h
                  cases h
                  obtain ⟨hle, hruns, hend⟩ := ih hu
                  refine ⟨by simpa using hle, .cons hs hstep hruns, ?_⟩
                  simpa using hend

theorem feed_append (m : Machine σ β ε) (s : σ) (xs ys : List β) :
    m.feed s (xs ++ ys) = (m.feed s xs).bind fun r =>
      (m.feed r.1 ys).map fun t => (t.1, r.2 + t.2) := by
  induction xs generalizing s with
  | nil =>
      change _ = (m.feed s ys).map _
      simp only [List.nil_append, Nat.zero_add]
      cases m.feed s ys <;> rfl
  | cons x xs ih =>
      rw [List.cons_append]
      cases hs : m.ended s with
      | true =>
          rw [feed_ended hs, feed_ended hs]
          change _ = (m.feed s ys).map _
          rw [feed_ended hs]
          rfl
      | false =>
          cases hstep : m.step s x with
          | error e =>
              rw [feed_cons_error hs hstep, feed_cons_error hs hstep]
              rfl
          | ok u =>
              rw [feed_cons_ok hs hstep, feed_cons_ok hs hstep, ih]
              cases m.feed u xs with
              | error e => rfl
              | ok r =>
                  change (Except.map _ (Except.map _ (m.feed r.1 ys))) =
                    (m.feed r.1 ys).map _
                  cases m.feed r.1 ys with
                  | error e => rfl
                  | ok t => simp [Except.map]; omega

theorem Runs.feed_append (h : m.Runs s xs s') :
    m.feed s (xs ++ ys) = (m.feed s' ys).map fun t => (t.1, xs.length + t.2) := by
  rw [Machine.feed_append, h.feed]
  rfl

/-- A machine that has ended takes nothing more: with anything behind it, the same list is
taken. -/
theorem Runs.feed_ended (h : m.Runs s xs s') (hend : m.ended s' = true) (ys : List β) :
    m.feed s (xs ++ ys) = .ok (s', xs.length) := by
  rw [h.feed_append, Machine.feed_ended hend]
  rfl

end

/-! ## Cutting the input -/

/-- Each list is fed after what was left of those before it: the state, the
number of symbols taken in all, and what is left. -/
def feedChunks (m : Machine σ β ε) (s : σ) (left : List β) : List (List β) →
    Except ε (σ × Nat × List β)
  | [] => .ok (s, 0, left)
  | c :: cs =>
      match m.feed s (left ++ c) with
      | .ok r =>
          (m.feedChunks r.1 ((left ++ c).drop r.2) cs).map fun t => (t.1, r.2 + t.2.1, t.2.2)
      | .error e => .error e

theorem feedChunks_eq (m : Machine σ β ε) {s : σ} {left : List β} {cs : List (List β)}
    (h : left = [] ∨ m.ended s = true) :
    m.feedChunks s left cs = (m.feed s (left ++ cs.flatten)).map
      fun r => (r.1, r.2, (left ++ cs.flatten).drop r.2) := by
  induction cs generalizing s left with
  | nil =>
      rcases h with rfl | h
      · rfl
      · rw [feed_ended h]
        simp [feedChunks, Except.map]
  | cons c cs ih =>
      rw [feedChunks, List.flatten_cons, ← List.append_assoc, feed_append m s (left ++ c)]
      cases hfeed : m.feed s (left ++ c) with
      | error e => rfl
      | ok r =>
          obtain ⟨hle, -, hend⟩ := feed_spec hfeed
          have hleft : (left ++ c).drop r.2 = [] ∨ m.ended r.1 = true := by
            rcases hend with hend | hend
            · exact .inl (by rw [hend, List.drop_length])
            · exact .inr hend
          simp only [Except.bind]
          rw [ih hleft]
          rcases hend with hend | hend
          · rw [hend, List.drop_length, List.nil_append]
            cases m.feed r.1 cs.flatten with
            | error e => rfl
            | ok t => simp only [Except.map, List.drop_length_add_append]
          · rw [feed_ended hend, feed_ended hend, ← List.drop_append_of_le_length hle]
            rfl

/-! ## Steps of a run -/

section

variable {m : Machine σ β ε} {s s' s'' : σ} {b : β} {xs ys : List β} {P : σ → β → Prop}

theorem EachStep.left (h : m.EachStep P s (xs ++ ys)) : m.EachStep P s xs := by
  induction xs generalizing s with
  | nil => trivial
  | cons x xs ih =>
      intro hs
      obtain ⟨hx, hxs⟩ := h hs
      exact ⟨hx, fun s' hstep => ih (hxs s' hstep)⟩

theorem EachStep.of_forall (h : ∀ s b, P s b) : m.EachStep P s xs := by
  induction xs generalizing s with
  | nil => trivial
  | cons x xs ih => exact fun _ => ⟨h s x, fun _ _ => ih⟩

theorem EachStep.of_ended (hs : m.ended s = true) : m.EachStep P s xs := by
  cases xs with
  | nil => trivial
  | cons x xs =>
      intro hf
      rw [hs] at hf
      cases hf

theorem Runs.eachStep_append (h : m.Runs s xs s') :
    m.EachStep P s (xs ++ ys) ↔ m.EachStep P s xs ∧ m.EachStep P s' ys := by
  induction h with
  | nil => exact ⟨fun h => ⟨trivial, h⟩, fun h => h.2⟩
  | cons hs hstep _ ih =>
      constructor
      · intro h
        obtain ⟨hx, hxs⟩ := h hs
        obtain ⟨hxs, hys⟩ := ih.mp (hxs _ hstep)
        refine ⟨fun _ => ⟨hx, ?_⟩, hys⟩
        intro u hu
        rw [hstep] at hu
        cases hu
        exact hxs
      · intro h _
        obtain ⟨hx, hxs⟩ := h.1 hs
        refine ⟨hx, ?_⟩
        intro u hu
        rw [hstep] at hu
        cases hu
        exact ih.mpr ⟨hxs _ hstep, h.2⟩

/-- A run of steps that meet `P`. -/
def RunsBy (m : Machine σ β ε) (P : σ → β → Prop) (s : σ) (xs : List β) (s' : σ) : Prop :=
  m.Runs s xs s' ∧ m.EachStep P s xs

theorem RunsBy.nil : m.RunsBy P s [] s := ⟨.nil, trivial⟩

theorem RunsBy.cons (hs : m.ended s = false) (hP : P s b) (h : m.step s b = .ok s')
    (h' : m.RunsBy P s' xs s'') : m.RunsBy P s (b :: xs) s'' := by
  refine ⟨.cons hs h h'.1, fun _ => ⟨hP, ?_⟩⟩
  intro u hu
  rw [h] at hu
  cases hu
  exact h'.2

theorem RunsBy.append (h : m.RunsBy P s xs s') (h' : m.RunsBy P s' ys s'') :
    m.RunsBy P s (xs ++ ys) s'' :=
  ⟨h.1.append h'.1, h.1.eachStep_append.mpr ⟨h.2, h'.2⟩⟩

/-- The invariant rule for runs of good steps. The invariant may speak of what has been
taken so far, and a step may be assumed to meet `P`. -/
theorem RunsBy.inv {I : List β → σ → Prop} {t : List β} (h : m.RunsBy P s xs s')
    (hstep : ∀ ⦃taken s b s'⦄, I taken s → m.ended s = false → P s b → m.step s b = .ok s' →
      I (taken ++ [b]) s')
    (hs : I t s) : I (t ++ xs) s' := by
  obtain ⟨hruns, hP⟩ := h
  induction hruns generalizing t with
  | nil => simpa using hs
  | cons hend hok _ ih =>
      obtain ⟨hx, hxs⟩ := hP hend
      have hnext := ih (hstep hs hend hx hok) (hxs _ hok)
      simpa using hnext

/-- A list is fed without failing exactly if no step that is taken fails. -/
theorem feed_ok_iff :
    (∃ r, m.feed s xs = .ok r) ↔ m.EachStep (fun s b => ∃ s', m.step s b = .ok s') s xs := by
  induction xs generalizing s with
  | nil => exact ⟨fun _ => trivial, fun _ => ⟨_, rfl⟩⟩
  | cons x xs ih =>
      cases hs : m.ended s with
      | true => exact ⟨fun _ => .of_ended hs, fun _ => ⟨_, feed_ended hs⟩⟩
      | false =>
          cases hstep : m.step s x with
          | error e =>
              rw [feed_cons_error hs hstep]
              constructor
              · intro h
                obtain ⟨r, hr⟩ := h
                cases hr
              · intro h
                obtain ⟨⟨u, hu⟩, -⟩ := h hs
                rw [hstep] at hu
                cases hu
          | ok u =>
              rw [feed_cons_ok hs hstep]
              constructor
              · intro h _
                refine ⟨⟨u, hstep⟩, ?_⟩
                intro s' hs'
                rw [hstep] at hs'
                cases hs'
                refine ih.mp ?_
                cases hu : m.feed u xs with
                | error e =>
                    rw [hu] at h
                    obtain ⟨r, hr⟩ := h
                    cases hr
                | ok r => exact ⟨r, rfl⟩
              · intro h
                obtain ⟨r, hr⟩ := ih.mpr ((h hs).2 u hstep)
                exact ⟨_, by rw [hr]; rfl⟩

end

/-! ## Simulation -/

/-- A simulation: related states take the same steps to related states, and fail and end
alike. What is said of the runs of one machine then holds of the runs of the other. -/
structure Sim (m : Machine σ β ε) (n : Machine τ β ε) (R : σ → τ → Prop) : Prop where
  ended : ∀ ⦃s t⦄, R s t → m.ended s = n.ended t
  step_ok : ∀ ⦃s t b t'⦄, R s t → n.ended t = false → n.step t b = .ok t' →
    ∃ s', m.step s b = .ok s' ∧ R s' t'
  step_error : ∀ ⦃s t b e⦄, R s t → n.ended t = false → n.step t b = .error e →
    m.step s b = .error e

section

variable {m : Machine σ β ε} {n : Machine τ β ε} {R : σ → τ → Prop} {s s' : σ} {t t' : τ}
  {xs : List β}

theorem Sim.runs (h : m.Sim n R) (hR : R s t) (hruns : n.Runs t xs t') :
    ∃ s', m.Runs s xs s' ∧ R s' t' := by
  induction hruns generalizing s with
  | nil => exact ⟨s, .nil, hR⟩
  | cons ht hstep _ ih =>
      obtain ⟨u, hu, hRu⟩ := h.step_ok hR ht hstep
      obtain ⟨s', hs', hR'⟩ := ih hRu
      exact ⟨s', .cons (by rw [h.ended hR, ht]) hu hs', hR'⟩

theorem Sim.runs_back (h : m.Sim n R) (hR : R s t) (hruns : m.Runs s xs s') :
    ∃ t', n.Runs t xs t' ∧ R s' t' := by
  induction hruns generalizing t with
  | nil => exact ⟨t, .nil, hR⟩
  | cons hs hstep _ ih =>
      have ht := (h.ended hR).symm.trans hs
      cases hn : n.step t _ with
      | error e =>
          rw [h.step_error hR ht hn] at hstep
          cases hstep
      | ok u =>
          obtain ⟨v, hv, hRv⟩ := h.step_ok hR ht hn
          rw [hv] at hstep
          cases hstep
          obtain ⟨t', ht', hR'⟩ := ih hRv
          exact ⟨t', .cons ht hn ht', hR'⟩

theorem Sim.feed_ok {k : Nat} (h : m.Sim n R) (hR : R s t) (hfeed : n.feed t xs = .ok (t', k)) :
    ∃ s', m.feed s xs = .ok (s', k) ∧ R s' t' := by
  obtain ⟨hle, hruns, hend⟩ := feed_spec hfeed
  obtain ⟨s', hs', hR'⟩ := h.runs hR hruns
  refine ⟨s', ?_, hR'⟩
  rcases hend with rfl | hend
  · rw [List.take_length] at hs'
    exact hs'.feed
  · have hfed := hs'.feed_ended ((h.ended hR').trans hend) (xs.drop k)
    rwa [List.take_append_drop, List.length_take_of_le hle] at hfed

theorem Sim.feed_error {e : ε} (h : m.Sim n R) (hR : R s t) (hfeed : n.feed t xs = .error e) :
    m.feed s xs = .error e := by
  induction xs generalizing s t with
  | nil => cases hfeed
  | cons x xs ih =>
      cases ht : n.ended t with
      | true =>
          rw [feed_ended ht] at hfeed
          cases hfeed
      | false =>
          have hs := (h.ended hR).trans ht
          cases hn : n.step t x with
          | error e' =>
              rw [feed_cons_error ht hn] at hfeed
              cases hfeed
              exact feed_cons_error hs (h.step_error hR ht hn)
          | ok u =>
              obtain ⟨v, hv, hRv⟩ := h.step_ok hR ht hn
              rw [feed_cons_ok ht hn] at hfeed
              cases hu : n.feed u xs with
              | ok r =>
                  rw [hu] at hfeed
                  cases hfeed
              | error e' =>
                  rw [hu] at hfeed
                  cases hfeed
                  rw [feed_cons_ok hs hv, ih hRv hu]
                  rfl

theorem Sim.eachStep {P : σ → β → Prop} {Q : τ → β → Prop} (h : m.Sim n R)
    (hPQ : ∀ ⦃s t b⦄, R s t → n.ended t = false → (P s b ↔ Q t b)) (hR : R s t) :
    m.EachStep P s xs ↔ n.EachStep Q t xs := by
  induction xs generalizing s t with
  | nil => exact Iff.rfl
  | cons x xs ih =>
      rw [EachStep, EachStep, h.ended hR]
      refine imp_congr_right fun ht => and_congr (hPQ hR ht) ?_
      cases hn : n.step t x with
      | error e =>
          rw [h.step_error hR ht hn]
          simp
      | ok u =>
          obtain ⟨v, hv, hRv⟩ := h.step_ok hR ht hn
          rw [hv]
          simpa using ih hRv

end

end Machine

end Artorias
