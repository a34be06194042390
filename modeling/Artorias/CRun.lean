import Mathlib.Logic.Function.Basic

/-!
# Running a piece of C

The result of a piece of C over an explicit memory: it ends with a value, or
it reads through a NULL pointer (`Fault.null`), or one of its loops has used
up the iterations it was given (`Fault.fuel`).

Loops are `cloop`: a body that either goes round again or leaves. Fuel is a
resource bound and nothing else: more of it never changes a result
(`Mono`), so "ends with `r`" (`Ends`) does not depend on how much there was.
-/

namespace Artorias

abbrev Addr := Nat

inductive Fault where
  | null
  | fuel
deriving Repr, DecidableEq

abbrev CRun (α : Type) := Except Fault α

/-- Reading through a pointer. -/
def deref {ι : Type} : Option ι → CRun ι
  | some x => .ok x
  | none => .error .null

@[simp] theorem deref_some {ι : Type} (x : ι) : deref (some x) = .ok x := rfl

@[simp] theorem deref_none {ι : Type} :
    deref (none : Option ι) = .error .null := rfl

@[simp] theorem cbind_ok {α β : Type} (a : α) (f : α → CRun β) :
    ((Except.ok a : CRun α) >>= f) = f a := rfl

@[simp] theorem cbind_error {α β : Type} (e : Fault) (f : α → CRun β) :
    ((Except.error e : CRun α) >>= f) = .error e := rfl

theorem cbind_eq_ok {α β : Type} {x : CRun α} {f : α → CRun β} {b : β} :
    (x >>= f) = .ok b ↔ ∃ a, x = .ok a ∧ f a = .ok b := by
  cases x with
  | ok a => simp
  | error e => simp

/-! ## Loops -/

/-- Run `body` until it leaves with `.inr`, at most as often as the fuel says. -/
def cloop {σ β : Type} (body : σ → CRun (σ ⊕ β)) : Nat → σ → CRun β
  | 0, _ => .error .fuel
  | k + 1, s =>
      match body s with
      | .ok (.inl s') => cloop body k s'
      | .ok (.inr b) => .ok b
      | .error e => .error e

theorem cloop_inl {σ β : Type} {body : σ → CRun (σ ⊕ β)} {k : Nat} {s s' : σ}
    (h : body s = .ok (.inl s')) : cloop body (k + 1) s = cloop body k s' := by
  rw [cloop, h]

theorem cloop_inr {σ β : Type} {body : σ → CRun (σ ⊕ β)} {k : Nat} {s : σ} {b : β}
    (h : body s = .ok (.inr b)) : cloop body (k + 1) s = .ok b := by
  rw [cloop, h]

theorem cloop_error {σ β : Type} {body : σ → CRun (σ ⊕ β)} {k : Nat} {s : σ}
    {e : Fault} (h : body s = .error e) : cloop body (k + 1) s = .error e := by
  rw [cloop, h]

/-- A property that each turn of the loop keeps holds of what the loop ends with. -/
theorem cloop_keeps {σ β : Type} {body : σ → CRun (σ ⊕ β)} {I : σ → Prop} {Q : β → Prop}
    (hnext : ∀ s s', I s → body s = .ok (.inl s') → I s')
    (hdone : ∀ s b, I s → body s = .ok (.inr b) → Q b) {k : Nat} {s : σ} {b : β} (h : I s)
    (hrun : cloop body k s = .ok b) : Q b := by
  induction k generalizing s with
  | zero => cases hrun
  | succ k ih =>
      rw [cloop] at hrun
      split at hrun
      · exact ih (hnext _ _ h ‹_›) hrun
      · cases hrun
        exact hdone _ _ h ‹_›
      · cases hrun

/-! ## Fuel -/

/-- `f` does not depend on its fuel: what it returns with some, it returns with any more. -/
def Mono {α : Type} (f : Nat → CRun α) : Prop :=
  ∀ ⦃k k' r⦄, k ≤ k' → f k = .ok r → f k' = .ok r

/-- With enough fuel, `f` ends with `r`. -/
def Ends {α : Type} (f : Nat → CRun α) (r : α) : Prop :=
  ∃ k, f k = .ok r

theorem Ends.unique {α : Type} {f : Nat → CRun α} (hf : Mono f) {a b : α}
    (ha : Ends f a) (hb : Ends f b) : a = b := by
  obtain ⟨i, hi⟩ := ha
  obtain ⟨j, hj⟩ := hb
  have hi' := hf (Nat.le_max_left i j) hi
  have hj' := hf (Nat.le_max_right i j) hj
  exact Except.ok.inj (hi'.symm.trans hj')

theorem Ends.const {α : Type} {x : CRun α} {r : α} (h : x = .ok r) : Ends (fun _ => x) r :=
  ⟨0, h⟩

theorem Ends.bind {α β : Type} {f : Nat → CRun α} {g : α → Nat → CRun β} {a : α} {b : β}
    (hf : Mono f) (hg : Mono (g a)) (ha : Ends f a) (hb : Ends (g a) b) :
    Ends (fun k => f k >>= fun a => g a k) b := by
  obtain ⟨i, hi⟩ := ha
  obtain ⟨j, hj⟩ := hb
  exact ⟨max i j, cbind_eq_ok.mpr
    ⟨a, hf (Nat.le_max_left i j) hi, hg (Nat.le_max_right i j) hj⟩⟩

theorem Ends.cloop_inl {σ β : Type} {body : σ → CRun (σ ⊕ β)} {s t : σ} {r : β}
    (h : body s = .ok (.inl t)) (hr : Ends (fun k => cloop body k t) r) :
    Ends (fun k => cloop body k s) r := by
  obtain ⟨k, hk⟩ := hr
  exact ⟨k + 1, (Artorias.cloop_inl h).trans hk⟩

theorem Ends.cloop_inr {σ β : Type} {body : σ → CRun (σ ⊕ β)} {s : σ} {r : β}
    (h : body s = .ok (.inr r)) : Ends (fun k => cloop body k s) r :=
  ⟨1, Artorias.cloop_inr h⟩

theorem mono_const {α : Type} (x : CRun α) : Mono fun _ => x :=
  fun _ _ _ _ h => h

theorem Mono.bind {α β : Type} {f : Nat → CRun α} {g : α → Nat → CRun β}
    (hf : Mono f) (hg : ∀ a, Mono (g a)) : Mono fun k => f k >>= fun a => g a k := by
  intro k k' r hk h
  obtain ⟨a, ha, hb⟩ := cbind_eq_ok.mp h
  exact cbind_eq_ok.mpr ⟨a, hf hk ha, hg a hk hb⟩

theorem Mono.ite {α : Type} {c : Prop} [Decidable c] {f g : Nat → CRun α}
    (hf : Mono f) (hg : Mono g) : Mono fun k => if c then f k else g k := by
  intro k k' r hk h
  by_cases hc : c
  · simp only [hc, if_true] at h ⊢
    exact hf hk h
  · simp only [hc, if_false] at h ⊢
    exact hg hk h

theorem mono_cloop {σ β : Type} (body : σ → CRun (σ ⊕ β)) (s : σ) :
    Mono fun k => cloop body k s := by
  intro k
  induction k generalizing s with
  | zero => intro k' r _ h; cases h
  | succ k ih =>
      intro k' r hk h
      obtain ⟨k', rfl⟩ : ∃ j, k' = j + 1 := ⟨k' - 1, by omega⟩
      simp only [cloop] at h ⊢
      split at h
      · exact ih _ (Nat.le_of_succ_le_succ hk) h
      · exact h
      · cases h

/-! ## Runs of a loop -/

/-- With enough fuel for the body the loop goes from `s` to `s'`, in the same
number of turns. -/
def Goes {σ β : Type} (body : Nat → σ → CRun (σ ⊕ β)) (s s' : σ) : Prop :=
  ∃ n K, ∀ k ≥ K, ∀ j, cloop (body k) (n + j) s = cloop (body k) j s'

namespace Goes

variable {σ β : Type} {body : Nat → σ → CRun (σ ⊕ β)} {s s' s'' : σ}

theorem refl (s : σ) : Goes body s s := ⟨0, 0, fun _ _ j => by rw [Nat.zero_add]⟩

theorem trans (h : Goes body s s') (h' : Goes body s' s'') : Goes body s s'' := by
  obtain ⟨n, K, hn⟩ := h
  obtain ⟨n', K', hn'⟩ := h'
  refine ⟨n + n', max K K', ?_⟩
  intro k hk j
  rw [Nat.add_assoc, hn k (by omega), hn' k (by omega)]

theorem step {K : Nat} (h : ∀ k ≥ K, body k s = .ok (.inl s')) : Goes body s s' := by
  refine ⟨1, K, ?_⟩
  intro k hk j
  rw [Nat.add_comm, cloop_inl (h k hk)]

/-- A loop that gets to a state in which its body leaves ends, with the same fuel for the
turns and for the body. -/
theorem ends (h : Goes body s s') {b : β} (hb : ∀ k, body k s' = .ok (.inr b)) :
    ∃ K, ∀ k ≥ K, cloop (body k) k s = .ok b := by
  obtain ⟨n, K, hn⟩ := h
  refine ⟨max K (n + 1), ?_⟩
  intro k hk
  obtain ⟨j, rfl⟩ : ∃ j, k = n + (j + 1) := ⟨k - n - 1, by omega⟩
  rw [hn _ (by omega), cloop_inr (hb _)]

/-- If the loop from `s` ends and goes through `s'` on its way, then it ends from `s'` with
the same result. -/
theorem ends_of {body : σ → CRun (σ ⊕ β)} (h : Goes (fun _ => body) s s') {b : β}
    (hb : Ends (fun k => cloop body k s) b) : Ends (fun k => cloop body k s') b := by
  obtain ⟨n, K, hn⟩ := h
  obtain ⟨j, hj⟩ := hb
  exact ⟨j, (hn K (Nat.le_refl K) j).symm.trans (mono_cloop body s (Nat.le_add_left j n) hj)⟩

end Goes

end Artorias
