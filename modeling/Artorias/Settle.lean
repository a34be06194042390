import Artorias.CRun

/-!
# Programs with fuel, and what they ensure

A program over a fuel argument settles if from some amount on more fuel does
not change what comes out, be it a value or a fault. `Meets x Q E` is about
what has come out: `Q` holds of the value or `E` of the fault. `Ensures f Q E`
is total correctness with faults: `f` settles on what meets `Q` and `E`. There
is a rule for each way to compose programs.
-/

namespace Artorias

variable {ε α β ι : Type}

/-! ## Outcomes -/

def Meets : Except ε α → (α → Prop) → (ε → Prop) → Prop
  | .ok a, Q, _ => Q a
  | .error e, _, E => E e

namespace Meets

variable {x : Except ε α} {Q R : α → Prop} {E F : ε → Prop}

theorem imp (h : Meets x Q E) (hQ : ∀ a, Q a → R a) : Meets x R E := by
  cases x with
  | ok a => exact hQ a h
  | error e => exact h

theorem imp_error (h : Meets x Q E) (hE : ∀ e, E e → F e) : Meets x Q F := by
  cases x with
  | ok a => exact h
  | error e => exact hE e h

theorem of_ok (h : Meets x Q E) {a : α} (ha : x = .ok a) : Q a := by
  subst ha
  exact h

theorem and (h : Meets x Q E) (h' : Meets x R F) : Meets x (fun a => Q a ∧ R a) E := by
  cases x with
  | ok a => exact ⟨h, h'⟩
  | error e => exact h

theorem bind {f : α → Except ε β} {R : β → Prop} (h : Meets x Q E)
    (hf : ∀ a, Q a → Meets (f a) R E) : Meets (x >>= f) R E := by
  cases x with
  | ok a => exact hf a h
  | error e => exact h

/-- The invariant rule for a loop over a list; `I` is about what is left of the list and the
state. -/
theorem foldlM {step : β → ι → Except ε β} {I : List ι → β → Prop}
    (hstep : ∀ x xs b, I (x :: xs) b → Meets (step b x) (I xs) E) {l : List ι} {b : β}
    (h : I l b) : Meets (l.foldlM step b) (I []) E := by
  induction l generalizing b with
  | nil => exact h
  | cons x xs ih =>
      rw [List.foldlM_cons]
      exact (hstep x xs b h).bind fun b' hb' => ih hb'

end Meets

/-! ## Settling -/

def Settles (f : Nat → Except ε α) (r : Except ε α) : Prop := ∃ k, ∀ k' ≥ k, f k' = r

theorem Settles.unique {f : Nat → Except ε α} {r r' : Except ε α} (h : Settles f r)
    (h' : Settles f r') : r = r' := by
  obtain ⟨i, hi⟩ := h
  obtain ⟨j, hj⟩ := h'
  exact (hi _ (Nat.le_max_left i j)).symm.trans (hj _ (Nat.le_max_right i j))

theorem Settles.const (x : Except ε α) : Settles (fun _ => x) x := ⟨0, fun _ _ => rfl⟩

/-- A function that spends one unit of fuel before the rest settles as the rest does. -/
theorem Settles.succ {f g : Nat → Except ε α} {r : Except ε α} (h : Settles f r)
    (hg : ∀ k, g (k + 1) = f k) : Settles g r := by
  obtain ⟨i, hi⟩ := h
  refine ⟨i + 1, ?_⟩
  intro k hk
  obtain ⟨k, rfl⟩ : ∃ j, k = j + 1 := ⟨k - 1, by omega⟩
  rw [hg]
  exact hi k (by omega)

theorem Settles.bind {f : Nat → Except ε α} {g : α → Nat → Except ε β} {a : α} {r : Except ε β}
    (hf : Settles f (.ok a)) (hg : Settles (g a) r) :
      Settles (fun k => f k >>= fun a => g a k) r := by
  obtain ⟨i, hi⟩ := hf
  obtain ⟨j, hj⟩ := hg
  refine ⟨max i j, ?_⟩
  intro k hk
  dsimp only
  rw [hi k (by omega)]
  exact hj k (by omega)

theorem Settles.bind_error {f : Nat → Except ε α} {g : α → Nat → Except ε β} {e : ε}
    (hf : Settles f (.error e)) : Settles (fun k => f k >>= fun a => g a k) (.error e) := by
  obtain ⟨i, hi⟩ := hf
  refine ⟨i, ?_⟩
  intro k hk
  dsimp only
  rw [hi k hk]
  rfl

/-- A piece of C that ends with some fuel settles, since more fuel never changes
its result. -/
theorem Ends.settles {f : Nat → CRun α} (hf : Mono f) {r : α} (h : Ends f r) :
    Settles f (.ok r) := by
  obtain ⟨k, hk⟩ := h
  exact ⟨k, fun k' hk' => hf hk' hk⟩

/-! ## Total correctness -/

def Ensures (f : Nat → Except ε α) (Q : α → Prop) (E : ε → Prop) : Prop :=
  ∃ r, Settles f r ∧ Meets r Q E

namespace Ensures

variable {f : Nat → Except ε α} {Q R : α → Prop} {E F : ε → Prop}

theorem of_settles (h : Ensures f Q E) {a : α} (ha : Settles f (.ok a)) : Q a := by
  obtain ⟨r, hr, hm⟩ := h
  cases ha.unique hr
  exact hm

theorem meets {x : Except ε α} (h : Meets x Q E) : Ensures (fun _ => x) Q E := ⟨x, .const x, h⟩

theorem pure {a : α} (h : Q a) : Ensures (fun _ => .ok a) Q E := ⟨.ok a, .const _, h⟩

theorem throw {e : ε} (h : E e) : Ensures (fun _ => .error e) Q E := ⟨.error e, .const _, h⟩

theorem imp (h : Ensures f Q E) (hQ : ∀ a, Q a → R a) : Ensures f R E := by
  obtain ⟨r, hr, hm⟩ := h
  exact ⟨r, hr, hm.imp hQ⟩

theorem self (h : Ensures f Q E) : Ensures f (fun a => Q a ∧ Settles f (.ok a)) E := by
  obtain ⟨r, hr, hm⟩ := h
  refine ⟨r, hr, ?_⟩
  cases r with
  | ok a => exact ⟨hm, hr⟩
  | error e => exact hm

theorem bind {g : α → Nat → Except ε β} {R : β → Prop} (hf : Ensures f Q E)
    (hg : ∀ a, Q a → Ensures (g a) R E) : Ensures (fun k => f k >>= fun a => g a k) R E := by
  obtain ⟨r, hr, hm⟩ := hf
  cases r with
  | ok a =>
      obtain ⟨r', hr', hm'⟩ := hg a hm
      exact ⟨r', hr.bind hr', hm'⟩
  | error e => exact ⟨.error e, hr.bind_error, hm⟩

theorem ite {c : Prop} [Decidable c] {g : Nat → Except ε α} (hf : c → Ensures f Q E)
    (hg : ¬c → Ensures g Q E) : Ensures (fun k => if c then f k else g k) Q E := by
  by_cases hc : c
  · simp only [if_pos hc]
    exact hf hc
  · simp only [if_neg hc]
    exact hg hc

/-- The invariant rule for a loop over a list whose body takes fuel; `I` is about what is
left of the list and the state. -/
theorem foldlM {step : Nat → β → ι → Except ε β} {I : List ι → β → Prop}
    (hstep : ∀ x xs b, I (x :: xs) b → Ensures (fun k => step k b x) (I xs) E) {l : List ι} {b : β}
    (h : I l b) : Ensures (fun k => l.foldlM (step k) b) (I []) E := by
  induction l generalizing b with
  | nil => exact .pure h
  | cons x xs ih =>
      simp only [List.foldlM_cons]
      exact (hstep x xs b h).bind fun b' hb' => ih hb'

end Ensures

end Artorias
