import Mathlib.Data.List.Nodup

/-!
# Linearizable histories

Callers of an object that share it leave a history of calls and returns. The
history is linearizable if the calls can be put in one order in which a single
caller would have got the same results, and which keeps a call that returned
before another one began in front of it.

`Linearizes` is kept by a call, by a return, and by the effect of a call, which
is one moment between the two; so an object each of whose operations has such a
moment is linearizable.
-/

namespace Artorias

/-- A call of the object, or a return; calls have an identity. -/
inductive HistEvent (ι α ρ : Type) where
  | call (n : ι) (a : α)
  | ret (n : ι) (r : ρ)
deriving Repr, DecidableEq

/-- A call that has taken effect, and its result. -/
structure Effect (ι α ρ : Type) where
  id : ι
  arg : α
  result : ρ
deriving Repr, DecidableEq

variable {σ ι α ρ : Type}

/-- The state of the object after calls in this order, one after the other. -/
def stateAfter (step : σ → α → σ × ρ) (s : σ) (lin : List (Effect ι α ρ)) : σ :=
  lin.foldl (fun s e => (step s e.arg).1) s

/-- One caller, making the calls in this order, gets these results. -/
def Legal (step : σ → α → σ × ρ) : σ → List (Effect ι α ρ) → Prop
  | _, [] => True
  | s, e :: es => (step s e.arg).2 = e.result ∧ Legal step (step s e.arg).1 es

/-- `m` has returned before the call `n`. -/
def Precedes (hist : List (HistEvent ι α ρ)) (m n : ι) : Prop :=
  ∃ before r between a after, hist = before ++ .ret m r :: between ++ .call n a :: after

structure Linearizes (step : σ → α → σ × ρ) (s : σ) (hist : List (HistEvent ι α ρ))
    (lin : List (Effect ι α ρ)) : Prop where
  unique : ∀ n a a', .call n a ∈ hist → .call n a' ∈ hist → a = a'
  nodup : (lin.map Effect.id).Nodup
  legal : Legal step s lin
  called : ∀ e ∈ lin, .call e.id e.arg ∈ hist
  returned : ∀ n r, .ret n r ∈ hist → ∃ e ∈ lin, e.id = n ∧ e.result = r
  order : lin.Pairwise fun e e' => ¬Precedes hist e'.id e.id

def Linearizable (step : σ → α → σ × ρ) (s : σ) (hist : List (HistEvent ι α ρ)) : Prop :=
  ∃ lin, Linearizes step s hist lin

/-! ## Its parts -/

theorem stateAfter_append (step : σ → α → σ × ρ) (s : σ) (lin lin' : List (Effect ι α ρ)) :
    stateAfter step s (lin ++ lin') = stateAfter step (stateAfter step s lin) lin' :=
  List.foldl_append

theorem Legal.snoc {step : σ → α → σ × ρ} {s : σ} {lin : List (Effect ι α ρ)} {e : Effect ι α ρ}
    (h : Legal step s lin) (he : (step (stateAfter step s lin) e.arg).2 = e.result) :
    Legal step s (lin ++ [e]) := by
  induction lin generalizing s with
  | nil => exact ⟨he, trivial⟩
  | cons e' lin ih => exact ⟨h.1, ih h.2 he⟩

/-- In a legal order each result is what the object answers in some state. -/
theorem Legal.mem {step : σ → α → σ × ρ} {s : σ} {lin : List (Effect ι α ρ)} {e : Effect ι α ρ}
    (h : Legal step s lin) (he : e ∈ lin) : ∃ s', (step s' e.arg).2 = e.result := by
  induction lin generalizing s with
  | nil => cases he
  | cons e' lin ih =>
      rcases List.mem_cons.mp he with rfl | he
      · exact ⟨s, h.1⟩
      · exact ih h.2 he

theorem Precedes.returned {hist : List (HistEvent ι α ρ)} {m n : ι} (h : Precedes hist m n) :
    ∃ r, .ret m r ∈ hist := by
  obtain ⟨before, r, between, a, after, rfl⟩ := h
  exact ⟨r, by simp⟩

/-- An event that is added at the end can only be the later one of two calls, and then it is
the call itself: what returned before it already had. -/
theorem Precedes.of_snoc {hist : List (HistEvent ι α ρ)} {e : HistEvent ι α ρ} {m n : ι}
    (h : Precedes (hist ++ [e]) m n) : Precedes hist m n ∨ ∃ a, e = .call n a := by
  obtain ⟨before, r, between, a, after, hhist⟩ := h
  rcases List.eq_nil_or_concat after with rfl | ⟨after, last, rfl⟩
  · obtain ⟨-, he⟩ := List.append_inj' hhist rfl
    exact .inr ⟨a, List.singleton_inj.mp he⟩
  · rw [List.concat_eq_append, ← List.cons_append, ← List.append_assoc] at hhist
    obtain ⟨rfl, -⟩ := List.append_inj' hhist rfl
    exact .inl ⟨before, r, between, a, after, rfl⟩

/-! ## What keeps it -/

namespace Linearizes

variable {step : σ → α → σ × ρ} {s : σ} {hist : List (HistEvent ι α ρ)}
  {lin : List (Effect ι α ρ)}

theorem nil (step : σ → α → σ × ρ) (s : σ) :
    Linearizes step s ([] : List (HistEvent ι α ρ)) [] where
  unique := fun _ _ _ h => absurd h List.not_mem_nil
  nodup := List.nodup_nil
  legal := trivial
  called := fun _ h => absurd h List.not_mem_nil
  returned := fun _ _ h => absurd h List.not_mem_nil
  order := .nil

theorem call (h : Linearizes step s hist lin) {n : ι} (hn : ∀ a, .call n a ∉ hist) (a : α) :
    Linearizes step s (hist ++ [.call n a]) lin where
  unique := fun m b b' hb hb' => by
    rcases List.mem_append.mp hb with hb | hb <;> rcases List.mem_append.mp hb' with hb' | hb'
    · exact h.unique m b b' hb hb'
    · cases List.mem_singleton.mp hb'
      exact absurd hb (hn b)
    · cases List.mem_singleton.mp hb
      exact absurd hb' (hn b')
    · cases List.mem_singleton.mp hb
      cases List.mem_singleton.mp hb'
      rfl
  nodup := h.nodup
  legal := h.legal
  called := fun e he => List.mem_append_left _ (h.called e he)
  returned := fun m r hm => by
    rcases List.mem_append.mp hm with hm | hm
    · exact h.returned m r hm
    · cases List.mem_singleton.mp hm
  order := by
    refine h.order.imp_of_mem fun {e e'} he _ hnot hp => ?_
    rcases hp.of_snoc with hp | ⟨a', ha⟩
    · exact hnot hp
    · cases ha
      exact hn _ (h.called e he)

theorem effect (h : Linearizes step s hist lin) {n : ι} {a : α} (hcall : .call n a ∈ hist)
    (hn : ∀ e ∈ lin, e.id ≠ n) {r : ρ} (hr : (step (stateAfter step s lin) a).2 = r) :
    Linearizes step s hist (lin ++ [⟨n, a, r⟩]) where
  unique := h.unique
  nodup := by
    rw [List.map_append, List.nodup_append]
    refine ⟨h.nodup, List.pairwise_singleton .., fun m hm m' hm' => ?_⟩
    obtain ⟨e, he, rfl⟩ := List.mem_map.mp hm
    rw [List.mem_singleton.mp hm']
    exact hn e he
  legal := h.legal.snoc hr
  called := fun e he => by
    rcases List.mem_append.mp he with he | he
    · exact h.called e he
    · rw [List.mem_singleton.mp he]
      exact hcall
  returned := fun m r' hm => by
    obtain ⟨e, he, heq⟩ := h.returned m r' hm
    exact ⟨e, List.mem_append_left _ he, heq⟩
  order := by
    rw [List.pairwise_append]
    refine ⟨h.order, List.pairwise_singleton .., fun e _ e' he' hp => ?_⟩
    rw [List.mem_singleton.mp he'] at hp
    -- what has not taken effect has not returned
    obtain ⟨r', hret⟩ := hp.returned
    obtain ⟨e'', he'', hid, -⟩ := h.returned n r' hret
    exact hn e'' he'' hid

theorem ret (h : Linearizes step s hist lin) {e : Effect ι α ρ} (he : e ∈ lin) :
    Linearizes step s (hist ++ [.ret e.id e.result]) lin where
  unique := fun m b b' hb hb' => h.unique m b b' (by simpa using hb) (by simpa using hb')
  nodup := h.nodup
  legal := h.legal
  called := fun e' he' => List.mem_append_left _ (h.called e' he')
  returned := fun m r hm => by
    rcases List.mem_append.mp hm with hm | hm
    · exact h.returned m r hm
    · cases List.mem_singleton.mp hm
      exact ⟨e, he, rfl, rfl⟩
  order := by
    refine h.order.imp fun hnot hp => ?_
    rcases hp.of_snoc with hp | ⟨a, ha⟩
    · exact hnot hp
    · cases ha

end Linearizes

/-! ## Some of the calls, under other names -/

section

variable {κ : Type}

/-- The call that an event is of. -/
def HistEvent.id : HistEvent ι α ρ → ι
  | call n _ => n
  | ret n _ => n

/-- An event of a call that `f` leaves out is left out. -/
def HistEvent.rename (f : ι → Option κ) : HistEvent ι α ρ → Option (HistEvent κ α ρ)
  | call n a => (f n).map fun m => .call m a
  | ret n r => (f n).map fun m => .ret m r

def Effect.rename (f : ι → Option κ) (e : Effect ι α ρ) : Option (Effect κ α ρ) :=
  (f e.id).map fun m => ⟨m, e.arg, e.result⟩

variable {f g : ι → Option κ} {step : σ → α → σ × ρ} {s : σ} {hist : List (HistEvent ι α ρ)}
  {lin : List (Effect ι α ρ)}

theorem HistEvent.rename_congr {e : HistEvent ι α ρ} (h : f e.id = g e.id) :
    e.rename f = e.rename g := by
  cases e <;> exact congrArg (Option.map _) h

theorem HistEvent.rename_eq_call {e : HistEvent ι α ρ} {m : κ} {a : α} :
    e.rename f = some (.call m a) ↔ ∃ n, e = .call n a ∧ f n = some m := by
  cases e with
  | call n b =>
      simp only [rename, Option.map_eq_some_iff, call.injEq]
      constructor
      · rintro ⟨m', hf, rfl, rfl⟩
        exact ⟨n, ⟨rfl, rfl⟩, hf⟩
      · rintro ⟨n', ⟨rfl, rfl⟩, hf⟩
        exact ⟨m, hf, rfl, rfl⟩
  | ret n r => simp [rename]

theorem HistEvent.rename_eq_ret {e : HistEvent ι α ρ} {m : κ} {r : ρ} :
    e.rename f = some (.ret m r) ↔ ∃ n, e = .ret n r ∧ f n = some m := by
  cases e with
  | call n a => simp [rename]
  | ret n b =>
      simp only [rename, Option.map_eq_some_iff, ret.injEq]
      constructor
      · rintro ⟨m', hf, rfl, rfl⟩
        exact ⟨n, ⟨rfl, rfl⟩, hf⟩
      · rintro ⟨n', ⟨rfl, rfl⟩, hf⟩
        exact ⟨m, hf, rfl, rfl⟩

theorem Effect.rename_eq {e : Effect ι α ρ} {e' : Effect κ α ρ} :
    e.rename f = some e' ↔ f e.id = some e'.id ∧ e.arg = e'.arg ∧ e.result = e'.result := by
  rw [rename, Option.map_eq_some_iff]
  constructor
  · rintro ⟨m, hf, rfl⟩
    exact ⟨hf, rfl, rfl⟩
  · obtain ⟨m, a, r⟩ := e'
    rintro ⟨hf, rfl, rfl⟩
    exact ⟨m, hf, rfl⟩

theorem Precedes.of_rename {m n : κ} (h : Precedes (hist.filterMap (HistEvent.rename f)) m n) :
    ∃ m' n', f m' = some m ∧ f n' = some n ∧ Precedes hist m' n' := by
  obtain ⟨before, r, between, a, after, hhist⟩ := h
  obtain ⟨h₁, h₂, rfl, hfront, hback⟩ := List.filterMap_eq_append_iff.mp hhist
  obtain ⟨b, front, rfl, -, hfront⟩ := List.filterMap_eq_append_iff.mp hfront
  obtain ⟨b', e, mid, rfl, -, he, -⟩ := List.filterMap_eq_cons_iff.mp hfront
  obtain ⟨mid', e', rest, rfl, -, he', -⟩ := List.filterMap_eq_cons_iff.mp hback
  obtain ⟨m', rfl, hm⟩ := HistEvent.rename_eq_ret.mp he
  obtain ⟨n', rfl, hn⟩ := HistEvent.rename_eq_call.mp he'
  exact ⟨m', n', hm, hn, b ++ b', r, mid ++ mid', a, rest, by simp⟩

/-- Calls that leave the object as it is can be left out of a legal order: they change no
state that a later result could depend on. -/
theorem Legal.rename (h : Legal step s lin)
    (hquiet : ∀ e ∈ lin, f e.id = none → ∀ s, (step s e.arg).1 = s) :
    Legal step s (lin.filterMap (Effect.rename f)) := by
  induction lin generalizing s with
  | nil => trivial
  | cons e lin ih =>
      have hrest := ih h.2 fun e' he' => hquiet e' (List.mem_cons_of_mem _ he')
      cases hf : f e.id with
      | none =>
          rw [hquiet e List.mem_cons_self hf] at hrest
          rwa [List.filterMap_cons_none (by rw [Effect.rename, hf]; rfl)]
      | some m =>
          rw [List.filterMap_cons_some (b := ⟨m, e.arg, e.result⟩) (by rw [Effect.rename, hf]; rfl)]
          exact ⟨h.1, hrest⟩

/-- A history of which only some calls are looked at, each under a name of its own, is
linearizable if the whole is and the calls left out change nothing: leaving out keeps both
the order and the results. -/
theorem Linearizes.rename (h : Linearizes step s hist lin)
    (hinj : ∀ n n' m, f n = some m → f n' = some m → n = n')
    (hquiet : ∀ e ∈ lin, f e.id = none → ∀ s, (step s e.arg).1 = s) :
    Linearizes step s (hist.filterMap (HistEvent.rename f)) (lin.filterMap (Effect.rename f)) where
  unique := fun m a a' ha ha' => by
    obtain ⟨e, he, hm⟩ := List.mem_filterMap.mp ha
    obtain ⟨e', he', hm'⟩ := List.mem_filterMap.mp ha'
    obtain ⟨n, rfl, hn⟩ := HistEvent.rename_eq_call.mp hm
    obtain ⟨n', rfl, hn'⟩ := HistEvent.rename_eq_call.mp hm'
    obtain rfl := hinj n n' m hn hn'
    exact h.unique n a a' he he'
  nodup := by
    have hids :
        (lin.filterMap (Effect.rename f)).map Effect.id = (lin.map Effect.id).filterMap f := by
      rw [List.map_filterMap, List.filterMap_map]
      congr 1
      funext e
      cases hf : f e.id <;> simp [Effect.rename, hf]
    rw [hids]
    exact List.Nodup.filterMap (fun n n' m hn hn' => hinj n n' m hn hn') h.nodup
  legal := h.legal.rename hquiet
  called := fun e he => by
    obtain ⟨e', he', hm⟩ := List.mem_filterMap.mp he
    obtain ⟨hid, harg, -⟩ := Effect.rename_eq.mp hm
    refine List.mem_filterMap.mpr ⟨_, h.called e' he', ?_⟩
    exact HistEvent.rename_eq_call.mpr ⟨e'.id, by rw [harg], hid⟩
  returned := fun m r hm => by
    obtain ⟨e, he, hr⟩ := List.mem_filterMap.mp hm
    obtain ⟨n, rfl, hn⟩ := HistEvent.rename_eq_ret.mp hr
    obtain ⟨e, hmem, rfl, rfl⟩ := h.returned n r he
    exact ⟨⟨m, e.arg, e.result⟩,
      List.mem_filterMap.mpr ⟨e, hmem, Effect.rename_eq.mpr ⟨hn, rfl, rfl⟩⟩,
      rfl, rfl⟩
  order := by
    rw [List.pairwise_filterMap]
    refine h.order.imp fun {e₁ e₂} hnot e₁' he₁ e₂' he₂ hp => hnot ?_
    obtain ⟨m, n, hm, hn, hp⟩ := hp.of_rename
    rwa [hinj _ _ _ (Effect.rename_eq.mp he₁).1 hn, hinj _ _ _ (Effect.rename_eq.mp he₂).1 hm]

end

end Artorias
