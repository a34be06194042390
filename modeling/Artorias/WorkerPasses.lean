import Artorias.ThreadTimeout
import Artorias.TravelVisits
import Artorias.WorkerFlow

/-!
# The passes over the pools

A timeout pass takes threads out of a pool and resumes them one by one while
the traversal cuts their tree; in between they are out of both pools.
`travelThreads_visits` is the rule for such a traversal, whatever the visitor
keeps of the threads still to be visited. If the root of the pool is due, or
nothing on its left spine, a pass keeps what the handlers keep.
-/

namespace Artorias

/-! ## Traversals -/

/-- The nodes of the trees, as the traversal has left them. -/
def MwWorker.setNodes (w : MwWorker) (nodes : Addr → RbNode Addr) : MwWorker :=
  { w with tm := { w.tm with nodes := nodes } }

section

variable {E : WFault → Prop} {I : List Addr → MwWorker → Prop}
  {visit : Nat → MwWorker → Addr → WRun MwWorker}

/-- The rule for a traversal of threads: its visitor keeps `I`, which is about the threads
still to be visited and lets the traversal write their nodes. -/
theorem travelThreads_visits
    (hwrite : ∀ rest w nodes, I rest w → (∀ y, y ∉ rest → nodes y = w.tm.nodes y) →
      I rest (w.setNodes nodes))
    (hvisit : ∀ th rest w, I (th :: rest) w → Ensures (fun k => visit k w th)
      (fun w' => I rest w' ∧ ∀ y ∈ rest, w'.tm.nodes y = w.tm.nodes y) E)
    {w : MwWorker} {t : Tree Addr} (ht : TreeAt w.tm.nodes none t) (hn : t.toList.Nodup)
    (hI : I t.postorder w) :
    Ensures (fun k => travelThreads visit k w t.root) (I []) E := by
  have hfunc : VisitsWith (visitor visit)
      fun rest s => Meets s.2 (fun w => I rest (w.setNodes s.1.nodes)) E := by
    constructor
    · rintro th rest ⟨m, x⟩ hx
      cases x with
      | error e => exact ⟨(m, .error e), 0, fun _ _ => rfl, hx, fun _ _ => rfl⟩
      | ok w =>
          obtain ⟨r, ⟨K, hrun⟩, hr⟩ := hvisit th rest _ hx
          cases r with
          | error e =>
              refine ⟨(m, .error e), K, ?_, hr, fun _ _ => rfl⟩
              intro k hk
              have hk := hrun k hk
              simp only [MwWorker.setNodes] at hk
              simp only [visitor, hk]
          | ok w' =>
              refine ⟨(⟨m.root, w'.tm.nodes⟩, .ok w'), K, ?_, hr.1, hr.2⟩
              intro k hk
              have hk := hrun k hk
              simp only [MwWorker.setNodes] at hk
              simp only [visitor, hk]
    · intro rest m m' x hx hm
      cases x with
      | error e => exact hx
      | ok w => exact hwrite rest (w.setNodes m.nodes) m'.nodes hx hm
  have hstart : Meets (.ok w) (fun w' => I t.postorder (w'.setNodes w.tm.nodes)) E := hI
  obtain ⟨⟨m, x⟩, us, K, hrun, -, hI'⟩ :=
    tracedTravel_goes hfunc (m := ⟨t.root, w.tm.nodes⟩) (w := .ok w) ht hn hstart
  have htravel : ∀ k ≥ K, travelThreads visit k w t.root = x.map fun w => w.setNodes m.nodes := by
    intro k hk
    have hk := congrArg (Except.map Prod.fst) (hrun k hk)
    rw [tracedTravel_fst] at hk
    simp only [travelThreads, hk]
    cases x <;> rfl
  refine ⟨_, ⟨K, htravel⟩, ?_⟩
  cases x with
  | error e => exact hI'
  | ok w' => exact hI'

end

/-! ## Threads that are taken out -/

namespace Sched

variable {w : MwWorker} {members : Addr → List Addr} {out : List Addr}

theorem setNodes (h : Sched w members out) {nodes : Addr → RbNode Addr}
    (hk : ∀ y, y ∉ out → nodes y = w.tm.nodes y) : Sched (w.setNodes nodes) members out := by
  refine { h with trees := h.trees.congr (fun p y hy => hk y fun ho => ?_) rfl fun _ _ _ => rfl }
  exact (h.outside y ho).2.2 p hy

/-- A subtree `t` of pool `p` is cut out: its threads are out now, and the others stay in
their pools. -/
theorem take (h : Sched w members []) {p : Addr} {m : RbMem Addr} {t : Tree Addr}
    {rest : List Addr} (hrest : PoolHolds (w.tm.setPool p m) p rest)
    (hsplit : members p = t.toList ++ rest) (hk : ∀ y, y ∉ members p → m.nodes y = w.tm.nodes y) :
    Sched { w with tm := w.tm.setPool p m } (Function.update members p rest) t.postorder := by
  have hmem : ∀ y q, y ∉ t.toList → (y ∈ Function.update members p rest q ↔ y ∈ members q) := by
    intro y q hy
    by_cases hq : q = p
    · subst hq
      rw [Function.update_self, hsplit, List.mem_append]
      exact (or_iff_right hy).symm
    · rw [Function.update_of_ne hq]
  have hsub : ∀ y q, y ∈ Function.update members p rest q → y ∈ members q := by
    intro y q hy
    by_cases hq : q = p
    · subst hq
      rw [Function.update_self] at hy
      rw [hsplit]
      exact List.mem_append_right _ hy
    · rwa [Function.update_of_ne hq] at hy
  have hpost : ∀ y, y ∈ t.postorder ↔ y ∈ t.toList := fun y => t.postorder_perm.mem_iff
  obtain ⟨hnt, -, hdisj⟩ := List.nodup_append.mp (hsplit ▸ (h.trees.holds p).1.nodup)
  refine ⟨⟨?_, ?_⟩, ?_, ?_, ?_, ?_, t.postorder_perm.nodup_iff.mpr hnt, h.stopped, h.stop_nodup⟩
  · intro q
    by_cases hq : q = p
    · subst hq
      rw [Function.update_self]
      exact hrest
    · rw [Function.update_of_ne hq]
      refine ⟨h.trees.other hq hk fun y hyp hyq => hq (h.trees.disjoint q p y hyq hyp), ?_⟩
      exact EtSorted.congr (s := w.tm) (h.trees.holds q).2 fun _ _ => rfl
  · intro q q' y hy hy'
    exact h.trees.disjoint q q' y (hsub y q hy) (hsub y q' hy')
  · intro q y hy
    exact h.member q y (hsub y q hy)
  · intro y hy hn q
    rw [hpost] at hy
    rw [hmem y q hy]
    exact h.pool_iff y List.not_mem_nil hn q
  · intro y hy hn hs
    rw [hpost] at hy
    obtain ⟨q, hq⟩ := h.waiting y List.not_mem_nil hn hs
    exact ⟨q, (hmem y q hy).mpr hq⟩
  · intro y hy
    rw [hpost] at hy
    have hyp : y ∈ members p := by
      rw [hsplit]
      exact List.mem_append_left _ hy
    obtain ⟨-, hn, hs⟩ := h.member p y hyp
    refine ⟨hn, hs, ?_⟩
    intro q hq
    obtain rfl := h.trees.disjoint q p y (hsub y q hq) hyp
    rw [Function.update_self] at hq
    exact hdisj y hy y hq rfl

end Sched

/-! ## The passes -/

/-- No thread that is due has a parent that is not: the root of the pool is due, or nothing
down its left spine is. This is where the traversal keeps to what has been taken out. -/
def DueOk (w : MwWorker) (p : Addr) (now : Int) : Prop := ∀ f x, ¬CutAt w.tm p now f x

theorem DueOk.of_left {w : MwWorker} {p : Addr}
    (h : ∀ r, w.tm.pools p = some r → (w.tm.nodes r).left = none) (now : Int) : DueOk w p now := by
  rintro f x ⟨hlive, hleft, -⟩
  cases hroot : w.tm.pools p with
  | none =>
      rw [hroot] at hlive
      exact liveSpine_none hlive
  | some r =>
      rw [hroot, liveSpine_some, h r hroot] at hlive
      rcases hlive with ⟨-, rfl | hlive⟩
      · rw [h f hroot] at hleft
        cases hleft
      · exact liveSpine_none hlive

section

variable {lua : Lua} {J : MwWorker → Prop} {E : WFault → Prop} {w : MwWorker}
  {members : Addr → List Addr} {out : List Addr} {th : Addr}

theorem pIoTimeoutThread_flow (hJ : Upholds lua J E) (h : Sched w members out) (hth : th ∈ out)
    (hw : J w) : Ensures (fun k => pIoTimeoutThread lua k w th) (Gone J w out th) E := by
  obtain ⟨hnum, hst, -⟩ := h.outside th hth
  simp only [pIoTimeoutThread, MwWorker.thread_eq hnum, wbind_ok, if_neg hst]
  refine (Ensures.meets (thRemoveResFromEpfd_flow hJ hnum hw)).bind fun w1 h1 => ?_
  exact (threadResume_flow hJ (h.congr h1.same) hth h1.keeps _).imp fun w2 h2 => h2.before h1.same

theorem pSleepThread_flow (hJ : Upholds lua J E) (h : Sched w members out) (hth : th ∈ out)
    (hw : J w) : Ensures (fun k => pSleepThread lua k w th) (Gone J w out th) E := by
  obtain ⟨hnum, hst, -⟩ := h.outside th hth
  simp only [pSleepThread, MwWorker.thread_eq hnum, wbind_ok, if_neg hst]
  exact threadResume_flow hJ h hth hw _

/-- A pass over a pool, for a visitor that lets a thread that is out go: every thread that
has been taken out is visited once and goes somewhere. -/
theorem pass_flow (hJ : Upholds lua J E) {visit : Nat → MwWorker → Addr → WRun MwWorker}
    (hvisit : ∀ {w members out th}, Sched w members out → th ∈ out → J w →
      Ensures (fun k => visit k w th) (Gone J w out th) E)
    (h : Settled J w) {p : Addr} {now : Int} (hdue : DueOk w p now) :
    Ensures (fun k => do
      let (tm, root) ← ofTree (asthreadRemoveTimeoutThreads k w.tm p now)
      travelThreads visit k { w with tm := tm } root) (Settled J) E := by
  obtain ⟨⟨members, hsched⟩, hw⟩ := h
  -- The traversal, once the threads of `t` are out.
  have htravel : ∀ {tm : ThreadMem} {t : Tree Addr},
      (∃ members, Sched { w with tm := tm } members t.postorder) → J { w with tm := tm } →
      TreeAt tm.nodes none t → t.toList.Nodup →
      Ensures (fun k => travelThreads visit k { w with tm := tm } t.root) (Settled J) E := by
    intro tm t hs hw1 ht hn
    refine travelThreads_visits (I := fun rest w => (∃ members, Sched w members rest) ∧ J w)
      (fun rest w1 nodes h1 hk => ?_) (fun x rest w1 h1 => ?_) ht hn ⟨hs, hw1⟩
    · obtain ⟨⟨members1, hsched1⟩, hw1⟩ := h1
      exact ⟨⟨members1, hsched1.setNodes hk⟩, hJ.core (.setTrees w1 fun _ => ⟨rfl, rfl, rfl⟩) hw1⟩
    · obtain ⟨⟨members1, hsched1⟩, hw1⟩ := h1
      refine (hvisit hsched1 (.head _) hw1).imp fun w2 h2 => ?_
      obtain ⟨members2, hsched2⟩ := h2.sched
      rw [List.erase_cons_head] at hsched2
      refine ⟨⟨⟨members2, hsched2⟩, h2.keeps⟩, fun y hy => h2.nodes y (.tail _ hy) ?_⟩
      rintro rfl
      exact (List.nodup_cons.mp hsched1.out_nodup).1 hy
  have hsplit : ∀ {s : ThreadMem} {ret : Option Addr},
      Ends (fun k => asthreadRemoveTimeoutThreads k w.tm p now) (s, ret) →
      Ensures (fun k => ofTree (asthreadRemoveTimeoutThreads k w.tm p now)) (· = (s, ret)) E :=
    fun hrun => ⟨_, ofTree_settles (hrun.settles (mono_asthreadRemoveTimeoutThreads _ _ _)), rfl⟩
  by_cases hroot : RootDue w.tm p now
  · obtain ⟨m, x, t, rest, hrun, hx, ht, hrest, hxs, -, hk⟩ :=
      asthreadRemoveTimeoutThreads_root (hsched.trees.holds p) hroot
    refine (hsplit hrun).bind fun _ he => ?_
    subst he
    have hn : t.toList.Nodup :=
      (List.nodup_append.mp (hxs ▸ (hsched.trees.holds p).1.nodup)).1
    rw [← hx]
    exact htravel ⟨_, hsched.take hrest hxs hk⟩
      (hJ.core (.setTrees w fun _ => ⟨rfl, rfl, rfl⟩) hw) ht hn
  · cases timeoutCut (hsched.trees.holds p) now with
    | nothing hrun =>
        refine (hsplit hrun).bind fun _ he => ?_
        subst he
        exact htravel (t := .nil) ⟨members, hsched⟩ hw trivial .nil
    | root _ _ _ _ _ hdue' => exact absurd hdue' hroot
    | sibling _ f x _ _ _ _ hcut => exact absurd hcut (hdue f x)
    | alone f x hcut => exact absurd hcut (hdue f x)

theorem processIoTimeout_flow (hJ : Upholds lua J E) (h : Settled J w) {now : Int}
    (hdue : DueOk w ioPool now) :
    Ensures (fun k => processIoTimeout lua k w now) (Settled J) E :=
  pass_flow hJ (pIoTimeoutThread_flow hJ) h hdue

theorem processSleep_flow (hJ : Upholds lua J E) (h : Settled J w) {now : Int}
    (hdue : DueOk w sleepPool now) :
    Ensures (fun k => processSleep lua k w now) (Settled J) E :=
  pass_flow hJ (pSleepThread_flow hJ) h hdue

end

end Artorias
