import Artorias.RbRemove
import Artorias.Thread

/-!
# Thread pools as sorted lists

The abstract pool is the list of its threads by deadline. `PoolHolds s p xs`
says that pool `p` is a valid red-black tree that reads `xs` in order;
`PoolsAt` says it of all pools at once, with the `pool` field of every thread
telling which one it is in. It holds in every state that adding and deleting
lead to (`poolReachable_inv`).
-/

namespace Artorias

/-! ## The invariant -/

/-- The threads are listed by their deadlines, the earliest first. -/
def EtSorted (s : ThreadMem) (xs : List Addr) : Prop := xs.Pairwise fun a b => s.et a ≤ s.et b

def PoolHolds (s : ThreadMem) (p : Addr) (xs : List Addr) : Prop :=
  RbHolds (s.pool p) xs ∧ EtSorted s xs

structure PoolsAt (s : ThreadMem) (members : Addr → List Addr) : Prop where
  holds : ∀ p, PoolHolds s p (members p)
  pool_iff : ∀ p th, (s.threads th).pool = some p ↔ th ∈ members p

theorem EtSorted.congr {s s' : ThreadMem} {xs : List Addr} (h : EtSorted s xs)
    (het : ∀ x ∈ xs, s'.et x = s.et x) : EtSorted s' xs := by
  refine List.Pairwise.imp_of_mem (fun {a b} ha hb hab => ?_) h
  rw [het a ha, het b hb]
  exact hab

/-- The trees of `PoolsAt`, whatever the threads say of them. -/
structure TreesAt (s : ThreadMem) (members : Addr → List Addr) : Prop where
  holds : ∀ p, PoolHolds s p (members p)
  disjoint : ∀ p q th, th ∈ members p → th ∈ members q → p = q

theorem PoolsAt.trees {s : ThreadMem} {members : Addr → List Addr} (h : PoolsAt s members) :
    TreesAt s members :=
  ⟨h.holds, fun p q th hp hq =>
    Option.some.inj (((h.pool_iff p th).mpr hp).symm.trans ((h.pool_iff q th).mpr hq))⟩

/-- The pools other than `p` do not see what an operation on `p` writes, since the trees
have no node in common. -/
theorem TreesAt.other {s : ThreadMem} {members : Addr → List Addr} (h : TreesAt s members)
    {p q : Addr} (hqp : q ≠ p) {m : RbMem Addr} {L : List Addr} (hk : Keeps L (s.pool p) m)
    (hL : ∀ y ∈ L, y ∉ members q) : RbHolds ((s.setPool p m).pool q) (members q) := by
  refine (h.holds q).1.congr ?_ ?_
  · rw [ThreadMem.setPool_pool_of_ne _ _ hqp]
    rfl
  · intro y hy
    rw [ThreadMem.setPool_pool_of_ne _ _ hqp]
    exact hk y fun hyL => hL y hyL hy

/-! ## Adding and deleting -/

theorem mono_rbTreeInsert {ι : Type} [DecidableEq ι] (lt : ι → ι → Bool) (m : RbMem ι) (n : ι) :
    Mono fun k => rbTreeInsert lt k m n :=
  (mono_insertFrom _ _ _ _).bind fun _ => mono_const _

theorem mono_asthreadThAddToPool (s : ThreadMem) (th : Addr) (pool : Option Addr) :
    Mono fun k => asthreadThAddToPool k s th pool := by
  simp only [asthreadThAddToPool]
  cases pool with
  | none => exact mono_const _
  | some p =>
      exact (mono_const _).ite ((mono_rbTreeInsert _ _ _).bind fun _ =>
        (mono_rbTreeInsertCase _ _).bind fun _ => mono_const _)

/-- The place that `rb_tree_insert` chooses, behind everything that is not later, keeps the
order of deadlines. -/
theorem etSorted_insert {s : ThreadMem} {bs as : List Addr} {th : Addr}
    (h : EtSorted s (bs ++ as)) (hb : ∀ x ∈ bs, s.et x ≤ s.et th)
    (ha : ∀ x ∈ as, s.et th ≤ s.et x) : EtSorted s (bs ++ th :: as) := by
  obtain ⟨hbs, has, hdisj⟩ := List.pairwise_append.mp h
  refine List.pairwise_append.mpr ⟨hbs, List.pairwise_cons.mpr ⟨ha, has⟩, fun x hx y hy => ?_⟩
  rcases List.mem_cons.mp hy with rfl | hy
  · exact hb x hx
  · exact hdisj x hx y hy

/-- Adding puts a thread that is in no tree into the tree of `p`, and leaves the other
pools. -/
theorem asthreadThAddToPool_run {s : ThreadMem} {members : Addr → List Addr} (h : TreesAt s members)
    {th : Addr} (hout : ∀ q, th ∉ members q) (hstop : (s.threads th).status ≠ .stop) (p : Addr) :
    ∃ m' bs as, members p = bs ++ as
      ∧ Ends (fun k => asthreadThAddToPool k s th (some p))
        ((s.setThread th { s.threads th with pool := some p }).setPool p m', 0)
      ∧ (∀ q, PoolHolds ((s.setThread th { s.threads th with pool := some p }).setPool p m') q
        (Function.update members p (bs ++ th :: as) q))
      ∧ ∀ y, y ≠ th → y ∉ members p → m'.nodes y = s.nodes y := by
  let s1 := s.setThread th { s.threads th with pool := some p }
  have het : s1.et = s.et := s.setThread_et th rfl
  have hsorted : EtSorted s (members p) := (h.holds p).2
  obtain ⟨m1, bs, as, hrun1, ⟨m', hrun, hm', hk⟩, hsplit, hb, ha⟩ :=
    rbTreeInsert_holds (nodeEtLt s1) (h.holds p).1 (hout p)
      (fun a b c => by simp only [nodeEtLt, decide_eq_true_eq]; omega)
      (hsorted.imp fun {a b} hab => by simp only [nodeEtLt, het, decide_eq_true_eq]; omega)
  simp only [nodeEtLt, het, decide_eq_true_eq, Int.not_lt] at hb ha
  refine ⟨m', bs, as, hsplit.symm, ?_, ?_, ?_⟩
  · simp only [asthreadThAddToPool, if_neg hstop]
    exact Ends.bind (mono_rbTreeInsert _ _ _) ((mono_rbTreeInsertCase _ _).bind fun _ =>
      mono_const _) hrun1 (Ends.bind (mono_rbTreeInsertCase _ _) (mono_const _) hrun
        (Ends.const rfl))
  · intro q
    rw [← hsplit] at hsorted
    by_cases hq : q = p
    · subst hq
      rw [Function.update_self]
      refine ⟨by rw [ThreadMem.setPool_pool_self]; exact hm', ?_⟩
      refine (etSorted_insert hsorted hb fun x hx => Int.le_of_lt (ha x hx)).congr fun x _ => ?_
      rw [ThreadMem.setPool_et, het]
    · rw [Function.update_of_ne hq]
      refine ⟨h.other hq hk ?_, (h.holds q).2.congr ?_⟩
      · intro y hy hyq
        rcases List.mem_cons.mp hy with rfl | hy
        · exact hout q hyq
        · exact hq (h.disjoint q p y hyq hy)
      · intro x _
        rw [ThreadMem.setPool_et, het]
  · intro y hy hyp
    exact hk y fun hym => (List.mem_cons.mp hym).elim hy hyp

theorem asthreadThAddToPool_spec {s : ThreadMem} {members : Addr → List Addr} {th : Addr}
    (h : PoolsAt s members) (hfree : (s.threads th).pool = none) (pool : Option Addr) :
    ∃ s' r members', Ends (fun k => asthreadThAddToPool k s th pool) (s', r)
      ∧ PoolsAt s' members' := by
  cases pool with
  | none => exact ⟨s, -1, members, Ends.const rfl, h⟩
  | some p =>
      by_cases hstop : (s.threads th).status = .stop
      · exact ⟨s, -1, members, ⟨0, if_pos hstop⟩, h⟩
      · have hout : ∀ q, th ∉ members q := fun q hq => by
          have hq' := (h.pool_iff q th).mpr hq
          rw [hfree] at hq'
          cases hq'
        obtain ⟨m', bs, as, hsplit, hrun, hholds, -⟩ := asthreadThAddToPool_run h.trees hout hstop p
        refine ⟨_, 0, _, hrun, hholds, ?_⟩
        intro q x
        rw [ThreadMem.setPool_threads]
        have hmem : ∀ y, y ∈ bs ++ th :: as ↔ y = th ∨ y ∈ members p := fun y => by
          rw [hsplit]
          simp [or_left_comm]
        by_cases hx : x = th
        · subst hx
          rw [ThreadMem.setThread_self]
          by_cases hq : q = p
          · subst hq
            simp
          · rw [Function.update_of_ne hq]
            simp [hout q, Ne.symm hq]
        · rw [ThreadMem.setThread_of_ne _ _ hx, h.pool_iff q x]
          by_cases hq : q = p
          · subst hq
            rw [Function.update_self, hmem]
            simp [hx]
          · rw [Function.update_of_ne hq]

theorem mono_asthreadThDelFromPool (s : ThreadMem) (th : Addr) :
    Mono fun k => asthreadThDelFromPool k s th := by
  simp only [asthreadThDelFromPool]
  cases (s.threads th).pool with
  | none => exact mono_const _
  | some p => exact (mono_rbTreeDelete _ _).bind fun _ => mono_const _

/-- Deleting takes a thread out of the tree that it says it is in, and leaves the other
pools. -/
theorem asthreadThDelFromPool_run {s : ThreadMem} {members : Addr → List Addr}
    (h : TreesAt s members) {th p : Addr}
    (hpool : (s.threads th).pool = some p) (hth : th ∈ members p) :
    ∃ m' bs as, members p = bs ++ th :: as
      ∧ Ends (fun k => asthreadThDelFromPool k s th)
        ((s.setPool p m').setThread th { s.threads th with pool := none }, 0)
      ∧ (∀ q, PoolHolds ((s.setPool p m').setThread th { s.threads th with pool := none }) q
        (Function.update members p (bs ++ as) q))
      ∧ ∀ y, y ∉ members p → m'.nodes y = s.nodes y := by
  obtain ⟨bs, as, hsplit⟩ := List.append_of_mem hth
  have hholds := (h.holds p).1
  have hsorted : EtSorted s (members p) := (h.holds p).2
  rw [hsplit] at hholds hsorted
  obtain ⟨m', hrun, hm', hk⟩ := rbTreeDelete_holds hholds
  have het : ((s.setPool p m').setThread th { s.threads th with pool := none }).et = s.et :=
    (s.setPool p m').setThread_et th rfl
  refine ⟨m', bs, as, hsplit, ?_, ?_, ?_⟩
  · simp only [asthreadThDelFromPool, hpool]
    exact Ends.bind (mono_rbTreeDelete _ _) (mono_const _) hrun (Ends.const rfl)
  · intro q
    by_cases hq : q = p
    · subst hq
      rw [Function.update_self]
      refine ⟨by rw [ThreadMem.setThread_pool, ThreadMem.setPool_pool_self]; exact hm', ?_⟩
      refine EtSorted.congr (s := s) (hsorted.sublist ?_) fun x _ => by rw [het]
      exact (List.sublist_cons_self th as).append_left bs
    · rw [Function.update_of_ne hq]
      refine ⟨h.other hq hk fun y hy hyq => hq (h.disjoint q p y hyq ?_),
        (h.holds q).2.congr fun x _ => by rw [het]⟩
      rw [hsplit]
      exact hy
  · intro y hyp
    exact hk y fun hym => hyp (hsplit ▸ hym)

theorem asthreadThDelFromPool_spec {s : ThreadMem} {members : Addr → List Addr}
    (h : PoolsAt s members) (th : Addr) :
    ∃ s' r members', Ends (fun k => asthreadThDelFromPool k s th) (s', r)
      ∧ PoolsAt s' members' := by
  cases hpool : (s.threads th).pool with
  | none => exact ⟨s, -1, members, ⟨0, by simp only [asthreadThDelFromPool, hpool]⟩, h⟩
  | some p =>
      have hth : th ∈ members p := (h.pool_iff p th).mp hpool
      obtain ⟨m', bs, as, hsplit, hrun, hholds, -⟩ := asthreadThDelFromPool_run h.trees hpool hth
      have hnd := List.perm_middle.nodup_iff.mp (hsplit ▸ (h.holds p).1.nodup)
      have hmem : ∀ x, x ∈ members p ↔ x = th ∨ x ∈ bs ++ as := fun x => by
        rw [hsplit]
        simp [or_left_comm]
      refine ⟨_, 0, _, hrun, hholds, ?_⟩
      intro q x
      by_cases hx : x = th
      · subst hx
        rw [ThreadMem.setThread_self]
        by_cases hq : q = p
        · subst hq
          rw [Function.update_self]
          simpa using (List.nodup_cons.mp hnd).1
        · rw [Function.update_of_ne hq]
          constructor
          · intro he
            cases he
          · exact fun hxq => absurd (h.trees.disjoint q p x hxq hth) hq
      · rw [ThreadMem.setThread_of_ne _ _ hx, ThreadMem.setPool_threads, h.pool_iff q x]
        by_cases hq : q = p
        · subst hq
          rw [Function.update_self, hmem]
          simp [hx]
        · rw [Function.update_of_ne hq]

/-! ## Reachable pools -/

/-- One operation on the pools. A thread is added only while it is in none, and
its deadline and status are set only then: every caller has taken it out
before. -/
inductive PoolStep : ThreadMem → ThreadMem → Prop where
  | add {s s' : ThreadMem} {r : Int} (th : Addr) (pool : Option Addr) :
      (s.threads th).pool = none →
      Ends (fun k => asthreadThAddToPool k s th pool) (s', r) → PoolStep s s'
  | del {s s' : ThreadMem} {r : Int} (th : Addr) :
      Ends (fun k => asthreadThDelFromPool k s th) (s', r) → PoolStep s s'
  | set {s : ThreadMem} (th : Addr) (t : AsThread) :
      (s.threads th).pool = none → t.pool = none → PoolStep s (s.setThread th t)

/-- Empty pools, and threads in none of them. -/
def PoolsFresh (s : ThreadMem) : Prop :=
  (∀ p, s.pools p = none) ∧ ∀ th, (s.threads th).pool = none

inductive PoolReachable : ThreadMem → Prop where
  | init {s : ThreadMem} : PoolsFresh s → PoolReachable s
  | step {s s' : ThreadMem} : PoolReachable s → PoolStep s s' → PoolReachable s'

theorem poolsFresh_inv {s : ThreadMem} (h : PoolsFresh s) : PoolsAt s fun _ => [] := by
  refine ⟨fun p => ⟨⟨.nil, 0, ⟨h.1 p, trivial, trivial, List.nodup_nil⟩, .nil, rfl⟩, .nil⟩, ?_⟩
  intro p th
  simp [h.2 th]

theorem poolStep_inv {s s' : ThreadMem} {members : Addr → List Addr} (h : PoolsAt s members)
    (hstep : PoolStep s s') : ∃ members', PoolsAt s' members' := by
  cases hstep with
  | add th pool hfree hrun =>
      obtain ⟨s1, r1, members', hrun1, h1⟩ := asthreadThAddToPool_spec h hfree pool
      cases Ends.unique (mono_asthreadThAddToPool s th pool) hrun hrun1
      exact ⟨members', h1⟩
  | del th hrun =>
      obtain ⟨s1, r1, members', hrun1, h1⟩ := asthreadThDelFromPool_spec h th
      cases Ends.unique (mono_asthreadThDelFromPool s th) hrun hrun1
      exact ⟨members', h1⟩
  | set th t hfree ht =>
      have hne : ∀ p, ∀ x ∈ members p, x ≠ th := fun p x hx he => by
        have hx' := (h.pool_iff p x).mpr hx
        rw [he, hfree] at hx'
        cases hx'
      refine ⟨members, fun p => ⟨(h.holds p).1, (h.holds p).2.congr ?_⟩, ?_⟩
      · intro x hx
        rw [ThreadMem.et, ThreadMem.setThread_of_ne _ _ (hne p x hx), ThreadMem.et]
      · intro p x
        by_cases hx : x = th
        · subst hx
          rw [ThreadMem.setThread_self, ht, ← h.pool_iff p x, hfree]
        · rw [ThreadMem.setThread_of_ne _ _ hx, h.pool_iff p x]

theorem poolReachable_inv {s : ThreadMem} (h : PoolReachable s) :
    ∃ members, PoolsAt s members := by
  induction h with
  | init hfresh => exact ⟨_, poolsFresh_inv hfresh⟩
  | step _ hstep ih =>
      obtain ⟨members, h⟩ := ih
      exact poolStep_inv h hstep

end Artorias
