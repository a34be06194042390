import Artorias.Settle
import Artorias.ThreadPool
import Artorias.Worker

/-!
# Where the threads of a worker are

A thread that has not been stopped waits in one of the two pools, or it is out
of both for a moment: it runs, or its turn in a pass has not come yet. A thread
that has been stopped is in `stop_threads`. `Sched w members out` says so, with
the threads of each pool and those that are out; here are the functions that
move a thread from one place to another.
-/

namespace Artorias

structure Sched (w : MwWorker) (members : Addr → List Addr) (out : List Addr) : Prop where
  trees : TreesAt w.tm members
  member : ∀ p th, th ∈ members p → (p = ioPool ∨ p = sleepPool)
    ∧ (w.number th).isSome ∧ (w.tm.threads th).status ≠ .stop
  pool_iff : ∀ th ∉ out, (w.number th).isSome →
    ∀ p, (w.tm.threads th).pool = some p ↔ th ∈ members p
  waiting : ∀ th ∉ out, (w.number th).isSome → (w.tm.threads th).status ≠ .stop →
    ∃ p, th ∈ members p
  outside : ∀ th ∈ out, (w.number th).isSome ∧ (w.tm.threads th).status ≠ .stop
    ∧ ∀ p, th ∉ members p
  out_nodup : out.Nodup
  stopped : ∀ th, th ∈ w.stopThreads ↔ (w.number th).isSome ∧ (w.tm.threads th).status = .stop
  stop_nodup : w.stopThreads.Nodup

/-- `w'` differs from `w` in nothing that `Sched` looks at. -/
structure SameSched (w w' : MwWorker) : Prop where
  nodes : w'.tm.nodes = w.tm.nodes
  pools : w'.tm.pools = w.tm.pools
  number : w'.number = w.number
  stopThreads : w'.stopThreads = w.stopThreads
  threads : ∀ th, (w'.tm.threads th).et = (w.tm.threads th).et
    ∧ (w'.tm.threads th).pool = (w.tm.threads th).pool
    ∧ (w'.tm.threads th).status = (w.tm.threads th).status

/-- `w'` differs from `w` in nothing but where threads are. -/
structure SameCore (w w' : MwWorker) : Prop where
  number : w'.number = w.number
  ress : w'.ress = w.ress
  socks : w'.socks = w.socks
  fds : w'.fds = w.fds
  epoll : w'.epoll = w.epoll
  cfd : w'.cfd = w.cfd
  cfdRes : w'.cfdRes = w.cfdRes
  next : w'.next = w.next
  log : w'.log = w.log
  waits : w'.waits = w.waits
  threads : ∀ th, (w'.tm.threads th).mode = (w.tm.threads th).mode
    ∧ (w'.tm.threads th).mfdRes = (w.tm.threads th).mfdRes
    ∧ (w'.tm.threads th).resl = (w.tm.threads th).resl

theorem SameSched.refl (w : MwWorker) : SameSched w w :=
  ⟨rfl, rfl, rfl, rfl, fun _ => ⟨rfl, rfl, rfl⟩⟩

theorem SameSched.trans {w w' w'' : MwWorker} (h : SameSched w w') (h' : SameSched w' w'') :
    SameSched w w'' := by
  refine ⟨h'.nodes.trans h.nodes, h'.pools.trans h.pools, h'.number.trans h.number,
    h'.stopThreads.trans h.stopThreads, ?_⟩
  intro th
  obtain ⟨het, hpool, hstatus⟩ := h.threads th
  obtain ⟨het', hpool', hstatus'⟩ := h'.threads th
  exact ⟨het'.trans het, hpool'.trans hpool, hstatus'.trans hstatus⟩

theorem SameCore.refl (w : MwWorker) : SameCore w w :=
  ⟨rfl, rfl, rfl, rfl, rfl, rfl, rfl, rfl, rfl, rfl, fun _ => ⟨rfl, rfl, rfl⟩⟩

theorem SameCore.trans {w w' w'' : MwWorker} (h : SameCore w w') (h' : SameCore w' w'') :
    SameCore w w'' := by
  refine ⟨h'.number.trans h.number, h'.ress.trans h.ress, h'.socks.trans h.socks,
    h'.fds.trans h.fds, h'.epoll.trans h.epoll, h'.cfd.trans h.cfd, h'.cfdRes.trans h.cfdRes,
    h'.next.trans h.next, h'.log.trans h.log, h'.waits.trans h.waits, ?_⟩
  intro th
  obtain ⟨hmode, hmfd, hresl⟩ := h.threads th
  obtain ⟨hmode', hmfd', hresl'⟩ := h'.threads th
  exact ⟨hmode'.trans hmode, hmfd'.trans hmfd, hresl'.trans hresl⟩

/-- A change of a thread that leaves its deadline, its pool and its status leaves all that
`Sched` looks at. -/
theorem SameSched.setThread {w : MwWorker} {th : Addr} {t : AsThread}
    (het : t.et = (w.tm.threads th).et) (hpool : t.pool = (w.tm.threads th).pool)
    (hstatus : t.status = (w.tm.threads th).status) : SameSched w (w.setThread th t) := by
  refine ⟨rfl, rfl, rfl, rfl, ?_⟩
  intro x
  by_cases hx : x = th
  · subst hx
    rw [MwWorker.setThread, ThreadMem.setThread_self]
    exact ⟨het, hpool, hstatus⟩
  · rw [MwWorker.setThread, ThreadMem.setThread_of_ne _ _ hx]
    exact ⟨rfl, rfl, rfl⟩

theorem SameCore.setThread {w : MwWorker} {th : Addr} {t : AsThread}
    (hmode : t.mode = (w.tm.threads th).mode) (hmfd : t.mfdRes = (w.tm.threads th).mfdRes)
    (hresl : t.resl = (w.tm.threads th).resl) : SameCore w (w.setThread th t) := by
  refine ⟨rfl, rfl, rfl, rfl, rfl, rfl, rfl, rfl, rfl, rfl, ?_⟩
  intro x
  by_cases hx : x = th
  · subst hx
    rw [MwWorker.setThread, ThreadMem.setThread_self]
    exact ⟨hmode, hmfd, hresl⟩
  · rw [MwWorker.setThread, ThreadMem.setThread_of_ne _ _ hx]
    exact ⟨rfl, rfl, rfl⟩

theorem TreesAt.congr {s s' : ThreadMem} {members : Addr → List Addr} (h : TreesAt s members)
    (hnodes : ∀ p, ∀ y ∈ members p, s'.nodes y = s.nodes y) (hpools : s'.pools = s.pools)
    (het : ∀ p, ∀ y ∈ members p, s'.et y = s.et y) : TreesAt s' members := by
  refine ⟨fun p => ⟨(h.holds p).1.congr ?_ (hnodes p), (h.holds p).2.congr (het p)⟩, h.disjoint⟩
  exact congrFun hpools p

namespace Sched

variable {w w' : MwWorker} {members : Addr → List Addr} {out : List Addr}

theorem congr (h : Sched w members out) (hsame : SameSched w w') : Sched w' members out := by
  have hpool : ∀ th, (w'.tm.threads th).pool = (w.tm.threads th).pool :=
    fun th => (hsame.threads th).2.1
  have hstatus : ∀ th, (w'.tm.threads th).status = (w.tm.threads th).status :=
    fun th => (hsame.threads th).2.2
  refine ⟨?_, ?_, ?_, ?_, ?_, h.out_nodup, ?_, hsame.stopThreads ▸ h.stop_nodup⟩
  · exact h.trees.congr (fun _ y _ => congrFun hsame.nodes y) hsame.pools
      fun _ y _ => (hsame.threads y).1
  · intro p th hth
    rw [hsame.number, hstatus]
    exact h.member p th hth
  · intro th hth hn p
    rw [hpool]
    exact h.pool_iff th hth (hsame.number ▸ hn) p
  · intro th hth
    rw [hsame.number, hstatus]
    exact h.waiting th hth
  · intro th hth
    rw [hsame.number, hstatus]
    exact h.outside th hth
  · intro th
    rw [hsame.stopThreads, hsame.number, hstatus]
    exact h.stopped th

theorem not_mem_erase (h : Sched w members out) (th y : Addr) :
    y ∉ out.erase th ↔ y = th ∨ y ∉ out := by
  rw [h.out_nodup.mem_erase_iff]
  by_cases hy : y = th <;> simp [hy]

/-- A thread that is in no tree can be changed at will, as long as it is not marked as
stopped. -/
theorem setThread (h : Sched w members out) {th : Addr} (hth : th ∈ out) {t : AsThread}
    (ht : t.status ≠ .stop) : Sched (w.setThread th t) members out := by
  obtain ⟨hnum, hst, hno⟩ := h.outside th hth
  have hother : ∀ x, x ≠ th → (w.setThread th t).tm.threads x = w.tm.threads x :=
    fun x hx => ThreadMem.setThread_of_ne _ _ hx
  have hself : (w.setThread th t).tm.threads th = t := ThreadMem.setThread_self ..
  have hstatus : ∀ x, ((w.setThread th t).tm.threads x).status = .stop
      ↔ (w.tm.threads x).status = .stop := by
    intro x
    by_cases hx : x = th
    · subst hx
      rw [hself]
      exact iff_of_false ht hst
    · rw [hother x hx]
  refine ⟨?_, ?_, ?_, ?_, ?_, h.out_nodup, ?_, h.stop_nodup⟩
  · refine h.trees.congr (fun _ _ _ => rfl) rfl fun p y hy => ?_
    rw [ThreadMem.et, hother y fun he => hno p (he ▸ hy), ThreadMem.et]
  · intro p x hx
    obtain ⟨hp, hn, hs⟩ := h.member p x hx
    exact ⟨hp, hn, (hstatus x).not.mpr hs⟩
  · intro x hx hn p
    rw [hother x fun he => hx (he ▸ hth)]
    exact h.pool_iff x hx hn p
  · intro x hx hn hs
    exact h.waiting x hx hn ((hstatus x).not.mp hs)
  · intro x hx
    obtain ⟨hn, hs, hp⟩ := h.outside x hx
    exact ⟨hn, (hstatus x).not.mpr hs, hp⟩
  · intro x
    rw [hstatus]
    exact h.stopped x

end Sched

/-! ## The trees -/

theorem SameCore.setTrees (w : MwWorker) {tm : ThreadMem}
    (h : ∀ th, (tm.threads th).mode = (w.tm.threads th).mode
      ∧ (tm.threads th).mfdRes = (w.tm.threads th).mfdRes
      ∧ (tm.threads th).resl = (w.tm.threads th).resl) : SameCore w { w with tm := tm } :=
  ⟨rfl, rfl, rfl, rfl, rfl, rfl, rfl, rfl, rfl, rfl, h⟩

theorem setThread_same_links (s : ThreadMem) (th : Addr) (p : Option Addr) (x : Addr) :
    ((s.setThread th { s.threads th with pool := p }).threads x).mode = (s.threads x).mode
      ∧ ((s.setThread th { s.threads th with pool := p }).threads x).mfdRes = (s.threads x).mfdRes
      ∧ ((s.setThread th { s.threads th with pool := p }).threads x).resl = (s.threads x).resl
      ∧ ((s.setThread th { s.threads th with pool := p }).threads x).status
        = (s.threads x).status := by
  by_cases hx : x = th
  · subst hx
    rw [ThreadMem.setThread_self]
    exact ⟨rfl, rfl, rfl, rfl⟩
  · rw [ThreadMem.setThread_of_ne _ _ hx]
    exact ⟨rfl, rfl, rfl, rfl⟩

theorem ofTree_settles {α : Type} {f : Nat → CRun α} {a : α} (h : Settles f (.ok a)) :
    Settles (fun k => ofTree (f k)) (.ok a) := by
  obtain ⟨k, hk⟩ := h
  exact ⟨k, fun k' hk' => congrArg ofTree (hk k' hk')⟩

/-- What a move of `th` leaves: everything but where threads are, and the nodes
of the others that are out. -/
structure Moved (w : MwWorker) (out : List Addr) (th : Addr) (w' : MwWorker) : Prop where
  core : SameCore w w'
  nodes : ∀ y ∈ out, y ≠ th → w'.tm.nodes y = w.tm.nodes y

theorem addToPool_spec {w : MwWorker} {members : Addr → List Addr} {out : List Addr}
    (h : Sched w members out) {th p : Addr} (hth : th ∈ out) (hp : p = ioPool ∨ p = sleepPool) :
    ∃ w' members', Settles (fun k => addToPool k w th p) (.ok w') ∧ Sched w' members' (out.erase th)
      ∧ Moved w out th w' := by
  obtain ⟨hnum, hst, hno⟩ := h.outside th hth
  obtain ⟨m', bs, as, hsplit, hrun, hholds, hk⟩ := asthreadThAddToPool_run h.trees hno hst p
  have hmem : ∀ y q, y ∈ Function.update members p (bs ++ th :: as) q
      ↔ (y = th ∧ q = p) ∨ y ∈ members q := by
    intro y q
    by_cases hq : q = p
    · subst hq
      rw [Function.update_self, hsplit]
      simp [or_left_comm]
    · rw [Function.update_of_ne hq]
      simp [hq]
  have herase := h.not_mem_erase th
  have hother : ∀ {y : Addr}, y ≠ th → ((w.tm.setThread th
      { w.tm.threads th with pool := some p }).threads y) = w.tm.threads y :=
    fun hy => ThreadMem.setThread_of_ne _ _ hy
  have hlinks := setThread_same_links w.tm th (some p)
  refine ⟨_, _, (ofTree_settles (hrun.settles (mono_asthreadThAddToPool _ _ _))).bind (.const _),
    ⟨⟨hholds, ?_⟩, ?_, ?_, ?_, ?_, h.out_nodup.erase th, ?_, h.stop_nodup⟩, .setTrees w ?_, ?_⟩
  · intro q q' y hy hy'
    rcases (hmem y q).mp hy with ⟨hyth, hq⟩ | hyq <;> rcases (hmem y q').mp hy' with
      ⟨hyth', hq'⟩ | hyq'
    · exact hq.trans hq'.symm
    · exact absurd (hyth ▸ hyq') (hno q')
    · exact absurd (hyth' ▸ hyq) (hno q)
    · exact h.trees.disjoint q q' y hyq hyq'
  · intro q y hy
    dsimp only
    rw [ThreadMem.setPool_threads, (hlinks y).2.2.2]
    rcases (hmem y q).mp hy with ⟨rfl, rfl⟩ | hy
    · exact ⟨hp, hnum, hst⟩
    · exact h.member q y hy
  · intro y hy hn q
    dsimp only
    rw [ThreadMem.setPool_threads, hmem]
    by_cases hyth : y = th
    · subst hyth
      rw [ThreadMem.setThread_self]
      simp [hno q, eq_comm]
    · rw [hother hyth]
      simp only [hyth, false_and, false_or]
      exact h.pool_iff y (((herase y).mp hy).resolve_left hyth) hn q
  · intro y hy hn hs
    dsimp only at hs
    rw [ThreadMem.setPool_threads, (hlinks y).2.2.2] at hs
    rcases (herase y).mp hy with rfl | hy
    · exact ⟨p, (hmem y p).mpr (.inl ⟨rfl, rfl⟩)⟩
    · obtain ⟨q, hq⟩ := h.waiting y hy hn hs
      exact ⟨q, (hmem y q).mpr (.inr hq)⟩
  · intro y hy
    obtain ⟨hne, hy⟩ := h.out_nodup.mem_erase_iff.mp hy
    obtain ⟨hn, hs, hq⟩ := h.outside y hy
    dsimp only
    rw [ThreadMem.setPool_threads, (hlinks y).2.2.2]
    exact ⟨hn, hs, fun q hyq => ((hmem y q).mp hyq).elim (fun he => hne he.1) (hq q)⟩
  · intro y
    dsimp only
    rw [ThreadMem.setPool_threads, (hlinks y).2.2.2]
    exact h.stopped y
  · intro y
    rw [ThreadMem.setPool_threads]
    exact ⟨(hlinks y).1, (hlinks y).2.1, (hlinks y).2.2.1⟩
  · intro y hy hne
    exact hk y hne ((h.outside y hy).2.2 p)

theorem delFromPool_spec {w : MwWorker} {members : Addr → List Addr} {out : List Addr}
    (h : Sched w members out) {th : Addr} (hth : th ∉ out) (hnum : (w.number th).isSome)
    (hst : (w.tm.threads th).status ≠ .stop) :
    ∃ w' members', Settles (fun k => delFromPool k w th) (.ok w') ∧ Sched w' members' (th :: out)
      ∧ SameCore w w' ∧ ∀ x, (w'.tm.threads x).status = (w.tm.threads x).status := by
  obtain ⟨p, hmemp⟩ := h.waiting th hth hnum hst
  have hpool := (h.pool_iff th hth hnum p).mpr hmemp
  obtain ⟨m', bs, as, hsplit, hrun, hholds, hk⟩ := asthreadThDelFromPool_run h.trees hpool hmemp
  have hnd := List.perm_middle.nodup_iff.mp (hsplit ▸ (h.trees.holds p).1.nodup)
  have hmem : ∀ y q, y ∈ Function.update members p (bs ++ as) q ↔ y ≠ th ∧ y ∈ members q := by
    intro y q
    by_cases hq : q = p
    · subst hq
      rw [Function.update_self, hsplit]
      by_cases hy : y = th
      · subst hy
        simpa using (List.nodup_cons.mp hnd).1
      · simp [hy]
    · rw [Function.update_of_ne hq]
      refine ⟨fun hy => ⟨?_, hy⟩, And.right⟩
      rintro rfl
      exact hq (h.trees.disjoint q p y hy hmemp)
  let w' : MwWorker :=
    { w with tm := (w.tm.setPool p m').setThread th { w.tm.threads th with pool := none } }
  have hlinks : ∀ y, (w'.tm.threads y).mode = (w.tm.threads y).mode
      ∧ (w'.tm.threads y).mfdRes = (w.tm.threads y).mfdRes
      ∧ (w'.tm.threads y).resl = (w.tm.threads y).resl
      ∧ (w'.tm.threads y).status = (w.tm.threads y).status := setThread_same_links w.tm th none
  refine ⟨w', _, (ofTree_settles (hrun.settles (mono_asthreadThDelFromPool _ _))).bind (.const _),
    ⟨⟨hholds, ?_⟩, ?_, ?_, ?_, ?_, List.nodup_cons.mpr ⟨hth, h.out_nodup⟩, ?_, h.stop_nodup⟩,
    .setTrees w ?_, fun y => (hlinks y).2.2.2⟩
  · intro q q' y hy hy'
    exact h.trees.disjoint q q' y ((hmem y q).mp hy).2 ((hmem y q').mp hy').2
  · intro q y hy
    rw [(hlinks y).2.2.2]
    exact h.member q y ((hmem y q).mp hy).2
  · intro y hy hn q
    obtain ⟨hne, hy⟩ := not_or.mp fun ho => hy (List.mem_cons.mpr ho)
    have hself : w'.tm.threads y = w.tm.threads y := ThreadMem.setThread_of_ne _ _ hne
    rw [hself, hmem, h.pool_iff y hy hn q]
    exact (and_iff_right hne).symm
  · intro y hy hn hs
    rw [(hlinks y).2.2.2] at hs
    obtain ⟨hne, hy⟩ := not_or.mp fun ho => hy (List.mem_cons.mpr ho)
    obtain ⟨q, hq⟩ := h.waiting y hy hn hs
    exact ⟨q, (hmem y q).mpr ⟨hne, hq⟩⟩
  · intro y hy
    rw [(hlinks y).2.2.2]
    rcases List.mem_cons.mp hy with rfl | hy
    · exact ⟨hnum, hst, fun q hq => ((hmem y q).mp hq).1 rfl⟩
    · obtain ⟨hn, hs, hq⟩ := h.outside y hy
      exact ⟨hn, hs, fun q hyq => hq q ((hmem y q).mp hyq).2⟩
  · intro y
    rw [(hlinks y).2.2.2]
    exact h.stopped y
  · intro y
    exact ⟨(hlinks y).1, (hlinks y).2.1, (hlinks y).2.2.1⟩

/-- A thread that is out is stopped and comes into `stop_threads`, if there is room for it,
and the other threads stay where they are. -/
theorem asthreadThToStop_spec {w : MwWorker} {members : Addr → List Addr} {out : List Addr}
    (h : Sched w members out) {th : Addr} (hth : th ∈ out) (k : Nat) :
    Meets (asthreadThToStop k w th)
      (fun w' => Sched w' members (out.erase th) ∧ Moved w out th w') (· = .overflow) := by
  obtain ⟨hnum, hst, hno⟩ := h.outside th hth
  obtain ⟨n, hn⟩ := Option.isSome_iff_exists.mp hnum
  let t : AsThread := { w.tm.threads th with status := .stop, pool := none }
  let s : ThreadMem := w.tm.setThread th t
  have hself : s.threads th = t := ThreadMem.setThread_self ..
  have hother : ∀ y, y ≠ th → s.threads y = w.tm.threads y :=
    fun y hy => ThreadMem.setThread_of_ne _ _ hy
  have hdel : asthreadThDelFromPool k s th = .ok (s, -1) := by
    unfold asthreadThDelFromPool
    rw [hself]
  have hrun : asthreadThToStop k w th = if w.stopThreads.length ≥ stopSlots then .error .overflow
      else .ok { w with tm := s, stopThreads := w.stopThreads ++ [th] } := by
    simp only [asthreadThToStop, MwWorker.thread, hn]
    change asthreadThAddToArray k { w with tm := s } th = _
    simp only [asthreadThAddToArray, hdel, ofTree]
    rfl
  have hcore : SameCore w (w.setThread th t) := .setThread rfl rfl rfl
  have herase := h.not_mem_erase th
  have hrest : ∀ y q, y ∈ members q → y ≠ th := by
    rintro y q hy rfl
    exact hno q hy
  rw [hrun]
  split
  · exact rfl
  · refine ⟨⟨?_, ?_, ?_, ?_, ?_, h.out_nodup.erase th, ?_, ?_⟩, hcore.trans ?_, fun _ _ _ => rfl⟩
    · refine h.trees.congr (fun _ _ _ => rfl) rfl fun q y hy => ?_
      rw [ThreadMem.et, hother y (hrest y q hy), ThreadMem.et]
    · intro q y hy
      dsimp only
      rw [hother y (hrest y q hy)]
      exact h.member q y hy
    · intro y hy hn q
      dsimp only
      rcases (herase y).mp hy with rfl | hy
      · rw [hself]
        exact iff_of_false (by simp [t]) (hno q)
      · rw [hother y fun he => hy (he ▸ hth)]
        exact h.pool_iff y hy hn q
    · intro y hy hn hs
      dsimp only at hs
      rcases (herase y).mp hy with rfl | hy
      · rw [hself] at hs
        exact absurd rfl hs
      · rw [hother y fun he => hy (he ▸ hth)] at hs
        exact h.waiting y hy hn hs
    · intro y hy
      obtain ⟨hne, hy⟩ := h.out_nodup.mem_erase_iff.mp hy
      dsimp only
      rw [hother y hne]
      exact h.outside y hy
    · intro y
      dsimp only
      rw [List.mem_append, List.mem_singleton, h.stopped y]
      by_cases hy : y = th
      · subst hy
        rw [hself]
        simp [hnum, t]
      · rw [hother y hy]
        simp [hy]
    · refine List.nodup_append.mpr ⟨h.stop_nodup, List.nodup_singleton th, fun y hy z hz => ?_⟩
      rintro rfl
      rw [List.mem_singleton.mp hz] at hy
      exact hst ((h.stopped th).mp hy).2
    · exact ⟨rfl, rfl, rfl, rfl, rfl, rfl, rfl, rfl, rfl, rfl, fun _ => ⟨rfl, rfl, rfl⟩⟩

end Artorias
