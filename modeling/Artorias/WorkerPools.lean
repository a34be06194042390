import Artorias.WorkerFlow

/-!
# Every thread in its place

Runs of the worker that are made of accepted connections, of events on
resources and of the release of the stopped threads. `workerRun_places` says
where the threads are between two of these, whatever the scripts do.
-/

namespace Artorias

/-- What the worker is called for. -/
inductive WorkerInput where
  | accept (conns : List Conn)
  | read (res : Addr)
  | write (res : Addr)
  | error (res : Addr) (errno : Int)
  | release

/-- One handler, or `process_stop_threads` and `stop_threads->n = 0`. -/
def runInput (lua : Lua) (k : Nat) (w : MwWorker) : WorkerInput → WRun MwWorker
  | .accept conns => handleAccept lua k w conns
  | .read res => handleFdRead lua k w res
  | .write res => handleFdWrite lua k w res
  | .error res errno => handleFdError lua k w res errno
  | .release => do
      let w ← processStopThreads lua w
      .ok { w with stopThreads := [] }

/-- `res` belongs to a thread that has not been freed. -/
def Attached (w : MwWorker) (res : Addr) : Prop :=
  ∃ r th, w.ress res = some r ∧ r.th = some th ∧ (w.number th).isSome

def InputOk (w : MwWorker) : WorkerInput → Prop
  | .read res | .write res | .error res _ => Attached w res
  | .accept _ | .release => True

/-- No threads yet, and nothing in the pools. -/
structure Started (w : MwWorker) : Prop where
  pools : ∀ p, w.tm.pools p = none
  number : ∀ th, w.number th = none
  stopThreads : w.stopThreads = []

inductive WorkerReach (lua : Lua) : MwWorker → Prop where
  | start {w : MwWorker} : Started w → WorkerReach lua w
  | step {w w' : MwWorker} {i : WorkerInput} : WorkerReach lua w → InputOk w i →
      Settles (fun k => runInput lua k w i) (.ok w') → WorkerReach lua w'

/-- A thread that has not been stopped is in one pool, and says so; one that
has been stopped is in none, and once in `stop_threads`. -/
structure Placed (w : MwWorker) (members : Addr → List Addr) (th : Addr) : Prop where
  waiting : (w.tm.threads th).status ≠ .stop →
    (th ∈ members ioPool ∧ th ∉ members sleepPool ∧ (w.tm.threads th).pool = some ioPool)
      ∨ (th ∈ members sleepPool ∧ th ∉ members ioPool ∧ (w.tm.threads th).pool = some sleepPool)
  stopped : (w.tm.threads th).status = .stop →
    th ∉ members ioPool ∧ th ∉ members sleepPool ∧ w.stopThreads.count th = 1

theorem Sched.placed {w : MwWorker} {members : Addr → List Addr} (h : Sched w members [])
    {th : Addr} (hnum : (w.number th).isSome) : Placed w members th := by
  constructor
  · intro hst
    obtain ⟨p, hp⟩ := h.waiting th List.not_mem_nil hnum hst
    have hpool := (h.pool_iff th List.not_mem_nil hnum p).mpr hp
    have hone : ∀ q, q ≠ p → th ∉ members q := fun q hq hs => hq (h.trees.disjoint q p th hs hp)
    rcases h.member p th hp with ⟨rfl | rfl, -⟩
    · exact .inl ⟨hp, hone sleepPool (by decide), hpool⟩
    · exact .inr ⟨hp, hone ioPool (by decide), hpool⟩
  · intro hst
    have hout : ∀ p, th ∉ members p := fun p hp => (h.member p th hp).2.2 hst
    exact ⟨hout _, hout _, List.count_eq_one_of_mem h.stop_nodup ((h.stopped th).mpr ⟨hnum, hst⟩)⟩

theorem Started.sched {w : MwWorker} (h : Started w) : Sched w (fun _ => []) [] := by
  have hno : ∀ th, ¬(w.number th).isSome := fun th hn => by
    rw [h.number th] at hn
    cases hn
  have hholds : ∀ p, PoolHolds w.tm p [] := fun p =>
    ⟨⟨.nil, 0, ⟨h.pools p, trivial, trivial, List.nodup_nil⟩, .nil, rfl⟩, .nil⟩
  refine ⟨⟨hholds, ?_⟩, ?_, fun th _ hn => absurd hn (hno th), fun th _ hn => absurd hn (hno th),
    ?_, .nil, ?_, ?_⟩
  · exact fun _ _ _ hm => nomatch hm
  · exact fun _ _ hm => nomatch hm
  · exact fun _ hm => nomatch hm
  · intro th
    rw [h.stopThreads]
    exact iff_of_false List.not_mem_nil fun hs => hno th hs.1
  · rw [h.stopThreads]
    exact .nil

theorem Meets.notTree {α : Type} {x : WRun α} {Q : α → Prop} (h : Meets x Q LocalFault) :
    Meets x (fun _ => True) NotTree :=
  (h.imp fun _ _ => trivial).imp_error fun _ he => he.notTree

/-- The instance of `Upholds` for the places of the threads alone: any fault but one of a
tree is let through. -/
theorem upholds_true (lua : Lua) : Upholds lua (fun _ => True) NotTree where
  core _ _ := trivial
  resumed _ := trivial
  act {w th _ _ a} _ _ _ := (runAct_same th w a).notTree
  wait {w th a} k ev _ _ _ := (asthreadResEvAdd_same (noteWait w th a k) a ev).notTree
  remove {w th} _ _ := (asthreadRemoveResFromEpfd_same w th).notTree
  fresh {w} c _ := (newThread_made lua w c).notTree
  release {w th} _ _ := (releaseThread_freed lua w th).notTree
  script := nofun
  overflow := nofun

theorem runInput_flow {lua : Lua} {w : MwWorker} {i : WorkerInput}
    (h : Settled (fun _ => True) w) (hi : InputOk w i) :
    Ensures (fun k => runInput lua k w i) (Settled fun _ => True) NotTree := by
  have hJ := upholds_true lua
  cases i with
  | accept conns => exact handleAccept_flow hJ h conns
  | read res =>
      obtain ⟨r, th, hres, hr, hnum⟩ := hi
      exact handleFd_flow hJ h hres hr hnum _
  | write res =>
      obtain ⟨r, th, hres, hr, hnum⟩ := hi
      exact handleFd_flow hJ h hres hr hnum _
  | error res errno =>
      obtain ⟨r, th, hres, hr, hnum⟩ := hi
      refine .ite (fun _ => .pure ?_) fun _ => handleFd_flow hJ h hres hr hnum _
      obtain ⟨⟨members, hsched⟩, -⟩ := h
      exact ⟨⟨members, hsched.congr (close_same w w.cfd)⟩, trivial⟩
  | release => exact (Ensures.meets (processStopThreads_flow hJ h)).bind fun w' h' => .pure h'

theorem workerReach_inv {lua : Lua} {w : MwWorker} (h : WorkerReach lua w) :
    Settled (fun _ => True) w := by
  induction h with
  | start h => exact ⟨⟨_, h.sched⟩, trivial⟩
  | step _ hi hrun ih => exact (runInput_flow ih hi).of_settles hrun

/-- Between two handlers the pools are valid trees by deadline, and every thread is in its
place; and each handler gets by with the trees it finds, so that only faults of other kinds
can end it. -/
theorem workerRun_places {lua : Lua} {w : MwWorker} (h : WorkerReach lua w) :
    (∃ members, (∀ p, PoolHolds w.tm p (members p))
        ∧ ∀ th, (w.number th).isSome → Placed w members th)
      ∧ ∀ i, InputOk w i → Ensures (fun k => runInput lua k w i) (fun _ => True) NotTree := by
  have hinv := workerReach_inv h
  refine ⟨?_, fun i hi => (runInput_flow hinv hi).imp fun _ _ => trivial⟩
  obtain ⟨⟨members, hsched⟩, -⟩ := hinv
  exact ⟨members, hsched.trees.holds, fun th hnum => hsched.placed hnum⟩

theorem workerRun_places_stopped : ∃ w, w.stopThreads = [10] ∧ (w.number 10).isSome
    ∧ ∃ members, (∀ p, PoolHolds w.tm p (members p)) ∧ Placed w members 10 := by
  have hstart : WorkerReach idleLua startWorker := .start ⟨fun _ => rfl, fun _ => rfl, rfl⟩
  have hreach := hstart.step (i := .accept [⟨4, some 10, true, some 20⟩]) trivial
    ⟨0, fun _ _ => rfl⟩
  obtain ⟨⟨members, hholds, hplaced⟩, -⟩ := workerRun_places hreach
  exact ⟨_, rfl, rfl, members, hholds, hplaced 10 rfl⟩

end Artorias
