import Artorias.MwServer

/-!
# What the workers of `mw_server.c` get

- `deals_in_turn`: whatever the processes and the kernel do and in whatever order,
  the descriptors that worker `i` has received, and then those on their way to
  it, are those of the clients `i`, `i + n`, `i + 2n` and so on in their order,
  but for the failed calls of `send_fd_by_socket`. Of a worker that has closed its
  end they are the first ones, and the others are lost.
- `hangsUp_iff`: a channel hangs up only when the master and all the later
  workers have ended, for these have got the master's end when they were forked.
- `stops_within`: once a worker has gone the master gives out no more than `n`
  connections, unless `sendmsg` fails before it looks at the other end.
- `blocked_delivered`: when everybody waits, whatever has been left over has been
  left by a call that failed with something other than `EAGAIN`.
-/

namespace Artorias

/-! ## The ends after `fork` -/

theorem worker_not_mem_masters (i n : Nat) : SocketEnd.worker i ∉ (List.range n).map .master := by
  intro h
  obtain ⟨k, -, hk⟩ := List.mem_map.mp h
  cases hk

theorem master_mem_masters {i n : Nat} : SocketEnd.master i ∈ (List.range n).map .master
    ↔ i < n := by
  constructor
  · intro h
    obtain ⟨k, hk, he⟩ := List.mem_map.mp h
    cases he
    exact List.mem_range.mp hk
  · intro h
    exact List.mem_map.mpr ⟨i, List.mem_range.mpr h, rfl⟩

/-- What the loop of forks leaves: the master has its end of every pair, and each child its
own end and the master's ends of the pairs before it, which were open when it was forked. -/
theorem forkWorkers_eq (n : Nat) : forkWorkers n = ⟨(List.range n).map .master,
    (List.range n).map fun i => (List.range i).map .master ++ [.worker i]⟩ := by
  induction n with
  | zero => rfl
  | succ n ih =>
      have hmaster : SocketEnd.master n ∉ (List.range n).map .master := fun h =>
        Nat.lt_irrefl n (master_mem_masters.mp h)
      have hworker := worker_not_mem_masters n n
      rw [forkWorkers, List.range_succ, List.foldl_append, ← forkWorkers, ih]
      simp [forkWorker, List.erase_append_right _ hmaster, List.erase_append_right _ hworker]

namespace MwServer

variable {lua : Lua} {n room : Nat} {s s' : MwServer} {i : Nat}

/-- Who has which end: the master, while it is there, its own of every pair, and worker `k`,
while it is there, the master's of the pairs before its own. -/
structure EndsAt (n : Nat) (s : MwServer) : Prop where
  masters : ∀ i < n, .master i ∈ s.ends .master ↔ s.master.isSome
  workers : ∀ i k, k < n → (.master i ∈ s.ends (.worker k) ↔ i < k ∧ (s.workers k).isSome)
  absent : ∀ i k, n ≤ k → .master i ∉ s.ends (.worker k)
  others : ∀ k, n ≤ k → ¬(s.workers k).isSome

theorem Started.endsAt (h : Started n s) : EndsAt n s := by
  have hchild : ∀ k, k < n → s.ends (.worker k) = (List.range k).map .master ++ [.worker k] := by
    intro k hk
    rw [h.workerEnds, forkWorkers_eq]
    simp [hk]
  constructor
  · intro i hi
    obtain ⟨m, hm, -⟩ := h.master
    rw [h.masterEnds, forkWorkers_eq, hm]
    exact iff_of_true (master_mem_masters.mpr hi) rfl
  · intro i k hk
    obtain ⟨p, hp, -⟩ := h.workers k hk
    rw [hchild k hk, hp]
    simp
  · intro i k hk
    rw [h.workerEnds, forkWorkers_eq]
    simp [hk]
  · intro k hk
    rw [h.others k hk]
    exact Bool.false_ne_true

theorem EndsAt.congr (h : EndsAt n s) (hends : s'.ends = s.ends)
    (hmaster : s'.master.isSome = s.master.isSome)
    (hworkers : ∀ k, (s'.workers k).isSome = (s.workers k).isSome) : EndsAt n s' := by
  constructor
  · intro i hi
    rw [hends, hmaster]
    exact h.masters i hi
  · intro i k hk
    rw [hends, hworkers]
    exact h.workers i k hk
  · intro i k hk
    rw [hends]
    exact h.absent i k hk
  · intro k hk
    rw [hworkers]
    exact h.others k hk

theorem setWorker_isSome {p q : WorkerProc} (hp : s.workers i = some p) (k : Nat) :
    ((s.setWorker i (some q)).workers k).isSome = (s.workers k).isSome := by
  by_cases hk : k = i
  · subst hk
    rw [setWorker_workers, Function.update_self, hp]
    rfl
  · rw [setWorker_workers, Function.update_of_ne hk]

/-- The master has ended, and with it its ends are closed; what the workers have is as it
was. -/
theorem EndsAt.without_master (h : EndsAt n s) :
    EndsAt n { s.setEnds .master [] with master := none } := by
  constructor
  · intro i hi
    simp
  · intro i k hk
    simpa using h.workers i k hk
  · intro i k hk
    simpa using h.absent i k hk
  · intro k hk
    exact h.others k hk

theorem EndsAt.without_worker (h : EndsAt n s) (j : Nat) :
    EndsAt n ((s.setWorker j none).closeEnd j []) := by
  constructor
  · intro i hi
    simpa using h.masters i hi
  · intro i k hk
    by_cases hkj : k = j
    · subst hkj
      simp
    · simpa [hkj] using h.workers i k hk
  · intro i k hk
    by_cases hkj : k = j
    · subst hkj
      simp
    · simpa [hkj] using h.absent i k hk
  · intro k hk
    by_cases hkj : k = j
    · subst hkj
      simp
    · simpa [hkj] using h.others k hk

/-- A worker closes its own end, as `handle_fd_error` does, and keeps the master's ends that
it has. -/
theorem EndsAt.hangUp (h : EndsAt n s) {p q : WorkerProc} {j : Nat} (hp : s.workers j = some p) :
    EndsAt n ((s.setWorker j (some q)).closeEnd j
      ((s.ends (.worker j)).filter (· ≠ .worker j))) := by
  have hsome := setWorker_isSome (q := q) hp
  have hmem : ∀ i k, SocketEnd.master i ∈ Function.update s.ends (.worker j)
      ((s.ends (.worker j)).filter (· ≠ .worker j)) (.worker k)
        ↔ .master i ∈ s.ends (.worker k) := by
    intro i k
    by_cases hk : k = j
    · subst hk
      rw [Function.update_self]
      simp
    · rw [Function.update_of_ne fun he => hk (Proc.worker.inj he)]
  constructor
  · intro i hi
    simpa using h.masters i hi
  · intro i k hk
    rw [closeEnd_workers, hsome k]
    exact (hmem i k).trans (h.workers i k hk)
  · intro i k hk
    exact fun hm => h.absent i k hk ((hmem i k).mp hm)
  · intro k hk
    rw [closeEnd_workers, hsome k]
    exact h.others k hk

theorem Step.endsAt (h : Step lua n room s s') (hs : EndsAt n s) : EndsAt n s' := by
  cases h with
  | connect | unserved => exact hs.congr rfl rfl fun _ => rfl
  | masterWakes _ hm _ _ => exact hs.congr rfl (by rw [hm]; rfl) fun _ => rfl
  | accept hm _ _ _ _ => exact hs.congr rfl (by rw [hm]; rfl) fun _ => rfl
  | acceptFails _ hm _ _ => exact hs.congr rfl (by rw [hm]; rfl) fun _ => rfl
  | send hm _ _ _ _ => exact hs.congr rfl (by rw [hm]; rfl) fun _ => rfl
  | sendFails hm _ _ => exact hs.congr rfl (by rw [hm]; rfl) fun _ => rfl
  | sigpipe _ _ _ => exact hs.without_master
  | close hm _ => exact hs.congr rfl (by rw [hm]; rfl) fun _ => rfl
  | masterEnds _ => exact hs.without_master
  | workerWakes hp _ _ _ _ => exact hs.congr rfl rfl (setWorker_isSome hp)
  | recv _ _ hp _ _ _ _ => exact hs.congr rfl rfl (setWorker_isSome hp)
  | recvFails _ hp _ _ => exact hs.congr rfl rfl (setWorker_isSome hp)
  | loop _ _ hp _ _ _ => exact hs.congr rfl rfl (setWorker_isSome hp)
  | hangUp _ _ hp _ _ _ _ _ _ _ => exact hs.hangUp hp
  | workerEnds _ => exact hs.without_worker _

theorem Reach.endsAt (h : Reach lua n room s) : EndsAt n s := by
  induction h with
  | start h => exact h.endsAt
  | step _ hstep ih => exact hstep.endsAt ih

theorem hangsUp_iff (h : Reach lua n room s) (hi : i < n) :
    s.HangsUp i ↔ s.master = none ∧ ∀ k, i < k → k < n → s.workers k = none := by
  have hs := h.endsAt
  simp only [← Option.not_isSome_iff_eq_none, HangsUp]
  constructor
  · intro hup
    exact ⟨fun hm => hup .master ((hs.masters i hi).mpr hm), fun k hik hk hw =>
      hup (.worker k) ((hs.workers i k hk).mpr ⟨hik, hw⟩)⟩
  · rintro ⟨hm, hw⟩ p hp
    cases p with
    | master => exact hm ((hs.masters i hi).mp hp)
    | worker k =>
        rcases Nat.lt_or_ge k n with hk | hk
        · obtain ⟨hik, hlive⟩ := (hs.workers i k hk).mp hp
          exact hw k hik hk hlive
        · exact hs.absent i k hk hp

theorem startServer_reach (lua : Lua) (room : Nat) {n : Nat} (hn : 0 < n) :
    Reach lua n room (startServer n) := .start (startServer_started hn)

/-- The master of two workers is gone, and as nobody else has its end of the second pair,
the second worker is told. -/
theorem hangsUp_last : ∃ s, Reach idleLua 2 1 s ∧ s.HangsUp 1 := by
  have h0 := startServer_reach idleLua 1 (n := 2) (by decide)
  have h1 := h0.step (.masterEnds rfl)
  refine ⟨_, h1, (hangsUp_iff h1 (by decide)).mpr ⟨rfl, fun k hk hk' => ?_⟩⟩
  exact absurd hk' (Nat.not_lt.mpr hk)

/-! ## What is dealt to whom -/

end MwServer

/-- The descriptor that `master_process` is about to send or to close. -/
def MasterAt.infd : MasterAt → Option Int
  | .send infd | .close infd => some infd
  | .epollWait | .accept => none

/-- What the master has in hand: it has sent the first `sent` connections, and
has no descriptor of one but `infd`. -/
structure Master.Hands (n taken sent : Nat) (m : Master) : Prop where
  turn : m.j = sent % n
  inHand : ∀ fd c, m.fds fd = some c → m.pc.infd = some fd
  send : ∀ infd, m.pc = .send infd → taken = sent + 1 ∧ m.fds infd = some sent
  done : (∀ infd, m.pc ≠ .send infd) → taken = sent

namespace Master.Hands

variable {n taken sent : Nat} {m : Master}

theorem onEvent (h : m.Hands n taken sent) (hpc : m.pc = .epollWait) (events : BitVec 32) :
    (m.onEvent events).Hands n taken sent := by
  have hfds : ∀ fd c, m.fds fd ≠ some c := fun fd c hfd => by
    have hin := h.inHand fd c hfd
    rw [hpc] at hin
    cases hin
  have hdone : taken = sent := h.done fun infd he => by
    rw [hpc] at he
    cases he
  rw [Master.onEvent]
  split
  · exact ⟨h.turn, fun fd c hfd => absurd hfd (hfds fd c), h.send, h.done⟩
  · exact ⟨h.turn, fun fd c hfd => absurd hfd (hfds fd c), fun infd he => (by cases he),
      fun _ => hdone⟩

/-- `accept` has returned `infd`: the connection behind it is the next one in order, and the
master has that one in hand. -/
theorem accepted (h : m.Hands n taken sent) (hpc : m.pc = .accept) (infd : Int) :
    ({ m with fds := Function.update m.fds infd (some taken) }.afterAccept (.ok infd)).Hands n
      (taken + 1) sent := by
  have hdone : taken = sent := h.done fun infd he => by
    rw [hpc] at he
    cases he
  refine ⟨h.turn, fun fd c hfd => ?_, fun fd he => ?_, fun hne => absurd rfl (hne infd)⟩
  · by_cases heq : fd = infd
    · rw [heq]
      rfl
    · have hold : m.fds fd = some c := by simpa [heq] using hfd
      have hin := h.inHand fd c hold
      rw [hpc] at hin
      cases hin
  · cases he
    exact ⟨by rw [hdone], by simp [hdone]⟩

theorem refused (h : m.Hands n taken sent) (hpc : m.pc = .accept) (e : Errno) :
    (m.afterAccept (.error e)).Hands n taken sent := by
  refine ⟨h.turn, fun fd c hfd => ?_, fun infd he => (by cases he),
    fun _ => h.done fun infd he => ?_⟩
  · have hin := h.inHand fd c hfd
    rw [hpc] at hin
    cases hin
  · rw [hpc] at he
    cases he

theorem afterSend (h : m.Hands n taken sent) {infd : Int} (hpc : m.pc = .send infd) :
    (m.afterSend n infd).Hands n taken (sent + 1) := by
  refine ⟨?_, fun fd c hfd => ?_, fun infd he => (by cases he), fun _ => (h.send infd hpc).1⟩
  · change (m.j + 1) % n = (sent + 1) % n
    rw [h.turn, Nat.mod_add_mod]
  · have hin := h.inHand fd c hfd
    rwa [hpc] at hin

theorem afterClose (h : m.Hands n taken sent) {infd : Int} (hpc : m.pc = .close infd) :
    (m.afterClose infd).Hands n taken sent := by
  have hdone : taken = sent := h.done fun infd he => by
    rw [hpc] at he
    cases he
  refine ⟨h.turn, fun fd c hfd => ?_, fun infd he => (by cases he), fun _ => hdone⟩
  by_cases heq : fd = infd
  · subst heq
    rw [afterClose_fds, Function.update_self] at hfd
    cases hfd
  · have hold : m.fds fd = some c := by rwa [afterClose_fds, Function.update_of_ne heq] at hfd
    have hin := h.inHand fd c hold
    rw [hpc] at hin
    exact absurd (Option.some.inj hin).symm heq

end Master.Hands

namespace MwServer

variable {lua : Lua} {n room : Nat} {s s' : MwServer} {i : Nat}

theorem Step.listens (h : Step lua n room s s') (hs' : s'.Listens i) : s.Listens i := by
  have hmaster : SocketEnd.worker i ∈ Function.update s.ends .master [] (.worker i) → s.Listens i :=
    fun hm => by rwa [Function.update_of_ne Proc.noConfusion] at hm
  have hworker : ∀ j es, (∀ e ∈ es, e ∈ s.ends (.worker j)) →
      SocketEnd.worker i ∈ Function.update s.ends (.worker j) es (.worker i) → s.Listens i := by
    intro j es hsub hm
    by_cases hij : i = j
    · subst hij
      rw [Function.update_self] at hm
      exact hsub _ hm
    · rwa [Function.update_of_ne fun he => hij (Proc.worker.inj he)] at hm
  cases h with
  | connect | unserved | masterWakes | accept | acceptFails | send | sendFails | close
  | workerWakes | recv | recvFails | loop => exact hs'
  | sigpipe _ _ _ => exact hmaster hs'
  | masterEnds _ => exact hmaster hs'
  | hangUp _ _ _ _ _ _ _ _ _ _ => exact hworker _ _ (fun _ he => List.mem_of_mem_filter he) hs'
  | workerEnds _ => exact hworker _ _ (fun _ he => absurd he List.not_mem_nil) hs'

theorem Serves.of_master {m m' : Master} (hs' : s'.Serves) (hm' : s'.master = some m')
    (hworkers : s'.workers = s.workers) (hm : s.master = some m)
    (hsocket : m'.socket = true → m.socket = true) : s.Serves := by
  rw [Serves, hm', hworkers] at hs'
  refine hs'.imp_left ?_
  rintro ⟨_, ⟨⟩, hx⟩
  exact ⟨m, hm, hsocket hx⟩

/-- Whoever has the listening socket now has had it before: it is closed in one process
after another, and opened in none. -/
theorem Step.serves (h : Step lua n room s s') (hs' : s'.Serves) : s.Serves := by
  have hworker : ∀ i p, (∃ j q, Function.update s.workers i p j = some q) →
      (p.isSome → (s.workers i).isSome) → ∃ j q, s.workers j = some q := by
    rintro i p ⟨j, q, hj⟩ hsome
    by_cases hij : j = i
    · subst hij
      rw [Function.update_self] at hj
      exact ⟨j, Option.isSome_iff_exists.mp (hsome (by rw [hj]; rfl))⟩
    · rw [Function.update_of_ne hij] at hj
      exact ⟨j, q, hj⟩
  cases h with
  | connect | unserved => exact hs'
  | masterWakes events hm _ _ =>
      refine hs'.of_master rfl rfl hm ?_
      rw [Master.onEvent]
      split
      · exact nofun
      · exact id
  | accept hm _ _ _ _ => exact hs'.of_master rfl rfl hm id
  | acceptFails _ hm _ _ => exact hs'.of_master rfl rfl hm id
  | send hm _ _ _ _ => exact hs'.of_master rfl rfl hm id
  | sendFails hm _ _ => exact hs'.of_master rfl rfl hm id
  | close hm _ => exact hs'.of_master rfl rfl hm id
  | sigpipe _ _ _ => exact .inr (hs'.resolve_left nofun)
  | masterEnds _ => exact .inr (hs'.resolve_left nofun)
  | workerWakes hp _ _ _ _ => exact hs'.imp_right fun h => hworker _ _ h fun _ => by rw [hp]; rfl
  | recv _ _ hp _ _ _ _ => exact hs'.imp_right fun h => hworker _ _ h fun _ => by rw [hp]; rfl
  | recvFails _ hp _ _ => exact hs'.imp_right fun h => hworker _ _ h fun _ => by rw [hp]; rfl
  | loop _ _ hp _ _ _ => exact hs'.imp_right fun h => hworker _ _ h fun _ => by rw [hp]; rfl
  | hangUp _ _ hp _ _ _ _ _ _ _ =>
      exact hs'.imp_right fun h => hworker _ _ h fun _ => by rw [hp]; rfl
  | workerEnds hp => exact hs'.imp_right fun h => hworker _ _ h fun _ => by rw [hp]; rfl

/-- The connections of worker `i` among those that have been sent. -/
def share (n sent : Nat) (failed : List Nat) (i : Nat) : List Nat :=
  (List.range sent).filter fun c => c % n = i ∧ c ∉ failed

theorem share_sent {sent : Nat} {failed : List Nat} (h : ∀ c ∈ failed, c < sent) (i : Nat) :
    share n (sent + 1) failed i = share n sent failed i ++ if sent % n = i then [sent] else [] := by
  have hnew : sent ∉ failed := fun hm => Nat.lt_irrefl sent (h sent hm)
  rw [share, List.range_succ, List.filter_append, ← share]
  by_cases hi : sent % n = i <;> simp [hi, hnew]

/-- A connection whose `sendmsg` has failed is in nobody's share. -/
theorem share_failed (sent : Nat) (failed : List Nat) (i : Nat) :
    share n (sent + 1) (failed ++ [sent]) i = share n sent failed i := by
  rw [share, List.range_succ, List.filter_append, share]
  simp only [List.mem_append, List.mem_singleton, List.filter_cons, List.filter_nil]
  rw [if_neg (by simp), List.append_nil]
  refine List.filter_congr fun c hc => ?_
  have hne : c ≠ sent := Nat.ne_of_lt (List.mem_range.mp hc)
  simp [hne]

/-- Of what worker `i` was sent it has received the first part, and the rest is on its way
or, once the worker has closed its end, is lost. -/
def Keeps (n : Nat) (s : MwServer) (i : Nat) : Prop :=
  ∃ lost, s.got i ++ (s.chan i).queue ++ lost = share n s.sent s.failed i
    ∧ (s.Listens i → lost = []) ∧ (¬s.Listens i → (s.chan i).queue = [])

theorem Keeps.closeEnd {j : Nat} {es : List SocketEnd} (h : Keeps n s j)
    (hes : .worker i ∉ es) : Keeps n (s.closeEnd i es) j := by
  obtain ⟨lost, hshare, hnone, hgone⟩ := h
  by_cases hj : j = i
  · subst hj
    have hclosed : ¬(s.closeEnd j es).Listens j := by
      rwa [Listens, closeEnd_ends, Function.update_self]
    have hempty : ((s.closeEnd j es).chan j).queue = [] := by
      rw [closeEnd_chan, Function.update_self]
      rfl
    refine ⟨(s.chan j).queue ++ lost, ?_, fun hl => absurd hl hclosed, fun _ => hempty⟩
    rw [hempty, List.append_nil, ← List.append_assoc]
    exact hshare
  · have hlistens : (s.closeEnd i es).Listens j ↔ s.Listens j := by
      rw [Listens, closeEnd_ends, Function.update_of_ne fun he => hj (Proc.worker.inj he)]
      rfl
    have hsame : (s.closeEnd i es).chan j = s.chan j := Function.update_of_ne hj ..
    refine ⟨lost, ?_, fun hl => hnone (hlistens.mp hl), fun hl => ?_⟩
    · rw [hsame]
      exact hshare
    · rw [hsame]
      exact hgone fun hl' => hl (hlistens.mpr hl')

/-- A step in which somebody else is sent a descriptor, or nobody is, leaves what worker `i`
has received and is going to. -/
theorem Keeps.congr {j : Nat} (h : Keeps n s j) (hgot : s'.got j = s.got j)
    (hchan : (s'.chan j).queue = (s.chan j).queue) (hlistens : s'.Listens j ↔ s.Listens j)
    (hshare : share n s'.sent s'.failed j = share n s.sent s.failed j) : Keeps n s' j := by
  rw [Keeps, hgot, hchan, hlistens, hshare]
  exact h

structure Dealt (n : Nat) (s : MwServer) : Prop where
  waiting : s.Serves → s.backlog.queue = List.range' s.taken (s.arrived - s.taken)
  arrived : s.taken ≤ s.arrived
  sent : s.sent ≤ s.taken ∧ s.taken ≤ s.sent + 1
  master : ∀ m, s.master = some m → m.Hands n s.taken s.sent
  keeps : ∀ i, Keeps n s i
  failed : ∀ c ∈ s.failed, c < s.sent

theorem Started.dealt (h : Started n s) : Dealt n s := by
  refine ⟨?_, ?_, ?_, fun m hm => ?_, fun i => ?_, fun c hc => ?_⟩
  · rw [h.backlog, h.arrived, h.taken]
    exact fun _ => rfl
  · rw [h.taken]
    exact Nat.zero_le _
  · rw [h.taken, h.sent]
    exact ⟨Nat.le_refl _, Nat.zero_le _⟩
  · obtain ⟨m', hm', hpc, hj, hfds⟩ := h.master
    rw [hm', Option.some.injEq] at hm
    subst hm
    refine ⟨?_, fun fd c hfd => ?_, fun infd he => ?_, fun _ => ?_⟩
    · rw [hj, h.sent, Nat.zero_mod]
    · rw [hfds fd] at hfd
      cases hfd
    · rw [hpc] at he
      cases he
    · rw [h.taken, h.sent]
  · refine ⟨[], ?_, fun _ => rfl, fun _ => congrArg EdgeQueue.queue (h.chan i)⟩
    rw [h.got, h.chan, h.sent]
    rfl
  · rw [h.failed] at hc
    cases hc

/-- A step that takes nothing from anybody and sends nothing leaves the deal as it is; what
it does to the master and to each worker is asked for. -/
theorem Dealt.congr (h : Dealt n s) (hserves : s'.Serves → s.Serves)
    (hbacklog : s'.backlog.queue = s.backlog.queue)
    (harrived : s'.arrived = s.arrived) (htaken : s'.taken = s.taken) (hsent : s'.sent = s.sent)
    (hfailed : s'.failed = s.failed) (hkeeps : ∀ i, Keeps n s i → Keeps n s' i)
    (hmaster : ∀ m, s'.master = some m → m.Hands n s.taken s.sent) : Dealt n s' := by
  refine ⟨fun hs => ?_, ?_, ?_, ?_, fun i => hkeeps i (h.keeps i), ?_⟩
  · rw [hbacklog, htaken, harrived, h.waiting (hserves hs)]
  · rw [htaken, harrived]
    exact h.arrived
  · rw [htaken, hsent]
    exact h.sent
  · rwa [htaken, hsent]
  · rw [hfailed, hsent]
    exact h.failed

theorem Dealt.connect (h : Dealt n s) (hs : s.Serves) : Dealt n
    { s with backlog := s.backlog.push s.arrived, arrived := s.arrived + 1 } := by
  have hle := h.arrived
  refine ⟨fun _ => ?_, Nat.le_succ_of_le hle, h.sent, h.master, h.keeps, h.failed⟩
  have hcount : s.arrived + 1 - s.taken = s.arrived - s.taken + 1 := by omega
  have hlast : s.taken + (s.arrived - s.taken) = s.arrived := by omega
  change s.backlog.queue ++ [s.arrived] = List.range' s.taken (s.arrived + 1 - s.taken)
  rw [hcount, List.range'_concat, h.waiting hs, Nat.one_mul, hlast]

/-- As long as somebody listens, the connections wait in the order of their numbers, and so
the one that is accepted is the next. -/
theorem Dealt.head (h : Dealt n s) (hs : s.Serves) {c : Nat}
    (hc : s.backlog.queue.head? = some c) :
    c = s.taken ∧ s.taken < s.arrived
      ∧ s.backlog.rest.queue = List.range' (s.taken + 1) (s.arrived - (s.taken + 1)) := by
  have hw := h.waiting hs
  rcases Nat.eq_or_lt_of_le h.arrived with heq | hlt
  · rw [hw, heq, Nat.sub_self] at hc
    cases hc
  · have hcount : s.arrived - s.taken = s.arrived - (s.taken + 1) + 1 := by omega
    rw [hcount, List.range'_succ] at hw
    rw [hw] at hc
    rw [EdgeQueue.rest, hw]
    exact ⟨(Option.some.inj hc).symm, hlt, rfl⟩

theorem Dealt.accept (h : Dealt n s) {m : Master} {infd : Int} {c : Nat} (hm : s.master = some m)
    (hpc : m.pc = .accept) (hsocket : m.socket = true)
    (hc : s.backlog.queue.head? = some c) : Dealt n { s with
      master := some ({ m with fds := Function.update m.fds infd (some c) }.afterAccept (.ok infd))
      backlog := s.backlog.rest
      taken := s.taken + 1 } := by
  obtain ⟨rfl, hlt, hrest⟩ := h.head (.inl ⟨m, hm, hsocket⟩) hc
  have hhands := h.master m hm
  have hdone : s.taken = s.sent := hhands.done fun infd he => by
    rw [hpc] at he
    cases he
  have hle : s.sent ≤ s.taken + 1 ∧ s.taken + 1 ≤ s.sent + 1 := by omega
  refine ⟨fun _ => hrest, hlt, hle, fun m' hm' => ?_, h.keeps, h.failed⟩
  cases hm'
  exact hhands.accepted hpc infd

theorem Dealt.send (h : Dealt n s) {m : Master} {infd : Int} {c : Nat} (hm : s.master = some m)
    (hpc : m.pc = .send infd) (hc : m.fds infd = some c) (hl : s.Listens m.j) : Dealt n
      { s.setChan m.j ((s.chan m.j).push c) with
        master := some (m.afterSend n infd)
        sent := s.sent + 1 } := by
  have hhands := h.master m hm
  obtain ⟨htaken, hfd⟩ := hhands.send infd hpc
  rw [hfd, Option.some.injEq] at hc
  subst hc
  have hle : s.sent + 1 ≤ s.taken ∧ s.taken ≤ s.sent + 1 + 1 := by omega
  refine ⟨fun hs => h.waiting (hs.of_master rfl rfl hm id), h.arrived, hle, fun m' hm' => ?_,
    fun i => ?_,
    fun c hc => Nat.lt_succ_of_lt (h.failed c hc)⟩
  · cases hm'
    exact hhands.afterSend hpc
  have hshare := share_sent (n := n) h.failed i
  rw [← hhands.turn] at hshare
  by_cases hi : i = m.j
  · subst hi
    obtain ⟨lost, hkeeps, hnone, -⟩ := h.keeps m.j
    obtain rfl := hnone hl
    refine ⟨[], ?_, fun _ => rfl, fun hnot => absurd hl hnot⟩
    change s.got m.j ++ (Function.update s.chan m.j _ m.j).queue ++ []
      = share n (s.sent + 1) s.failed m.j
    rw [hshare, if_pos rfl, ← hkeeps, Function.update_self]
    simp [EdgeQueue.push]
  · rw [if_neg (Ne.symm hi), List.append_nil] at hshare
    exact (h.keeps i).congr rfl
      (congrArg EdgeQueue.queue (Function.update_of_ne hi ..)) Iff.rfl hshare

theorem Dealt.sendFails (h : Dealt n s) {m : Master} {infd : Int} {c : Nat} (hm : s.master = some m)
    (hpc : m.pc = .send infd) (hc : m.fds infd = some c) : Dealt n { s with
        master := some (m.afterSend n infd)
        sent := s.sent + 1
        failed := s.failed ++ [c] } := by
  have hhands := h.master m hm
  obtain ⟨htaken, hfd⟩ := hhands.send infd hpc
  rw [hfd, Option.some.injEq] at hc
  subst hc
  have hle : s.sent + 1 ≤ s.taken ∧ s.taken ≤ s.sent + 1 + 1 := by omega
  refine ⟨fun hs => h.waiting (hs.of_master rfl rfl hm id), h.arrived, hle, fun m' hm' => ?_,
    fun i => ?_,
    fun c hc => ?_⟩
  · cases hm'
    exact hhands.afterSend hpc
  · exact (h.keeps i).congr rfl rfl Iff.rfl (share_failed s.sent s.failed i)
  · rcases List.mem_append.mp hc with hc | hc
    · exact Nat.lt_succ_of_lt (h.failed c hc)
    · rw [List.mem_singleton.mp hc]
      exact Nat.lt_succ_self _

theorem Keeps.received {p : WorkerProc} {w : MwWorker} {c : Nat}
    (hc : (s.chan i).queue.head? = some c) (hl : s.Listens i) {j : Nat} (h : Keeps n s j) :
    Keeps n (s.received i p w c) j := by
  by_cases hj : j = i
  · subst hj
    obtain ⟨cs, hcs⟩ := List.head?_eq_some_iff.mp hc
    obtain ⟨lost, hshare, hnone, -⟩ := h
    refine ⟨lost, ?_, hnone, fun hnot => absurd hl hnot⟩
    rw [hcs] at hshare
    refine Eq.trans ?_ hshare
    simp [MwServer.received, setChan, EdgeQueue.rest, hcs]
  · refine h.congr ?_ ?_ Iff.rfl rfl
    · exact Function.update_of_ne hj ..
    · exact congrArg EdgeQueue.queue (Function.update_of_ne hj ..)

theorem Keeps.wakes {q : Option WorkerProc} {j : Nat} (h : Keeps n s j) :
    Keeps n ((s.setWorker i q).setChan i (s.chan i).wake) j := by
  refine h.congr rfl ?_ Iff.rfl rfl
  by_cases hj : j = i
  · subst hj
    rw [setChan_chan, Function.update_self]
    rfl
  · exact congrArg EdgeQueue.queue (Function.update_of_ne hj ..)

theorem Keeps.without_master {j : Nat} (h : Keeps n s j) :
    Keeps n { s.setEnds .master [] with master := none } j := by
  refine h.congr rfl rfl ?_ rfl
  rw [Listens, setEnds_ends, Function.update_of_ne Proc.noConfusion]
  rfl

theorem Step.dealt (h : Step lua n room s s') (hs : Dealt n s) : Dealt n s' := by
  have hserves := h.serves
  have hsame : ∀ i, Keeps n s i → Keeps n s i := fun _ => id
  cases h with
  | connect hs' => exact hs.connect hs'
  | unserved hno =>
      exact ⟨fun hserves => absurd hserves hno, hs.arrived, hs.sent, hs.master, hs.keeps, hs.failed⟩
  | masterWakes events hm hpc _ =>
      refine hs.congr hserves rfl rfl rfl rfl rfl hsame fun m' hm' => ?_
      cases hm'
      exact (hs.master _ hm).onEvent hpc events
  | accept hm hpc hsocket hc _ => exact hs.accept hm hpc hsocket hc
  | acceptFails e hm hpc _ =>
      refine hs.congr hserves rfl rfl rfl rfl rfl hsame fun m' hm' => ?_
      cases hm'
      exact (hs.master _ hm).refused hpc e
  | send hm hpc hc hl _ => exact hs.send hm hpc hc hl
  | sendFails hm hpc hc => exact hs.sendFails hm hpc hc
  | sigpipe _ _ _ => exact hs.congr hserves rfl rfl rfl rfl rfl (fun _ => .without_master) nofun
  | close hm hpc =>
      refine hs.congr hserves rfl rfl rfl rfl rfl hsame fun m' hm' => ?_
      cases hm'
      exact (hs.master _ hm).afterClose hpc
  | masterEnds _ => exact hs.congr hserves rfl rfl rfl rfl rfl (fun _ => .without_master) nofun
  | workerWakes _ _ _ _ _ => exact hs.congr hserves rfl rfl rfl rfl rfl (fun _ => .wakes) hs.master
  | recv _ _ _ _ hl hc _ =>
      exact hs.congr hserves rfl rfl rfl rfl rfl (fun _ => .received hc hl) hs.master
  | recvFails _ _ _ _ => exact hs.congr hserves rfl rfl rfl rfl rfl hsame hs.master
  | loop _ _ _ _ _ _ => exact hs.congr hserves rfl rfl rfl rfl rfl hsame hs.master
  | @hangUp i p w _ _ _ _ _ _ _ _ _ _ =>
      refine hs.congr hserves rfl rfl rfl rfl rfl (fun j hj => ?_) hs.master
      exact Keeps.closeEnd (s := s.setWorker i (some { p with mw := w })) hj (by simp)
  | @workerEnds i _ _ =>
      refine hs.congr hserves rfl rfl rfl rfl rfl (fun j hj => ?_) hs.master
      exact Keeps.closeEnd (s := s.setWorker i none) hj List.not_mem_nil

theorem Reach.dealt (h : Reach lua n room s) : Dealt n s := by
  induction h with
  | start h => exact h.dealt
  | step _ hstep ih => exact hstep.dealt ih

theorem Reach.pos (h : Reach lua n room s) : 0 < n := by
  induction h with
  | start h => exact h.pos
  | step _ _ ih => exact ih

/-- Of the connections those that have been sent are with their workers or on the way to
them, in their order. Of a worker that has closed its end, they are with it up to one, and
those after that are lost. The rest waits to be accepted, but for one that the master may
have in hand, or may have had when it was killed. -/
theorem deals_in_turn (h : Reach lua n room s) :
    (∀ i, ∃ lost, s.got i ++ (s.chan i).queue ++ lost
          = ((List.range s.sent).filter fun c => c % n = i ∧ c ∉ s.failed)
        ∧ (s.Listens i → lost = []) ∧ (¬s.Listens i → (s.chan i).queue = []))
      ∧ (s.Serves → s.backlog.queue = List.range' s.taken (s.arrived - s.taken))
      ∧ (s.taken = s.sent ∨ s.taken = s.sent + 1 ∧ ∀ m, s.master = some m →
          ∃ infd, m.pc = .send infd ∧ m.fds infd = some s.sent)
      ∧ ∀ m, s.master = some m → ∀ fd c, m.fds fd = some c → m.pc.infd = some fd := by
  have hs := h.dealt
  refine ⟨hs.keeps, hs.waiting, ?_, fun m hm => (hs.master m hm).inHand⟩
  obtain ⟨hle, hle'⟩ := hs.sent
  rcases Nat.eq_or_lt_of_le hle with heq | hlt
  · exact .inl heq.symm
  · refine .inr ⟨Nat.le_antisymm hle' hlt, fun m hm => ?_⟩
    by_contra hnot
    have hdone := (hs.master m hm).done fun infd hpc =>
      hnot ⟨infd, hpc, ((hs.master m hm).send infd hpc).2⟩
    exact Nat.ne_of_gt hlt hdone

/-- Three connections and two workers: the first worker ends when it has received one
descriptor, and the other that it was sent is lost. -/
theorem deals_in_turn_three : ∃ s, Reach idleLua 2 2 s ∧ s.got 1 ++ (s.chan 1).queue = [1]
    ∧ s.got 0 = [0] ∧ s.got 0 ++ [2] = (List.range s.sent).filter fun c => c % 2 = 0 := by
  have h0 := startServer_reach idleLua 2 (n := 2) (by decide)
  have hserves : ∀ s : MwServer, s.master = (startServer 2).master → s.Serves := fun s h =>
    .inl ⟨_, h, rfl⟩
  have h3 := ((h0.step (.connect (hserves _ rfl))).step (.connect (hserves _ rfl))).step
    (.connect (hserves _ rfl))
  have hwake := h3.step (.masterWakes epollIn rfl rfl fun _ => rfl)
  have hsend0 := (hwake.step (@Step.accept _ _ _ _ _ 9 _ rfl rfl rfl rfl rfl)).step
    (.send rfl rfl rfl (by decide) (by decide))
  have hsend1 := ((hsend0.step (.close rfl rfl)).step
    (@Step.accept _ _ _ _ _ 9 _ rfl rfl rfl rfl rfl)).step
    (.send rfl rfl rfl (by decide) (by decide))
  have hsend2 := ((hsend1.step (.close rfl rfl)).step
    (@Step.accept _ _ _ _ _ 9 _ rfl rfl rfl rfl rfl)).step
    (.send rfl rfl rfl (by decide) (by decide))
  have hup : ∀ s : MwServer, .master 0 ∈ s.ends .master → ¬s.HangsUp 0 := fun s hm h => h .master hm
  have hwoken := hsend2.step (.workerWakes (i := 0) rfl rfl (by decide) rfl (hup _ (by decide)))
  obtain ⟨w, hw⟩ : ∃ w, acceptConn idleLua 8 startWorker ⟨4, some 10, true, some 20⟩ = .ok w :=
    ⟨_, rfl⟩
  have hrecv := hwoken.step (.recv (i := 0) 8 _ rfl rfl (by decide) rfl hw)
  have hend := hrecv.step (.workerEnds (i := 0) rfl)
  obtain ⟨hshare, -⟩ := deals_in_turn hend
  obtain ⟨lost, hlost, hnone, -⟩ := hshare 1
  obtain rfl := hnone (show _ ∈ [SocketEnd.master 0, .worker 1] from .tail _ (.head _))
  exact ⟨_, hend, (List.append_nil _).symm.trans hlost, rfl, rfl⟩

/-! ## A worker that has gone -/

/-- A step sends nothing, or it sends the next connection to a worker that listens, or its
`sendmsg` fails and the connection counts as failed. -/
theorem Step.sends (h : Step lua n room s s') (hs : Dealt n s) :
    (s'.sent = s.sent ∧ s'.failed = s.failed)
      ∨ (s'.sent = s.sent + 1 ∧ s'.failed = s.failed ∧ s.Listens (s.sent % n))
      ∨ (s'.sent = s.sent + 1 ∧ s'.failed = s.failed ++ [s.sent]) := by
  cases h with
  | send hm hpc _ hl _ => exact .inr (.inl ⟨rfl, rfl, (hs.master _ hm).turn ▸ hl⟩)
  | sendFails hm hpc hc =>
      obtain ⟨-, hfd⟩ := (hs.master _ hm).send _ hpc
      rw [hfd, Option.some.injEq] at hc
      subst hc
      exact .inr (.inr ⟨rfl, rfl⟩)
  | connect | unserved | masterWakes | accept | acceptFails | sigpipe | close | masterEnds
  | workerWakes | recv | recvFails | loop | hangUp | workerEnds => exact .inl ⟨rfl, rfl⟩

theorem gone_gets_nothing (h : Reach lua n room s) (hgone : ¬s.Listens i)
    (hrun : Relation.ReflTransGen (Step lua n room) s s') :
    Reach lua n room s' ∧ ¬s'.Listens i
      ∧ ∀ c, s.sent ≤ c → c < s'.sent → c % n = i → c ∈ s'.failed := by
  induction hrun with
  | refl => exact ⟨h, hgone, fun c hle hlt _ => absurd hlt (Nat.not_lt.mpr hle)⟩
  | @tail s1 s2 _ hstep ih =>
      obtain ⟨h1, hgone1, hfailed⟩ := ih
      refine ⟨.step h1 hstep, fun hl => hgone1 (hstep.listens hl), fun c hle hlt hc => ?_⟩
      rcases hstep.sends h1.dealt with ⟨hsent, hf⟩ | ⟨hsent, hf, hl⟩ | ⟨hsent, hf⟩
      · rw [hf]
        exact hfailed c hle (hsent ▸ hlt) hc
      · rw [hf]
        rcases Nat.lt_or_eq_of_le (Nat.le_of_lt_succ (hsent ▸ hlt)) with hlt' | rfl
        · exact hfailed c hle hlt' hc
        · exact absurd (hc ▸ hl) hgone1
      · rw [hf]
        rcases Nat.lt_or_eq_of_le (Nat.le_of_lt_succ (hsent ▸ hlt)) with hlt' | rfl
        · exact List.mem_append_left _ (hfailed c hle hlt' hc)
        · exact List.mem_append_right _ (.head _)

theorem exists_turn (hi : i < n) (a : Nat) : ∃ c, a ≤ c ∧ c < a + n ∧ c % n = i := by
  have hmod : a % n < n := Nat.mod_lt _ (Nat.zero_lt_of_lt hi)
  have hdiv : n * (a / n) + a % n = a := Nat.div_add_mod a n
  rcases Nat.lt_or_ge i (a % n) with hlt | hge
  · refine ⟨n * (a / n + 1) + i, ?_, ?_, ?_⟩
    · rw [Nat.mul_add, Nat.mul_one]
      omega
    · rw [Nat.mul_add, Nat.mul_one]
      omega
    · rw [Nat.mul_add_mod, Nat.mod_eq_of_lt hi]
  · exact ⟨n * (a / n) + i, by omega, by omega, by rw [Nat.mul_add_mod, Nat.mod_eq_of_lt hi]⟩

/-- From the moment a worker has closed its end, the master accepts at most `n` connections
more, as long as no `sendmsg` fails in another way: when that worker's turn comes, `sendmsg`
raises `SIGPIPE`, which kills the master. -/
theorem stops_within (h : Reach lua n room s) (hi : i < n) (hgone : ¬s.Listens i)
    (hrun : Relation.ReflTransGen (Step lua n room) s s') (hfailed : s'.failed = s.failed) :
    s'.taken ≤ s.taken + n := by
  obtain ⟨h', -, hnone⟩ := gone_gets_nothing h hgone hrun
  obtain ⟨c, hle, hlt, hc⟩ := exists_turn hi s.sent
  have hsent : s'.sent ≤ c := by
    by_contra hnot
    have hmem := hnone c hle (Nat.lt_of_not_le hnot) hc
    rw [hfailed] at hmem
    exact absurd (h.dealt.failed c hmem) (Nat.not_lt.mpr hle)
  have h1 := h'.dealt.sent.2
  have h2 := h.dealt.sent.1
  omega

/-- The first of two workers has ended; a connection is accepted and sent to it, and the
master is killed. -/
theorem stops_within_two : ∃ s s', Reach idleLua 2 1 s ∧ ¬s.Listens 0
    ∧ Relation.ReflTransGen (Step idleLua 2 1) s s' ∧ s'.master = none
      ∧ s'.taken ≤ s.taken + 2 := by
  have h0 := (startServer_reach idleLua 1 (n := 2) (by decide)).step (.workerEnds (i := 0) rfl)
  have hgone : ¬((startServer 2).setWorker 0 none |>.closeEnd 0 []).Listens 0 := by decide
  have hconnect := @Step.connect idleLua 2 1 ((startServer 2).setWorker 0 none |>.closeEnd 0 [])
    (.inl ⟨_, rfl, rfl⟩)
  have hrun := ((Relation.ReflTransGen.refl.tail hconnect).tail
    (.masterWakes epollIn rfl rfl fun _ => rfl)).tail
      (@Step.accept _ _ _ _ _ 9 _ rfl rfl rfl rfl rfl)
  have hkilled := hrun.tail (.sigpipe rfl rfl (by decide))
  exact ⟨_, _, h0, hgone, hkilled, rfl, stops_within h0 (by decide) hgone hkilled rfl⟩

/-! ## When everybody waits -/

/-- No connection is left waiting where the master will not look: it is at it or has the
edge still to come, unless it has given up for another error than `EAGAIN` or no longer has
the socket. -/
def MasterAttends (s : MwServer) : Prop := ∀ m, s.master = some m →
  s.backlog.Attended (m.pc ≠ .epollWait ∨ m.errno = .other ∨ m.socket = false)

/-- No descriptor is left where its worker will not look: it is at it or has the edge still
to come, unless it has given up for another error than `EAGAIN` or no longer listens. -/
def WorkersAttend (s : MwServer) : Prop := ∀ i p, s.workers i = some p →
  (s.chan i).Attended (p.accepting = true ∨ p.errno = .other ∨ ¬s.Listens i)

theorem MasterAttends.of_busy {m : Master}
    (hm : m.pc ≠ .epollWait ∨ m.errno = .other ∨ m.socket = false) (hs : s.master = some m) :
    MasterAttends s := by
  intro m' hm'
  rw [hs, Option.some.injEq] at hm'
  subst hm'
  exact EdgeQueue.busy_attended _ hm

theorem Step.masterAttends (h : Step lua n room s s') (hs : MasterAttends s) :
    MasterAttends s' := by
  cases h with
  | connect _ => exact fun m _ => EdgeQueue.push_attended _ _ _
  | unserved _ => exact fun m _ => EdgeQueue.empty_attended _
  | masterWakes events _ _ _ =>
      refine .of_busy ?_ rfl
      rw [Master.onEvent]
      split
      · exact .inr (.inr rfl)
      · exact .inl (by simp)
  | accept _ _ _ _ _ => exact .of_busy (.inl (by simp [Master.afterAccept])) rfl
  | acceptFails e _ _ he =>
      cases e with
      | eagain => exact fun m _ => EdgeQueue.drained_attended (he rfl) _
      | other => exact .of_busy (.inr (.inl rfl)) rfl
  | send _ _ _ _ _ => exact .of_busy (.inl (by simp [Master.afterSend])) rfl
  | sendFails _ _ _ => exact .of_busy (.inl (by simp [Master.afterSend])) rfl
  | close _ _ => exact .of_busy (.inl (by simp [Master.afterClose])) rfl
  | sigpipe _ _ _ => exact fun m hm => by cases hm
  | masterEnds _ => exact fun m hm => by cases hm
  | workerWakes | recv | recvFails | loop | hangUp | workerEnds => exact hs

/-- A step that changes worker `i`, its queue and its end only: what it leaves of these is
asked for, and the other workers are as they were. -/
theorem WorkersAttend.update (hs : WorkersAttend s) (hworkers : ∀ j, j ≠ i →
      s'.workers j = s.workers j) (hchan : ∀ j, j ≠ i → s'.chan j = s.chan j)
    (hends : ∀ j, j ≠ i → s'.Listens j → s.Listens j) (hi : ∀ p, s'.workers i = some p →
      (s'.chan i).Attended (p.accepting = true ∨ p.errno = .other ∨ ¬s'.Listens i)) :
    WorkersAttend s' := by
  intro j p hp
  by_cases hj : j = i
  · subst hj
    exact hi p hp
  · rw [hworkers j hj] at hp
    rw [hchan j hj]
    refine (hs j p hp).imp fun hb => ?_
    rcases hb with hb | hb | hb
    · exact .inl hb
    · exact .inr (.inl hb)
    · exact .inr (.inr fun hl => hb (hends j hj hl))

/-- A step of the worker that is not about its queue leaves what the worker attends to. -/
theorem WorkersAttend.setWorker (hs : WorkersAttend s) {p : WorkerProc} (hp : s.workers i = some p)
    (w : MwWorker) : WorkersAttend (s.setWorker i (some { p with mw := w })) := by
  refine hs.update (i := i) (fun j hj => by simp [hj]) (fun _ _ => rfl) (fun _ _ hl => hl) ?_
  intro p' hp'
  obtain rfl : { p with mw := w } = p' := by simpa using hp'
  exact hs i p hp

theorem Step.workersAttend (h : Step lua n room s s') (hs : WorkersAttend s) :
    WorkersAttend s' := by
  cases h with
  | connect | unserved | masterWakes | accept | acceptFails | sendFails | close | sigpipe
  | masterEnds => exact hs
  | @send m _ _ _ _ _ _ _ =>
      refine hs.update (i := m.j) (fun _ _ => rfl) (fun j hj => by simp [hj]) (fun _ _ hl => hl) ?_
      intro p _
      simp only [setChan_chan, Function.update_self]
      exact EdgeQueue.push_attended _ _ _
  | @workerWakes i p _ _ _ _ _ =>
      refine hs.update (i := i) (fun j hj => by simp [hj]) (fun j hj => by simp [hj])
        (fun _ _ hl => hl) ?_
      intro p' hp'
      obtain rfl : { p with accepting := true } = p' := by simpa using hp'
      exact EdgeQueue.busy_attended _ (.inl rfl)
  | @recv i p w c _ _ _ ha _ _ _ =>
      refine hs.update (i := i) (fun j hj => by simp [received, hj])
        (fun j hj => by simp [received, hj]) (fun _ _ hl => hl) ?_
      intro p' hp'
      obtain rfl : { p with mw := w } = p' := by simpa [received] using hp'
      exact EdgeQueue.busy_attended _ (.inl ha)
  | @recvFails i p e _ _ he =>
      refine hs.update (i := i) (fun j hj => by simp [hj]) (fun _ _ => rfl) (fun _ _ hl => hl) ?_
      intro p' hp'
      obtain rfl : { p with accepting := false, errno := e } = p' := by simpa using hp'
      cases e with
      | eagain => exact EdgeQueue.drained_attended (he rfl).1 _
      | other => exact EdgeQueue.busy_attended _ (.inr (.inl rfl))
  | loop _ _ hp _ _ _ => exact hs.setWorker hp _
  | @hangUp i p w _ _ _ _ _ _ _ _ _ _ =>
      refine hs.update (i := i) (fun j hj => by simp [hj]) (fun j hj => by simp [hj])
        (fun j hj hl => ?_) ?_
      · simpa [Listens, hj] using hl
      · intro p' _
        exact EdgeQueue.busy_attended _ (.inr (.inr (by simp [Listens])))
  | @workerEnds i _ _ =>
      refine hs.update (i := i) (fun j hj => by simp [hj]) (fun j hj => by simp [hj])
        (fun j hj hl => ?_) ?_
      · simpa [Listens, hj] using hl
      · intro p' hp'
        simp at hp'

theorem Reach.attends (h : Reach lua n room s) : MasterAttends s ∧ WorkersAttend s := by
  induction h with
  | @start s h =>
      constructor
      · intro m _
        rw [h.backlog]
        exact EdgeQueue.empty_attended _
      · intro i p _
        rw [h.chan]
        exact EdgeQueue.empty_attended _
  | step _ hstep ih => exact ⟨hstep.masterAttends ih.1, hstep.workersAttend ih.2⟩

/-- As long as the master is there a worker closes its end only when it ends. -/
def EndsWith (s : MwServer) : Prop :=
  s.master.isSome → ∀ i, (s.workers i).isSome → s.Listens i

theorem Started.endsWith (h : Started n s) : EndsWith s := by
  intro _ i hi
  rcases Nat.lt_or_ge i n with hlt | hge
  · rw [Listens, h.workerEnds, forkWorkers_eq]
    simp [hlt]
  · rw [h.others i hge] at hi
    cases hi

theorem Step.endsWith (h : Step lua n room s s') (hr : Reach lua n room s) (hs : EndsWith s) :
    EndsWith s' := by
  cases h with
  | connect | unserved => exact hs
  | masterWakes _ hm _ _ => exact fun _ => hs (by rw [hm]; rfl)
  | accept hm _ _ _ _ => exact fun _ => hs (by rw [hm]; rfl)
  | acceptFails _ hm _ _ => exact fun _ => hs (by rw [hm]; rfl)
  | send hm _ _ _ _ => exact fun _ => hs (by rw [hm]; rfl)
  | sendFails hm _ _ => exact fun _ => hs (by rw [hm]; rfl)
  | close hm _ => exact fun _ => hs (by rw [hm]; rfl)
  | sigpipe _ _ _ => exact fun hm => by cases hm
  | masterEnds _ => exact fun hm => by cases hm
  | workerWakes hp _ _ _ _ => exact fun hm i hi => hs hm i (by rwa [← setWorker_isSome hp])
  | recv _ _ hp _ _ _ _ => exact fun hm i hi => hs hm i (by rwa [← setWorker_isSome hp])
  | recvFails _ hp _ _ => exact fun hm i hi => hs hm i (by rwa [← setWorker_isSome hp])
  | loop _ _ hp _ _ _ => exact fun hm i hi => hs hm i (by rwa [← setWorker_isSome hp])
  | @hangUp j p w _ _ hp _ _ hup _ _ _ _ =>
      intro hm
      have hj : j < n := by
        by_contra hge
        exact hr.endsAt.others j (Nat.le_of_not_lt hge) (by rw [hp]; rfl)
      exact absurd ((hr.endsAt.masters j hj).mpr hm) (hup .master)
  | @workerEnds j _ _ =>
      intro hm i hi
      by_cases hij : i = j
      · subst hij
        simp at hi
      · have hi' : (s.workers i).isSome := by simpa [hij] using hi
        simpa [Listens, hij] using hs hm i hi'

theorem Reach.endsWith (h : Reach lua n room s) : EndsWith s := by
  induction h with
  | start h => exact h.endsWith
  | step hr hstep ih => exact hstep.endsWith hr ih

/-- The master is in a system call that does not return: in `epoll_wait` with nothing to
report, or in a `sendmsg` to a socket that is full. -/
def MasterBlocked (room : Nat) (s : MwServer) (m : Master) : Prop :=
  (m.pc = .epollWait ∧ s.backlog.edge = false)
    ∨ ∃ infd, m.pc = .send infd ∧ room ≤ (s.chan m.j).queue.length

/-- Worker `i` is in `epoll_wait`, and there is nothing to report for its `cfd`. -/
def WorkerBlocked (s : MwServer) (i : Nat) (p : WorkerProc) : Prop :=
  p.accepting = false ∧ (s.chan i).edge = false

/-- Nobody waits for anybody for ever: when the master and all workers are blocked, and the
last `accept` and `recvmsg` of each that failed did so with `EAGAIN`, every connection has
reached its worker. The loops of `accept` and `recvmsg` end only on an error, so under
`EAGAIN` the queue was empty, and what has come since has its edge still to be reported. -/
theorem blocked_delivered (h : Reach lua n room s) (hroom : 0 < room) {m : Master}
    (hm : s.master = some m) (hsocket : m.socket = true) (herrno : m.errno = .eagain)
    (hblocked : MasterBlocked room s m)
    (hworkers : ∀ i, i < n → ∃ p, s.workers i = some p ∧ p.errno = .eagain ∧ WorkerBlocked s i p) :
    s.sent = s.arrived
      ∧ ∀ i < n, s.got i = (List.range s.arrived).filter fun c => c % n = i ∧ c ∉ s.failed := by
  obtain ⟨hmaster, hattend⟩ := h.attends
  have hlistens : ∀ i < n, s.Listens i := by
    intro i hi
    obtain ⟨p, hp, -⟩ := hworkers i hi
    exact h.endsWith (by rw [hm]; rfl) i (by rw [hp]; rfl)
  have hchan : ∀ i < n, (s.chan i).queue = [] := by
    intro i hi
    obtain ⟨p, hp, hok, hwait, hedge⟩ := hworkers i hi
    refine (hattend i p hp).queue_nil hedge ?_
    rintro (hb | hb | hb)
    · rw [hwait] at hb
      cases hb
    · rw [hok] at hb
      cases hb
    · exact hb (hlistens i hi)
  have hhands := h.dealt.master m hm
  rcases hblocked with ⟨hpc, hedge⟩ | ⟨infd, hpc, hfull⟩
  · have hbacklog : s.backlog.queue = [] := by
      refine (hmaster m hm).queue_nil hedge ?_
      rintro (hb | hb | hb)
      · exact hb hpc
      · rw [herrno] at hb
        cases hb
      · rw [hsocket] at hb
        cases hb
    have hall : s.arrived - s.taken = 0 := by
      have hw := h.dealt.waiting (.inl ⟨m, hm, hsocket⟩)
      rw [hbacklog] at hw
      exact (List.length_range' ▸ congrArg List.length hw).symm
    have hdone : s.taken = s.sent := hhands.done fun infd he => by
      rw [hpc] at he
      cases he
    have hle := h.dealt.arrived
    have hsent : s.sent = s.arrived := by omega
    refine ⟨hsent, fun i hi => ?_⟩
    obtain ⟨lost, hshare, hnone, -⟩ := h.dealt.keeps i
    obtain rfl := hnone (hlistens i hi)
    rw [hchan i hi, List.append_nil, List.append_nil, hsent] at hshare
    exact hshare
  · have hj : m.j < n := by
      rw [hhands.turn]
      exact Nat.mod_lt _ h.pos
    rw [hchan m.j hj] at hfull
    exact absurd hroom (Nat.not_lt.mpr hfull)

/-- One connection is sent and received, and everybody is waiting again. -/
theorem blocked_delivered_one : ∃ s, Reach idleLua 2 1 s ∧ s.arrived = 1 ∧ s.sent = s.arrived
    ∧ s.got 0 = [0] := by
  have h0 := startServer_reach idleLua 1 (n := 2) (by decide)
  have h1 := (h0.step (.connect (.inl ⟨_, rfl, rfl⟩))).step
    (.masterWakes epollIn rfl rfl fun _ => rfl)
  have h2 := (h1.step (@Step.accept _ _ _ _ _ 9 _ rfl rfl rfl rfl rfl)).step
    (.send rfl rfl rfl (by decide) (by decide))
  have h3 := (h2.step (.close rfl rfl)).step (.acceptFails .eagain rfl rfl fun _ => rfl)
  have hup : ∀ s : MwServer, .master 0 ∈ s.ends .master → ¬s.HangsUp 0 := fun s hm h => h .master hm
  have h4 := h3.step (.workerWakes (i := 0) rfl rfl (by decide) rfl (hup _ (by decide)))
  obtain ⟨w, hw⟩ : ∃ w, acceptConn idleLua 8 startWorker ⟨4, some 10, true, some 20⟩ = .ok w :=
    ⟨_, rfl⟩
  have h5 := (h4.step (.recv (i := 0) 8 _ rfl rfl (by decide) rfl hw)).step
    (.recvFails (i := 0) .eagain rfl rfl fun _ => ⟨rfl, hup _ (.head _)⟩)
  obtain ⟨hsent, hgot⟩ :=
    blocked_delivered h5 (by decide) rfl rfl rfl (.inl ⟨rfl, rfl⟩) fun i hi => by
    rcases Nat.lt_succ_iff_lt_or_eq.mp hi with hi | rfl
    · obtain rfl := Nat.lt_one_iff.mp hi
      exact ⟨_, rfl, rfl, rfl, rfl⟩
    · exact ⟨_, rfl, rfl, rfl, rfl⟩
  exact ⟨_, h5, rfl, hsent, hgot 0 (by decide)⟩

end MwServer

end Artorias
