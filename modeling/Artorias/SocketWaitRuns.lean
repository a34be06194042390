import Artorias.SocketReadRuns
import Artorias.SocketStreamRuns

/-!
# Waiting with `ev_wait`, on the worker (`lm_socket.c`, `thread.c`, `mw_worker.c`)

`EvScript` says what a script sees of the sockets that it waits for. Here its thread is
one of a worker: `lcf_socket_ev_begin` has registered its resources and put it in
`AS_TMODE_LOOP_SOCKS`, `th_yield_for_ev` lets it sleep, an event or the sleep pass takes it
out of its pool, and `sread` goes through `lcf_socket_sread`. In that mode nothing is taken
out of `epoll`, so what a resource is watched for stays what `ev_begin` made it.

`Reach.script` is the refinement: every run of the thread is one of the script, up to the
steps that the script does not see. Which socket `k_socket_ev_wait` returns for a resource
is the subject of `SocketEvRuns`.
-/

namespace Artorias

/-! ## The sockets of a thread -/

section

variable {ι : Type}

/-- The sockets `sock i` of the thread `th` are open: each has a resource of its own, linked
in the thread, with a descriptor of its own that `epoll` knows. -/
structure SocksOpen (w : MwWorker) (th : Addr) (sock res : ι → Addr) : Prop where
  live : (w.number th).isSome
  cfdRes : w.cfdRes ∉ (w.tm.threads th).resl
  socks : ∀ i, w.sendMem.socks (sock i) = some (res i)
  linked : ∀ i, res i ∈ (w.tm.threads th).resl ∧ ∃ r, w.ress (res i) = some r
    ∧ r.th = some th ∧ (w.epoll r.d).isSome
  apart : ∀ i j ri rj, w.ress (res i) = some ri → w.ress (res j) = some rj → ri.d = rj.d → i = j

variable {w w' : MwWorker} {th : Addr} {sock res : ι → Addr}

theorem SocksOpen.fdOf (h : SocksOpen w th sock res) {i : ι} {r : AsThreadRes}
    (hr : w.ress (res i) = some r) : w.sendMem.fdOf (sock i) = some r.d := by
  rw [SendMem.fdOf, h.socks i, Option.bind_some, MwWorker.sendMem_ress hr]
  rfl

theorem SocksOpen.congr (h : SocksOpen w th sock res) (hrest : Rest th w w')
    (hsocks : ∀ i, w'.sendMem.socks (sock i) = w.sendMem.socks (sock i)) :
    SocksOpen w' th sock res where
  live := by rw [hrest.number]; exact h.live
  cfdRes := by rw [hrest.cfdRes, hrest.resl]; exact h.cfdRes
  socks i := (hsocks i).trans (h.socks i)
  linked i := by
    obtain ⟨hi, r, hr, hth, hep⟩ := h.linked i
    refine ⟨by rwa [hrest.resl], r, (hrest.ress _ hi).trans hr, hth, ?_⟩
    rw [← Option.isSome_map, hrest.epoll _ hi r hr, Option.isSome_map]
    exact hep
  apart i j ri rj hri hrj := by
    rw [hrest.ress _ (h.linked i).1] at hri
    rw [hrest.ress _ (h.linked j).1] at hrj
    exact h.apart i j ri rj hri hrj

/-! ## `ev_begin` -/

variable [DecidableEq ι]

/-- A turn of the loop in `ev_begin` registers what is asked for the resource of its socket,
and leaves the others as they were. -/
theorem evBeginTurn_opened (h : SocksOpen w th sock res) (i : ι) (ev : BitVec 32) {r : AsThreadRes}
    (hr : w.ress (res i) = some r)
    (hrun : asthreadResEvAdd (w.setRes (res i) { r with status := .ev }) (res i) ev = .ok w') :
    SocksOpen w' th sock res ∧ w'.tm = w.tm
      ∧ ∀ j, w'.watched (res j) = if j = i then ev else w.watched (res j) := by
  obtain ⟨-, r0, hr0, -, hep⟩ := h.linked i
  rw [hr, Option.some.injEq] at hr0
  subst hr0
  have hself : (w.setRes (res i) { r with status := .ev }).ress (res i)
      = some { r with status := .ev } := Function.update_self ..
  obtain ⟨htm, hnum, hcfd, hsocks, hress⟩ := asthreadResEvAdd_ress hself hep hrun
  have hnew : ∀ j, ∃ rj rj', w.ress (res j) = some rj ∧ w'.ress (res j) = some rj'
      ∧ rj'.d = rj.d ∧ rj'.th = rj.th
      ∧ (w'.epoll rj.d).map Prod.fst = if j = i then some ev else (w.epoll rj.d).map Prod.fst := by
    intro j
    obtain ⟨-, rj, hrj, -⟩ := h.linked j
    by_cases hji : j = i
    · subst hji
      rw [hr, Option.some.injEq] at hrj
      subst hrj
      obtain ⟨hr', hep'⟩ := hress (res j) _ hself fun _ => rfl
      rw [if_pos rfl] at hr' hep'
      exact ⟨r, _, hr, hr', rfl, rfl, hep'.trans (if_pos rfl).symm⟩
    · have hne : res j ≠ res i := by
        intro he
        rw [he, hr, Option.some.injEq] at hrj
        subst hrj
        exact hji (h.apart j i r r (he ▸ hr) hr rfl)
      have hother : (w.setRes (res i) { r with status := .ev }).ress (res j) = some rj := by
        rw [← hrj]
        exact Function.update_of_ne hne ..
      obtain ⟨hr', hep'⟩ :=
        hress (res j) rj hother fun hd => absurd (h.apart j i rj r hrj hr hd) hji
      rw [if_neg hne] at hr' hep'
      exact ⟨rj, rj, hrj, hr', rfl, rfl, hep'.trans (if_neg hji).symm⟩
  refine ⟨⟨?_, ?_, fun j => ?_, fun j => ?_, fun j k rj rk hrj hrk hd => ?_⟩, htm, fun j => ?_⟩
  · rw [hnum]
    exact h.live
  · rw [hcfd, htm]
    exact h.cfdRes
  · rw [← h.socks j]
    exact congrArg (fun socks => (socks (sock j)).bind LmSocket.res) hsocks
  · obtain ⟨hj, rj0, hrj0, hth, hepj⟩ := h.linked j
    obtain ⟨rj, rj', hrj, hrj', hd, hth', hep'⟩ := hnew j
    rw [hrj, Option.some.injEq] at hrj0
    subst hrj0
    refine ⟨by rwa [htm], rj', hrj', hth'.trans hth, ?_⟩
    rw [hd, ← Option.isSome_map, hep']
    split
    · rfl
    · rwa [Option.isSome_map]
  · obtain ⟨rj0, rj', hrj0, hrj', hdj, -⟩ := hnew j
    obtain ⟨rk0, rk', hrk0, hrk', hdk, -⟩ := hnew k
    rw [hrj, Option.some.injEq] at hrj'
    rw [hrk, Option.some.injEq] at hrk'
    subst hrj' hrk'
    exact h.apart j k rj0 rk0 hrj0 hrk0 (by rw [← hdj, ← hdk, hd])
  · obtain ⟨rj, rj', hrj, hrj', hd, -, hep'⟩ := hnew j
    rw [MwWorker.watched, MwWorker.watched, MwWorker.interest, MwWorker.interest, hrj', hrj,
      Option.bind_some, Option.bind_some, hd, hep']
    split <;> rfl

/-- `ev_begin` of the sockets `is` takes them all: each resource is registered with what was
asked for last, and the others keep what they had. -/
theorem evBeginLoop_opened (ev : ι → BitVec 32) {is : List ι} (h : SocksOpen w th sock res)
    (hrun : evBeginLoop th (is.map fun i => (sock i, ev i)) w = .ok w') :
    SocksOpen w' th sock res ∧ w'.tm = w.tm
      ∧ ∀ j, w'.watched (res j) = if j ∈ is then ev j else w.watched (res j) := by
  induction is generalizing w with
  | nil =>
      cases hrun
      exact ⟨h, rfl, fun j => (if_neg List.not_mem_nil).symm⟩
  | cons i is ih =>
      obtain ⟨-, r, hr, hth, -⟩ := h.linked i
      obtain ⟨s, hs, hres⟩ := Option.bind_eq_some_iff.mp (h.socks i)
      simp only [List.map_cons, evBeginLoop, hs, hres, hr] at hrun
      rw [if_neg (not_not.mpr hth)] at hrun
      cases hadd : asthreadResEvAdd (w.setRes (res i) { r with status := .ev }) (res i) (ev i) with
      | error e =>
          rw [hadd] at hrun
          cases hrun
      | ok w1 =>
          rw [hadd, wbind_ok] at hrun
          obtain ⟨h1, htm1, hwatch1⟩ := evBeginTurn_opened h i (ev i) hr hadd
          obtain ⟨h', htm, hwatch⟩ := ih h1 hrun
          refine ⟨h', htm.trans htm1, fun j => ?_⟩
          rw [hwatch j, hwatch1 j]
          by_cases hji : j = i
          · subst hji
            simp
          · simp [hji]

theorem lcfSocketEvBegin_opened (ev : ι → BitVec 32) {is : List ι} (h : SocksOpen w th sock res)
    (hrun : lcfSocketEvBegin w th (is.map fun i => (sock i, ev i)) true = .ok w') :
    SocksOpen w' th sock res ∧ (w'.tm.threads th).mode = .loopSocks
      ∧ ∀ j, w'.watched (res j) = if j ∈ is then ev j else w.watched (res j) := by
  rw [lcfSocketEvBegin] at hrun
  cases hloop : evBeginLoop th (is.map fun i => (sock i, ev i)) w with
  | error e =>
      rw [hloop] at hrun
      cases hrun
  | ok w1 =>
      obtain ⟨h1, htm1, hwatch1⟩ := evBeginLoop_opened ev h hloop
      rw [hloop, wbind_ok, if_pos rfl, MwWorker.thread_eq h1.live, wbind_ok] at hrun
      cases hrun
      have hmode := congrArg AsThread.mode
        (ThreadMem.setThread_self w1.tm th { w1.tm.threads th with mode := .loopSocks })
      have hresl := congrArg AsThread.resl
        (ThreadMem.setThread_self w1.tm th { w1.tm.threads th with mode := .loopSocks })
      refine ⟨⟨h1.live, ?_, h1.socks, fun i => ?_, h1.apart⟩, hmode, hwatch1⟩
      · change w1.cfdRes ∉ ((w1.tm.setThread th _).threads th).resl
        rw [hresl]
        exact h1.cfdRes
      · change res i ∈ ((w1.tm.setThread th _).threads th).resl ∧ _
        rw [hresl]
        exact h1.linked i

end

/-! ## What a script knows of the worker -/

namespace EvScript

variable {ι : Type} [DecidableEq ι] {s s' : EvScript ι} {m : SendMem}

def withMem (s : EvScript ι) (m : SendMem) : EvScript ι := { s with mem := m }

/-- The two memories have the same sockets of the script open, with the same descriptors. -/
def SameFds (s : EvScript ι) (m : SendMem) : Prop :=
  ∀ i, m.fdOf (s.sock i) = s.mem.fdOf (s.sock i)

omit [DecidableEq ι] in
theorem Sreads.withMem {i : ι} {r : Sread} {c : Inbound} (h : s.Sreads i r c)
    (hm : s.SameFds m) : (s.withMem m).Sreads i r c := by
  have hs := h
  obtain ⟨fd, -, -, hopen, -⟩ := hs
  obtain ⟨o, hread, hr⟩ := (sreads_iff hopen).mp h
  exact (sreads_iff (s := s.withMem m) ((hm i).trans hopen)).mpr ⟨o, hread, hr⟩

theorem Step.withMem (h : Step s s') (hm : s.SameFds m) : Step (s.withMem m) (s'.withMem m) := by
  cases h with
  | arrives i bytes hfin hbroken => exact .arrives i bytes hfin hbroken
  | finishes i hfin hbroken => exact .finishes i hfin hbroken
  | breaks i => exact .breaks i
  | drains i => exact .drains i
  | skip i writable hpc hedge hnone => exact .skip i writable hpc hedge hnone
  | wakes i writable hpc hedge hsome hwake => exact .wakes i writable hpc hedge hsome hwake
  | wakesOther i writable goesOn hpc hedge hsome hwake =>
      exact .wakesOther i writable goesOn hpc hedge hsome hwake
  | timeout goesOn hpc => exact .timeout goesOn hpc
  | turn hpc hs hturn => exact .turn hpc (hs.withMem hm) hturn
  | returns goesOn hpc hs hturn => exact .returns goesOn hpc (hs.withMem hm) hturn

theorem Step.mem (h : Step s s') : s'.mem = s.mem ∧ s'.sock = s.sock := by
  cases h <;> exact ⟨rfl, rfl⟩

/-- Of the worker's memory a script sees only which of its sockets are open. -/
theorem Reach.withMem (h : Reach s) (hm : s.SameFds m) : Reach (s.withMem m) := by
  induction h with
  | start hpc hconns hopen =>
      exact .start hpc hconns fun i => (congrArg Option.isSome (hm i)).trans (hopen i)
  | step _ hstep ih =>
      have hm' := hm
      rw [SameFds, hstep.mem.1, hstep.mem.2] at hm'
      exact (ih hm').step (hstep.withMem hm')

end EvScript

/-! ## The thread -/

/-- Where a thread is that waits for its sockets. -/
inductive WaitAt (ι : Type) where
  /-- The script has something else to do than to read. -/
  | running
  /-- `lua_yieldk` in `ev_wait` -/
  | waiting
  /-- `sread` in `read_all` of socket `i` -/
  | reading (i : ι) (a : ReadAll)

/-- Where the worker has the thread meanwhile -/
def WaitAt.Placed {ι : Type} (w : MwWorker) (th : Addr) : WaitAt ι → Prop
  | waiting => Pooled w th
  | running | reading .. => Unpooled w th

/-- Where the script is: until it calls `ev_wait` it does nothing with its sockets. -/
def WaitAt.script {ι : Type} : WaitAt ι → ScriptAt ι
  | running | waiting => .waiting
  | reading i a => .reading i a

/-- What `alua_resume` returns when `lcf_socket_ev_wait` has yielded. -/
def evYield (timeout now : Int) : LuaRun :=
  ⟨[], [], .yield [.integer lasSYieldForEv, .integer timeout] .script, now⟩

/-- A thread of the worker `w`, with the connections of its sockets. What is registered for
them is in `w`, and their `watch` is not looked at. -/
structure WaitThread (ι : Type) where
  w : MwWorker
  pc : WaitAt ι
  conns : ι → Inbound
  sock : ι → Addr
  res : ι → Addr

section

variable {w w' : MwWorker} {th : Addr} {timeout now : Int}

/-- `th_yield_for_ev` moves the thread to `sleep_pool`, and that is all. -/
theorem afterResume_sleeps {k : Nat} (hrun : afterResume k w th (evYield timeout now) = .ok w') :
    SameCore w w' := by
  change thYieldForSleep k w th _ now = .ok w' at hrun
  exact (thYieldForSleep_core k w th _ now).of_ok hrun

/-- In `AS_TMODE_LOOP_SOCKS` a thread is resumed with its resources in `epoll`. -/
theorem thRemoveResFromEpfd_loops (hlive : (w.number th).isSome)
    (hmode : (w.tm.threads th).mode = .loopSocks) : thRemoveResFromEpfd w th = .ok w := by
  rw [thRemoveResFromEpfd, MwWorker.thread_eq hlive, wbind_ok, hmode]
  exact if_neg (by decide)

end

namespace WaitThread

variable {ι : Type}

/-- The connection of socket `i`, as `epoll` looks at it -/
def inbound (s : WaitThread ι) (i : ι) : Inbound :=
  { s.conns i with watch := s.w.watched (s.res i) }

/-- The worker is `w'`, and the thread is at `pc`. -/
def goesTo (s : WaitThread ι) (w' : MwWorker) (pc : WaitAt ι) : WaitThread ι :=
  { s with w := w', pc := pc }

/-- What the script does when `ev_wait` returns for socket `i`: `read_all`, if it is told
`READY_TO_INPUT`. -/
def afterWait (s : WaitThread ι) (i : ι) (r : IoResume) : WaitAt ι :=
  if r = .ready (s.res i) lasSReadyToInput then .reading i startReadAll else .running

/-- `sread(1024)` of socket `i` returns `r`, and its connection is then `c`. -/
def Sreads (s : WaitThread ι) (i : ι) (r : Sread) (c : Inbound) : Prop :=
  ∃ res n o, s.w.ress (s.res i) = some res
    ∧ ReadsFrom (sreadCall s.w.sendMem (s.sock i)) res.d n
    ∧ (s.inbound i).Reads n o c ∧ r = o.sread

/-- The worker does something else, and leaves open the sockets of the thread. -/
def Spares (s : WaitThread ι) (th : Addr) (w' : MwWorker) : Prop :=
  Rest th s.w w' ∧ ∀ i, w'.sendMem.socks (s.sock i) = s.w.sendMem.socks (s.sock i)

/-- What the script sees. -/
def script (s : WaitThread ι) : EvScript ι := ⟨s.pc.script, s.inbound, s.w.sendMem, s.sock⟩

/-- What a thread is like between two steps. -/
structure Good (s : WaitThread ι) (th : Addr) : Prop where
  opened : SocksOpen s.w th s.sock s.res
  loops : (s.w.tm.threads th).mode = .loopSocks
  placed : s.pc.Placed s.w th

variable {th : Addr} {s s' : WaitThread ι} {i : ι} {c : Inbound} {w' : MwWorker}

/-! ## What the worker does -/

theorem Spares.refl (s : WaitThread ι) (th : Addr) : s.Spares th s.w :=
  ⟨.refl th s.w, fun _ => rfl⟩

theorem Spares.of_core (h : SameCore s.w w') : s.Spares th w' :=
  ⟨.of_core h, fun i => congrArg (fun socks => (socks (s.sock i)).bind LmSocket.res) h.socks⟩

theorem Spares.opened (hw : s.Spares th w') (h : SocksOpen s.w th s.sock s.res) :
    SocksOpen w' th s.sock s.res :=
  h.congr hw.1 hw.2

theorem Spares.sameFds (hw : s.Spares th w') (h : SocksOpen s.w th s.sock s.res) :
    s.script.SameFds w'.sendMem := by
  intro i
  obtain ⟨hi, r, hr, -⟩ := h.linked i
  have hr' : w'.ress (s.res i) = some r := (hw.1.ress _ hi).trans hr
  exact ((hw.opened h).fdOf hr').trans (h.fdOf hr).symm

/-- What else the worker does is not seen by the script, which is where the thread is. -/
theorem script_goesTo (h : SocksOpen s.w th s.sock s.res) (hw : s.Spares th w') (pc : WaitAt ι) :
    (s.goesTo w' pc).script = (s.script.goesTo pc.script).withMem w'.sendMem := by
  have hsocks : (s.goesTo w' pc).inbound = s.inbound := by
    funext j
    change { s.conns j with watch := w'.watched (s.res j) } = _
    rw [hw.1.watched (h.linked j).1]
    rfl
  exact congrArg (fun socks => (⟨pc.script, socks, w'.sendMem, s.sock⟩ : EvScript ι)) hsocks

/-- The thread is at `pc`, and the worker has done something else in between. -/
theorem Good.goesTo (h : s.Good th) (hw : s.Spares th w') {pc : WaitAt ι}
    (hplaced : pc.Placed w' th) : (s.goesTo w' pc).Good th :=
  ⟨hw.opened h.opened, hw.1.mode.trans h.loops, hplaced⟩

/-- The thread yields in `ev_wait`: it is in a pool then. -/
theorem Good.waits (h : s.Good th) {timeout now : Int} (hpc : s.pc = .running)
    (hrun : Settles (fun k => afterResume k s.w th (evYield timeout now)) (.ok w')) :
    s.Spares th w' ∧ Pooled w' th := by
  have hplaced : Unpooled s.w th := by
    have hplaced := h.placed
    rwa [hpc] at hplaced
  have hkeeps : ∀ k, KeepsStops s.w (afterResume k s.w th (evYield timeout now)) :=
    fun k => thYieldForSleep_keeps k s.w th _ now
  have hpooled := afterResume_pooled hplaced hkeeps hrun
  obtain ⟨k, hk⟩ := hrun
  exact ⟨.of_core (afterResume_sleeps (hk k (Nat.le_refl k))), hpooled⟩

/-- `dispatch` takes the thread out of its pool, and leaves its resources in `epoll`. -/
theorem Good.wakes (h : s.Good th) {w1 w2 : MwWorker} (hpc : s.pc = .waiting)
    (hdel : Settles (fun k => delFromPool k s.w th) (.ok w1))
    (hrun : thRemoveResFromEpfd w1 th = .ok w2) : s.Spares th w2 ∧ Unpooled w2 th := by
  have hpooled : Pooled s.w th := by
    have hplaced := h.placed
    rwa [hpc] at hplaced
  obtain ⟨w1', hdel', hcore, hout⟩ := delFromPool_unpooled hpooled
  cases hdel.unique hdel'
  have hw : s.Spares th w1 := .of_core hcore
  rw [thRemoveResFromEpfd_loops (hw.opened h.opened).live (hw.1.mode.trans h.loops)] at hrun
  cases hrun
  exact ⟨hw, hout⟩

/-- In `dispatch`, what `Step.wakes` does is all that happens up to `thread_resume`. -/
theorem Good.dispatch (h : s.Good th) {e : EpollEvent} {w1 w2 : MwWorker} (hpc : s.pc = .waiting)
    (hptr : e.ptr = s.res i) (hdel : Settles (fun k => delFromPool k s.w th) (.ok w1))
    (hrun : thRemoveResFromEpfd w1 th = .ok w2) (lua : Lua) :
    ∃ k, ∀ k' ≥ k, dispatch lua k' s.w e = threadResume lua k' w2 th (resumeOf e).args := by
  have hpooled : Pooled s.w th := by
    have hplaced := h.placed
    rwa [hpc] at hplaced
  obtain ⟨hmem, r, hr, hth, -⟩ := h.opened.linked i
  rw [← hptr] at hmem hr
  have hcfd : e.ptr ≠ s.w.cfdRes := fun he => h.opened.cfdRes (he ▸ hmem)
  exact dispatch_resumes hpooled hr hth hcfd hdel hrun lua

/-- `sread` reads the descriptor of its socket, as the script has it. -/
theorem Good.sreads (h : s.Good th) {r : Sread} (hs : s.Sreads i r c) :
    s.script.Sreads i r c ∧ c.watch = s.w.watched (s.res i) := by
  obtain ⟨res, n, o, hres, hcall, hread, hr⟩ := hs
  refine ⟨⟨res.d, n, o, h.opened.fdOf hres, hcall, hread, hr⟩, ?_⟩
  cases hread <;> rfl

/-! ## Runs -/

variable [DecidableEq ι]

def setConn (s : WaitThread ι) (i : ι) (c : Inbound) : WaitThread ι :=
  { s with conns := Function.update s.conns i c }

/-- One step of the network, of the worker, or of the thread `th`. -/
inductive Step (th : Addr) : WaitThread ι → WaitThread ι → Prop
  | arrives {s : WaitThread ι} (i : ι) (bytes : List (BitVec 8)) : ¬(s.conns i).fin →
      ¬(s.conns i).broken → Step th s (s.setConn i ((s.inbound i).arrives bytes))
  | finishes {s : WaitThread ι} (i : ι) : ¬(s.conns i).fin → ¬(s.conns i).broken →
      Step th s (s.setConn i (s.inbound i).finishes)
  | breaks {s : WaitThread ι} (i : ι) : Step th s (s.setConn i (s.inbound i).breaks)
  | drains {s : WaitThread ι} (i : ι) : Step th s (s.setConn i (s.inbound i).drains)
  /-- The worker goes on with other threads. -/
  | rest {s : WaitThread ι} {w' : MwWorker} : s.Spares th w' → s.pc.Placed w' th →
      Step th s (s.goesTo w' s.pc)
  /-- `lcf_socket_ev_wait` yields, and so `thread_resume` comes to its end. -/
  | waits {s : WaitThread ι} {timeout now : Int} {w' : MwWorker} : s.pc = .running →
      Settles (fun k => afterResume k s.w th (evYield timeout now)) (.ok w') →
        Step th s (s.goesTo w' .waiting)
  /-- `epoll_wait` has nothing to report. -/
  | skip {s : WaitThread ι} (i : ι) (writable : Bool) : s.pc = .waiting → (s.conns i).edge →
      (s.inbound i).events writable = 0 → Step th s (s.setConn i (s.inbound i).seen)
  /-- `dispatch` of an event for one of the sockets, up to `thread_resume`, and what the script
  does then. -/
  | wakes {s : WaitThread ι} (i : ι) (e : EpollEvent) (writable : Bool) {w1 w2 : MwWorker} :
      s.pc = .waiting → e.ptr = s.res i → (s.conns i).edge →
      e.events = (s.inbound i).events writable → e.events ≠ 0 →
      Settles (fun k => delFromPool k s.w th) (.ok w1) → thRemoveResFromEpfd w1 th = .ok w2 →
        Step th s ((s.setConn i (s.inbound i).seen).goesTo w2 (s.afterWait i (resumeOf e)))
  /-- The same for another resource of the thread, for which `ev_wait` has no socket. -/
  | wakesOther {s : WaitThread ι} (e : EpollEvent) {w1 w2 : MwWorker} : s.pc = .waiting →
      e.ptr ∈ (s.w.tm.threads th).resl → (∀ i, s.res i ≠ e.ptr) →
      Settles (fun k => delFromPool k s.w th) (.ok w1) → thRemoveResFromEpfd w1 th = .ok w2 →
        Step th s (s.goesTo w2 .running)
  /-- `p_sleep_thread`, in the pass that has taken the thread from its pool -/
  | sleeps {s : WaitThread ι} {w' : MwWorker} : s.pc = .waiting → s.Spares th w' →
      Unpooled w' th → Step th s (s.goesTo w' .running)
  | turn {s : WaitThread ι} {i : ι} {a a' : ReadAll} {r : Sread} {c : Inbound} :
      s.pc = .reading i a → s.Sreads i r c → readAllTurn a r = .inl a' →
        Step th s ((s.setConn i c).goesTo s.w (.reading i a'))
  | returns {s : WaitThread ι} {i : ι} {a : ReadAll} {r : Sread} {result : ReadAllResult}
      {c : Inbound} : s.pc = .reading i a → s.Sreads i r c → readAllTurn a r = .inr result →
        Step th s ((s.setConn i (c.returns result)).goesTo s.w .running)

/-- From a thread whose `ev_begin` has returned. -/
inductive Reach (th : Addr) : WaitThread ι → Prop
  | start {s : WaitThread ι} {w : MwWorker} {is : List ι} {ev : ι → BitVec 32} :
      s.pc = .running → SocksOpen w th s.sock s.res →
      lcfSocketEvBegin w th (is.map fun i => (s.sock i, ev i)) true = .ok s.w →
      Unpooled s.w th → (∀ i, (s.inbound i).Registered) → Reach th s
  | step {s s' : WaitThread ι} : Reach th s → Step th s s' → Reach th s'

/-! ## What a step is for the script -/

theorem script_setConn (hc : c.watch = s.w.watched (s.res i)) :
    (s.setConn i c).script = s.script.setSock i c := by
  have hsocks : (s.setConn i c).inbound = Function.update s.inbound i c := by
    funext j
    change { Function.update s.conns i c j with watch := s.w.watched (s.res j) } = _
    by_cases hji : j = i
    · subst hji
      rw [Function.update_self, Function.update_self, ← hc]
    · rw [Function.update_of_ne hji, Function.update_of_ne hji]
      rfl
  exact congrArg (fun socks => { s.script with socks := socks }) hsocks

/-- A step of the script, or none; the memory that it is in may have changed, but not for
its sockets. -/
def Seen (s s' : WaitThread ι) : Prop :=
  ∃ t, (t = s.script ∨ EvScript.Step s.script t) ∧ t.SameFds s'.w.sendMem
    ∧ s'.script = t.withMem s'.w.sendMem

theorem Good.setConn (h : s.Good th) (i : ι) (c : Inbound) : (s.setConn i c).Good th :=
  ⟨h.opened, h.loops, h.placed⟩

/-- The worker does something, and the thread goes to `pc`: the script does so too, or it was
there before. -/
theorem Good.moves (h : s.Good th) (hw : s.Spares th w') {pc : WaitAt ι}
    (hplaced : pc.Placed w' th) (hstep : s.script.goesTo pc.script = s.script
      ∨ EvScript.Step s.script (s.script.goesTo pc.script)) :
    (s.goesTo w' pc).Good th ∧ Seen s (s.goesTo w' pc) :=
  ⟨h.goesTo hw hplaced, _, hstep, hw.sameFds h.opened, script_goesTo h.opened hw pc⟩

/-- Something happens to one connection, of which `watch` stays what is registered, while the
thread goes to `pc`: the script sees the same. -/
theorem Good.conn (h : s.Good th) (hc : c.watch = s.w.watched (s.res i)) (hw : s.Spares th w')
    {pc : WaitAt ι} (hplaced : pc.Placed w' th)
    (hstep : EvScript.Step s.script ((s.script.setSock i c).goesTo pc.script)) :
    ((s.setConn i c).goesTo w' pc).Good th ∧ Seen s ((s.setConn i c).goesTo w' pc) := by
  refine ⟨(h.setConn i c).goesTo hw hplaced, _, .inr hstep, hw.sameFds h.opened, ?_⟩
  rw [script_goesTo (s := s.setConn i c) h.opened hw, script_setConn hc]
  rfl

/-- The script is told of a socket: it reads it if it can, and waits again if not. -/
theorem wakes_seen {e : EpollEvent} {writable : Bool} (hpc : s.pc = .waiting)
    (hptr : e.ptr = s.res i) (hedge : (s.conns i).edge)
    (hevents : e.events = (s.inbound i).events writable) (hsome : e.events ≠ 0) :
    EvScript.Step s.script ((s.script.setSock i (s.inbound i).seen).goesTo
      (s.afterWait i (resumeOf e)).script) := by
  have hpc' : s.script.pc = .waiting := congrArg WaitAt.script hpc
  rw [hevents] at hsome
  by_cases hwake : wakeOf ((s.inbound i).events writable) = .input
  · have hresume : resumeOf e = .ready (s.res i) lasSReadyToInput := by
      rw [resumeOf, hevents, hwake, hptr]
    rw [afterWait, if_pos hresume]
    exact .wakes i writable hpc' hedge hsome hwake
  · have hresume : resumeOf e ≠ .ready (s.res i) lasSReadyToInput := by
      rw [resumeOf, hevents, hptr]
      cases hev : wakeOf ((s.inbound i).events writable) with
      | input => exact absurd hev hwake
      | output => simp [lasSReadyToInput, lasSReadyToOutput]
      | error => simp
    rw [afterWait, if_neg hresume]
    exact .wakesOther i writable true hpc' hedge hsome hwake

/-- Every step of the thread is one of the script, or is not to be seen there. -/
theorem Good.step (h : s.Good th) (hstep : Step th s s') : s'.Good th ∧ Seen s s' := by
  have hsame := Spares.refl s th
  have hsleeps : s.pc = .waiting → EvScript.Step s.script (s.script.goesTo .waiting) :=
    fun hpc => .timeout true (congrArg WaitAt.script hpc)
  have hreads : ∀ {i a}, s.pc = .reading i a → Unpooled s.w th := by
    intro i a hpc
    have hplaced := h.placed
    rwa [hpc] at hplaced
  cases hstep with
  | arrives i bytes hfin hbroken => exact h.conn rfl hsame h.placed (.arrives i bytes hfin hbroken)
  | finishes i hfin hbroken => exact h.conn rfl hsame h.placed (.finishes i hfin hbroken)
  | breaks i => exact h.conn rfl hsame h.placed (.breaks i)
  | drains i => exact h.conn rfl hsame h.placed (.drains i)
  | rest hw hplaced => exact h.moves hw hplaced (.inl rfl)
  | waits hpc hrun =>
      obtain ⟨hw, hpooled⟩ := h.waits hpc hrun
      have hpc' : (WaitAt.waiting : WaitAt ι).script = s.script.pc :=
        (congrArg WaitAt.script hpc).symm
      refine h.moves hw hpooled (.inl ?_)
      rw [hpc']
      rfl
  | skip i writable hpc hedge hnone =>
      exact h.conn rfl hsame h.placed
        (.skip i writable (congrArg WaitAt.script hpc) hedge hnone)
  | wakes i e writable hpc hptr hedge hevents hsome hdel hrun =>
      obtain ⟨hw, hout⟩ := h.wakes hpc hdel hrun
      refine h.conn rfl hw ?_ (wakes_seen hpc hptr hedge hevents hsome)
      rw [afterWait]
      split <;> exact hout
  | wakesOther e hpc hptr hnone hdel hrun =>
      obtain ⟨hw, hout⟩ := h.wakes hpc hdel hrun
      exact h.moves hw hout (.inr (hsleeps hpc))
  | sleeps hpc hw hout => exact h.moves hw hout (.inr (hsleeps hpc))
  | turn hpc hs hturn =>
      obtain ⟨hs', hc⟩ := h.sreads hs
      exact h.conn hc hsame (hreads hpc) (.turn (congrArg WaitAt.script hpc) hs' hturn)
  | returns hpc hs hturn =>
      obtain ⟨hs', hc⟩ := h.sreads hs
      exact h.conn (c := Inbound.returns _ _) hc hsame (hreads hpc)
        (.returns true (congrArg WaitAt.script hpc) hs' hturn)

theorem Reach.good (h : Reach th s) : s.Good th := by
  induction h with
  | start hpc hopen hbegin hout _ =>
      obtain ⟨hopened, hmode, -⟩ := lcfSocketEvBegin_opened _ hopen hbegin
      refine ⟨hopened, hmode, ?_⟩
      rw [hpc]
      exact hout
  | step _ hstep ih => exact (ih.step hstep).1

/-- What the script sees is a run of `EvScript`, so `evScript_streams` and `evScript_quiet`
hold for the thread. -/
theorem Reach.script (h : Reach th s) : EvScript.Reach s.script := by
  induction h with
  | start hpc hopen hbegin _ hconns =>
      obtain ⟨hopened, -, -⟩ := lcfSocketEvBegin_opened _ hopen hbegin
      refine .start (congrArg WaitAt.script hpc) hconns fun i => ?_
      obtain ⟨-, r, hr, -⟩ := hopened.linked i
      exact Option.isSome_iff_exists.mpr ⟨r.d, hopened.fdOf hr⟩
  | step hreach hstep ih =>
      obtain ⟨-, t, hstep', hfds, hscript⟩ := hreach.good.step hstep
      rw [hscript]
      rcases hstep' with rfl | hstep'
      · exact ih.withMem hfds
      · exact (ih.step hstep').withMem hfds

/-- While the thread waits, all that has arrived on a socket is what `read_all` has returned
of it, and what can still be read. -/
theorem waitThread_returned (h : Reach th s) (hpc : s.pc = .waiting) (i : ι) :
    (s.conns i).arrived = (s.conns i).returned ++ (s.conns i).queue := by
  have hbytes := (h.script.inv.heard i).bytes
  have hpc' : s.script.pc = .waiting := congrArg WaitAt.script hpc
  rw [EvScript.busy_waiting hpc', Option.elim_none, List.append_nil] at hbytes
  exact hbytes

/-! ## A thread with two sockets -/

open ReadThread (twoConnections twoConnections_unpooled noConn settles_of_eight)

theorem twoConnections_opened : SocksOpen twoConnections 10 (fun b : Bool => if b then 30 else 29)
    fun b => if b then 21 else 20 := by
  have h20 : twoConnections.ress 20 = some ⟨true, .idle, some 10, 4, 1⟩ := rfl
  have h21 : twoConnections.ress 21 = some ⟨true, .idle, some 10, 5, 2⟩ := rfl
  refine ⟨rfl, by decide, by decide, fun b => ?_, ?_⟩
  · cases b with
    | false => exact ⟨by decide, _, h20, rfl, rfl⟩
    | true => exact ⟨by decide, _, h21, rfl, rfl⟩
  · rintro (_ | _) (_ | _) ri rj hri hrj hd
    · rfl
    · cases h20.symm.trans hri
      cases h21.symm.trans hrj
      cases hd
    · cases h21.symm.trans hri
      cases h20.symm.trans hrj
      cases hd
    · rfl

/-- The worker when the thread has called `ev_begin` for both, and when it waits. -/
def bothWatched : MwWorker :=
  (lcfSocketEvBegin twoConnections 10 [(29, evR), (30, evR)] true).toOption.getD startWorker

def bothWait : MwWorker := (afterResume 8 bothWatched 10 (evYield 5 0)).toOption.getD startWorker

def bothWoken : MwWorker := (delFromPool 8 bothWait 10).toOption.getD startWorker

/-- Nothing has come yet. -/
def twoWaits : WaitThread Bool :=
  ⟨bothWatched, .running, fun _ => noConn, fun b => if b then 30 else 29,
    fun b => if b then 21 else 20⟩

theorem twoWaits_reach : Reach 10 twoWaits := by
  obtain ⟨members, out, hsched, hout⟩ := twoConnections_unpooled
  have hbegin : lcfSocketEvBegin twoConnections 10
      ([false, true].map fun b => (twoWaits.sock b, evR)) true = .ok bothWatched := rfl
  have hsame : SameSched twoConnections bothWatched :=
    (runAct_same 10 twoConnections (.evBegin [(29, evR), (30, evR)] true)).of_ok hbegin
  exact .start rfl twoConnections_opened hbegin ⟨members, out, hsched.congr hsame, hout⟩
    fun b => ⟨rfl, rfl, nofun⟩

/-- A byte that comes on the second socket has the script read from there. -/
theorem twoWaits_reads : ∃ s, Reach 10 s ∧ s.pc = .reading true startReadAll
    ∧ (s.conns true).queue = [7] := by
  have hwaits : Step 10 twoWaits (twoWaits.goesTo bothWait .waiting) :=
    .waits rfl (settles_of_eight fun _ => rfl)
  have hdel : Settles (fun k => delFromPool k bothWait 10) (.ok bothWoken) :=
    settles_of_eight fun _ => rfl
  have hremove : thRemoveResFromEpfd bothWoken 10 = .ok bothWoken := rfl
  have h2 := (twoWaits_reach.step hwaits).step (.arrives true [7] nofun nofun)
  have h3 := h2.step
    (.wakes true ⟨epollIn, 21, [], 0⟩ false rfl rfl rfl rfl (by decide) hdel hremove)
  exact ⟨_, h3, rfl, rfl⟩

end WaitThread

end Artorias
