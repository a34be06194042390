import Mathlib.Data.List.Basic
import Mathlib.Logic.Function.Basic

/-!
# The connection pool (`socketframe/client/pool.go`)

`loop` owns the pool; clients talk to it over an unbuffered channel, and
`GetConn` then waits for the answer on a channel of its own. Sends and receives
are rendezvous, so a run is a sequence of steps of one client, of the loop, or
of both together. `NewConn` returns a connection that is not open, or an error.

Every open connection is in one place: idle, with a client, or in the hands of
the loop (`OwnedBy`). `connPool_safe` reads what follows off that, in every
state of every run with any number of clients.
-/

namespace Artorias

/-! ## The loop and its clients -/

/-- Where `loop` is. -/
inductive LoopAt (ι κ ε : Type) where
  /-- `range pool.msgChannel` -/
  | receive
  /-- `case _PM_GET`, with the `out` of client `i` -/
  | get (i : ι)
  /-- `case _PM_PUT` -/
  | put (conn : κ)
  /-- `msg.out <- ...` -/
  | answer (i : ι) (out : Except ε κ)

/-- Where a client is. -/
inductive ClientAt (κ : Type) where
  | running
  /-- `GetConn`: `pool.msgChannel <- ...` -/
  | sendGet
  /-- `GetConn`: `<-out` -/
  | waitOut
  /-- `RecoverConn`: `pool.msgChannel <- ...` -/
  | sendPut (conn : κ)

/-- The pool, its clients, and what has happened so far. -/
structure ConnPool (ι κ ε : Type) where
  connPool : List κ
  loop : LoopAt ι κ ε
  clients : ι → ClientAt κ
  /-- the connections a client has got and not recovered -/
  held : ι → List κ
  /-- what `NewConn` has returned -/
  dialled : List κ
  /-- what `DelConn` has been called on -/
  deleted : List κ
  /-- what has been appended to `connPool`, and what has been taken off it -/
  recovered : List κ
  handed : List κ
  /-- `connPool` at each call of `NewConn` -/
  dials : List (List κ)
  /-- calls of `GetConn`, and answers to them -/
  calls : ι → Nat
  answers : ι → Nat

variable {ι κ ε : Type}

/-- `NewPool` -/
def newConnPool : ConnPool ι κ ε :=
  { connPool := []
    loop := .receive
    clients := fun _ => .running
    held := fun _ => []
    dialled := []
    deleted := []
    recovered := []
    handed := []
    dials := []
    calls := fun _ => 0
    answers := fun _ => 0 }

/-- The connection in the hands of the loop. -/
def LoopAt.hand : LoopAt ι κ ε → Option κ
  | receive => none
  | get _ => none
  | put conn => some conn
  | answer _ (.ok conn) => some conn
  | answer _ (.error _) => none

/-- The client whose `GetConn` the loop is at. -/
def LoopAt.serves : LoopAt ι κ ε → Option ι
  | receive => none
  | get i => some i
  | put _ => none
  | answer i _ => some i

/-- A connection that is still to be sent counts as held. -/
def ClientAt.pending : ClientAt κ → List κ
  | running => []
  | sendGet => []
  | waitOut => []
  | sendPut conn => [conn]

/-- Between the call of `GetConn` and its return. -/
def ClientAt.inGet : ClientAt κ → Bool
  | running => false
  | sendGet => true
  | waitOut => true
  | sendPut _ => false

namespace ConnPool

def holds (s : ConnPool ι κ ε) (i : ι) : List κ := s.held i ++ (s.clients i).pending

/-- The connection `c` is open: it is idle in the pool, a client holds it, or the loop has
it in its hands. -/
def Open (s : ConnPool ι κ ε) (c : κ) : Prop :=
  c ∈ s.connPool ∨ (∃ i, c ∈ s.holds i) ∨ s.loop.hand = some c

variable [DecidableEq ι] [DecidableEq κ]

/-- Client `i` calls `GetConn`. -/
def callGet (s : ConnPool ι κ ε) (i : ι) : ConnPool ι κ ε :=
  { s with
    clients := Function.update s.clients i .sendGet
    calls := Function.update s.calls i (s.calls i + 1) }

/-- Client `i` calls `RecoverConn`. -/
def callPut (s : ConnPool ι κ ε) (i : ι) (c : κ) : ConnPool ι κ ε :=
  { s with
    clients := Function.update s.clients i (.sendPut c)
    held := Function.update s.held i ((s.held i).erase c) }

/-- The loop receives the message of `GetConn`. -/
def recvGet (s : ConnPool ι κ ε) (i : ι) : ConnPool ι κ ε :=
  { s with loop := .get i, clients := Function.update s.clients i .waitOut }

/-- The loop receives the message of `RecoverConn`, which returns. -/
def recvPut (s : ConnPool ι κ ε) (i : ι) (c : κ) : ConnPool ι κ ε :=
  { s with loop := .put c, clients := Function.update s.clients i .running }

/-- `case _PM_GET`; `newConn` is what `NewConn` returns if it is called. -/
def get (s : ConnPool ι κ ε) (i : ι) (newConn : Except ε κ) : ConnPool ι κ ε :=
  match s.connPool with
  | [] =>
      { s with
        loop := .answer i newConn
        dials := s.dials ++ [s.connPool]
        dialled := s.dialled ++ newConn.toOption.toList }
  | conn :: rest =>
      { s with
        loop := .answer i (.ok conn)
        connPool := rest
        handed := s.handed ++ [conn] }

/-- `case _PM_PUT` -/
def put (size : Nat) (s : ConnPool ι κ ε) (conn : κ) : ConnPool ι κ ε :=
  if s.connPool.length ≥ size then
    { s with loop := .receive, deleted := s.deleted ++ [conn] }
  else
    { s with
      loop := .receive
      connPool := s.connPool ++ [conn]
      recovered := s.recovered ++ [conn] }

/-- The answer is received, and `GetConn` returns it. -/
def answer (s : ConnPool ι κ ε) (i : ι) (out : Except ε κ) : ConnPool ι κ ε :=
  { s with
    loop := .receive
    clients := Function.update s.clients i .running
    held := Function.update s.held i (s.held i ++ out.toOption.toList)
    answers := Function.update s.answers i (s.answers i + 1) }

/-- One step of a pool of the given size. A client recovers what it holds, and
`NewConn` returns nothing that is open. -/
inductive Step (size : Nat) : ConnPool ι κ ε → ConnPool ι κ ε → Prop where
  | callGet {s : ConnPool ι κ ε} (i : ι) : s.clients i = .running → Step size s (s.callGet i)
  | callPut {s : ConnPool ι κ ε} (i : ι) (c : κ) : s.clients i = .running → c ∈ s.held i →
      Step size s (s.callPut i c)
  | recvGet {s : ConnPool ι κ ε} (i : ι) : s.loop = .receive → s.clients i = .sendGet →
      Step size s (s.recvGet i)
  | recvPut {s : ConnPool ι κ ε} (i : ι) (c : κ) : s.loop = .receive →
      s.clients i = .sendPut c → Step size s (s.recvPut i c)
  | get {s : ConnPool ι κ ε} (i : ι) (newConn : Except ε κ) : s.loop = .get i →
      (∀ c, newConn = .ok c → ¬s.Open c) → Step size s (s.get i newConn)
  | put {s : ConnPool ι κ ε} (c : κ) : s.loop = .put c → Step size s (s.put size c)
  | answer {s : ConnPool ι κ ε} (i : ι) (out : Except ε κ) : s.loop = .answer i out →
      s.clients i = .waitOut → Step size s (s.answer i out)

/-- What the pool and its clients can come to. -/
inductive Run (size : Nat) : ConnPool ι κ ε → ConnPool ι κ ε → Prop where
  | refl (s : ConnPool ι κ ε) : Run size s s
  | step {s s' s'' : ConnPool ι κ ε} : Run size s s' → Step size s' s'' → Run size s s''

/-! ## One place for each connection -/

inductive Place (ι : Type) where
  | closed
  | idle
  | client (i : ι)
  | loop
deriving DecidableEq

/-- What client `i` has is its own by `owner`, without repetition; the loop serves it
exactly while it waits for an answer; and of its calls only the one that it is in has had
none. -/
structure ClientOk (s : ConnPool ι κ ε) (owner : κ → Place ι) (i : ι) : Prop where
  held : ∀ c, c ∈ s.holds i ↔ owner c = .client i
  nodup : (s.holds i).Nodup
  serves : s.clients i = .waitOut ↔ s.loop.serves = some i
  calls : s.calls i = s.answers i + if (s.clients i).inGet then 1 else 0

/-- The invariant: `owner` says where each connection is, idle, with one client, in the
hands of the loop or closed, so that it cannot be in two places; and the histories of the
pool agree with it. -/
structure OwnedBy (size : Nat) (s : ConnPool ι κ ε) (owner : κ → Place ι) : Prop where
  idle : ∀ c, c ∈ s.connPool ↔ owner c = .idle
  idle_nodup : s.connPool.Nodup
  idle_le : s.connPool.length ≤ size
  hand : ∀ c, s.loop.hand = some c ↔ owner c = .loop
  count : ∀ c, s.dialled.count c = s.deleted.count c + if owner c = .closed then 0 else 1
  fifo : s.recovered = s.handed ++ s.connPool
  dials : ∀ idle ∈ s.dials, idle = []
  clients : ∀ i, s.ClientOk owner i

section

variable {size : Nat} {s s' : ConnPool ι κ ε} {owner owner' : κ → Place ι} {i j : ι} {c : κ}

omit [DecidableEq ι] [DecidableEq κ] in
theorem ClientOk.congr (h : s.ClientOk owner j) (hclient : s'.clients j = s.clients j)
    (hheld : s'.held j = s.held j) (hcalls : s'.calls j = s.calls j)
    (hanswers : s'.answers j = s.answers j)
    (hserves : s'.loop.serves = some j ↔ s.loop.serves = some j)
    (howner : ∀ c, owner' c = .client j ↔ owner c = .client j) : s'.ClientOk owner' j := by
  have hholds : s'.holds j = s.holds j := by rw [holds, holds, hclient, hheld]
  refine ⟨?_, ?_, ?_, ?_⟩
  · intro c
    rw [hholds, howner]
    exact h.held c
  · rw [hholds]
    exact h.nodup
  · rw [hclient, hserves]
    exact h.serves
  · rw [hclient, hcalls, hanswers]
    exact h.calls

theorem ownedBy_new (size : Nat) :
    OwnedBy size (newConnPool : ConnPool ι κ ε) fun _ => .closed where
  idle := by simp [newConnPool]
  idle_nodup := .nil
  idle_le := Nat.zero_le size
  hand := by simp [newConnPool, LoopAt.hand]
  count := by simp [newConnPool]
  fifo := rfl
  dials := by simp [newConnPool]
  clients i := by
    refine ⟨?_, .nil, ?_, ?_⟩ <;>
      simp [newConnPool, holds, ClientAt.pending, LoopAt.serves, ClientAt.inGet]

theorem OwnedBy.open_iff (h : OwnedBy size s owner) : s.Open c ↔ owner c ≠ .closed := by
  have hheld : (∃ i, c ∈ s.holds i) ↔ ∃ i, owner c = .client i :=
    exists_congr fun i => (h.clients i).held c
  rw [Open, h.idle, h.hand, hheld]
  cases owner c <;> simp

omit [DecidableEq ι] in
theorem moved_iff {p p' q : Place ι} (hc : owner c = p) (hp : p ≠ q) (hp' : p' ≠ q) (d : κ) :
    Function.update owner c p' d = q ↔ owner d = q := by
  by_cases hd : d = c
  · subst hd
    rw [Function.update_self, hc]
    exact iff_of_false hp' hp
  · rw [Function.update_of_ne hd]

omit [DecidableEq ι] in
theorem hand_moved (hhand : ∀ d, owner d ≠ .loop) (c d : κ) :
    some c = some d ↔ Function.update owner c .loop d = .loop := by
  by_cases hd : d = c
  · subst hd
    rw [Function.update_self]
    exact iff_of_true rfl rfl
  · rw [Function.update_of_ne hd]
    exact iff_of_false (fun he => hd (Option.some.inj he).symm) (hhand d)

theorem OwnedBy.hand_none (h : OwnedBy size s owner) (hloop : s.loop.hand = none) (c : κ) :
    owner c ≠ .loop := by
  intro hc
  have hcl := (h.hand c).mpr hc
  rw [hloop] at hcl
  cases hcl

/-! ## The clients' steps -/

theorem OwnedBy.callGet (h : OwnedBy size s owner) (hi : s.clients i = .running) :
    OwnedBy size (s.callGet i) owner := by
  refine ⟨h.idle, h.idle_nodup, h.idle_le, h.hand, h.count, h.fifo, h.dials, ?_⟩
  intro j
  by_cases hj : j = i
  · subst hj
    obtain ⟨hheld, hnodup, hserves, hcalls⟩ := h.clients j
    simp only [holds, hi, ClientAt.pending, ClientAt.inGet] at hheld hnodup hserves hcalls
    refine ⟨?_, ?_, ?_, ?_⟩ <;>
      simp only [ConnPool.callGet, holds, Function.update_self, ClientAt.pending, ClientAt.inGet]
    · exact hheld
    · exact hnodup
    · simpa using hserves
    · simpa using hcalls
  · refine (h.clients j).congr ?_ rfl ?_ rfl Iff.rfl fun _ => Iff.rfl <;>
      exact Function.update_of_ne hj _ _

theorem OwnedBy.callPut (h : OwnedBy size s owner) (hi : s.clients i = .running)
    (hc : c ∈ s.held i) : OwnedBy size (s.callPut i c) owner := by
  refine ⟨h.idle, h.idle_nodup, h.idle_le, h.hand, h.count, h.fifo, h.dials, ?_⟩
  intro j
  by_cases hj : j = i
  · subst hj
    obtain ⟨hheld, hnodup, hserves, hcalls⟩ := h.clients j
    simp only [holds, hi, ClientAt.pending, ClientAt.inGet, List.append_nil]
      at hheld hnodup hserves hcalls
    have hperm : ((s.held j).erase c ++ [c]).Perm (s.held j) :=
      List.perm_append_comm.trans (List.perm_cons_erase hc).symm
    refine ⟨fun d => ?_, ?_, ?_, ?_⟩ <;>
      simp only [ConnPool.callPut, holds, Function.update_self, ClientAt.pending, ClientAt.inGet]
    · rw [hperm.mem_iff]
      exact hheld d
    · exact hperm.nodup_iff.mpr hnodup
    · simpa using hserves
    · exact hcalls
  · refine (h.clients j).congr ?_ ?_ rfl rfl Iff.rfl fun _ => Iff.rfl <;>
      exact Function.update_of_ne hj _ _

theorem OwnedBy.recvGet (h : OwnedBy size s owner) (hloop : s.loop = .receive)
    (hi : s.clients i = .sendGet) : OwnedBy size (s.recvGet i) owner := by
  have hhand := h.hand_none (by rw [hloop]; rfl)
  refine ⟨h.idle, h.idle_nodup, h.idle_le, ?_, h.count, h.fifo, h.dials, ?_⟩
  · intro c
    exact iff_of_false nofun (hhand c)
  · intro j
    by_cases hj : j = i
    · subst hj
      obtain ⟨hheld, hnodup, -, hcalls⟩ := h.clients j
      simp only [holds, hi, ClientAt.pending, ClientAt.inGet] at hheld hnodup hcalls
      refine ⟨?_, ?_, ?_, ?_⟩ <;>
        simp only [ConnPool.recvGet, holds, Function.update_self, ClientAt.pending, ClientAt.inGet,
          LoopAt.serves]
      · exact hheld
      · exact hnodup
      · exact hcalls
    · refine (h.clients j).congr (Function.update_of_ne hj _ _) rfl rfl rfl ?_ fun _ => Iff.rfl
      rw [hloop]
      exact iff_of_false (fun he => hj (Option.some.inj he).symm) nofun

theorem OwnedBy.recvPut (h : OwnedBy size s owner) (hloop : s.loop = .receive)
    (hi : s.clients i = .sendPut c) :
    OwnedBy size (s.recvPut i c) (Function.update owner c .loop) := by
  obtain ⟨hheld, hnodup, hserves, hcalls⟩ := h.clients i
  simp only [holds, hi, ClientAt.pending, ClientAt.inGet] at hheld hnodup hserves hcalls
  have hc : owner c = .client i := (hheld c).mp (by simp)
  have hhand := h.hand_none (by rw [hloop]; rfl)
  refine ⟨?_, h.idle_nodup, h.idle_le, hand_moved hhand c, ?_, h.fifo, h.dials, ?_⟩
  · intro d
    rw [moved_iff hc (by simp) (by simp)]
    exact h.idle d
  · intro d
    simp only [moved_iff hc (show Place.client i ≠ .closed by simp)
      (show Place.loop ≠ .closed by simp)]
    exact h.count d
  · intro j
    by_cases hj : j = i
    · subst hj
      obtain ⟨hnd, -, hdisj⟩ := List.nodup_append.mp hnodup
      refine ⟨fun d => ?_, ?_, ?_, ?_⟩ <;>
        simp only [ConnPool.recvPut, holds, Function.update_self, ClientAt.pending, ClientAt.inGet,
          LoopAt.serves, List.append_nil]
      · by_cases hd : d = c
        · subst hd
          rw [Function.update_self]
          exact iff_of_false (fun hm => hdisj d hm d (by simp) rfl) nofun
        · rw [Function.update_of_ne hd, ← hheld d]
          simp [hd]
      · exact hnd
      · simp
      · exact hcalls
    · refine (h.clients j).congr (Function.update_of_ne hj _ _) rfl rfl rfl ?_ ?_
      · rw [hloop]
        exact Iff.rfl
      · intro d
        exact moved_iff hc (by simpa using Ne.symm hj) (by simp) d

/-! ## The loop's steps -/

omit [DecidableEq ι] [DecidableEq κ] in
/-- A step of the loop that moves no connection to or from a client leaves what holds of the
clients. -/
theorem ClientOk.loopStep (h : s.ClientOk owner j) (hclient : s'.clients = s.clients)
    (hheld : s'.held = s.held) (hcalls : s'.calls = s.calls) (hanswers : s'.answers = s.answers)
    (hserves : s'.loop.serves = s.loop.serves)
    (howner : ∀ c, owner' c = .client j ↔ owner c = .client j) : s'.ClientOk owner' j :=
  h.congr (congrFun hclient j) (congrFun hheld j) (congrFun hcalls j) (congrFun hanswers j)
    (by rw [hserves]) howner

/-- `case _PM_GET` with nothing idle: a new connection, which by assumption nobody has,
comes into the hands of the loop, or `NewConn` has failed and the error does. -/
theorem OwnedBy.dial (h : OwnedBy size s owner) (hloop : s.loop = .get i) {newConn : Except ε κ}
    (hnew : ∀ c, newConn = .ok c → ¬s.Open c) (hidle : s.connPool = []) :
    ∃ owner', OwnedBy size (s.get i newConn) owner' := by
  have hhand := h.hand_none (by rw [hloop]; rfl)
  have hserves : s.loop.serves = some i := by rw [hloop]; rfl
  have hmem := h.idle
  have hfifo := h.fifo
  have hdials : ∀ idle ∈ s.dials ++ [([] : List κ)], idle = [] := by
    intro idle hm
    rcases List.mem_append.mp hm with hm | hm
    · exact h.dials idle hm
    · exact List.mem_singleton.mp hm
  rw [hidle] at hmem hfifo
  simp only [ConnPool.get, hidle]
  cases newConn with
  | error e =>
      refine ⟨owner, hmem, .nil, Nat.zero_le _, ?_, ?_, hfifo, hdials,
        fun j => (h.clients j).loopStep rfl rfl rfl rfl hserves.symm fun _ => Iff.rfl⟩
      · intro c
        exact iff_of_false nofun (hhand c)
      · intro c
        simpa [Except.toOption] using h.count c
  | ok c =>
      have hc : owner c = .closed := by
        have hnot := hnew c rfl
        rw [h.open_iff] at hnot
        exact not_not.mp hnot
      refine ⟨Function.update owner c .loop, fun d => ?_, .nil, Nat.zero_le _,
        hand_moved hhand c, fun d => ?_, hfifo, hdials, fun j =>
          (h.clients j).loopStep rfl rfl rfl rfl hserves.symm
            fun d => moved_iff hc (by simp) (by simp) d⟩
      · rw [moved_iff hc (by simp) (by simp)]
        exact hmem d
      · have hcount := h.count d
        by_cases hd : d = c
        · subst hd
          simpa [Except.toOption, hc] using hcount
        · simpa [Except.toOption, Function.update_of_ne hd, Ne.symm hd] using hcount

/-- `case _PM_GET` with idle connections: the one that has been idle longest comes into the
hands of the loop, and no new one is made. -/
theorem OwnedBy.hand_out (h : OwnedBy size s owner) (hloop : s.loop = .get i)
    (newConn : Except ε κ) {rest : List κ} (hidle : s.connPool = c :: rest) :
    OwnedBy size (s.get i newConn) (Function.update owner c .loop) := by
  have hhand := h.hand_none (by rw [hloop]; rfl)
  have hserves : s.loop.serves = some i := by rw [hloop]; rfl
  have hmem := h.idle
  have hnodup := h.idle_nodup
  have hle := h.idle_le
  have hfifo := h.fifo
  rw [hidle] at hmem hnodup hle hfifo
  obtain ⟨hnot, hrest⟩ := List.nodup_cons.mp hnodup
  have hc : owner c = .idle := (hmem c).mp (.head _)
  simp only [ConnPool.get, hidle]
  refine ⟨fun d => ?_, hrest, Nat.le_of_succ_le hle, hand_moved hhand c, fun d => ?_, ?_, h.dials,
    fun j => (h.clients j).loopStep rfl rfl rfl rfl hserves.symm
      fun d => moved_iff hc (by simp) (by simp) d⟩
  · by_cases hd : d = c
    · subst hd
      rw [Function.update_self]
      exact iff_of_false hnot (by simp)
    · rw [Function.update_of_ne hd, ← hmem d, List.mem_cons]
      simp [hd]
  · simp only [moved_iff hc (show Place.idle ≠ .closed by simp) (show Place.loop ≠ .closed by simp)]
    exact h.count d
  · rw [hfifo, List.append_assoc]
    rfl

/-- `case _PM_PUT`: the connection becomes idle, or is deleted if the pool is
full already. -/
theorem OwnedBy.put (h : OwnedBy size s owner) (hloop : s.loop = .put c) :
    ∃ owner', OwnedBy size (s.put size c) owner' := by
  have hc : owner c = .loop := (h.hand c).mp (by rw [hloop]; rfl)
  have honly : ∀ d, d ≠ c → owner d ≠ .loop := by
    intro d hd hdl
    have hhand := (h.hand d).mpr hdl
    rw [hloop] at hhand
    exact hd (Option.some.inj hhand).symm
  have hserves : s.loop.serves = none := by rw [hloop]; rfl
  have hnone : ∀ p : Place ι, p ≠ .loop → ∀ d, (LoopAt.receive : LoopAt ι κ ε).hand = some d
      ↔ Function.update owner c p d = .loop := by
    intro p hp d
    refine iff_of_false nofun ?_
    by_cases hd : d = c
    · subst hd
      rwa [Function.update_self]
    · rw [Function.update_of_ne hd]
      exact honly d hd
  rw [ConnPool.put]
  by_cases hfull : s.connPool.length ≥ size
  · rw [if_pos hfull]
    refine ⟨Function.update owner c .closed, fun d => ?_, h.idle_nodup, h.idle_le,
      hnone _ (by simp), fun d => ?_, h.fifo, h.dials, fun j =>
        (h.clients j).loopStep rfl rfl rfl rfl hserves.symm
          fun d => moved_iff hc (by simp) (by simp) d⟩
    · rw [moved_iff hc (by simp) (by simp)]
      exact h.idle d
    · have hcount := h.count d
      by_cases hd : d = c
      · subst hd
        simpa [hc] using hcount
      · simpa [Function.update_of_ne hd, Ne.symm hd] using hcount
  · rw [if_neg hfull]
    have hnot : c ∉ s.connPool := by
      rw [h.idle, hc]
      simp
    refine ⟨Function.update owner c .idle, fun d => ?_, ?_, ?_, hnone _ (by simp), fun d => ?_, ?_,
      h.dials, fun j => (h.clients j).loopStep rfl rfl rfl rfl hserves.symm
        fun d => moved_iff hc (by simp) (by simp) d⟩
    · by_cases hd : d = c
      · subst hd
        simp
      · rw [Function.update_of_ne hd, ← h.idle d]
        simp [hd]
    · refine List.nodup_append.mpr ⟨h.idle_nodup, by simp, ?_⟩
      rintro a ha b hb rfl
      exact hnot (List.mem_singleton.mp hb ▸ ha)
    · rw [List.length_append, List.length_singleton]
      omega
    · simp only [moved_iff hc (show Place.loop ≠ .closed by simp)
        (show Place.idle ≠ .closed by simp)]
      exact h.count d
    · rw [h.fifo, List.append_assoc]

/-- The answer reaches the client that the loop serves, which has asked for it and now holds
the connection. -/
theorem OwnedBy.answer (h : OwnedBy size s owner) {out : Except ε κ}
    (hloop : s.loop = .answer i out) (hi : s.clients i = .waitOut) :
    ∃ owner', OwnedBy size (s.answer i out) owner' := by
  obtain ⟨hheld, hnodup, -, hcalls⟩ := h.clients i
  simp only [holds, hi, ClientAt.pending, ClientAt.inGet, List.append_nil] at hheld hnodup hcalls
  have hserves : s.loop.serves = some i := by rw [hloop]; rfl
  have hother : ∀ j, j ≠ i → ((LoopAt.receive : LoopAt ι κ ε).serves = some j
      ↔ s.loop.serves = some j) := by
    intro j hj
    rw [hserves]
    exact iff_of_false nofun fun he => hj (Option.some.inj he).symm
  cases out with
  | error e =>
      have hhand := h.hand_none (by rw [hloop]; rfl)
      refine ⟨owner, h.idle, h.idle_nodup, h.idle_le, fun c => iff_of_false nofun (hhand c),
        h.count, h.fifo, h.dials, ?_⟩
      intro j
      by_cases hj : j = i
      · subst hj
        refine ⟨?_, ?_, ?_, ?_⟩ <;>
          simp only [ConnPool.answer, holds, Function.update_self, ClientAt.pending, ClientAt.inGet,
            LoopAt.serves, Except.toOption, Option.toList, List.append_nil]
        · exact hheld
        · exact hnodup
        · simp
        · simpa using hcalls
      · refine (h.clients j).congr ?_ ?_ rfl ?_ (hother j hj) fun _ => Iff.rfl <;>
          exact Function.update_of_ne hj _ _
  | ok c =>
      have hc : owner c = .loop := (h.hand c).mp (by rw [hloop]; rfl)
      have hnot : c ∉ s.held i := by
        rw [hheld, hc]
        simp
      refine ⟨Function.update owner c (.client i), ?_, h.idle_nodup, h.idle_le, ?_, ?_, h.fifo,
        h.dials, ?_⟩
      · intro d
        rw [moved_iff hc (by simp) (by simp)]
        exact h.idle d
      · intro d
        refine iff_of_false nofun ?_
        by_cases hd : d = c
        · subst hd
          simp
        · rw [Function.update_of_ne hd, ← h.hand d, hloop]
          exact fun he => hd (Option.some.inj he).symm
      · intro d
        simp only [moved_iff hc (show Place.loop ≠ .closed by simp)
          (show Place.client i ≠ .closed by simp)]
        exact h.count d
      · intro j
        by_cases hj : j = i
        · subst hj
          refine ⟨fun d => ?_, ?_, ?_, ?_⟩ <;>
            simp only [ConnPool.answer, holds, Function.update_self, ClientAt.pending,
              ClientAt.inGet, LoopAt.serves, Except.toOption, Option.toList, List.append_nil]
          · by_cases hd : d = c
            · subst hd
              simp
            · rw [Function.update_of_ne hd, ← hheld d]
              simp [hd]
          · refine List.nodup_append.mpr ⟨hnodup, by simp, ?_⟩
            rintro a ha b hb rfl
            exact hnot (List.mem_singleton.mp hb ▸ ha)
          · simp
          · simpa using hcalls
        · refine (h.clients j).congr ?_ ?_ rfl ?_ (hother j hj) fun d =>
            moved_iff hc (by simp) (by simpa using Ne.symm hj) d <;>
            exact Function.update_of_ne hj _ _

/-! ## Runs -/

theorem OwnedBy.step (h : OwnedBy size s owner) (hstep : Step size s s') :
    ∃ owner', OwnedBy size s' owner' := by
  cases hstep with
  | callGet i hi => exact ⟨owner, h.callGet hi⟩
  | callPut i c hi hc => exact ⟨owner, h.callPut hi hc⟩
  | recvGet i hloop hi => exact ⟨owner, h.recvGet hloop hi⟩
  | recvPut i c hloop hi => exact ⟨_, h.recvPut hloop hi⟩
  | get i newConn hloop hnew =>
      cases hidle : s.connPool with
      | nil => exact h.dial hloop hnew hidle
      | cons c rest => exact ⟨_, h.hand_out hloop newConn hidle⟩
  | put c hloop => exact h.put hloop
  | answer i out hloop hi => exact h.answer hloop hi

theorem ownedBy_run (h : Run size newConnPool s) : ∃ owner, OwnedBy size s owner := by
  induction h with
  | refl => exact ⟨_, ownedBy_new size⟩
  | step _ hstep ih =>
      obtain ⟨owner, ho⟩ := ih
      exact ho.step hstep

theorem OwnedBy.not_open (h : OwnedBy size s owner) (hc : c ∉ s.dialled) : ¬s.Open c := by
  intro hopen
  have hcount := h.count c
  rw [if_neg (h.open_iff.mp hopen), List.count_eq_zero_of_not_mem hc] at hcount
  omega

/-! ## Every call is answered -/

theorem Run.trans {s'' : ConnPool ι κ ε} (h : Run size s s') (h' : Run size s' s'') :
    Run size s s'' := by
  induction h' with
  | refl => exact h
  | step _ hstep ih => exact .step ih hstep

/-- From `s` the loop gets to its next message, and `GetConn` of client `i`
returns meanwhile; no other client is concerned. -/
structure Answers (size : Nat) (i : ι) (s s' : ConnPool ι κ ε) : Prop where
  run : Run size s s'
  loop : s'.loop = .receive
  client : s'.clients i = .running
  answers : s'.answers i = s.answers i + 1
  others : ∀ j, j ≠ i → s'.clients j = s.clients j ∧ s'.answers j = s.answers j

theorem OwnedBy.answers_of_answer (h : OwnedBy size s owner) {out : Except ε κ}
    (hloop : s.loop = .answer i out) : Answers size i s (s.answer i out) where
  run := .step (.refl s) (.answer i out hloop (((h.clients i).serves).mpr (by rw [hloop]; rfl)))
  loop := rfl
  client := Function.update_self ..
  answers := Function.update_self ..
  others j hj := ⟨Function.update_of_ne hj _ _, Function.update_of_ne hj _ _⟩

theorem OwnedBy.answers_of_get [Inhabited ε] (h : OwnedBy size s owner) (hloop : s.loop = .get i) :
    ∃ s', Answers size i s s' := by
  have hstep : Step size s (s.get i (.error default)) := .get i _ hloop nofun
  obtain ⟨owner', h'⟩ := h.step hstep
  have hframe : ∃ out, (s.get i (.error default)).loop = .answer i out
      ∧ (s.get i (.error default)).clients = s.clients
      ∧ (s.get i (.error default)).answers = s.answers := by
    rw [ConnPool.get]
    split <;> exact ⟨_, rfl, rfl, rfl⟩
  obtain ⟨out, hout, hclients, hanswers⟩ := hframe
  obtain ⟨hrun, hdone, hclient, hmore, hothers⟩ := h'.answers_of_answer hout
  refine ⟨_, Run.trans (.step (.refl s) hstep) hrun, hdone, hclient, ?_, ?_⟩
  · rw [hmore, hanswers]
  · intro j hj
    rw [(hothers j hj).1, (hothers j hj).2, hclients, hanswers]
    exact ⟨rfl, rfl⟩

/-- Whatever the loop is at, it comes back for the next message: it answers the client it
serves, which is waiting for that, or puts away what it has been given. -/
theorem OwnedBy.receives [Inhabited ε] (h : OwnedBy size s owner) :
    ∃ s', Run size s s' ∧ s'.loop = .receive
      ∧ ∀ i, s.clients i = .sendGet → s'.clients i = .sendGet ∧ s'.answers i = s.answers i := by
  have hkept : ∀ {j : ι} {s' : ConnPool ι κ ε}, s.loop.serves = some j → Answers size j s s' →
      ∀ i, s.clients i = .sendGet → s'.clients i = .sendGet ∧ s'.answers i = s.answers i := by
    intro j s' hj hs' i hi
    have hne : i ≠ j := by
      rintro rfl
      rw [((h.clients i).serves).mpr hj] at hi
      cases hi
    rw [(hs'.others i hne).1, (hs'.others i hne).2]
    exact ⟨hi, rfl⟩
  cases hloop : s.loop with
  | receive => exact ⟨s, .refl s, hloop, fun i hi => ⟨hi, rfl⟩⟩
  | get j =>
      obtain ⟨s', hs'⟩ := h.answers_of_get hloop
      exact ⟨s', hs'.run, hs'.loop, hkept (by rw [hloop]; rfl) hs'⟩
  | put c =>
      refine ⟨s.put size c, .step (.refl s) (.put c hloop), ?_, fun i hi => ?_⟩ <;>
        rw [ConnPool.put]
      · split <;> rfl
      · split <;> exact ⟨hi, rfl⟩
  | answer j out =>
      have hs' := h.answers_of_answer hloop
      exact ⟨_, hs'.run, hs'.loop, hkept (by rw [hloop]; rfl) hs'⟩

theorem answered [Inhabited ε] (hrun : Run size newConnPool s) (hi : (s.clients i).inGet = true) :
    ∃ s', Run size s s' ∧ s'.clients i = .running ∧ s'.answers i = s.answers i + 1 := by
  obtain ⟨owner, h⟩ := ownedBy_run hrun
  cases hclient : s.clients i with
  | running => rw [hclient] at hi; cases hi
  | sendPut c => rw [hclient] at hi; cases hi
  | waitOut =>
      have hserves := ((h.clients i).serves).mp hclient
      cases hloop : s.loop with
      | receive => rw [hloop] at hserves; cases hserves
      | put c => rw [hloop] at hserves; cases hserves
      | get j =>
          rw [hloop] at hserves
          cases hserves
          obtain ⟨s', hs'⟩ := h.answers_of_get hloop
          exact ⟨s', hs'.run, hs'.client, hs'.answers⟩
      | answer j out =>
          rw [hloop] at hserves
          cases hserves
          have hs' := h.answers_of_answer hloop
          exact ⟨_, hs'.run, hs'.client, hs'.answers⟩
  | sendGet =>
      obtain ⟨s1, hrun1, hloop1, hkept⟩ := h.receives
      obtain ⟨hclient1, hanswers1⟩ := hkept i hclient
      have hrecv : Step size s1 (s1.recvGet i) := .recvGet i hloop1 hclient1
      have hrun2 : Run size s (s1.recvGet i) := .step hrun1 hrecv
      obtain ⟨owner2, h2⟩ := ownedBy_run (hrun.trans hrun2)
      obtain ⟨s', hs'⟩ := h2.answers_of_get rfl
      refine ⟨s', hrun2.trans hs'.run, hs'.client, ?_⟩
      rw [hs'.answers]
      exact congrArg (· + 1) hanswers1

/-! ## What clients can rely on -/

/-- What holds at every point of every run: no connection is idle and held, held twice, or
in the hands of the loop besides; each one dialled is open or has been deleted once; each
call gets one answer; and the idle ones go out in the order they came back. -/
structure PoolSafe (size : Nat) (s : ConnPool ι κ ε) : Prop where
  idle_nodup : s.connPool.Nodup
  idle_le : s.connPool.length ≤ size
  idle_not_held : ∀ c ∈ s.connPool, ∀ i, c ∉ s.holds i
  held_nodup : ∀ i, (s.holds i).Nodup
  held_once : ∀ c i j, c ∈ s.holds i → c ∈ s.holds j → i = j
  hand : ∀ c, s.loop.hand = some c → c ∉ s.connPool ∧ ∀ i, c ∉ s.holds i
  /-- Each connection dialled has been deleted once, unless it is open. -/
  accounted : ∀ c, (s.Open c → s.dialled.count c = s.deleted.count c + 1)
    ∧ (¬s.Open c → s.dialled.count c = s.deleted.count c)
  /-- No call has more answers than one, and one that has none can get it. -/
  calls : ∀ i, s.calls i = s.answers i + if (s.clients i).inGet then 1 else 0
  answered : ∀ i, (s.clients i).inGet = true →
    ∃ s', Run size s s' ∧ s'.clients i = .running ∧ s'.answers i = s.answers i + 1
  /-- Idle connections are handed out in the order they were recovered. -/
  fifo : s.recovered = s.handed ++ s.connPool
  dials : ∀ idle ∈ s.dials, idle = []

theorem connPool_safe [Inhabited ε] (h : Run size newConnPool s) : PoolSafe size s := by
  obtain ⟨owner, ho⟩ := ownedBy_run h
  refine ⟨ho.idle_nodup, ho.idle_le, ?_, fun i => (ho.clients i).nodup, ?_, fun c hc => ⟨?_, ?_⟩,
    fun c => ⟨?_, ?_⟩, fun i => (ho.clients i).calls, fun i hi => answered h hi, ho.fifo, ho.dials⟩
  · intro c hc i hi
    cases ((ho.idle c).mp hc).symm.trans (((ho.clients i).held c).mp hi)
  · intro c i j hi hj
    cases (((ho.clients i).held c).mp hi).symm.trans (((ho.clients j).held c).mp hj)
    rfl
  · intro hidle
    cases ((ho.hand c).mp hc).symm.trans ((ho.idle c).mp hidle)
  · intro i hi
    cases ((ho.hand c).mp hc).symm.trans (((ho.clients i).held c).mp hi)
  · intro hopen
    rw [ho.count c, if_neg (ho.open_iff.mp hopen)]
  · intro hnot
    have hclosed : owner c = .closed := by
      rw [ho.open_iff] at hnot
      exact not_not.mp hnot
    rw [ho.count c, if_pos hclosed]
    rfl

end

/-- Client 0 gets a new connection and recovers it into a pool of one. -/
theorem connPool_safe_recovered :
    ∃ s : ConnPool Nat Nat Unit, Run 1 newConnPool s ∧ s.connPool = [7] ∧ PoolSafe 1 s := by
  have h1 : Run 1 (newConnPool : ConnPool Nat Nat Unit) _ := .step (.refl _) (.callGet 0 rfl)
  have h2 := h1.step (.recvGet 0 rfl rfl)
  obtain ⟨owner, h⟩ := ownedBy_run h2
  have h3 := h2.step (.get 0 (.ok 7) rfl fun c _ => h.not_open List.not_mem_nil)
  have h4 := h3.step (.answer 0 (.ok 7) rfl rfl)
  have h5 := h4.step (.callPut 0 7 rfl (by decide))
  have h6 := h5.step (.recvPut 0 7 rfl rfl)
  have h7 := h6.step (.put 7 rfl)
  exact ⟨_, h7, rfl, connPool_safe h7⟩

end ConnPool

end Artorias
