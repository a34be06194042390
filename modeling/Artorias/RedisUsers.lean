import Artorias.ConnPool
import Artorias.RedisQuery
import Mathlib.Logic.Relation

/-!
# Users of a pool (`dial/redis/pool.go`)

Any number of goroutines share a `RedisConnPool`: each calls `GetConn`, `Query` on
what it has been given, and `RecoverConn`, in any order. The pool's loop calls
`NewConn` itself, so nobody else is served meanwhile; the bytes on the connections
and the server go on (`RedisNet`).

A connection that waits for `NewConn` is in nobody's hands, and one that waits for
a reply is in those of the goroutine whose `Query` it is (`Inv`).
-/

namespace Artorias

/-- What `NewConn` returns, if not a connection. -/
inductive NewConnError where
  /-- the error of `net.Dial` -/
  | dial
  /-- `ERR_INIT_CONN_REDIS_FAIL` -/
  | initConnRedisFail
deriving DecidableEq

/-- The call `(i, op i)` is the last `Query` of goroutine `i`. -/
structure RedisUsers (ι : Type) where
  pool : ConnPool ι Nat NewConnError
  net : RedisNet
  /-- the connection that `NewConn` waits on -/
  opening : Option Nat
  /-- the connection that `Query` waits on -/
  querying : ι → Option Nat
  op : ι → Nat
  hist : List (HistEvent (ι × Nat) (List (Option Bytes)) Resp)

variable {ι : Type}

namespace RedisUsers

/-- `NewRedisConnPool` -/
def start : RedisUsers ι := ⟨newConnPool, .start, none, fun _ => none, fun _ => 0, []⟩

variable [DecidableEq ι]

/-- `NewConn` of the loop, for goroutine `i`, returns. -/
def opened (s : RedisUsers ι) (i : ι) (net : RedisNet) (newConn : Except NewConnError Nat) :
    RedisUsers ι :=
  { s with pool := s.pool.get i newConn, net := net, opening := none }

/-- Goroutine `i` sends a request. -/
def asks (s : RedisUsers ι) (i : ι) (c : Nat) (argv : List (Option Bytes)) (bs : Bytes) :
    RedisUsers ι :=
  { s with
    net := s.net.asks c argv bs (.reading newParser)
    querying := Function.update s.querying i (some c)
    op := Function.update s.op i (s.op i + 1)
    hist := s.hist ++ [.call (i, s.op i + 1) argv] }

/-- `Query` of goroutine `i` returns, with a reply or without. -/
def returns (s : RedisUsers ι) (i : ι) (net : RedisNet) (reply : Option Resp) : RedisUsers ι :=
  { s with
    net := net
    querying := Function.update s.querying i none
    hist := s.hist ++ reply.toList.map (.ret (i, s.op i)) }

/-- One step of a pool of the given size, whose dialer selects `db`. A `Query` of a
connection that has failed sends and reads nothing: it is no step. -/
inductive Step (lim : Nat) (upper : Bytes → Bytes) (size : Nat) (db : Bytes) :
    RedisUsers ι → RedisUsers ι → Prop where
  /-- A step of the pool other than `NewConn`; a goroutine in `Query` has no part in it. -/
  | pool {s : RedisUsers ι} {pool' : ConnPool ι Nat NewConnError} :
      ConnPool.Step size s.pool pool' →
      (∀ i, (s.querying i).isSome → pool'.clients i = s.pool.clients i) →
      pool'.dials = s.pool.dials → Step lim upper size db s { s with pool := pool' }
  /-- `net.Dial` fails. -/
  | noDial {s : RedisUsers ι} {i : ι} : s.pool.loop = .get i → s.pool.connPool = [] →
      s.opening = none → Step lim upper size db s (s.opened i s.net (.error .dial))
  /-- `NewConn`, up to its `Read` -/
  | dial {s : RedisUsers ι} {i : ι} {c : Nat} {bs : Bytes} : s.pool.loop = .get i →
      s.pool.connPool = [] → s.opening = none → s.net.clients c = .new →
      ArgsFit lim [some selectName, some db] →
      wrapMulitBulk 2 [some selectName, some db] = .ok bs →
        Step lim upper size db s
          { s with net := s.net.asks c [some selectName, some db] bs .dialing, opening := some c }
  | dialed {s : RedisUsers ι} {i : ι} {c : Nat} {buf rest : Bytes} : s.pool.loop = .get i →
      s.opening = some c → s.net.replies c = buf ++ rest → buf ≠ [] → buf.length ≤ newConnBuf →
      buf = okReply →
        Step lim upper size db s
          (s.opened i ((s.net.takes c rest .idle).returns c (.status okText)) (.ok c))
  | refused {s : RedisUsers ι} {i : ι} {c : Nat} {buf rest : Bytes} : s.pool.loop = .get i →
      s.opening = some c → s.net.replies c = buf ++ rest → buf ≠ [] → buf.length ≤ newConnBuf →
      buf ≠ okReply →
        Step lim upper size db s
          (s.opened i (s.net.takes c rest .failed) (.error .initConnRedisFail))
  /-- `Read` of `NewConn` returns an error. -/
  | unread {s : RedisUsers ι} {i : ι} {c : Nat} : s.pool.loop = .get i → s.opening = some c →
      Step lim upper size db s (s.opened i (s.net.setClient c .failed) (.error .initConnRedisFail))
  /-- `Query`, up to its first `Read` -/
  | query {s : RedisUsers ι} {i : ι} {c : Nat} {argv : List (Option Bytes)} {bs : Bytes} :
      s.pool.clients i = .running → c ∈ s.pool.held i → s.querying i = none →
      s.net.clients c = .idle → ArgsFit lim argv → wrapMulitBulk argv.length argv = .ok bs →
        Step lim upper size db s (s.asks i c argv bs)
  /-- `HandleBytes` of the server -/
  | deliver {s : RedisUsers ι} {c : Nat} {argv : List (Option Bytes)} {piece rest : Bytes}
      {store : StoreBlock} {state : ConnState} {reply : ProtocolReply} :
      s.net.server.waiting c = some (argv, piece ++ rest) →
      handleBytes lim upper s.net.server.store (s.net.server.conns c) piece
        = .ok (store, state, reply) →
        Step lim upper size db s { s with net := s.net.answered c argv rest store state reply }
  | more {s : RedisUsers ι} {i : ι} {c n : Nat} {p p' : Parser} {buf rest : Bytes} :
      s.querying i = some c → s.net.clients c = .reading p → s.net.replies c = buf ++ rest →
      buf ≠ [] → buf.length ≤ queryBuf → p.write lim buf = .ok (p', n) → p'.getCommand = none →
        Step lim upper size db s { s with net := s.net.takes c rest (.reading p') }
  | last {s : RedisUsers ι} {i : ι} {c n : Nat} {p p' : Parser} {buf rest : Bytes} {rc : Ref}
      {v : Resp} : s.querying i = some c → s.net.clients c = .reading p →
      s.net.replies c = buf ++ rest → buf ≠ [] → buf.length ≤ queryBuf →
      p.write lim buf = .ok (p', n) → p'.getCommand = some rc → Denotes p'.commands rc v →
        Step lim upper size db s
          (s.returns i ((s.net.takes c rest .idle).returns c v) (some v))
  /-- `Read` of `Query` returns an error, which `Query` does not. -/
  | fails {s : RedisUsers ι} {i : ι} {c : Nat} : s.querying i = some c →
      Step lim upper size db s (s.returns i (s.net.setClient c .failed) none)

def Reach (lim : Nat) (upper : Bytes → Bytes) (size : Nat) (db : Bytes) : RedisUsers ι → Prop :=
  Relation.ReflTransGen (Step lim upper size db) start

end RedisUsers

/-! ## The pool's steps -/

namespace ConnPool

variable [DecidableEq ι] {κ ε : Type} [DecidableEq κ] {size : Nat} {s s' : ConnPool ι κ ε} {i : ι}

theorem Step.dialled_eq (h : Step size s s') (hdials : s'.dials = s.dials) :
    s'.dialled = s.dialled := by
  cases h with
  | get i newConn =>
      cases hidle : s.connPool with
      | nil => simp [ConnPool.get, hidle] at hdials
      | cons c rest => simp [ConnPool.get, hidle]
  | put c =>
      rw [ConnPool.put]
      split <;> rfl
  | callGet | callPut | recvGet | recvPut | answer => rfl

theorem Step.held_eq (h : Step size s s') (hi : s.clients i = .running)
    (hi' : s'.clients i = .running) : s'.held i = s.held i := by
  cases h with
  | callPut j c =>
      have hne : i ≠ j := by
        rintro rfl
        simp [ConnPool.callPut] at hi'
      exact Function.update_of_ne hne _ _
  | answer j out _ hj =>
      have hne : i ≠ j := by
        rintro rfl
        rw [hi] at hj
        cases hj
      exact Function.update_of_ne hne _ _
  | get j newConn =>
      rw [ConnPool.get]
      split <;> rfl
  | put c =>
      rw [ConnPool.put]
      split <;> rfl
  | callGet | recvGet | recvPut => rfl

/-- The loop stays in `NewConn` as long as that has not returned, and nothing becomes idle
meanwhile. -/
theorem Step.stays (h : Step size s s') (hdials : s'.dials = s.dials) (hloop : s.loop = .get i)
    (hidle : s.connPool = []) : s'.loop = .get i ∧ s'.connPool = [] := by
  cases h with
  | callGet | callPut => exact ⟨hloop, hidle⟩
  | get j newConn => simp [ConnPool.get, hidle] at hdials
  | recvGet _ h | recvPut _ _ h | put _ h | answer _ _ h => simp [hloop] at h

end ConnPool

/-! ## What the pool and the network have to do with each other -/

/-- `NewConn` has returned the connection. -/
def QueryAt.dialled : QueryAt → Bool
  | .new | .dialing => false
  | .idle | .reading _ | .failed => true

def QueryAt.inQuery : QueryAt → Bool
  | .reading _ => true
  | .new | .dialing | .idle | .failed => false

namespace RedisUsers

structure Inv [DecidableEq ι] (lim : Nat) (upper : Bytes → Bytes) (size : Nat) (s : RedisUsers ι) :
    Prop where
  pool : ConnPool.Run size newConnPool s.pool
  net : RedisNet.Reach lim upper s.net
  dialled : ∀ c ∈ s.pool.dialled, (s.net.clients c).dialled
  opening : ∀ c, s.opening = some c ↔ s.net.clients c = .dialing
  loop : s.opening.isSome → s.pool.connPool = [] ∧ ∃ i, s.pool.loop = .get i
  querying : ∀ i c, s.querying i = some c → s.pool.clients i = .running ∧ c ∈ s.pool.held i
  inQuery : ∀ c, (s.net.clients c).inQuery ↔ ∃ i, s.querying i = some c

section

variable [DecidableEq ι] {lim size : Nat} {upper : Bytes → Bytes} {db : Bytes} {s s' : RedisUsers ι}
  {i j : ι} {c : Nat} {q : QueryAt} {net : RedisNet}

theorem inv_start (lim : Nat) (upper : Bytes → Bytes) (size : Nat) :
    Inv lim upper size (start : RedisUsers ι) where
  pool := .refl _
  net := .start
  dialled := by rintro c ⟨⟩
  opening := fun c => by simp [start, RedisNet.start]
  loop := by rintro ⟨⟩
  querying := by rintro i c ⟨⟩
  inQuery := fun c => by simp [start, RedisNet.start, QueryAt.inQuery]

/-- Every connection that is open was returned by a `NewConn`. -/
theorem Inv.mem_dialled (h : Inv lim upper size s) (hc : s.pool.Open c) : c ∈ s.pool.dialled := by
  obtain ⟨owner, ho⟩ := ConnPool.ownedBy_run h.pool
  by_contra hnot
  exact ho.not_open hnot hc

theorem Inv.dialled_of_open (h : Inv lim upper size s) (hc : s.pool.Open c) :
    (s.net.clients c).dialled :=
  h.dialled c (h.mem_dialled hc)

theorem Inv.reading (h : Inv lim upper size s) (hi : s.querying i = some c) :
    ∃ p, s.net.clients c = .reading p := by
  have hin := (h.inQuery c).mpr ⟨i, hi⟩
  cases hc : s.net.clients c with
  | reading p => exact ⟨p, rfl⟩
  | new | dialing | idle | failed =>
      rw [hc] at hin
      cases hin

omit [DecidableEq ι] in
theorem held_open (hc : c ∈ s.pool.held i) : s.pool.Open c :=
  .inr (.inl ⟨i, List.mem_append_left _ hc⟩)

/-- Two goroutines are never in `Query` on the same connection: each is on one that it
holds, and the pool hands a connection to one goroutine at a time. -/
theorem Inv.querying_inj (h : Inv lim upper size s) (hi : s.querying i = some c)
    (hj : s.querying j = some c) : i = j := by
  obtain ⟨owner, ho⟩ := ConnPool.ownedBy_run h.pool
  have hat : ∀ k, s.querying k = some c → owner c = .client k := fun k hk =>
    ((ho.clients k).held c).mp (List.mem_append_left _ (h.querying k c hk).2)
  have hij := (hat i hi).symm.trans (hat j hj)
  cases hij
  rfl

/-- `NewConn` returns, having opened `c` or not; in both cases no connection is being
dialled any more. -/
theorem Inv.opened (h : Inv lim upper size s) (hloop : s.pool.loop = .get i)
    (hidle : s.pool.connPool = []) (hnet : RedisNet.Reach lim upper net)
    (hclients : ∀ d, net.clients d = s.net.clients d ∨ (s.opening = some d
      ∧ (net.clients d).dialled ∧ ¬(net.clients d).inQuery))
    (hopening : ∀ d, net.clients d ≠ .dialing) {newConn : Except NewConnError Nat}
    (hnew : ∀ d, newConn = .ok d → s.opening = some d ∧ (net.clients d).dialled) :
    Inv lim upper size (s.opened i net newConn) := by
  have hnot : ∀ d, s.opening = some d → ¬(s.net.clients d).dialled
      ∧ ¬(s.net.clients d).inQuery := by
    intro d hd
    rw [(h.opening d).mp hd]
    exact ⟨Bool.false_ne_true, Bool.false_ne_true⟩
  refine ⟨.step h.pool (.get i newConn hloop ?_), hnet, ?_, ?_, ?_, ?_, ?_⟩
  · intro d hd hopen
    exact (hnot d (hnew d hd).1).1 (h.dialled_of_open hopen)
  · intro d hd
    have hold : ∀ d ∈ s.pool.dialled, (net.clients d).dialled := by
      intro d hd
      rcases hclients d with heq | ⟨-, hdial, -⟩
      · rw [heq]
        exact h.dialled d hd
      · exact hdial
    have hmem : d ∈ s.pool.dialled ++ newConn.toOption.toList := by
      simpa [RedisUsers.opened, ConnPool.get, hidle] using hd
    rcases List.mem_append.mp hmem with hmem | hmem
    · exact hold d hmem
    · cases newConn with
      | error e => cases hmem
      | ok c =>
          cases List.mem_singleton.mp hmem
          exact (hnew _ rfl).2
  · intro d
    simp [RedisUsers.opened, hopening d]
  · rintro ⟨⟩
  · intro j d hj
    simpa [RedisUsers.opened, ConnPool.get, hidle] using h.querying j d hj
  · intro d
    change _ ↔ ∃ j, s.querying j = some d
    rw [← h.inQuery d]
    rcases hclients d with heq | ⟨hd, -, hno⟩
    · exact Bool.coe_iff_coe.mpr (congrArg QueryAt.inQuery heq)
    · exact iff_of_false hno (hnot d hd).2

/-- `Query` of goroutine `i` returns, with a reply or with an error, and its connection is
in no `Query` any more. -/
theorem Inv.returns (h : Inv lim upper size s) (hi : s.querying i = some c)
    (hnet : RedisNet.Reach lim upper net)
    (hclients : net.clients = Function.update s.net.clients c q) (hq : q.dialled)
    (hno : ¬q.inQuery) (reply : Option Resp) : Inv lim upper size (s.returns i net reply) := by
  have hread : (s.net.clients c).inQuery := (h.inQuery c).mpr ⟨i, hi⟩
  refine ⟨h.pool, hnet, ?_, ?_, h.loop, ?_, ?_⟩
  · intro d hd
    change (net.clients d).dialled
    rw [hclients]
    rcases eq_or_ne d c with rfl | hdc
    · rwa [Function.update_self]
    · rw [Function.update_of_ne hdc]
      exact h.dialled d hd
  · intro d
    change s.opening = some d ↔ net.clients d = .dialing
    rw [hclients, h.opening d]
    rcases eq_or_ne d c with rfl | hdc
    · rw [Function.update_self]
      refine iff_of_false ?_ ?_
      · rintro heq
        rw [heq] at hread
        cases hread
      · rintro rfl
        cases hq
    · rw [Function.update_of_ne hdc]
  · intro j d hj
    rcases eq_or_ne j i with rfl | hji
    · simp [RedisUsers.returns] at hj
    · exact h.querying j d (by simpa [RedisUsers.returns, hji] using hj)
  · intro d
    change (net.clients d).inQuery ↔ ∃ j, Function.update s.querying i none j = some d
    rw [hclients]
    rcases eq_or_ne d c with rfl | hdc
    · rw [Function.update_self]
      refine iff_of_false hno ?_
      rintro ⟨j, hj⟩
      rcases eq_or_ne j i with rfl | hji
      · simp at hj
      · rw [Function.update_of_ne hji] at hj
        exact hji (h.querying_inj hj hi)
    · rw [Function.update_of_ne hdc, h.inQuery d]
      constructor
      · rintro ⟨j, hj⟩
        have hji : j ≠ i := by
          rintro rfl
          rw [hi] at hj
          exact hdc (Option.some.inj hj).symm
        exact ⟨j, by rwa [Function.update_of_ne hji]⟩
      · rintro ⟨j, hj⟩
        rcases eq_or_ne j i with rfl | hji
        · simp at hj
        · exact ⟨j, by rwa [Function.update_of_ne hji] at hj⟩

/-- What is on its way moves, and no client does: the pool and the goroutines are as they
were. -/
theorem Inv.carries (h : Inv lim upper size s) (hnet : RedisNet.Reach lim upper net)
    (hdialled : ∀ c, (net.clients c).dialled = (s.net.clients c).dialled)
    (hopening : ∀ c, net.clients c = .dialing ↔ s.net.clients c = .dialing)
    (hquery : ∀ c, (net.clients c).inQuery = (s.net.clients c).inQuery) :
    Inv lim upper size { s with net := net } where
  pool := h.pool
  net := hnet
  dialled := fun c hc => by
    rw [hdialled]
    exact h.dialled c hc
  opening := fun c => (h.opening c).trans (hopening c).symm
  loop := h.loop
  querying := h.querying
  inQuery := fun c => by
    rw [hquery]
    exact h.inQuery c

theorem Inv.pool_step (h : Inv lim upper size s) {pool' : ConnPool ι Nat NewConnError}
    (hstep : ConnPool.Step size s.pool pool')
    (hrunning : ∀ i, (s.querying i).isSome → pool'.clients i = s.pool.clients i)
    (hdials : pool'.dials = s.pool.dials) : Inv lim upper size { s with pool := pool' } where
  pool := .step h.pool hstep
  net := h.net
  dialled := by
    rw [hstep.dialled_eq hdials]
    exact h.dialled
  opening := h.opening
  loop := by
    intro hopen
    obtain ⟨hidle, i, hi⟩ := h.loop hopen
    obtain ⟨hloop, hidle'⟩ := hstep.stays hdials hi hidle
    exact ⟨hidle', i, hloop⟩
  querying := by
    intro i c hi
    obtain ⟨hclient, hheld⟩ := h.querying i c hi
    have hsame := (hrunning i (by rw [hi]; rfl)).trans hclient
    refine ⟨hsame, ?_⟩
    rwa [hstep.held_eq hclient hsame]
  inQuery := h.inQuery

/-- `NewConn` sends its request on a connection that is new, and so nobody's. -/
theorem Inv.dial (h : Inv lim upper size s) (hloop : s.pool.loop = .get i)
    (hidle : s.pool.connPool = []) (hopening : s.opening = none) (hc : s.net.clients c = .new)
    (hnet : RedisNet.Reach lim upper net)
    (hclients : net.clients = Function.update s.net.clients c .dialing) :
    Inv lim upper size { s with net := net, opening := some c } := by
  refine ⟨h.pool, hnet, ?_, ?_, fun _ => ⟨hidle, i, hloop⟩, h.querying, ?_⟩
  · intro d hd
    have hdial := h.dialled d hd
    have hdc : d ≠ c := by
      rintro rfl
      rw [hc] at hdial
      cases hdial
    change (net.clients d).dialled
    rwa [hclients, Function.update_of_ne hdc]
  · intro d
    change some c = some d ↔ net.clients d = .dialing
    rw [hclients]
    rcases eq_or_ne d c with rfl | hdc
    · simp
    · rw [Function.update_of_ne hdc, ← h.opening d, hopening]
      simp [hdc.symm]
  · intro d
    change (net.clients d).inQuery ↔ ∃ j, s.querying j = some d
    rw [← h.inQuery d, hclients]
    rcases eq_or_ne d c with rfl | hdc
    · rw [Function.update_self, hc]
      exact Iff.rfl
    · rw [Function.update_of_ne hdc]

/-- `Query` sends its request on a connection that the goroutine holds and that no other is
in `Query` on. -/
theorem Inv.asks (h : Inv lim upper size s) (hi : s.pool.clients i = .running)
    (hheld : c ∈ s.pool.held i) (hquery : s.querying i = none) (hc : s.net.clients c = .idle)
    {argv : List (Option Bytes)} {bs : Bytes}
    (hnet : RedisNet.Reach lim upper (s.net.asks c argv bs (.reading newParser))) :
    Inv lim upper size (s.asks i c argv bs) := by
  refine ⟨h.pool, hnet, ?_, ?_, h.loop, ?_, ?_⟩
  · intro d hd
    change (Function.update s.net.clients c _ d).dialled
    rcases eq_or_ne d c with rfl | hdc
    · rw [Function.update_self]
      rfl
    · rw [Function.update_of_ne hdc]
      exact h.dialled d hd
  · intro d
    change s.opening = some d ↔ Function.update s.net.clients c _ d = .dialing
    rw [h.opening d]
    rcases eq_or_ne d c with rfl | hdc
    · rw [Function.update_self, hc]
      exact iff_of_false QueryAt.noConfusion QueryAt.noConfusion
    · rw [Function.update_of_ne hdc]
  · intro j d hj
    rcases eq_or_ne j i with rfl | hji
    · have hdc : c = d := by simpa [RedisUsers.asks] using hj
      exact hdc ▸ ⟨hi, hheld⟩
    · exact h.querying j d (by simpa [RedisUsers.asks, hji] using hj)
  · intro d
    change (Function.update s.net.clients c _ d).inQuery
      ↔ ∃ j, Function.update s.querying i (some c) j = some d
    rcases eq_or_ne d c with rfl | hdc
    · rw [Function.update_self]
      exact iff_of_true rfl ⟨i, Function.update_self ..⟩
    · rw [Function.update_of_ne hdc, h.inQuery d]
      refine exists_congr fun j => ?_
      rcases eq_or_ne j i with rfl | hji
      · rw [Function.update_self, hquery]
        simp [hdc.symm]
      · rw [Function.update_of_ne hji]

/-- `NewConn` has read the reply, or has failed to: `c` is not being dialled any more. -/
theorem Inv.opened_one (h : Inv lim upper size s) (hloop : s.pool.loop = .get i)
    (hopening : s.opening = some c) (hnet : RedisNet.Reach lim upper net)
    (hclients : net.clients = Function.update s.net.clients c q) (hq : q.dialled)
    (hno : ¬q.inQuery) {newConn : Except NewConnError Nat} (hnew : ∀ d, newConn = .ok d → d = c) :
    Inv lim upper size (s.opened i net newConn) := by
  obtain ⟨hidle, -⟩ := h.loop (by rw [hopening]; rfl)
  refine h.opened hloop hidle hnet (fun d => ?_) (fun d => ?_) (fun d hd => ?_) <;> rw [hclients]
  · rcases eq_or_ne d c with rfl | hdc
    · rw [Function.update_self]
      exact .inr ⟨hopening, hq, hno⟩
    · exact .inl (Function.update_of_ne hdc ..)
  · rcases eq_or_ne d c with rfl | hdc
    · rw [Function.update_self]
      rintro rfl
      cases hq
    · rw [Function.update_of_ne hdc, ne_eq, ← h.opening d, hopening, Option.some.injEq]
      exact hdc.symm
  · obtain rfl := hnew d hd
    rw [Function.update_self]
    exact ⟨hopening, hq⟩

theorem Inv.step (h : Inv lim upper size s) (hstep : Step lim upper size db s s') :
    Inv lim upper size s' := by
  cases hstep with
  | pool hstep hrunning hdials => exact h.pool_step hstep hrunning hdials
  | noDial hloop hidle hopening =>
      refine h.opened hloop hidle h.net (fun d => .inl rfl) (fun d => ?_) (by rintro d ⟨⟩)
      rw [ne_eq, ← h.opening d, hopening]
      rintro ⟨⟩
  | dial hloop hidle hopening hc hfits hbs =>
      exact h.dial hloop hidle hopening hc (h.net.dial hc hfits hbs) rfl
  | @dialed i c buf rest hloop hopening hbytes hbuf hlen hok =>
      refine h.opened_one (q := .idle) hloop hopening
        (h.net.dialed ((h.opening c).mp hopening) hbytes hbuf hlen hok) rfl rfl
        Bool.false_ne_true fun d hd => ?_
      cases hd
      rfl
  | @refused i c buf rest hloop hopening hbytes hbuf hlen hok =>
      exact h.opened_one (q := .failed) hloop hopening
        (h.net.refused ((h.opening c).mp hopening) hbytes hbuf hlen hok) rfl rfl
        Bool.false_ne_true (by rintro d ⟨⟩)
  | @unread i c hloop hopening =>
      exact h.opened_one (q := .failed) hloop hopening
        (h.net.fails (.inl ((h.opening c).mp hopening))) rfl rfl Bool.false_ne_true
        (by rintro d ⟨⟩)
  | query hi hheld hquery hc hfits hbs =>
      exact h.asks hi hheld hquery hc (h.net.query hc hfits hbs)
  | deliver hwait hrun =>
      exact h.carries (h.net.deliver hwait hrun) (fun _ => rfl) (fun _ => Iff.rfl) fun _ => rfl
  | @more i c n p p' buf rest hi hc hbytes hbuf hlen hwrite hnone =>
      have hat : ∀ d, (s.net.takes c rest (.reading p')).clients d = s.net.clients d
          ∨ (∃ p, s.net.clients d = .reading p)
            ∧ (s.net.takes c rest (.reading p')).clients d = .reading p' := by
        intro d
        rcases eq_or_ne d c with rfl | hdc
        · exact .inr ⟨⟨p, hc⟩, Function.update_self ..⟩
        · exact .inl (Function.update_of_ne hdc ..)
      refine h.carries (h.net.more hc hbytes hbuf hlen hwrite hnone) (fun d => ?_) (fun d => ?_)
        fun d => ?_ <;>
      · rcases hat d with heq | ⟨⟨p, hp⟩, hp'⟩
        · rw [heq]
        · simp [hp, hp', QueryAt.dialled, QueryAt.inQuery]
  | last hi hc hbytes hbuf hlen hwrite hget hv =>
      exact h.returns (q := .idle) hi (h.net.last hc hbytes hbuf hlen hwrite hget hv) rfl rfl
        Bool.false_ne_true _
  | fails hi =>
      exact h.returns (q := .failed) hi (h.net.fails (.inr (h.reading hi))) rfl rfl
        Bool.false_ne_true _

theorem Reach.inv (h : Reach lim upper size db s) : Inv lim upper size s := by
  induction h with
  | refl => exact inv_start lim upper size
  | tail _ hstep ih => exact ih.step hstep

end

end RedisUsers

end Artorias
