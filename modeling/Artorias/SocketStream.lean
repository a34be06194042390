import Artorias.SocketCalls

/-!
# Reading under `EPOLLET` (`lm_socket.c`, `socket.lua`)

A script that has called `ev_begin` waits with `ev_wait` for one of its sockets, and
then reads it with `read_all`: as much as there is, by calls of `sread`. Meanwhile
the peers send on; `epoll` tells of a socket once, when something new has come.

What can be said of one connection is `Heard` (what of it has been returned so far)
and `Tells` (what of it the script will hear yet). That a thread of the worker is such
a script is in `SocketWaitRuns`.
-/

namespace Artorias

/-! ## `read_all` -/

/-- `nbyte` and `s` in the loop -/
structure ReadAll where
  nbyte : Int
  s : List (BitVec 8)
deriving Repr, DecidableEq

/-- What `read_all` returns as `err`. -/
inductive ReadAllErr where
  | connClose
  | errno (n : Int)
deriving Repr, DecidableEq

def ReadAllErr.text : ReadAllErr → String
  | connClose => "conn close"
  | errno n => "errno: " ++ toString n

structure ReadAllResult where
  nbyte : Int
  s : List (BitVec 8)
  err : Option ReadAllErr
deriving Repr, DecidableEq

def startReadAll : ReadAll := ⟨0, []⟩

/-- `read_all` after its loop -/
def readAllReturn (a : ReadAll) (err : Option Int) : ReadAllResult :=
  if (err = some eAgain ∨ err = none) ∧ a.nbyte ≠ 0 then ⟨a.nbyte, a.s, none⟩
  else
    match err with
    | none => ⟨a.nbyte, a.s, some .connClose⟩
    | some errno => ⟨a.nbyte, a.s, some (.errno errno)⟩

/-- The body of the loop in `read_all`, and what follows if it is the last. -/
def readAllTurn (a : ReadAll) (r : Sread) : ReadAll ⊕ ReadAllResult :=
  let a := if r.err = none then ⟨a.nbyte + r.n, a.s ++ r.buf.getD []⟩ else a
  if r.err ≠ none ∨ r.n = 0 then .inr (readAllReturn a r.err) else .inl a

/-- The length in `sread(1024)` -/
def readAllLen : Nat := sreadLen 1024

/-- The descriptor of a socket, if it has not been closed -/
def SendMem.fdOf (s : SendMem) (sock : Addr) : Option Int :=
  ((s.socks sock).bind s.ress).map SendRes.fd

/-- The call `sread(1024)` -/
def sreadCall (s : SendMem) (sock : Addr) : (Int → Nat → RecvOutcome) → SreadEnd :=
  lcfSocketSread s [.userdata sock, .integer 1024]

theorem sreadCall_open {s : SendMem} {sock : Addr} {fd : Int} (hopen : s.fdOf sock = some fd) :
    ReadsFrom (sreadCall s sock) fd readAllLen := by
  obtain ⟨r, hr, rfl⟩ := Option.map_eq_some_iff.mp hopen
  obtain ⟨res, hsock, hres⟩ := Option.bind_eq_some_iff.mp hr
  intro read
  simp [sreadCall, lcfSocketSread, LuaStack.val, LuaValue.toIntegerx, hsock, hres, readAllLen]

/-! ## Events -/

theorem masked_and (m watch e flag : BitVec 32) :
    (m &&& watch ||| e) &&& flag = (m &&& flag) &&& watch ||| e &&& flag := by
  ext i hi
  simp only [BitVec.getElem_and, BitVec.getElem_or]
  cases m[i] <;> cases watch[i] <;> cases e[i] <;> cases flag[i] <;> rfl

theorem hasFlag_iff {events flag : BitVec 32} : hasFlag events flag ↔ events &&& flag ≠ 0 :=
  decide_eq_true_iff

/-- `ev_r` and `ev_rw` of `socket.lua` -/
def evR : BitVec 32 := epollIn ||| epollEt
def evRw : BitVec 32 := epollOut ||| epollOut ||| epollEt

/-- A connection as `epoll` and `read` see it, with what has come of it so far. -/
structure Inbound where
  watch : BitVec 32
  /-- what can be read -/
  queue : List (BitVec 8)
  /-- The peer sends no more. -/
  fin : Bool
  /-- The connection has an error. -/
  broken : Bool
  /-- `epoll_wait` is to look at it. -/
  edge : Bool
  arrived : List (BitVec 8)
  results : List ReadAllResult
deriving DecidableEq

namespace Inbound

def readable (c : Inbound) : Bool := !c.queue.isEmpty || c.fin || c.broken

/-- What `epoll_wait` reports. -/
def events (c : Inbound) (writable : Bool) : BitVec 32 :=
  ((if c.readable then epollIn else 0) ||| (if writable then epollOut else 0)) &&& c.watch
    ||| (if c.broken then epollErr ||| epollHup else 0)

def arrives (c : Inbound) (bytes : List (BitVec 8)) : Inbound :=
  { c with
    queue := c.queue ++ bytes
    arrived := c.arrived ++ bytes
    edge := c.edge || hasFlag c.watch epollIn }

def finishes (c : Inbound) : Inbound :=
  { c with fin := true, edge := c.edge || hasFlag c.watch epollIn }

def breaks (c : Inbound) : Inbound := { c with broken := true, edge := true }

/-- There is room to send again. -/
def drains (c : Inbound) : Inbound := { c with edge := c.edge || hasFlag c.watch epollOut }

/-- `epoll_wait` has looked at it. -/
def seen (c : Inbound) : Inbound := { c with edge := false }

def takes (c : Inbound) (rest : List (BitVec 8)) : Inbound := { c with queue := rest }

def returns (c : Inbound) (r : ReadAllResult) : Inbound := { c with results := c.results ++ [r] }

/-- `read` with a buffer of `n` bytes -/
inductive Reads (n : Nat) (c : Inbound) : RecvOutcome → Inbound → Prop where
  | got {bytes rest : List (BitVec 8)} : c.queue = bytes ++ rest → bytes ≠ [] → bytes.length ≤ n →
      Reads n c (.got bytes) (c.takes rest)
  | eof : c.queue = [] → (c.fin || c.broken) → Reads n c (.got []) c
  | again : c.queue = [] → ¬(c.fin || c.broken) → Reads n c (.failed eAgain) c
  | fails {errno : Int} : c.broken → errno ≠ eAgain → Reads n c (.failed errno) c

theorem events_flag (c : Inbound) (writable : Bool) :
    (hasFlag (c.events writable) epollIn ↔ c.readable ∧ hasFlag c.watch epollIn)
      ∧ (hasFlag (c.events writable) epollOut ↔ writable ∧ hasFlag c.watch epollOut)
      ∧ (hasFlag (c.events writable) epollErr ↔ c.broken)
      ∧ (hasFlag (c.events writable) epollHup ↔ c.broken) := by
  simp only [hasFlag_iff, events, masked_and]
  cases c.readable <;> cases writable <;> cases c.broken <;>
    simp [epollIn, epollOut, epollErr, epollHup, BitVec.and_comm]

theorem wakeOf_input {c : Inbound} {writable : Bool} :
    wakeOf (c.events writable) = .input ↔ ¬c.broken ∧ c.readable ∧ hasFlag c.watch epollIn := by
  obtain ⟨hin, hout, herr, hhup⟩ := c.events_flag writable
  have hiff : hasFlag (c.events writable) epollIn = (c.readable && hasFlag c.watch epollIn) := by
    rw [Bool.eq_iff_iff, hin, Bool.and_eq_true]
  rw [wakeOf, Bool.eq_iff_iff.mpr herr, Bool.eq_iff_iff.mpr hhup, hiff]
  cases c.broken <;> cases c.readable <;> cases hasFlag c.watch epollIn <;>
    cases hasFlag (c.events writable) epollOut <;> simp

/-- After `ev_begin`: `epoll` tells of what there is already. -/
structure Registered (c : Inbound) : Prop where
  arrived : c.arrived = c.queue
  results : c.results = []
  edge : c.readable → hasFlag c.watch epollIn → c.edge

end Inbound

/-! ## Scripts -/

/-- Where a script is. -/
inductive ScriptAt (ι : Type) where
  /-- `ev_wait` -/
  | waiting
  /-- `sread` in `read_all` of socket `i` -/
  | reading (i : ι) (a : ReadAll)
  | ended

structure EvScript (ι : Type) where
  pc : ScriptAt ι
  socks : ι → Inbound
  /-- what the calls see of the worker, and of this script's sockets -/
  mem : SendMem
  sock : ι → Addr

namespace EvScript

variable {ι : Type} [DecidableEq ι]

/-- `sread(1024)` of socket `i` returns `r`, and its connection is then `c`. -/
def Sreads (s : EvScript ι) (i : ι) (r : Sread) (c : Inbound) : Prop :=
  ∃ fd n o, s.mem.fdOf (s.sock i) = some fd ∧ ReadsFrom (sreadCall s.mem (s.sock i)) fd n
    ∧ (s.socks i).Reads n o c ∧ r = o.sread

omit [DecidableEq ι] in
theorem sreads_iff {s : EvScript ι} {i : ι} {r : Sread} {c : Inbound} {fd : Int}
    (hopen : s.mem.fdOf (s.sock i) = some fd) :
    s.Sreads i r c ↔ ∃ o, (s.socks i).Reads readAllLen o c ∧ r = o.sread := by
  constructor
  · rintro ⟨fd', n, o, hopen', hcall, hread, hr⟩
    rw [hopen, Option.some.injEq] at hopen'
    subst hopen'
    obtain ⟨-, rfl⟩ := hcall.unique (sreadCall_open hopen)
    exact ⟨o, hread, hr⟩
  · rintro ⟨o, hread, hr⟩
    exact ⟨fd, readAllLen, o, hopen, sreadCall_open hopen, hread, hr⟩

def setSock (s : EvScript ι) (i : ι) (c : Inbound) : EvScript ι :=
  { s with socks := Function.update s.socks i c }

def goesTo (s : EvScript ι) (pc : ScriptAt ι) : EvScript ι := { s with pc := pc }

/-- One step of the network, of `epoll_wait`, or of the script, which may end after
any result. What it does with the results is not seen here. -/
inductive Step : EvScript ι → EvScript ι → Prop where
  | arrives {s : EvScript ι} (i : ι) (bytes : List (BitVec 8)) : ¬(s.socks i).fin →
      ¬(s.socks i).broken → Step s (s.setSock i ((s.socks i).arrives bytes))
  | finishes {s : EvScript ι} (i : ι) : ¬(s.socks i).fin → ¬(s.socks i).broken →
      Step s (s.setSock i (s.socks i).finishes)
  | breaks {s : EvScript ι} (i : ι) : Step s (s.setSock i (s.socks i).breaks)
  | drains {s : EvScript ι} (i : ι) : Step s (s.setSock i (s.socks i).drains)
  /-- There is nothing to report. -/
  | skip {s : EvScript ι} (i : ι) (writable : Bool) : s.pc = .waiting → (s.socks i).edge →
      (s.socks i).events writable = 0 → Step s (s.setSock i (s.socks i).seen)
  /-- `ev_wait` returns `READY_TO_INPUT`. -/
  | wakes {s : EvScript ι} (i : ι) (writable : Bool) : s.pc = .waiting → (s.socks i).edge →
      (s.socks i).events writable ≠ 0 → wakeOf ((s.socks i).events writable) = .input →
        Step s ((s.setSock i (s.socks i).seen).goesTo (.reading i startReadAll))
  /-- `ev_wait` returns anything else. -/
  | wakesOther {s : EvScript ι} (i : ι) (writable goesOn : Bool) : s.pc = .waiting →
      (s.socks i).edge → (s.socks i).events writable ≠ 0 →
      wakeOf ((s.socks i).events writable) ≠ .input →
        Step s ((s.setSock i (s.socks i).seen).goesTo (if goesOn then .waiting else .ended))
  /-- `ev_wait` has waited long enough. -/
  | timeout {s : EvScript ι} (goesOn : Bool) : s.pc = .waiting →
      Step s (s.goesTo (if goesOn then .waiting else .ended))
  | turn {s : EvScript ι} {i : ι} {a a' : ReadAll} {r : Sread} {c : Inbound} :
      s.pc = .reading i a → s.Sreads i r c → readAllTurn a r = .inl a' →
        Step s ((s.setSock i c).goesTo (.reading i a'))
  | returns {s : EvScript ι} {i : ι} {a : ReadAll} {r : Sread} {result : ReadAllResult}
      {c : Inbound} (goesOn : Bool) : s.pc = .reading i a → s.Sreads i r c →
      readAllTurn a r = .inr result →
        Step s ((s.setSock i (c.returns result)).goesTo (if goesOn then .waiting else .ended))

/-- What `read_all` of socket `i` has read so far, if the script is at it. -/
def busy (s : EvScript ι) (i : ι) : Option ReadAll :=
  match s.pc with
  | .reading j a => if j = i then some a else none
  | .waiting | .ended => none

/-- From a script that has called `ev_begin` on its sockets, which are open. -/
inductive Reach : EvScript ι → Prop where
  | start {s : EvScript ι} : s.pc = .waiting → (∀ i, (s.socks i).Registered) →
      (∀ i, (s.mem.fdOf (s.sock i)).isSome) → Reach s
  | step {s s' : EvScript ι} : Reach s → Step s s' → Reach s'

end EvScript

/-! ## One call of `read_all` -/

section

variable {a a' : ReadAll} {o : RecvOutcome} {r : ReadAllResult} {c c' : Inbound} {n : Nat}

theorem readAllTurn_got {bytes : List (BitVec 8)} (hbytes : bytes ≠ []) :
    readAllTurn a (RecvOutcome.got bytes).sread = .inl ⟨a.nbyte + bytes.length, a.s ++ bytes⟩ := by
  simp [readAllTurn, RecvOutcome.sread, hbytes]

theorem readAllTurn_eof :
    readAllTurn a (RecvOutcome.got []).sread = .inr (readAllReturn a none) := by
  simp [readAllTurn, RecvOutcome.sread]

theorem readAllTurn_failed (errno : Int) :
    readAllTurn a (RecvOutcome.failed errno).sread = .inr (readAllReturn a (some errno)) := by
  simp [readAllTurn, RecvOutcome.sread]

theorem readAllReturn_s (a : ReadAll) (err : Option Int) : (readAllReturn a err).s = a.s := by
  cases err <;>
  · rw [readAllReturn.eq_def]
    split <;> rfl

theorem readAllReturn_ok {err : Option Int} (herr : err = some eAgain ∨ err = none)
    (hne : a.nbyte ≠ 0) : readAllReturn a err = ⟨a.nbyte, a.s, none⟩ :=
  if_pos ⟨herr, hne⟩

theorem readAllReturn_close (hzero : a.nbyte = 0) :
    readAllReturn a none = ⟨a.nbyte, a.s, some .connClose⟩ :=
  if_neg fun h => h.2 hzero

theorem readAllReturn_errno {errno : Int} (hne : errno ≠ eAgain) :
    readAllReturn a (some errno) = ⟨a.nbyte, a.s, some (.errno errno)⟩ :=
  if_neg (by simp [hne])

namespace Inbound

/-- What `read_all` returns is not for nothing: some bytes, or else that there will be none
because the connection has ended, or that it is broken. -/
def Sound (c : Inbound) (r : ReadAllResult) : Prop :=
  r.nbyte = r.s.length ∧ match r.err with
    | none => r.s ≠ []
    | some .connClose => r.s = [] ∧ c.queue = [] ∧ (c.fin || c.broken)
    | some (.errno n) => n ≠ eAgain ∧ c.broken

/-- The bytes that `read_all` has returned -/
def returned (c : Inbound) : List (BitVec 8) := c.results.flatMap ReadAllResult.s

/-- What the script knows of a connection: what has arrived is what it has been told, what
the `read_all` that is at it has read (`busy`), and what is still in the queue; and no
result was for nothing. -/
structure Heard (c : Inbound) (busy : Option ReadAll) : Prop where
  bytes : c.arrived = c.returned ++ busy.elim [] ReadAll.s ++ c.queue
  sound : ∀ r ∈ c.results, c.Sound r
  reading : ∀ a, busy = some a → a.nbyte = a.s.length ∧ hasFlag c.watch epollIn
    ∧ (a.s = [] → c.readable)
  unwatched : ¬hasFlag c.watch epollIn → c.results = []

variable {busy : Option ReadAll}

theorem Registered.heard (h : c.Registered) : c.Heard none where
  bytes := by simp [returned, h.results, h.arrived]
  sound := by simp [h.results]
  reading := by rintro a ⟨⟩
  unwatched := fun _ => h.results

theorem readable_grows (bytes : List (BitVec 8)) (hqueue : c'.queue = c.queue ++ bytes)
    (hfin : c.fin → c'.fin) (hbroken : c.broken → c'.broken) (h : c.readable) : c'.readable := by
  simp only [readable, Bool.or_eq_true, Bool.not_eq_true', List.isEmpty_eq_false_iff] at h ⊢
  rcases h with (hq | hf) | hb
  · exact .inl (.inl (by rw [hqueue]; exact List.append_ne_nil_of_left_ne_nil hq _))
  · exact .inl (.inr (hfin hf))
  · exact .inr (hbroken hb)

/-- More can be read of a connection, or it has ended, and nothing else changes: the script
knows what it knew. -/
theorem Heard.grows (h : c.Heard busy) (bytes : List (BitVec 8))
    (harrived : c'.arrived = c.arrived ++ bytes) (hqueue : c'.queue = c.queue ++ bytes)
    (hresults : c'.results = c.results) (hwatch : c'.watch = c.watch)
    (hfin : c.fin → c'.fin) (hbroken : c.broken → c'.broken)
    (hnone : (c.fin || c.broken) → bytes = []) : c'.Heard busy where
  bytes := by
    rw [harrived, h.bytes, hqueue, returned, returned, hresults, List.append_assoc _ c.queue]
  sound := by
    intro r hr
    rw [hresults] at hr
    obtain ⟨hlen, hs⟩ := h.sound r hr
    refine ⟨hlen, ?_⟩
    rcases herr : r.err with _ | _ | errno <;> rw [herr] at hs
    · exact hs
    · obtain ⟨hnil, hq, hend⟩ := hs
      refine ⟨hnil, ?_, ?_⟩
      · rw [hqueue, hq, hnone hend]
        rfl
      · rw [Bool.or_eq_true] at hend ⊢
        exact hend.imp hfin hbroken
    · exact ⟨hs.1, hbroken hs.2⟩
  reading := by
    intro a ha
    obtain ⟨hlen, hin, hread⟩ := h.reading a ha
    rw [hwatch]
    exact ⟨hlen, hin, fun hnil => readable_grows bytes hqueue hfin hbroken (hread hnil)⟩
  unwatched := by
    rw [hwatch, hresults]
    exact h.unwatched

/-- `ev_wait` returns for a connection that is readable, and a `read_all` begins that will
find something. -/
theorem Heard.wakes (h : c.Heard none) {writable : Bool}
    (hwake : wakeOf (c.events writable) = .input) : c.seen.Heard (some startReadAll) where
  bytes := h.bytes
  sound := h.sound
  reading := by
    rintro a ⟨⟩
    obtain ⟨-, hread, hin⟩ := wakeOf_input.mp hwake
    exact ⟨rfl, hin, fun _ => hread⟩
  unwatched := h.unwatched

theorem Heard.turn (h : c.Heard (some a)) (hread : c.Reads n o c')
    (hturn : readAllTurn a o.sread = .inl a') : c'.Heard (some a') := by
  obtain ⟨hlen, hin, -⟩ := h.reading a rfl
  cases hread with
  | @got bytes rest hq hbytes =>
      rw [readAllTurn_got hbytes] at hturn
      cases hturn
      have hall := h.bytes
      rw [hq] at hall
      refine ⟨?_, fun r hr => ?_, ?_, fun hno => absurd hin hno⟩
      · simpa [takes, returned] using hall
      · obtain ⟨hlen, hs⟩ := h.sound r hr
        refine ⟨hlen, ?_⟩
        rcases herr : r.err with _ | _ | errno <;> rw [herr] at hs
        · exact hs
        · -- what has been closed has nothing to read
          rw [hq] at hs
          exact absurd (List.append_eq_nil_iff.mp hs.2.1).1 hbytes
        · exact hs
      · rintro a' ⟨⟩
        refine ⟨?_, hin, fun hnil => ?_⟩
        · rw [hlen, List.length_append]
          exact (Int.natCast_add ..).symm
        · exact absurd (List.append_eq_nil_iff.mp hnil).2 hbytes
  | eof =>
      rw [readAllTurn_eof] at hturn
      cases hturn
  | again | fails =>
      rw [readAllTurn_failed] at hturn
      cases hturn

/-- `read_all` returns what it has read, and leaves the connection as it is. -/
theorem Heard.add (h : c.Heard (some a)) (hbytes : r.s = a.s) (hr : c.Sound r) :
    (c.returns r).Heard none where
  bytes := by
    have hall := h.bytes
    simpa [returns, returned, hbytes] using hall
  sound := by
    intro r' hr'
    rcases List.mem_append.mp hr' with hr' | hr'
    · exact h.sound r' hr'
    · cases List.mem_singleton.mp hr'
      exact hr
  reading := by rintro a ⟨⟩
  unwatched := fun hno => absurd (h.reading a rfl).2.1 hno

/-- A `read_all` that comes back has read something, or the end has come, since it was begun
on a connection that was readable. -/
theorem sound_return (hlen : a.nbyte = a.s.length) (hread : a.s = [] → c.readable)
    {err : Option Int} (hnil : c.queue = [])
    (herr : err = some eAgain ∧ ¬(c.fin || c.broken) ∨ err = none ∧ (c.fin || c.broken)) :
    c.Sound (readAllReturn a err) := by
  have hok : err = some eAgain ∨ err = none := herr.imp And.left And.left
  by_cases hs : a.s = []
  · have hzero : a.nbyte = 0 := by rw [hlen, hs]; rfl
    rcases herr with ⟨-, hno⟩ | ⟨rfl, hend⟩
    · exact absurd (by simpa [readable, hnil] using hread hs) (by simpa using hno)
    · rw [readAllReturn_close hzero]
      exact ⟨hlen, hs, hnil, hend⟩
  · have hne : a.nbyte ≠ 0 := by
      rw [hlen]
      exact_mod_cast fun h => hs (List.length_eq_zero_iff.mp h)
    rw [readAllReturn_ok hok hne]
    exact ⟨hlen, hs⟩

theorem Heard.returns (h : c.Heard (some a)) (hread : c.Reads n o c')
    (hturn : readAllTurn a o.sread = .inr r) : (c'.returns r).Heard none := by
  obtain ⟨hlen, hin, hfirst⟩ := h.reading a rfl
  cases hread with
  | got _ hbytes =>
      rw [readAllTurn_got hbytes] at hturn
      cases hturn
  | eof hnil hend =>
      rw [readAllTurn_eof] at hturn
      cases hturn
      exact h.add (readAllReturn_s a _) (sound_return hlen hfirst hnil (.inr ⟨rfl, hend⟩))
  | again hnil hno =>
      rw [readAllTurn_failed] at hturn
      cases hturn
      exact h.add (readAllReturn_s a _) (sound_return hlen hfirst hnil (.inl ⟨rfl, hno⟩))
  | @fails errno hbroken hne =>
      rw [readAllTurn_failed] at hturn
      cases hturn
      refine h.add (readAllReturn_s a _) ?_
      rw [readAllReturn_errno hne]
      exact ⟨hlen, hne, hbroken⟩

/-- As long as a connection is watched for input and not broken, `epoll` is to be asked for
it, or the script is at it, or there is nothing to read, and if it has ended the script has
had a result since. -/
def Tells (c : Inbound) (busy : Prop) : Prop :=
  hasFlag c.watch epollIn → ¬c.broken →
    c.edge ∨ busy ∨ (c.queue = [] ∧ (c.fin → c.results ≠ []))

variable {busy : Prop}

theorem Registered.tells (h : c.Registered) : c.Tells busy := by
  intro hin _
  by_cases hread : c.readable
  · exact .inl (h.edge hread hin)
  · simp only [readable, Bool.or_eq_true, Bool.not_eq_true', List.isEmpty_eq_false_iff, not_or,
      not_not] at hread
    exact .inr (.inr ⟨hread.1.1, fun hfin => absurd hfin hread.1.2⟩)

theorem tells_of_edge (hedge : hasFlag c.watch epollIn → c.edge) : c.Tells busy :=
  fun hin _ => .inl (hedge hin)

/-- `epoll_wait` has looked at a connection, and has not said that it can be read, so there
is nothing to tell of it. -/
theorem seen_tells {writable : Bool}
    (hwake : c.events writable = 0 ∨ wakeOf (c.events writable) ≠ .input) :
    c.seen.Tells busy := by
  intro hin hbroken
  have hread : ¬c.readable := by
    intro hread
    rcases hwake with hnone | hother
    · have hflag := (c.events_flag writable).1.mpr ⟨hread, hin⟩
      rw [hnone] at hflag
      exact absurd hflag (by decide)
    · exact hother (wakeOf_input.mpr ⟨hbroken, hread, hin⟩)
  simp only [readable, Bool.or_eq_true, Bool.not_eq_true', List.isEmpty_eq_false_iff, not_or,
    not_not] at hread
  exact .inr (.inr ⟨hread.1.1, fun hfin => absurd hfin hread.1.2⟩)

theorem returns_tells (hread : c.Reads n o c') (hturn : readAllTurn a o.sread = .inr r) :
    (c'.returns r).Tells busy := by
  intro _ hbroken
  have hsome : (c'.returns r).results ≠ [] :=
    List.append_ne_nil_of_right_ne_nil _ (List.cons_ne_nil _ _)
  cases hread with
  | got _ hbytes =>
      rw [readAllTurn_got hbytes] at hturn
      cases hturn
  | eof hnil | again hnil => exact .inr (.inr ⟨hnil, fun _ => hsome⟩)
  | fails hb => exact absurd hb hbroken

end Inbound

end

end Artorias
