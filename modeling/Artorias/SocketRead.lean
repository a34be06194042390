import Artorias.SocketStream

/-!
# Reading with a wait (`lm_socket.c`)

`lcf_socket_read` of a thread that has not called `ev_begin` waits until the worker
finds the socket ready, and `k_socket_read` then reads once. The worker resumes the
thread for any resource of its that `epoll` tells of, and `asthread_res_ev_del` takes
none of those that it has armed out again; `k_socket_read` reads from the one that it
is resumed for.

So every connection is read in order and no byte of it is lost, but it may be in a
`read` of another socket that it comes back: `simpleScript_reads`. That the worker is
such a script, and has it so, is in `SocketReadRuns`.
-/

namespace Artorias

/-! ## Scripts -/

/-- `epoll` is to look at it anew. -/
def Inbound.relook (c : Inbound) : Inbound := { c with edge := c.edge || c.readable }

/-- `asthread_res_ev_add` with `EPOLLIN | EPOLLET` -/
def Inbound.arm (c : Inbound) : Inbound := { c.relook with watch := evR }

/-- A `read` of one socket that has returned, and the socket that it has read from. -/
structure ReadEntry (ι : Type) where
  asked : ι
  source : Option ι
  result : Sread
deriving DecidableEq

/-- Where a script is. -/
inductive SimpleAt (ι : Type) where
  | running
  /-- `lua_yieldk` in `read(n)` of socket `i` -/
  | waiting (i : ι) (n : Int)
  /-- `k_socket_read`, resumed for socket `j` -/
  | resumed (i : ι) (n : Int) (j : ι)

structure SimpleScript (ι : Type) where
  pc : SimpleAt ι
  socks : ι → Inbound
  /-- the sockets on which `read` has been called -/
  asked : List ι
  log : List (ReadEntry ι)

/-- The bytes of a result -/
def Sread.bytes (r : Sread) : List (BitVec 8) := r.buf.getD []

namespace SimpleScript

variable {ι : Type} [DecidableEq ι]

def setSock (s : SimpleScript ι) (i : ι) (c : Inbound) : SimpleScript ι :=
  { s with socks := Function.update s.socks i c }

/-- `read(n)` of socket `i` is called. -/
def asks (s : SimpleScript ι) (i : ι) (n : Int) : SimpleScript ι :=
  { s.setSock i (s.socks i).arm with pc := .waiting i n, asked := s.asked ++ [i] }

/-- `read` of socket `i` returns. -/
def returns (s : SimpleScript ι) (i : ι) (source : Option ι) (r : Sread) : SimpleScript ι :=
  { s with pc := .running, log := s.log ++ [⟨i, source, r⟩] }

/-- One step of the network, of the worker, or of the script. -/
inductive Step : SimpleScript ι → SimpleScript ι → Prop where
  | arrives {s : SimpleScript ι} (j : ι) (bytes : List (BitVec 8)) : ¬(s.socks j).fin →
      ¬(s.socks j).broken → Step s (s.setSock j ((s.socks j).arrives bytes))
  | finishes {s : SimpleScript ι} (j : ι) : ¬(s.socks j).fin → ¬(s.socks j).broken →
      Step s (s.setSock j (s.socks j).finishes)
  | breaks {s : SimpleScript ι} (j : ι) : Step s (s.setSock j (s.socks j).breaks)
  /-- `asthread_res_ev_del` has taken the events of a resource out; or `read` of it has
  been called after `epoll_wait` but before the worker has come to its event. -/
  | relooks {s : SimpleScript ι} (j : ι) : Step s (s.setSock j (s.socks j).relook)
  | asks {s : SimpleScript ι} (i : ι) (n : Int) : s.pc = .running → Step s (s.asks i n)
  /-- There is nothing to report. -/
  | skip {s : SimpleScript ι} (j : ι) (writable : Bool) : (s.socks j).edge →
      (s.socks j).events writable = 0 → Step s (s.setSock j (s.socks j).seen)
  /-- An event for a socket, whichever it is -/
  | wakes {s : SimpleScript ι} {i : ι} {n : Int} (j : ι) (writable : Bool) :
      s.pc = .waiting i n → (s.socks j).edge → (s.socks j).events writable ≠ 0 →
        Step s { s.setSock j (s.socks j).seen with pc := .resumed i n j }
  | timeout {s : SimpleScript ι} {i : ι} {n : Int} : s.pc = .waiting i n →
      Step s (s.returns i none ⟨0, none, some eTimedout⟩)
  | reads {s : SimpleScript ι} {i j : ι} {n : Int} {o : RecvOutcome} {c : Inbound} :
      s.pc = .resumed i n j → (s.socks j).Reads (sreadLen n) o c →
        Step s ((s.setSock j c).returns i (some j) o.sread)

/-- From a script that has not read anything. -/
inductive Reach : SimpleScript ι → Prop where
  | start {s : SimpleScript ι} : s.pc = .running → s.asked = [] → s.log = [] →
      (∀ j, (s.socks j).watch = 0 ∧ (s.socks j).arrived = (s.socks j).queue) → Reach s
  | step {s s' : SimpleScript ι} : Reach s → Step s s' → Reach s'

/-- What has been read from a connection, by whichever `read` -/
def bytesFrom (s : SimpleScript ι) (j : ι) : List (BitVec 8) :=
  s.log.flatMap fun e => if e.source = some j then e.result.bytes else []

/-! ## The invariant -/

structure Inv (s : SimpleScript ι) : Prop where
  bytes : ∀ j, (s.socks j).arrived = s.bytesFrom j ++ (s.socks j).queue
  watch : ∀ j, (s.socks j).watch = if j ∈ s.asked then evR else 0
  err : ∀ e ∈ s.log, e.result.err ≠ some eAgain
  sources : ∀ e ∈ s.log, ∀ j, e.source = some j → j ∈ s.asked ∨ (s.socks j).broken
  waiting : ∀ i n, s.pc = .waiting i n → i ∈ s.asked ∧ ((s.socks i).readable → (s.socks i).edge)
  resumed : ∀ i n j, s.pc = .resumed i n j → (j ∈ s.asked ∨ (s.socks j).broken)
    ∧ (s.socks j).readable

section

variable {s s' : SimpleScript ι} {i j : ι} {c : Inbound}

@[simp] theorem setSock_same (s : SimpleScript ι) (j : ι) (c : Inbound) :
    (s.setSock j c).socks j = c := Function.update_self ..

theorem setSock_other (s : SimpleScript ι) (hij : i ≠ j) (c : Inbound) :
    (s.setSock j c).socks i = s.socks i := Function.update_of_ne hij ..

/-- What the network does to socket `j`. -/
structure Grows (c c' : Inbound) : Prop where
  bytes : ∃ bytes, c'.arrived = c.arrived ++ bytes ∧ c'.queue = c.queue ++ bytes
  watch : c'.watch = c.watch
  broken : c.broken → c'.broken
  readable : c.readable → c'.readable
  edge : (c.watch = evR → c.readable → c.edge) → c.watch = evR → c'.readable → c'.edge

theorem Inv.grows (h : s.Inv) (hc : Grows (s.socks j) c) : (s.setSock j c).Inv := by
  obtain ⟨bytes, harrived, hqueue⟩ := hc.bytes
  have hkeeps : ∀ (P : ι → Inbound → Prop), (∀ k, P k (s.socks k)) → P j c →
      ∀ k, P k ((s.setSock j c).socks k) := by
    intro P hold hnew k
    rcases eq_or_ne k j with rfl | hk
    · rwa [setSock_same]
    · rw [setSock_other s hk]
      exact hold k
  have hbroken : ∀ k, (s.socks k).broken → ((s.setSock j c).socks k).broken :=
    hkeeps (fun k d => (s.socks k).broken → d.broken) (fun _ => id) hc.broken
  refine ⟨?_, ?_, h.err, ?_, ?_, ?_⟩
  · refine hkeeps (fun k d => d.arrived = s.bytesFrom k ++ d.queue) h.bytes ?_
    rw [harrived, hqueue, h.bytes j, List.append_assoc]
  · refine hkeeps (fun k d => d.watch = if k ∈ s.asked then evR else 0) h.watch ?_
    rw [hc.watch]
    exact h.watch j
  · intro e he k hk
    exact (h.sources e he k hk).imp_right (hbroken k)
  · intro i n hpc
    obtain ⟨hasked, hedge⟩ := h.waiting i n hpc
    refine ⟨hasked, ?_⟩
    rcases eq_or_ne i j with rfl | hij
    · rw [setSock_same]
      have hwatch := h.watch i
      rw [if_pos hasked] at hwatch
      exact hc.edge (fun _ => hedge) hwatch
    · rwa [setSock_other s hij]
  · intro i n k hpc
    obtain ⟨hsource, hread⟩ := h.resumed i n k hpc
    refine ⟨hsource.imp_right (hbroken k), ?_⟩
    rcases eq_or_ne k j with rfl | hk
    · rw [setSock_same]
      exact hc.readable hread
    · rwa [setSock_other s hk]

theorem grows_arrives (c : Inbound) (bytes : List (BitVec 8)) : Grows c (c.arrives bytes) where
  bytes := ⟨bytes, rfl, rfl⟩
  watch := rfl
  broken := id
  readable := Inbound.readable_grows bytes rfl id id
  edge := fun _ hwatch _ => Bool.or_eq_true_iff.mpr (.inr (by rw [hwatch]; decide))

theorem grows_finishes (c : Inbound) : Grows c c.finishes where
  bytes := ⟨[], by simp [Inbound.finishes], by simp [Inbound.finishes]⟩
  watch := rfl
  broken := id
  readable := Inbound.readable_grows [] (by simp [Inbound.finishes]) (fun _ => rfl) id
  edge := fun _ hwatch _ => Bool.or_eq_true_iff.mpr (.inr (by rw [hwatch]; decide))

theorem grows_breaks (c : Inbound) : Grows c c.breaks where
  bytes := ⟨[], by simp [Inbound.breaks], by simp [Inbound.breaks]⟩
  watch := rfl
  broken := fun _ => rfl
  readable := Inbound.readable_grows [] (by simp [Inbound.breaks]) id fun _ => rfl
  edge := fun _ _ _ => rfl

theorem grows_relook (c : Inbound) : Grows c c.relook where
  bytes := ⟨[], (List.append_nil _).symm, (List.append_nil _).symm⟩
  watch := rfl
  broken := id
  readable := id
  edge := fun hold hwatch hread => Bool.or_eq_true_iff.mpr (.inl (hold hwatch hread))

/-- `epoll_wait` reports a socket exactly if it can be read, and is armed or broken. -/
theorem events_ne_zero {c : Inbound} {writable : Bool} (hwatch : c.watch = evR ∨ c.watch = 0) :
    c.events writable ≠ 0 ↔ c.readable ∧ (c.watch = evR ∨ c.broken) := by
  have hbroken : c.broken → c.readable := fun hb => Bool.or_eq_true_iff.mpr (.inr hb)
  rcases hwatch with hwatch | hwatch <;> rw [Inbound.events, hwatch] <;>
    cases hr : c.readable <;> cases hb : c.broken
  case inl.false.true | inr.false.true =>
      rw [hb, hr] at hbroken
      exact absurd (hbroken rfl) Bool.false_ne_true
  all_goals cases writable <;> decide

theorem Inv.watch_cases (h : s.Inv) (j : ι) : (s.socks j).watch = evR ∨ (s.socks j).watch = 0 := by
  rw [h.watch j]
  split
  · exact .inl rfl
  · exact .inr rfl

theorem Inv.asked_of_watch (h : s.Inv) (hwatch : (s.socks j).watch = evR) : j ∈ s.asked := by
  rw [h.watch j] at hwatch
  by_contra hnot
  rw [if_neg hnot] at hwatch
  exact absurd hwatch (by decide)

/-- The script calls `read`, which arms the socket: if there is something to read, the edge
is there. -/
theorem Inv.asks (h : s.Inv) (i : ι) (n : Int) : (s.asks i n).Inv := by
  refine ⟨?_, ?_, h.err, ?_, ?_, ?_⟩
  · refine (Function.forall_update_iff s.socks fun k d => d.arrived = s.bytesFrom k ++ d.queue).mpr
      ⟨h.bytes i, fun k _ => h.bytes k⟩
  · refine (Function.forall_update_iff s.socks fun k d =>
      d.watch = if k ∈ s.asked ++ [i] then evR else 0).mpr ⟨?_, fun k hk => ?_⟩
    · rw [if_pos (by simp)]
      rfl
    · rw [h.watch k]
      simp [hk]
  · intro e he j hj
    have hbroken : ∀ k, (s.socks k).broken → (Function.update s.socks i (s.socks i).arm k).broken :=
      (Function.forall_update_iff s.socks fun k d => (s.socks k).broken → d.broken).mpr
        ⟨id, fun _ _ => id⟩
    exact (h.sources e he j hj).imp (List.mem_append_left _) (hbroken j)
  · rintro k m ⟨⟩
    refine ⟨by simp [SimpleScript.asks], fun hread => ?_⟩
    change (Function.update s.socks i (s.socks i).arm i).readable at hread
    change (Function.update s.socks i (s.socks i).arm i).edge
    rw [Function.update_self] at hread ⊢
    exact Bool.or_eq_true_iff.mpr (.inr hread)
  · rintro _ _ _ ⟨⟩

/-- `epoll_wait` has looked at socket `j`: its edge is gone, so the script must not wait for
that one with something to read. -/
theorem Inv.seen (h : s.Inv) (pc : SimpleAt ι)
    (hwaiting : ∀ i n, pc = .waiting i n → i ∈ s.asked
      ∧ ((s.socks i).readable → i ≠ j ∧ (s.socks i).edge))
    (hresumed : ∀ i n k, pc = .resumed i n k →
      (k ∈ s.asked ∨ (s.socks k).broken) ∧ (s.socks k).readable) :
    ({ s.setSock j (s.socks j).seen with pc := pc } : SimpleScript ι).Inv := by
  have hsame : ∀ k, (Function.update s.socks j (s.socks j).seen k).readable = (s.socks k).readable
      ∧ (Function.update s.socks j (s.socks j).seen k).broken = (s.socks k).broken :=
    (Function.forall_update_iff s.socks fun k d =>
      d.readable = (s.socks k).readable ∧ d.broken = (s.socks k).broken).mpr
      ⟨⟨rfl, rfl⟩, fun _ _ => ⟨rfl, rfl⟩⟩
  refine ⟨?_, ?_, h.err, fun e he k hk => ?_, fun i n hpc => ?_, fun i n k hpc => ?_⟩
  · exact (Function.forall_update_iff s.socks fun k d => d.arrived = s.bytesFrom k ++ d.queue).mpr
      ⟨h.bytes j, fun k _ => h.bytes k⟩
  · exact (Function.forall_update_iff s.socks fun k d =>
      d.watch = if k ∈ s.asked then evR else 0).mpr ⟨h.watch j, fun k _ => h.watch k⟩
  · change k ∈ s.asked ∨ (Function.update s.socks j (s.socks j).seen k).broken
    rw [(hsame k).2]
    exact h.sources e he k hk
  · obtain ⟨hasked, hedge⟩ := hwaiting i n hpc
    refine ⟨hasked, fun hread => ?_⟩
    change (Function.update s.socks j (s.socks j).seen i).readable at hread
    change (Function.update s.socks j (s.socks j).seen i).edge
    rw [(hsame i).1] at hread
    obtain ⟨hij, he⟩ := hedge hread
    rwa [Function.update_of_ne hij]
  · change (k ∈ s.asked ∨ (Function.update s.socks j (s.socks j).seen k).broken)
      ∧ (Function.update s.socks j (s.socks j).seen k).readable
    rw [(hsame k).1, (hsame k).2]
    exact hresumed i n k hpc

theorem returns_bytesFrom (s : SimpleScript ι) (i k : ι) (source : Option ι)
    (r : Sread) : (s.returns i source r).bytesFrom k
      = s.bytesFrom k ++ if source = some k then r.bytes else [] := by
  simp [returns, bytesFrom]

/-- `read` returns after a time, with nothing read and with an error that is
not `EAGAIN`. -/
theorem Inv.timeout (h : s.Inv) (i : ι) : (s.returns i none ⟨0, none, some eTimedout⟩).Inv where
  bytes k := by
    rw [returns_bytesFrom, if_neg (by simp), List.append_nil]
    exact h.bytes k
  watch := h.watch
  err := by
    intro e he
    rcases List.mem_append.mp he with he | he
    · exact h.err e he
    · cases List.mem_singleton.mp he
      exact fun heq => absurd (Option.some.inj heq) (by decide)
  sources := by
    intro e he k hk
    rcases List.mem_append.mp he with he | he
    · exact h.sources e he k hk
    · cases List.mem_singleton.mp he
      cases hk
  waiting := by rintro _ _ ⟨⟩
  resumed := by rintro _ _ _ ⟨⟩

/-- `read` returns what has been read from socket `j`, which had something to read, so that
it is not `EAGAIN`. -/
theorem Inv.reads (h : s.Inv) {n : Int} {o : RecvOutcome} (hpc : s.pc = .resumed i n j) {m : Nat}
    (hread : (s.socks j).Reads m o c) : ((s.setSock j c).returns i (some j) o.sread).Inv := by
  obtain ⟨hsource, hreadable⟩ := h.resumed i n j hpc
  have hc : c.watch = (s.socks j).watch ∧ c.broken = (s.socks j).broken
      ∧ c.arrived = (s.socks j).arrived ∧ (s.socks j).queue = o.sread.bytes ++ c.queue
      ∧ o.sread.err ≠ some eAgain := by
    cases hread with
    | got hq => exact ⟨rfl, rfl, rfl, hq, by simp [RecvOutcome.sread]⟩
    | eof hnil => exact ⟨rfl, rfl, rfl, rfl, by simp [RecvOutcome.sread]⟩
    | again hnil hno =>
        -- there is something to read
        simp only [Inbound.readable, hnil, Bool.or_eq_true] at hreadable
        rcases hreadable with (hq | hf) | hb
        · cases hq
        · exact absurd (Bool.or_eq_true_iff.mpr (.inl hf)) hno
        · exact absurd (Bool.or_eq_true_iff.mpr (.inr hb)) hno
    | fails _ hne => exact ⟨rfl, rfl, rfl, rfl, by simpa [RecvOutcome.sread] using hne⟩
  obtain ⟨hwatch, hbroken, harrived, hqueue, herr⟩ := hc
  have hsame : ∀ k, (Function.update s.socks j c k).broken = (s.socks k).broken :=
    (Function.forall_update_iff s.socks fun k d => d.broken = (s.socks k).broken).mpr
      ⟨hbroken, fun _ _ => rfl⟩
  refine ⟨?_, ?_, ?_, ?_, ?_, ?_⟩
  · intro k
    rw [returns_bytesFrom]
    change (Function.update s.socks j c k).arrived
      = (s.bytesFrom k ++ _) ++ (Function.update s.socks j c k).queue
    rcases eq_or_ne k j with rfl | hk
    · rw [Function.update_self, if_pos rfl, harrived, h.bytes k, hqueue, List.append_assoc]
    · rw [Function.update_of_ne hk, if_neg (by simpa using hk.symm), List.append_nil]
      exact h.bytes k
  · exact (Function.forall_update_iff s.socks fun k d =>
      d.watch = if k ∈ s.asked then evR else 0).mpr ⟨hwatch.trans (h.watch j), fun k _ => h.watch k⟩
  · intro e he
    rcases List.mem_append.mp he with he | he
    · exact h.err e he
    · cases List.mem_singleton.mp he
      exact herr
  · intro e he k hk
    change k ∈ s.asked ∨ (Function.update s.socks j c k).broken
    rw [hsame k]
    rcases List.mem_append.mp he with he | he
    · exact h.sources e he k hk
    · cases List.mem_singleton.mp he
      cases hk
      exact hsource
  · rintro _ _ ⟨⟩
  · rintro _ _ _ ⟨⟩

theorem Inv.step (h : s.Inv) (hstep : Step s s') : s'.Inv := by
  cases hstep with
  | arrives j bytes => exact h.grows (grows_arrives _ bytes)
  | finishes j => exact h.grows (grows_finishes _)
  | breaks j => exact h.grows (grows_breaks _)
  | relooks j => exact h.grows (grows_relook _)
  | asks i n => exact h.asks i n
  | skip j writable hedge hnone =>
      refine h.seen s.pc (fun i n hpc => ?_) h.resumed
      obtain ⟨hasked, he⟩ := h.waiting i n hpc
      refine ⟨hasked, fun hread => ⟨?_, he hread⟩⟩
      rintro rfl
      have hwatch := h.watch i
      rw [if_pos hasked] at hwatch
      exact (events_ne_zero (h.watch_cases i)).mpr ⟨hread, .inl hwatch⟩ hnone
  | @wakes i n j writable hpc hedge hsome =>
      obtain ⟨hread, hwhy⟩ := (events_ne_zero (h.watch_cases j)).mp hsome
      refine h.seen _ (by rintro _ _ ⟨⟩) ?_
      rintro _ _ _ ⟨⟩
      exact ⟨hwhy.imp_left h.asked_of_watch, hread⟩
  | timeout => exact h.timeout _
  | reads hpc hread => exact h.reads hpc hread

theorem Reach.inv (h : Reach s) : s.Inv := by
  induction h with
  | @start s hpc hasked hlog hsocks =>
      refine ⟨fun j => ?_, fun j => ?_, ?_, ?_, ?_, ?_⟩
      · rw [(hsocks j).2, bytesFrom, hlog]
        rfl
      · rw [(hsocks j).1, hasked]
        rfl
      · simp [hlog]
      · simp [hlog]
      · simp [hpc]
      · simp [hpc]
  | step _ hstep ih => exact ih.step hstep

/-! ## What `read` returns -/

/-- Every connection is read in order and without loss, no result is `EAGAIN`, and a `read`
that waits has nothing to wait for but what has not come yet. The bytes are from a socket
that some `read` has been called on, or from one that is broken. -/
theorem simpleScript_reads (h : Reach s) :
    (∀ j, (s.socks j).arrived = s.bytesFrom j ++ (s.socks j).queue)
      ∧ (∀ e ∈ s.log, e.result.err ≠ some eAgain)
      ∧ (∀ e ∈ s.log, ∀ j, e.source = some j → j ∈ s.asked ∨ (s.socks j).broken)
      ∧ ∀ i n, s.pc = .waiting i n → ¬(s.socks i).edge → ¬(s.socks i).readable := by
  have hinv := Reach.inv h
  exact ⟨hinv.bytes, hinv.err, hinv.sources, fun i n hpc hedge hread =>
    hedge ((hinv.waiting i n hpc).2 hread)⟩

end

/-! ## Runs -/

/-- Nothing has come, and nothing has been read. -/
def fresh (ι : Type) : SimpleScript ι :=
  ⟨.running, fun _ => ⟨0, [], false, false, false, [], []⟩, [], []⟩

theorem reach_fresh (ι : Type) [DecidableEq ι] : Reach (fresh ι) :=
  .start rfl rfl rfl fun _ => ⟨rfl, rfl⟩

theorem simpleScript_reads_one : ∃ s : SimpleScript Unit, Reach s
    ∧ s.log = [⟨(), some (), ⟨1, some [7], none⟩⟩]
      ∧ (s.socks ()).arrived = [7] ++ (s.socks ()).queue := by
  have h1 := (reach_fresh Unit).step (.arrives () [7] (by decide) (by decide))
  have h2 := h1.step (.asks () 1 rfl)
  have h3 := h2.step (.wakes () false rfl (by decide) (by decide))
  have h4 := h3.step
      (.reads (o := .got [7]) rfl (.got (List.append_nil [7]).symm (by decide) (by decide)))
  exact ⟨_, h4, rfl, (simpleScript_reads h4).1 ()⟩

end SimpleScript

end Artorias
