import Artorias.Thread
import Artorias.LuaStack

/-!
# Sending on a socket (`lm_socket.c`)

`lcf_socket_send` sends until all bytes are gone, and yields when the kernel
has no room; `k_socket_send` goes on when the worker resumes it. What has been
sent is in a `_send_ctx_t` from the pool.

The kernel and the worker are given by lists: what `send` answers in turn
during one activation of the C code, and with what each further activation is
resumed. `socketSend_delivers_iff` says which of them the call survives.
-/

namespace Artorias

/-- `EAGAIN` -/
def eAgain : Int := 11
/-- `EINVAL` -/
def eInval : Int := 22
/-- `EBADFD` -/
def eBadfd : Int := 77
/-- `ETIMEDOUT` -/
def eTimedout : Int := 110

/-- `_send_ctx_t` -/
structure SendCtx where
  res : Addr
  buf : List (BitVec 8)
  len : Nat
  idx : Nat

/-- What a send reads of an `as_thread_res_t`: the descriptor, and the mode of
its thread if it has one. -/
structure SendRes where
  fd : Int
  thMode : Option ThMode

structure SendMem where
  /-- `sock->res` of each socket -/
  socks : Addr → Option Addr
  ress : Addr → Option SendRes
  /-- the contexts in use -/
  ctxs : Addr → Option SendCtx
  /-- what `memp_recycle` has been called on -/
  recycled : List Addr
  /-- what the kernel has accepted on each descriptor -/
  sent : Int → List (BitVec 8)

namespace SendMem

def setCtx (s : SendMem) (c : Addr) (x : SendCtx) : SendMem :=
  { s with ctxs := Function.update s.ctxs c (some x) }

/-- `memp_recycle(c)` -/
def recycle (s : SendMem) (c : Addr) : SendMem :=
  { s with ctxs := Function.update s.ctxs c none, recycled := s.recycled ++ [c] }

def accept (s : SendMem) (fd : Int) (bytes : List (BitVec 8)) : SendMem :=
  { s with sent := Function.update s.sent fd (s.sent fd ++ bytes) }

end SendMem

/-- What `send` answers: the kernel has room for so many bytes, or -1 with an
`errno`. -/
inductive SendOutcome where
  | room (n : Nat)
  | failed (errno : Int)
deriving Repr, DecidableEq

/-- What an activation of the C code comes to. -/
inductive SendEnd where
  | returned (results : List LuaValue)
  | raised (err : LuaError)
  /-- `lua_yieldk`, with the stack below the values yielded -/
  | yielded (L : LuaStack) (c : Addr)
  /-- A NULL pointer or a recycled block was read. -/
  | fault
  /-- No answer of `send` is left. -/
  | running
deriving Repr, DecidableEq

/-- `status` of a continuation -/
inductive LuaStatus where
  | ok
  | yield
  | err
deriving Repr, DecidableEq

/-- `while (1)` of `k_socket_send` -/
def sendLoop (fd : Int) (L : LuaStack) (c : Addr) :
    List SendOutcome → SendMem → SendMem × SendEnd
  | [], s => (s, .running)
  | o :: outs, s =>
      match s.ctxs c with
      | none => (s, .fault)
      | some x =>
          let buf := x.buf.drop x.idx
          let len := x.len - x.idx
          match o with
          | .room n =>
              let nbyte := min n len
              let s := s.accept fd (buf.take nbyte)
              if nbyte = len then (s.recycle c, .returned [.integer x.len, .nil])
              else sendLoop fd L c outs (s.setCtx c { x with idx := x.idx + nbyte })
          | .failed errno =>
              if errno ≠ eAgain then (s.recycle c, .returned [.integer x.idx, .integer errno])
              else (s, .yielded L c)

/-- `k_socket_send` from `res->fdf(res)` on -/
def sendOn (res : Option Addr) (L : LuaStack) (c : Addr) (outs : List SendOutcome) (s : SendMem) :
    SendMem × SendEnd :=
  match res.bind s.ress with
  | none => (s, .fault)
  | some r => sendLoop r.fd L c outs s

/-- `k_socket_send` -/
def kSocketSend (status : LuaStatus) (L : LuaStack) (c : Addr) (outs : List SendOutcome)
    (s : SendMem) : SendMem × SendEnd :=
  match status with
  | .ok =>
      match s.ctxs c with
      | none => (s, .fault)
      | some x => sendOn (some x.res) L c outs s
  | .yield =>
      -- The original arguments are still below what the worker pushed: index 1
      -- is the socket.
      match (L.val 1).toIntegerx with
      | none => (s, .raised (.badArgument 1))
      | some type =>
          if type = lasSResumeIoTimeout then
            match s.ctxs c with
            | none => (s, .fault)
            | some x => (s.recycle c, .returned [.integer x.idx, .integer eTimedout])
          else sendOn (L.top 2).toUserdata (L.pop 3) c outs s
  | .err => (s.recycle c, .raised (.message "send error"))

/-- `lcf_socket_send`; `ctx` is the worker's context, `malloc` what
`memp_alloc` answers. -/
def lcfSocketSend (L : LuaStack) (ctx : Addr) (malloc : Option Addr) (outs : List SendOutcome)
    (s : SendMem) : SendMem × SendEnd :=
  match L.val 1 with
  | .userdata sock =>
      match s.socks sock with
      | none => (s, .returned [.integer 0, .integer eBadfd])
      | some res =>
          match (s.ress res).bind SendRes.thMode with
          | none => (s, .fault)
          | some mode =>
              if mode ≠ .simple then (s, .raised (.message "ev error"))
              else
                match (L.val 2).toLstring with
                | none => (s, .returned [.integer 0, .integer eInval])
                | some buf =>
                    match malloc with
                    | none => (s, .fault)
                    | some c =>
                        kSocketSend .ok (L ++ [.lightuserdata ctx]) c outs
                          (s.setCtx c ⟨res, buf, buf.length, 0⟩)
  | _ => (s, .raised (.badArgument 1))

/-! ## The worker -/

/-- How the worker resumes a thread that waits for IO. -/
inductive IoResume where
  | ready (res : Addr) (io : Int)
  | error (res : Addr) (errno : Int)
  | timeout
deriving Repr, DecidableEq

/-- What `handle_fd_read`, `handle_fd_write`, `handle_fd_error` and
`p_io_timeout_thread` push. -/
def IoResume.args : IoResume → List LuaValue
  | .ready res io => [.integer lasSResumeIo, .lightuserdata (some res), .integer io]
  | .error res errno => [.integer lasSResumeIoError, .lightuserdata (some res), .integer errno]
  | .timeout => [.integer lasSResumeIoTimeout]

/-- The activations that follow the first, as long as the call waits: the worker resumes it,
and `send` answers anew. -/
def sendResumed : List (IoResume × List SendOutcome) → SendMem × SendEnd → SendMem × SendEnd
  | (r, outs) :: rounds, (s, .yielded L c) =>
      sendResumed rounds (kSocketSend .yield (L ++ r.args) c outs s)
  | _, r => r

/-- The call has come to an end: it neither waits for the worker nor for an answer of
`send`. -/
def SendEnd.Over : SendEnd → Prop
  | .running | .yielded .. => False
  | .returned _ | .raised _ | .fault => True

/-! ## What is sent -/

/-- Of `len` bytes some are left when the kernel has no room, so that the call would have to
wait. -/
def WouldBlock : Nat → List SendOutcome → Bool
  | _, [] => false
  | len, .room n :: outs => decide (n < len) && WouldBlock (len - n) outs
  | _, .failed errno :: _ => errno = eAgain

/-- The kernel refuses to send no bytes. -/
def RefusesEmpty (buf : List (BitVec 8)) (outs : List SendOutcome) : Prop :=
  buf = [] ∧ ∃ errno, outs.head? = some (.failed errno)

/-- The kernel has accepted the first `m` bytes, the script has got `m` and why there are
not more, and the context has been recycled once. -/
def Delivers (s : SendMem) (fd : Int) (buf : List (BitVec 8)) (c : Addr)
    (errnos : List SendOutcome) (r : SendMem × SendEnd) : Prop :=
  ∃ m ≤ buf.length, ∃ err, r.2 = .returned [.integer m, err]
    ∧ r.1.sent = Function.update s.sent fd (s.sent fd ++ buf.take m)
    ∧ r.1.recycled = s.recycled ++ [c]
    ∧ (m = buf.length ∧ err = .nil
      ∨ m < buf.length ∧ ∃ n, err = .integer n ∧ (n = eTimedout ∨ .failed n ∈ errnos))

/-- The state of a send of which the first `idx` bytes are gone: the kernel has them, and
the context says where to go on. -/
structure Sending (s : SendMem) (fd : Int) (res : Addr) (buf : List (BitVec 8)) (c : Addr)
    (idx : Nat) (s' : SendMem) : Prop where
  ctx : s'.ctxs c = some ⟨res, buf, buf.length, idx⟩
  sent : s'.sent = Function.update s.sent fd (s.sent fd ++ buf.take idx)
  recycled : s'.recycled = s.recycled

section

variable {s s' : SendMem} {fd : Int} {res : Addr} {buf : List (BitVec 8)} {c : Addr} {idx : Nat}

theorem Sending.accept_sent (h : Sending s fd res buf c idx s') (k : Nat) :
    (s'.accept fd ((buf.drop idx).take k)).sent
      = Function.update s.sent fd (s.sent fd ++ buf.take (idx + k)) := by
  simp only [SendMem.accept, h.sent, Function.update_self, Function.update_idem]
  rw [List.append_assoc, List.take_add]

theorem Sending.accept (h : Sending s fd res buf c idx s') (k : Nat) :
    Sending s fd res buf c (idx + k) ((s'.accept fd ((buf.drop idx).take k)).setCtx c
      ⟨res, buf, buf.length, idx + k⟩) :=
  ⟨Function.update_self .., h.accept_sent k, h.recycled⟩

/-- The loop of `k_socket_send`, by induction on the answers of `send`: each leaves the
bytes that are gone a prefix. It ends in a wait exactly if the kernel runs out of room while
bytes are left, and else it delivers. -/
theorem sendLoop_spec {L : LuaStack} {outs errnos : List SendOutcome}
    (h : Sending s fd res buf c idx s') (hidx : idx ≤ buf.length)
    (herrs : ∀ o ∈ outs, o ∈ errnos) :
    if WouldBlock (buf.length - idx) outs then
      ∃ s'', sendLoop fd L c outs s' = (s'', .yielded L c)
    else
      idx < buf.length → (sendLoop fd L c outs s').2 = .running
        ∨ Delivers s fd buf c errnos (sendLoop fd L c outs s') := by
  induction outs generalizing s' idx with
  | nil => exact fun _ => .inl rfl
  | cons o outs ih =>
      have hrest : ∀ o ∈ outs, o ∈ errnos := fun o ho => herrs o (.tail _ ho)
      cases o with
      | room n =>
          simp only [WouldBlock, sendLoop, h.ctx]
          by_cases hn : n < buf.length - idx
          · have hmin : min n (buf.length - idx) = n := by omega
            have hsub : buf.length - idx - n = buf.length - (idx + n) := by omega
            rw [hmin, if_neg (show ¬n = buf.length - idx by omega), decide_eq_true hn,
              Bool.true_and, hsub]
            have hspec := ih (h.accept n) (by omega) hrest
            split at hspec
            · rw [if_pos ‹_›]
              exact hspec
            · rw [if_neg ‹_›]
              exact fun _ => hspec (by omega)
          · have hmin : min n (buf.length - idx) = buf.length - idx := by omega
            rw [hmin, if_pos rfl, decide_eq_false hn, Bool.false_and, if_neg Bool.false_ne_true]
            refine fun _ => .inr ⟨buf.length, Nat.le_refl _, .nil, rfl, ?_, ?_, .inl ⟨rfl, rfl⟩⟩
            · have hsent := h.accept_sent (buf.length - idx)
              rwa [Nat.add_sub_cancel' hidx] at hsent
            · exact congrArg (· ++ [c]) h.recycled
      | failed errno =>
          simp only [WouldBlock, sendLoop, h.ctx]
          by_cases hn : errno = eAgain
          · rw [if_pos (decide_eq_true hn), if_neg (not_not.mpr hn)]
            exact ⟨_, rfl⟩
          · rw [if_neg (by simpa using hn), if_pos hn]
            refine fun hlt =>
              .inr ⟨idx, hidx, .integer errno, rfl, h.sent, ?_, .inr ⟨hlt, errno, rfl, ?_⟩⟩
            · exact congrArg (· ++ [c]) h.recycled
            · exact .inr (herrs _ (.head _))

end

@[simp] theorem sendResumed_returned (rounds : List (IoResume × List SendOutcome)) (s : SendMem)
    (results : List LuaValue) :
    sendResumed rounds (s, .returned results) = (s, .returned results) := by
  cases rounds <;> rfl

@[simp] theorem sendResumed_raised (rounds : List (IoResume × List SendOutcome)) (s : SendMem)
    (err : LuaError) : sendResumed rounds (s, .raised err) = (s, .raised err) := by
  cases rounds <;> rfl

@[simp] theorem sendResumed_running (rounds : List (IoResume × List SendOutcome)) (s : SendMem) :
    sendResumed rounds (s, .running) = (s, .running) := by
  cases rounds <;> rfl

/-- No continuation gets past its first look at the stack: at index 1, where it expects the
code of the resume, is the socket that the call was made on. -/
theorem kSocketSend_yield {s : SendMem} {u : Addr} {L : LuaStack} {c : Addr}
    {outs : List SendOutcome} :
    kSocketSend .yield (.userdata u :: L) c outs s = (s, .raised (.badArgument 1)) := rfl

/-- A call that has had to wait ends with an error in place of a count and nothing
delivered. -/
theorem not_delivers_of_yielded {s s' : SendMem} {u c : Addr} {fd : Int} {L : LuaStack}
    {buf : List (BitVec 8)} {errnos : List SendOutcome}
    {rounds : List (IoResume × List SendOutcome)}
    (hover : (sendResumed rounds (s', .yielded (.userdata u :: L) c)).2.Over) :
    ¬Delivers s fd buf c errnos (sendResumed rounds (s', .yielded (.userdata u :: L) c)) := by
  cases rounds with
  | nil => exact hover.elim
  | cons round rounds =>
      obtain ⟨r, outs⟩ := round
      rw [sendResumed, List.cons_append, kSocketSend_yield, sendResumed_raised]
      rintro ⟨m, -, err, hend, -⟩
      cases hend

/-- The send of no bytes delivers exactly if the kernel does not refuse it: with an answer
of -1 the script gets an `errno`, although there was nothing left to send. -/
theorem delivers_empty_iff {s s' : SendMem} {fd : Int} {res c : Addr} {L : LuaStack}
    (h : Sending s fd res [] c 0 s') {outs errnos : List SendOutcome}
    {rounds : List (IoResume × List SendOutcome)} (hblock : WouldBlock 0 outs ≠ true)
    (hover : (sendResumed rounds (sendLoop fd L c outs s')).2.Over) :
    Delivers s fd [] c errnos (sendResumed rounds (sendLoop fd L c outs s'))
      ↔ ¬RefusesEmpty [] outs := by
  rcases outs with _ | ⟨n | errno, outs⟩
  · rw [sendLoop, sendResumed_running] at hover
    exact hover.elim
  · simp only [sendLoop, h.ctx, List.length_nil, Nat.sub_self, Nat.min_zero, if_pos]
    rw [sendResumed_returned]
    refine iff_of_true ⟨0, Nat.le_refl _, .nil, rfl, ?_, ?_, .inl ⟨rfl, rfl⟩⟩ ?_
    · exact h.accept_sent 0
    · exact congrArg (· ++ [c]) h.recycled
    · rintro ⟨-, errno, herr⟩
      cases herr
  · have hne : errno ≠ eAgain := fun he => hblock (decide_eq_true he)
    refine iff_of_false ?_ fun hn => hn ⟨rfl, errno, rfl⟩
    simp only [sendLoop, h.ctx, if_pos hne]
    rw [sendResumed_returned]
    rintro ⟨m, -, err, hend, -, -, ⟨-, rfl⟩ | ⟨hlt, -⟩⟩
    · cases hend
    · exact Nat.not_lt_zero _ hlt

/-- A send of a byte string delivers it, or as much of it as it says, exactly when the
kernel has room for all of it or fails before it has none: after an `EAGAIN` the
continuation takes the socket for the code of the resume. -/
theorem socketSend_delivers_iff {s : SendMem} {u res ctx c : Addr} {fd : Int} {v : LuaValue}
    {args : LuaStack} {buf : List (BitVec 8)} (hsock : s.socks u = some res)
    (hres : s.ress res = some ⟨fd, some .simple⟩) (hbuf : v.toLstring = some buf)
    (outs : List SendOutcome) (rounds : List (IoResume × List SendOutcome))
    (hover : (sendResumed rounds
      (lcfSocketSend (.userdata u :: v :: args) ctx (some c) outs s)).2.Over) :
    Delivers s fd buf c (outs ++ rounds.flatMap Prod.snd)
        (sendResumed rounds (lcfSocketSend (.userdata u :: v :: args) ctx (some c) outs s))
      ↔ WouldBlock buf.length outs = false ∧ ¬RefusesEmpty buf outs := by
  let s1 := s.setCtx c ⟨res, buf, buf.length, 0⟩
  let L : LuaStack := .userdata u :: v :: args ++ [.lightuserdata (some ctx)]
  have hsending : Sending s fd res buf c 0 s1 := by
    refine ⟨Function.update_self .., ?_, rfl⟩
    rw [List.take_zero, List.append_nil, Function.update_eq_self]
    rfl
  have hcall : lcfSocketSend (.userdata u :: v :: args) ctx (some c) outs s
      = sendLoop fd L c outs s1 := by
    have hval1 : LuaStack.val (.userdata u :: v :: args) 1 = .userdata u := rfl
    have hval2 : LuaStack.val (.userdata u :: v :: args) 2 = v := rfl
    have hmode : (s.ress res).bind SendRes.thMode = some .simple := by rw [hres]; rfl
    have hres1 : (some res).bind s1.ress = some ⟨fd, some .simple⟩ := hres
    unfold lcfSocketSend
    simp only [hval1, hsock, hmode, hval2, hbuf, ne_eq, not_true_eq_false, if_false]
    rw [kSocketSend, hsending.ctx]
    simp only [sendOn]
    rw [hres1]
  have herrs : ∀ o ∈ outs, o ∈ outs ++ rounds.flatMap Prod.snd :=
    fun o ho => List.mem_append_left _ ho
  have hspec := sendLoop_spec (L := L) hsending (Nat.zero_le _) herrs
  rw [hcall] at hover ⊢
  split at hspec
  · obtain ⟨s2, hyield⟩ := hspec
    rw [hyield] at hover ⊢
    exact iff_of_false (not_delivers_of_yielded hover) fun h =>
      Bool.noConfusion (h.1.symm.trans ‹_›)
  · have hblock := Bool.eq_false_iff.mpr ‹_›
    rw [Nat.sub_zero] at hblock
    rw [and_iff_right hblock]
    rcases Nat.eq_zero_or_pos buf.length with hlen | hlen
    · obtain rfl := List.length_eq_zero_iff.mp hlen
      exact delivers_empty_iff hsending (Bool.eq_false_iff.mp hblock) hover
    · have hne : ¬RefusesEmpty buf outs := by
        rintro ⟨rfl, -⟩
        exact Nat.lt_irrefl _ hlen
      rcases hloop : sendLoop fd L c outs s1 with ⟨s2, e⟩
      rw [hloop] at hspec hover
      rcases hspec hlen with hrun | hdel
      · subst hrun
        rw [sendResumed_running] at hover
        exact hover.elim
      · refine iff_of_true ?_ hne
        obtain ⟨m, hm, err, hend, hrest⟩ := hdel
        subst hend
        rw [sendResumed_returned]
        exact ⟨m, hm, err, rfl, hrest⟩

/-- Socket 0 with its resource 1 and descriptor 3. -/
def sendStart : SendMem :=
  ⟨fun _ => some 1, fun _ => some ⟨3, some .simple⟩, fun _ => none, [], fun _ => []⟩

theorem socketSend_delivers_two : Delivers sendStart 3 [1, 2] 5 [.room 1, .room 7]
    (lcfSocketSend [.userdata 0, .string [1, 2] none] 9 (some 5) [.room 1, .room 7] sendStart) :=
  (@socketSend_delivers_iff sendStart 0 1 9 5 3 _ [] _ rfl rfl rfl [.room 1, .room 7] []
    (by exact trivial)).mpr ⟨rfl, fun h => nomatch h.1⟩

/-- There is no room at first, and the worker says when there is some again: the script gets
an error in place of its count, and the context is lost. -/
theorem send_not_resumed :
    let r := sendResumed [(.ready 1 lasSReadyToOutput, [.room 2])] (lcfSocketSend
      [.userdata 0, .string [1, 2] none] 9 (some 5) [.failed eAgain] sendStart)
    r.2 = .raised (.badArgument 1) ∧ r.1.recycled = []
      ∧ ¬Delivers sendStart 3 [1, 2] 5 [.failed eAgain, .room 2] r := by
  refine ⟨rfl, rfl, ?_⟩
  rintro ⟨m, -, err, hend, -⟩
  cases hend

end Artorias
