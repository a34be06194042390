import Artorias.RedisUsers
import Mathlib.Data.Fintype.Card

/-!
# What the users of a pool see

`users_linearizable`: one store that serves one `Query` at a time. Each call on a
connection is a call of `NewConn` or of one goroutine (`Calls`), and the latter are
linearizable because all are.

`users_never_heal`: connections that have failed stay in the pool, and keep new ones
out of it.
-/

namespace Artorias

variable {ι : Type}

namespace RedisUsers

section

variable [DecidableEq ι] {lim size : Nat} {upper : Bytes → Bytes} {db : Bytes} {s s' : RedisUsers ι}
  {i j : ι} {c : Nat}

/-! ## The users' calls -/

/-- `made n` is the call of a goroutine that the call `n` of a connection is, unless
`NewConn` made it. Each call of a goroutine is one call of a connection, so that `made`
gives no call twice. -/
structure Calls (s : RedisUsers ι) (made : Nat × Nat → Option (ι × Nat)) : Prop where
  inj : ∀ n n' m, made n = some m → made n' = some m → n = n'
  hist : s.hist = s.net.hist.filterMap (HistEvent.rename made)
  past : ∀ c k i m, made (c, k) = some (i, m) → k ≤ s.net.op c ∧ m ≤ s.op i
  querying : ∀ i c, s.querying i = some c → made (c, s.net.op c) = some (i, s.op i)
  opening : ∀ c, s.opening = some c → made (c, s.net.op c) = none
  dials : ∀ n argv, .call n argv ∈ s.net.hist → made n = none →
    ∃ db, argv = [some selectName, some db]

variable {made : Nat × Nat → Option (ι × Nat)}

omit [DecidableEq ι] in
theorem Calls.fresh (h : Calls s made) (c : Nat) : made (c, s.net.op c + 1) = none := by
  cases hm : made (c, s.net.op c + 1) with
  | none => rfl
  | some m => exact absurd (h.past _ _ m.1 m.2 hm).1 (Nat.not_succ_le_self _)

theorem event_id_le {s : RedisNet} (h : RedisNet.Reach lim upper s)
    {e : HistEvent (Nat × Nat) (List (Option Bytes)) Resp} (he : e ∈ s.hist) :
    e.id.2 ≤ s.op e.id.1 := by
  obtain ⟨lin, hinv⟩ := h.inv
  cases e with
  | call n argv => exact hinv.ids n.1 n.2 argv he
  | ret n v =>
      obtain ⟨e, hmem, rfl, -⟩ := hinv.linearizes.returned n v he
      exact hinv.ids e.id.1 e.id.2 e.arg (hinv.linearizes.called e hmem)

omit [DecidableEq ι] in
/-- A step in which nobody calls anything leaves which calls have been made by whom. -/
theorem Calls.frame (h : Calls s made)
    (hhist : s'.hist = s'.net.hist.filterMap (HistEvent.rename made))
    (hcalls : ∀ n argv, .call n argv ∈ s'.net.hist → .call n argv ∈ s.net.hist)
    (hop : s'.op = s.op) (hnetop : s'.net.op = s.net.op)
    (hquery : ∀ i c, s'.querying i = some c → s.querying i = some c)
    (hopen : ∀ c, s'.opening = some c → s.opening = some c) : Calls s' made where
  inj := h.inj
  hist := hhist
  past := by
    rw [hop, hnetop]
    exact h.past
  querying := fun i c hi => by
    rw [hop, hnetop]
    exact h.querying i c (hquery i c hi)
  opening := fun c hc => by
    rw [hnetop]
    exact h.opening c (hopen c hc)
  dials := fun n argv hn => h.dials n argv (hcalls n argv hn)

/-- `NewConn` sends its request, which is none of the users' calls and stays without
a name. -/
theorem Calls.dial (h : Calls s made) (hinv : Inv lim upper size s) (hc : s.net.clients c = .new)
    (bs : Bytes) :
    Calls { s with net := s.net.asks c [some selectName, some db] bs .dialing, opening := some c }
      made := by
  have hother : ∀ i d, s.querying i = some d → d ≠ c := by
    rintro i d hi rfl
    have hin := (hinv.inQuery d).mpr ⟨i, hi⟩
    rw [hc] at hin
    cases hin
  refine ⟨h.inj, ?_, fun d k i m hm => ?_, fun i d hi => ?_, fun d hd => ?_, fun n argv hn hm => ?_⟩
  · have hnone : (HistEvent.call (c, s.net.op c + 1) [some selectName, some db] :
        HistEvent (Nat × Nat) (List (Option Bytes)) Resp).rename made = none := by
      rw [HistEvent.rename, h.fresh c]
      rfl
    simp [RedisNet.asks, List.filterMap_append, hnone, h.hist]
  · obtain ⟨hk, hm⟩ := h.past d k i m hm
    refine ⟨Nat.le_trans hk ?_, hm⟩
    change _ ≤ Function.update s.net.op c (s.net.op c + 1) d
    rcases eq_or_ne d c with rfl | hdc
    · rw [Function.update_self]
      exact Nat.le_succ _
    · rw [Function.update_of_ne hdc]
  · change made (d, Function.update s.net.op c (s.net.op c + 1) d) = _
    rw [Function.update_of_ne (hother i d hi)]
    exact h.querying i d hi
  · cases hd
    change made (c, Function.update s.net.op c (s.net.op c + 1) c) = none
    rw [Function.update_self]
    exact h.fresh c
  · rcases List.mem_append.mp hn with hn | hn
    · exact h.dials n argv hn hm
    · cases List.mem_singleton.mp hn
      exact ⟨db, rfl⟩

/-- A `Query` begins: the next call of the connection is the next one of the goroutine. -/
theorem Calls.asks (h : Calls s made) (hinv : Inv lim upper size s) (hquery : s.querying i = none)
    (hc : s.net.clients c = .idle) (argv : List (Option Bytes)) (bs : Bytes) :
    Calls (s.asks i c argv bs)
      (Function.update made (c, s.net.op c + 1) (some (i, s.op i + 1))) := by
  have hbefore : ∀ d k, k ≤ s.net.op d → (d, k) ≠ (c, s.net.op c + 1) := by
    rintro d k hk heq
    cases heq
    exact Nat.not_succ_le_self _ hk
  have hnew : ∀ n, made n ≠ some (i, s.op i + 1) := fun n hn =>
    Nat.not_succ_le_self _ (h.past n.1 n.2 i _ hn).2
  have hother : ∀ j d, s.querying j = some d → j ≠ i ∧ d ≠ c := by
    intro j d hj
    have hin := (hinv.inQuery d).mpr ⟨j, hj⟩
    constructor
    · rintro rfl
      rw [hquery] at hj
      cases hj
    · rintro rfl
      rw [hc] at hin
      cases hin
  refine ⟨fun n n' m hn hn' => ?_, ?_, fun d k j m hm => ?_, fun j d hj => ?_, fun d hd => ?_,
    fun n argv' hn hm => ?_⟩
  · rcases eq_or_ne n (c, s.net.op c + 1) with rfl | hne <;>
      rcases eq_or_ne n' (c, s.net.op c + 1) with rfl | hne'
    · rfl
    · rw [Function.update_self] at hn
      rw [Function.update_of_ne hne', ← hn] at hn'
      exact absurd hn' (hnew n')
    · rw [Function.update_self] at hn'
      rw [Function.update_of_ne hne, ← hn'] at hn
      exact absurd hn (hnew n)
    · rw [Function.update_of_ne hne] at hn
      rw [Function.update_of_ne hne'] at hn'
      exact h.inj n n' m hn hn'
  · have hold : s.net.hist.filterMap (HistEvent.rename (Function.update made (c, s.net.op c + 1)
        (some (i, s.op i + 1)))) = s.hist := by
      rw [h.hist]
      refine List.filterMap_congr fun e he => HistEvent.rename_congr ?_
      exact Function.update_of_ne (hbefore _ _ (event_id_le hinv.net he)) _ _
    change s.hist ++ _ = (s.net.hist ++ _).filterMap _
    rw [List.filterMap_append, hold]
    simp [HistEvent.rename]
  · change _ ≤ Function.update s.net.op c (s.net.op c + 1) d
      ∧ _ ≤ Function.update s.op i (s.op i + 1) j
    rcases eq_or_ne (d, k) (c, s.net.op c + 1) with heq | hne
    · rw [heq, Function.update_self] at hm
      cases heq
      cases hm
      rw [Function.update_self, Function.update_self]
      exact ⟨Nat.le_refl _, Nat.le_refl _⟩
    · rw [Function.update_of_ne hne] at hm
      obtain ⟨hk, hm⟩ := h.past d k j m hm
      constructor
      · rcases eq_or_ne d c with rfl | hdc
        · rw [Function.update_self]
          exact Nat.le_trans hk (Nat.le_succ _)
        · rwa [Function.update_of_ne hdc]
      · rcases eq_or_ne j i with rfl | hji
        · rw [Function.update_self]
          exact Nat.le_trans hm (Nat.le_succ _)
        · rwa [Function.update_of_ne hji]
  · change Function.update made _ _ (d, Function.update s.net.op c (s.net.op c + 1) d)
      = some (j, Function.update s.op i (s.op i + 1) j)
    change Function.update s.querying i (some c) j = some d at hj
    rcases eq_or_ne j i with rfl | hji
    · rw [Function.update_self] at hj
      cases hj
      rw [Function.update_self, Function.update_self, Function.update_self]
    · rw [Function.update_of_ne hji] at hj
      rw [Function.update_of_ne (hother j d hj).2, Function.update_of_ne hji,
        Function.update_of_ne (hbefore d _ (Nat.le_refl _))]
      exact h.querying j d hj
  · change Function.update made _ _ (d, Function.update s.net.op c (s.net.op c + 1) d) = none
    have hdc : d ≠ c := by
      rintro rfl
      rw [(hinv.opening d).mp hd] at hc
      cases hc
    rw [Function.update_of_ne hdc, Function.update_of_ne (hbefore d _ (Nat.le_refl _))]
    exact h.opening d hd
  · rcases List.mem_append.mp hn with hn | hn
    · rw [Function.update_of_ne (hbefore n.1 n.2 (event_id_le hinv.net hn))] at hm
      exact h.dials n argv' hn hm
    · cases List.mem_singleton.mp hn
      rw [Function.update_self] at hm
      cases hm

theorem querying_of_update (hj : Function.update s.querying i none j = some c) :
    s.querying j = some c := by
  rcases eq_or_ne j i with rfl | hji
  · rw [Function.update_self] at hj
    cases hj
  · rwa [Function.update_of_ne hji] at hj

theorem mem_of_ret {hist : List (HistEvent (Nat × Nat) (List (Option Bytes)) Resp)}
    {n m : Nat × Nat}
    {argv : List (Option Bytes)} {v : Resp} (h : .call n argv ∈ hist ++ [.ret m v]) :
    .call n argv ∈ hist := by
  rcases List.mem_append.mp h with h | h
  · exact h
  · cases List.mem_singleton.mp h

theorem Calls.step (h : Calls s made) (hinv : Inv lim upper size s)
    (hstep : Step lim upper size db s s') : ∃ made', Calls s' made' := by
  cases hstep with
  | pool | deliver | more =>
      exact ⟨made, h.frame h.hist (fun _ _ => id) rfl rfl (fun _ _ => id) fun _ => id⟩
  | noDial | refused | unread =>
      exact ⟨made, h.frame h.hist (fun _ _ => id) rfl rfl (fun _ _ => id) (by rintro _ ⟨⟩)⟩
  | dial _ _ _ hc => exact ⟨made, h.dial hinv hc _⟩
  | query _ _ hquery hc => exact ⟨_, h.asks hinv hquery hc _ _⟩
  | @dialed i c buf rest hloop hopening =>
      refine ⟨made, h.frame ?_ (fun _ _ => mem_of_ret) rfl rfl (fun _ _ => id) (by rintro _ ⟨⟩)⟩
      change s.hist
        = (s.net.hist ++ [HistEvent.ret (c, s.net.op c) (Resp.status okText)]).filterMap _
      rw [List.filterMap_append, h.hist]
      simp [HistEvent.rename, h.opening c hopening]
  | @last i c n p p' buf rest rc v hi =>
      refine ⟨made, h.frame ?_ (fun _ _ => mem_of_ret) rfl rfl (fun _ _ => querying_of_update)
        fun _ => id⟩
      change s.hist ++ [HistEvent.ret (i, s.op i) v]
        = (s.net.hist ++ [HistEvent.ret (c, s.net.op c) v]).filterMap _
      rw [List.filterMap_append, h.hist]
      simp [HistEvent.rename, h.querying i c hi]
  | @fails i c hi =>
      refine ⟨made, h.frame ?_ (fun _ _ => id) rfl rfl (fun _ _ => querying_of_update) fun _ => id⟩
      change s.hist ++ [] = _
      rw [List.append_nil]
      exact h.hist

theorem Reach.calls (h : Reach lim upper size db s) : ∃ made, Calls s made := by
  induction h with
  | refl =>
      refine ⟨fun _ => none, ?_, rfl, ?_, ?_, ?_, ?_⟩
      · rintro _ _ _ ⟨⟩
      · rintro _ _ _ _ ⟨⟩
      · rintro _ _ ⟨⟩
      · rintro _ ⟨⟩
      · rintro _ _ ⟨⟩
  | tail hreach hstep ih =>
      obtain ⟨made, h⟩ := ih
      exact h.step (Reach.inv hreach) hstep

/-! ## What the users see -/

/-- The goroutines see one store, which serves one `Query` at a time: nobody reads a
reply that is not his, and `NewConn` is not to be seen. A connection is in one `Query` at
most; one that is open and in none has failed, or has nothing of a request or a reply on
its way. -/
theorem users_linearizable (h : Reach lim upper size db s) :
    Linearizable (storeStep upper) newStoreBlock s.hist
      ∧ (∀ i j c, s.querying i = some c → s.querying j = some c → i = j)
      ∧ ∀ c, s.pool.Open c → (∀ i, s.querying i ≠ some c) →
        s.net.clients c = .failed ∨ (s.net.clients c = .idle ∧ s.net.replies c = []
          ∧ s.net.server.waiting c = none ∧ s.net.server.conns c = newConnState) := by
  have hinv := Reach.inv h
  obtain ⟨made, hcalls⟩ := Reach.calls h
  obtain ⟨lin, hnet⟩ := hinv.net.inv
  refine ⟨⟨lin.filterMap (Effect.rename made), ?_⟩, fun i j c => hinv.querying_inj, ?_⟩
  · rw [hcalls.hist]
    refine hnet.linearizes.rename hcalls.inj fun e he hnone sb => ?_
    obtain ⟨db, hdb⟩ := hcalls.dials _ _ (hnet.linearizes.called e he) hnone
    rw [hdb]
    rfl
  · intro c hopen hnot
    have hdialled := hinv.dialled_of_open hopen
    have hclient := hnet.clients c
    cases hc : s.net.clients c with
    | new | dialing =>
        rw [hc] at hdialled
        cases hdialled
    | failed => exact .inl rfl
    | reading p =>
        obtain ⟨i, hi⟩ := (hinv.inQuery c).mp (by rw [hc]; rfl)
        exact absurd hi (hnot i)
    | idle =>
        rw [hc] at hclient
        exact .inr ⟨rfl, hclient.2, hclient.1, (served_inv hnet.served).idle c hclient.1⟩

end

end RedisUsers

/-! ## Connections that have failed -/

namespace ConnPool

variable [DecidableEq ι] {κ ε : Type} [DecidableEq κ] {size : Nat} {s s' : ConnPool ι κ ε} {i : ι}

/-- No client has or wants more than one connection at a time. -/
def OneEach (s : ConnPool ι κ ε) : Prop :=
  ∀ i, (s.holds i).length + (if (s.clients i).inGet then 1 else 0) ≤ 1

/-- As many connections as there are clients, none of them ever deleted. -/
structure Few [Fintype ι] (s : ConnPool ι κ ε) : Prop where
  dialled : s.dialled.length ≤ Fintype.card ι
  deleted : s.deleted = []

/-- With no idle connection left each one is held, by a client other than the one that
`NewConn` is called for; so there are fewer of them than clients. -/
theorem OwnedBy.dialled_lt [Fintype ι] {owner : κ → Place ι} (h : OwnedBy size s owner)
    (hone : s.OneEach) (hdeleted : s.deleted = []) (hloop : s.loop = .get i)
    (hidle : s.connPool = []) : s.dialled.length < Fintype.card ι := by
  have hcount : ∀ c, s.dialled.count c = if owner c = .closed then 0 else 1 := by
    intro c
    rw [h.count c, hdeleted, List.count_nil, Nat.zero_add]
  have hnodup : s.dialled.Nodup := by
    refine List.nodup_iff_count_le_one.mpr fun c => ?_
    rw [hcount c]
    split <;> omega
  have hwait : s.clients i = .waitOut := ((h.clients i).serves).mpr (by rw [hloop]; rfl)
  have hnone : s.holds i = [] := by
    have := hone i
    rw [hwait] at this
    exact List.length_eq_zero_iff.mp (by simpa [ClientAt.inGet] using this)
  have hheld : ∀ c ∈ s.dialled, ∃ j, c ∈ s.holds j := by
    intro c hc
    cases hplace : owner c with
    | closed =>
        have hzero := hcount c
        rw [if_pos hplace] at hzero
        exact absurd hc (List.count_eq_zero.mp hzero)
    | idle =>
        rw [← h.idle c, hidle] at hplace
        cases hplace
    | loop => exact absurd hplace (h.hand_none (by rw [hloop]; rfl) c)
    | client j => exact ⟨j, ((h.clients j).held c).mpr hplace⟩
  have : Nonempty ι := ⟨i⟩
  choose! who hwho using hheld
  have hinj : (s.dialled.map who).Nodup := by
    refine hnodup.map_on fun c hc d hd heq => ?_
    have hlen : (s.holds (who d)).length ≤ 1 := Nat.le_of_add_right_le (hone (who d))
    obtain ⟨e, he⟩ := List.length_eq_one_iff.mp
      (Nat.le_antisymm hlen (List.length_pos_of_mem (hwho d hd)))
    have hc' := hwho c hc
    have hd' := hwho d hd
    rw [heq, he] at hc'
    rw [he] at hd'
    rw [List.mem_singleton.mp hc', List.mem_singleton.mp hd']
  have hi : i ∉ s.dialled.map who := by
    intro hmem
    obtain ⟨c, hc, rfl⟩ := List.mem_map.mp hmem
    have hmem' := hwho c hc
    rw [hnone] at hmem'
    cases hmem'
  have hle := (List.nodup_cons.mpr ⟨hi, hinj⟩).length_le_card
  rwa [List.length_cons, List.length_map] at hle

theorem Few.step [Fintype ι] (h : s.Few) (hrun : Run size newConnPool s) (hone : s.OneEach)
    (hsize : Fintype.card ι ≤ size) (hstep : Step size s s') : s'.Few := by
  obtain ⟨owner, ho⟩ := ownedBy_run hrun
  cases hstep with
  | callGet | callPut | recvGet | recvPut | answer => exact ⟨h.dialled, h.deleted⟩
  | get i newConn hloop =>
      cases hidle : s.connPool with
      | nil =>
          have hlt := ho.dialled_lt hone h.deleted hloop hidle
          refine ⟨?_, ?_⟩ <;> simp only [ConnPool.get, hidle]
          · rw [List.length_append]
            cases newConn <;> simp [Except.toOption] <;> omega
          · exact h.deleted
      | cons c rest =>
          refine ⟨?_, ?_⟩ <;> simp only [ConnPool.get, hidle]
          · exact h.dialled
          · exact h.deleted
  | put c hloop =>
      have hhand : s.loop.hand = some c := by
        rw [hloop]
        rfl
      -- the pool is not full: it would have to have them all
      have hopen : ∀ d ∈ c :: s.connPool, d ∈ s.dialled := by
        intro d hd
        have hopen : s.Open d := by
          rcases List.mem_cons.mp hd with rfl | hd
          · exact .inr (.inr hhand)
          · exact .inl hd
        by_contra hnot
        exact ho.not_open hnot hopen
      have hc : c ∉ s.connPool := by
        intro hc
        have hidle := (ho.idle c).mp hc
        rw [(ho.hand c).mp hhand] at hidle
        cases hidle
      have hle := ((List.nodup_cons.mpr ⟨hc, ho.idle_nodup⟩).subperm hopen).length_le
      have hfew := h.dialled
      rw [List.length_cons] at hle
      rw [ConnPool.put, if_neg (by omega)]
      exact ⟨h.dialled, h.deleted⟩

theorem Step.dialled_prefix (h : Step size s s') : s.dialled <+: s'.dialled := by
  cases h with
  | get i newConn =>
      rw [ConnPool.get]
      split
      · exact List.prefix_append ..
      · exact List.prefix_rfl
  | put c =>
      rw [ConnPool.put]
      split <;> exact List.prefix_rfl
  | callGet | callPut | recvGet | recvPut | answer => exact List.prefix_rfl

end ConnPool

namespace RedisUsers

variable [DecidableEq ι] {lim size : Nat} {upper : Bytes → Bytes} {db : Bytes} {s s' : RedisUsers ι}
  {i : ι} {c : Nat}

theorem Inv.pool_cases (h : Inv lim upper size s) (hstep : Step lim upper size db s s') :
    s'.pool = s.pool ∨ ConnPool.Step size s.pool s'.pool := by
  cases hstep with
  | pool hstep => exact .inr hstep
  | noDial hloop | refused hloop | unread hloop =>
      exact .inr (.get _ _ hloop (by rintro d ⟨⟩))
  | @dialed i c buf rest hloop hopening =>
      refine .inr (.get _ _ hloop fun d hd hopen => ?_)
      cases hd
      have hdialled := h.dialled_of_open hopen
      rw [(h.opening c).mp hopening] at hdialled
      cases hdialled
  | dial | query | deliver | more | last | fails => exact .inl rfl

/-- A connection that has failed does not come back: `Query` on it returns without a step,
and nothing dials it again. -/
theorem Inv.failed_stays (h : Inv lim upper size s) (hstep : Step lim upper size db s s')
    (hc : s.net.clients c = .failed) : s'.net.clients c = .failed := by
  have hother : ∀ {d : Nat} {q : QueryAt}, s.net.clients d ≠ .failed →
      Function.update s.net.clients d q c = .failed := by
    intro d q hd
    rwa [Function.update_of_ne (by rintro rfl; exact hd hc)]
  have hopening : ∀ {d : Nat}, s.opening = some d → s.net.clients d ≠ .failed := by
    intro d hd
    rw [(h.opening d).mp hd]
    exact QueryAt.noConfusion
  have hquery : ∀ {i : ι} {d : Nat}, s.querying i = some d → s.net.clients d ≠ .failed := by
    intro i d hi
    obtain ⟨p, hp⟩ := h.reading hi
    rw [hp]
    exact QueryAt.noConfusion
  cases hstep with
  | pool | noDial | deliver => exact hc
  | dial _ _ _ hnew => exact hother (by rw [hnew]; exact QueryAt.noConfusion)
  | query _ _ _ hidle => exact hother (by rw [hidle]; exact QueryAt.noConfusion)
  | dialed _ hd | refused _ hd | unread _ hd => exact hother (hopening hd)
  | more hi | last hi | fails hi => exact hother (hquery hi)

/-- A step after which no goroutine has or wants more than one connection. -/
def Modest (lim : Nat) (upper : Bytes → Bytes) (size : Nat) (db : Bytes) (s s' : RedisUsers ι) :
    Prop :=
  Step lim upper size db s s' ∧ s'.pool.OneEach

theorem modest_few [Fintype ι] (hsize : Fintype.card ι ≤ size)
    (h : Relation.ReflTransGen (Modest lim upper size db) start s) :
    Inv lim upper size s ∧ s.pool.OneEach ∧ s.pool.Few := by
  induction h with
  | refl =>
      refine ⟨inv_start lim upper size, fun i => ?_, Nat.zero_le _, rfl⟩
      simp [start, newConnPool, ConnPool.holds, ClientAt.pending, ClientAt.inGet]
  | tail _ hstep ih =>
      obtain ⟨hinv, hone, hfew⟩ := ih
      refine ⟨hinv.step hstep.1, hstep.2, ?_⟩
      rcases hinv.pool_cases hstep.1 with heq | hpool
      · rwa [heq]
      · exact hfew.step hinv.pool hone hsize hpool

/-- Nobody gets a reply any more, as all that anybody can get has failed. -/
theorem Inv.quiet (h : Inv lim upper size s) (hstep : Step lim upper size db s s')
    (hfailed : ∀ c ∈ s.pool.dialled, s.net.clients c = .failed) : s'.hist = s.hist := by
  have hheld : ∀ {i : ι} {c : Nat}, c ∈ s.pool.held i → s.net.clients c = .failed :=
    fun hc => hfailed _ (h.mem_dialled (held_open hc))
  have hnone : ∀ {i : ι} {c : Nat}, s.querying i ≠ some c := by
    intro i c hi
    obtain ⟨p, hp⟩ := h.reading hi
    rw [hheld (h.querying i c hi).2] at hp
    cases hp
  cases hstep with
  | pool | noDial | dial | dialed | refused | unread | deliver | more => rfl
  | query _ hc _ hidle =>
      rw [hheld hc] at hidle
      cases hidle
  | last hi | fails hi => exact absurd hi hnone

/-- `Query` does not say that a connection has failed, and so it goes back to the pool. With
no more goroutines than places in the pool, each with one connection at a time, no
connection is ever deleted, and no more are dialled than there are goroutines; when that
many have failed, no `Query` of the program gets a reply any more. -/
theorem users_never_heal [Fintype ι] (hsize : Fintype.card ι ≤ size)
    (h : Relation.ReflTransGen (Modest lim upper size db) start s) :
    s.pool.dialled.length ≤ Fintype.card ι ∧ s.pool.deleted = []
      ∧ (s.pool.dialled.length = Fintype.card ι →
        (∀ c ∈ s.pool.dialled, s.net.clients c = .failed) →
        ∀ s', Relation.ReflTransGen (Modest lim upper size db) s s' →
          s'.hist = s.hist ∧ s'.pool.dialled = s.pool.dialled) := by
  obtain ⟨-, -, hfew⟩ := modest_few hsize h
  refine ⟨hfew.dialled, hfew.deleted, fun hall hfailed s' h' => ?_⟩
  have hquiet : s'.hist = s.hist ∧ s'.pool.dialled = s.pool.dialled
      ∧ ∀ c ∈ s'.pool.dialled, s'.net.clients c = .failed := by
    induction h' with
    | refl => exact ⟨rfl, rfl, hfailed⟩
    | @tail s₁ s₂ hrun hstep ih =>
        obtain ⟨hhist, hdialled, hfailed'⟩ := ih
        obtain ⟨hinv, -, -⟩ := modest_few hsize (h.trans hrun)
        obtain ⟨-, -, hfew'⟩ := modest_few hsize ((h.trans hrun).tail hstep)
        have hpre : s₁.pool.dialled <+: s₂.pool.dialled := by
          rcases hinv.pool_cases hstep.1 with heq | hpool
          · rw [heq]
          · exact hpool.dialled_prefix
        have hsame : s₁.pool.dialled = s₂.pool.dialled := by
          refine hpre.eq_of_length_le ?_
          rw [hdialled, hall]
          exact hfew'.dialled
        refine ⟨(hinv.quiet hstep.1 hfailed').trans hhist, hsame ▸ hdialled, fun c hc => ?_⟩
        exact hinv.failed_stays hstep.1 (hfailed' c (hsame ▸ hc))
  exact ⟨hquiet.1, hquiet.2.1⟩

/-! ## A pool of one -/

theorem handles_all {s : RedisNet} (h : RedisNet.Reach lim upper s) {c : Nat}
    {argv : List (Option Bytes)} {bs : Bytes} (hc : s.server.waiting c = some (argv, bs)) :
    handleBytes lim upper s.server.store (s.server.conns c) bs
      = .ok (storeAfter upper s.server.store argv, newConnState,
        .client (replyTo upper s.server.store argv)) := by
  obtain ⟨lin, hinv⟩ := h.inv
  exact ((served_inv hinv.served).busy c argv bs hc).handleBytes_last s.server.store

/-- The only goroutine has got a connection and sends a PING. -/
theorem pinging : ∃ s : RedisUsers Unit, Relation.ReflTransGen (Modest 8 id 1 [48]) start s
    ∧ s.querying () = some 0 ∧ s.pool.dialled = [0] ∧ s.pool.OneEach := by
  have hdial : ArgsFit 8 [some selectName, some [48]] :=
    ⟨by simp, by simp, by simp, by simp [selectName]⟩
  have hping : ArgsFit 8 [some pingName] := ⟨by simp, by simp, by simp, by simp [pingName]⟩
  have h1 : Relation.ReflTransGen (Modest 8 id 1 [48]) (start : RedisUsers Unit) _ :=
    .single ⟨.pool (.callGet () rfl) (by rintro _ ⟨⟩) rfl, fun _ => Nat.le_refl 1⟩
  have h2 := h1.tail ⟨.pool (.recvGet () rfl rfl) (by rintro _ ⟨⟩) rfl, fun _ => Nat.le_refl 1⟩
  have h3 := h2.tail ⟨.dial (c := 0) rfl rfl rfl rfl hdial (wrapMulitBulk_eq _),
    fun _ => Nat.le_refl 1⟩
  obtain ⟨hinv, -, -⟩ := modest_few (Nat.le_refl _) h3
  have h4 := h3.tail ⟨.deliver (c := 0) (congrArg (fun q => some (_, q)) (List.append_nil _).symm)
    (handles_all hinv.net rfl), fun _ => Nat.le_refl 1⟩
  have h5 := h4.tail ⟨.dialed (i := ()) (c := 0) rfl rfl (List.append_nil okReply).symm (by decide)
    (by decide) rfl, fun _ => Nat.le_refl 1⟩
  have h6 := h5.tail
      ⟨.pool (.answer () (.ok 0) rfl rfl) (by rintro _ ⟨⟩) rfl, fun _ => Nat.le_refl 1⟩
  have h7 := h6.tail ⟨.query (i := ()) (c := 0) rfl (.head _) rfl rfl hping (wrapMulitBulk_eq _),
    fun _ => Nat.le_refl 1⟩
  exact ⟨_, h7, rfl, rfl, fun _ => Nat.le_refl 1⟩

/-- The connection of that PING fails, and the only goroutine never gets a reply again. -/
theorem users_never_heal_one : ∃ s : RedisUsers Unit, s.net.clients 0 = .failed
    ∧ ∀ s', Relation.ReflTransGen (Modest 8 id 1 [48]) s s' → s'.hist = s.hist := by
  obtain ⟨s, hs, hquery, hdialled, hone⟩ := pinging
  have hfails := hs.tail ⟨.fails hquery, hone⟩
  have hfailed : Function.update s.net.clients 0 QueryAt.failed 0 = .failed :=
    Function.update_self ..
  refine ⟨s.returns () (s.net.setClient 0 .failed) none, hfailed, fun s' hs' => ?_⟩
  refine ((users_never_heal (Nat.le_refl 1) hfails).2.2 ?_ ?_ s' hs').1
  · exact congrArg List.length hdialled
  · intro c hc
    change c ∈ s.pool.dialled at hc
    rw [hdialled] at hc
    rw [List.mem_singleton.mp hc]
    exact hfailed

/-! ## A pool of two -/

theorem Reach.handles_all (h : Reach lim upper size db s) {argv : List (Option Bytes)} {bs : Bytes}
    (hc : s.net.server.waiting c = some (argv, bs)) :
    Reach lim upper size db { s with
      net := s.net.answered c argv [] (storeAfter upper s.net.server.store argv) newConnState
        (.client (replyTo upper s.net.server.store argv)) } :=
  h.tail (.deliver (by rw [hc, List.append_nil]) (RedisUsers.handles_all (Reach.inv h).net hc))

/-- Two goroutines, each with a connection of its own: while the one sets a key the other
gets it. -/
theorem users_linearizable_two : ∃ s : RedisUsers Bool, Reach 8 id 2 [48] s
    ∧ s.hist = [.call (true, 1) [some setName, some [107], some [118]],
        .call (false, 1) [some getName, some [107]], .ret (false, 1) (.bulk (some [118])),
        .ret (true, 1) (.status okText)]
    ∧ Linearizable (storeStep id) newStoreBlock s.hist := by
  have hdial : ArgsFit 8 [some selectName, some [48]] :=
    ⟨by simp, by simp, by simp, by simp [selectName]⟩
  have hset : ArgsFit 8 [some setName, some [107], some [118]] :=
    ⟨by simp, by simp, by simp, by simp [setName]⟩
  have hget : ArgsFit 8 [some getName, some [107]] := ⟨by simp, by simp, by simp, by simp [getName]⟩
  have h0 : Reach 8 id 2 [48] (start : RedisUsers Bool) := .refl
  have h1 := (h0.tail (.pool (.callGet true rfl) (by rintro _ ⟨⟩) rfl)).tail
    (.pool (.recvGet true rfl rfl) (by rintro _ ⟨⟩) rfl)
  have h2 := Reach.handles_all (h1.tail (.dial (c := 0) rfl rfl rfl rfl hdial (wrapMulitBulk_eq _)))
    (c := 0) rfl
  have h3 := (h2.tail
      (.dialed (i := true) (c := 0) rfl rfl (List.append_nil okReply).symm (by decide)
    (by decide) rfl)).tail (.pool (.answer true (.ok 0) rfl rfl) (by rintro _ ⟨⟩) rfl)
  have h4 := (h3.tail (.pool (.callGet false rfl) (by rintro _ ⟨⟩) rfl)).tail
    (.pool (.recvGet false rfl rfl) (by rintro _ ⟨⟩) rfl)
  have h5 := Reach.handles_all (h4.tail (.dial (c := 1) rfl rfl rfl rfl hdial (wrapMulitBulk_eq _)))
    (c := 1) rfl
  have h6 := (h5.tail
      (.dialed (i := false) (c := 1) rfl rfl (List.append_nil okReply).symm (by decide)
    (by decide) rfl)).tail (.pool (.answer false (.ok 1) rfl rfl) (by rintro _ ⟨⟩) rfl)
  have h7 := (h6.tail
      (.query (i := true) (c := 0) rfl (.head _) rfl rfl hset (wrapMulitBulk_eq _))).tail
    (.query (i := false) (c := 1) rfl (.head _) rfl rfl hget (wrapMulitBulk_eq _))
  have h8 := Reach.handles_all (Reach.handles_all h7 (c := 0) rfl) (c := 1) rfl
  have hvalue : (Resp.bulk (some [118])).Sendable 8 := by simp [Resp.Sendable]
  have hok : (Resp.status okText).Sendable 8 := by
    rw [Resp.Sendable, NoCrlf]
    decide
  obtain ⟨q, rc, hwrite, hcommand, hden⟩ := write_encode hvalue
  obtain ⟨q', rc', hwrite', hcommand', hden'⟩ := write_encode hok
  have h9 := h8.tail (.last (i := false) (c := 1) rfl rfl (List.append_nil _).symm (by decide)
      (by decide) hwrite hcommand hden)
  have h10 := h9.tail (.last (i := true) (c := 0) rfl rfl (List.append_nil _).symm (by decide)
      (by decide) hwrite' hcommand' hden')
  refine ⟨_, h10, rfl, (users_linearizable h10).1⟩

end RedisUsers

end Artorias
