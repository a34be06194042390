import Artorias.ParserWrites

/-!
# The stack between two bytes

A parser that is told of no empty array, and of no payload whose end has no
index in 64 bits, is always somewhere in a value (`write_stackOk`): the frame
on top takes bytes, those below wait for it, and some bytes would complete the
command. After `*0` it takes every byte and does nothing
(`write_empty_array`).
-/

namespace Artorias

/-! ## The reader can go on -/

def Focus.Alive : Focus → Prop
  | .start => True
  | .line _ text => NoCrlf text
  | .payload n text => n + 2 < 2 ^ 63 ∧ text.length < n + 2
  | .dead => False

namespace Reader

def Alive : Reader → Prop
  | .reading _ f => f.Alive
  | _ => True

section

variable {lim : Nat} {cs : List Ctx} {text : Bytes} {z z' : Reader} {b : UInt8}

theorem close_alive (cs : List Ctx) (v : Resp) : (close cs v).Alive := by
  rcases close_cases cs v with ⟨w, hw⟩ | ⟨cs', hcs'⟩
  · rw [hw]
    trivial
  · rw [hcs']
    trivial

theorem endLine_alive {ty : RcType} (hdead : ¬DeadEnd (ty, text))
    (h : endLine lim cs ty text = .ok z) : z.Alive := by
  unfold endLine at h
  split at h
  · cases h
    exact close_alive cs _
  · cases h
    exact close_alive cs _
  · cases h
    exact close_alive cs _
  · split at h
    · cases h
      exact close_alive cs _
    · cases h
      exact noCrlf_nil
  · split at h
    · rename_i i hi
      split at h
      · cases h
        exact close_alive cs _
      · cases h
        have hsmall : ¬2 ^ 63 - 2 ≤ i := fun hi' => hdead (.inr ⟨rfl, i, hi, hi'⟩)
        exact ⟨by omega, by simp; omega⟩
    · cases h
      exact noCrlf_nil
  · split at h
    · rename_i i hi
      split at h
      · cases h
      · rename_i hlim
        cases h
        cases hn : i.toNat with
        | zero =>
            have hzero : i = 0 := by omega
            exact absurd (.inl ⟨rfl, hzero ▸ hi⟩) hdead
        | succ n => trivial
    · cases h
      exact noCrlf_nil

theorem Alive.step (h : z.Alive) (hend : (reader lim).ended z = false)
    (hdead : ∀ line, z.endsLine b = some line → ¬DeadEnd line)
    (hstep : (reader lim).step z b = .ok z') : z'.Alive := by
  cases z with
  | done v => cases hend
  | rejected => cases hend
  | reading cs f =>
      change Reader.step lim _ b = _ at hstep
      cases f with
      | dead => exact h.elim
      | start =>
          cases hstep
          exact noCrlf_nil
      | line ty text =>
          rw [Reader.step] at hstep
          split at hstep
          · rename_i hcrlf
            exact endLine_alive (hdead _ (if_pos hcrlf)) hstep
          · rename_i hcrlf
            cases hstep
            exact NoCrlf.snoc h hcrlf
      | payload n text =>
          obtain ⟨hn, htext⟩ := h
          rw [Reader.step] at hstep
          split at hstep
          · split at hstep
            · cases hstep
              exact close_alive cs _
            · cases hstep
              trivial
          · rename_i hlen
            cases hstep
            refine ⟨hn, ?_⟩
            rw [goInt_add_two (by omega) hn] at hlen
            simp only [List.length_append, List.length_singleton]
            omega

/-! ## Ways out -/

/-- Some bytes complete the command that the reader is in. -/
def Escapes (lim : Nat) (z : Reader) : Prop :=
  ∃ bs z', (reader lim).Runs z bs z' ∧ z'.ended = true

theorem Escapes.of_runs {bs : Bytes} (h : (reader lim).Runs z bs z') (h' : Escapes lim z') :
    Escapes lim z := by
  obtain ⟨more, u, hu, hend⟩ := h'
  exact ⟨bs ++ more, u, h.append hu, hend⟩

/-- From the start of a frame the command can be completed: a payload of no bytes, and two
bytes that do not end it, get the frame done. -/
theorem escapes_start (lim : Nat) (cs : List Ctx) : Escapes lim (.reading cs .start) := by
  have hfeed : (reader lim).feed (.reading cs .start) [36, 48, 13, 10, 48, 48] =
      .ok (.rejected, 6) := rfl
  exact ⟨_, _, (Machine.feed_spec hfeed).2.1, rfl⟩

theorem escapes_close (lim : Nat) (cs : List Ctx) (v : Resp) : Escapes lim (close cs v) := by
  rcases close_cases cs v with ⟨w, hw⟩ | ⟨cs', hcs'⟩
  · rw [hw]
    exact ⟨[], _, .nil, rfl⟩
  · rw [hcs']
    exact escapes_start lim cs'

theorem escapes_payload {n : Int} {k : Nat} (hn : n + 2 < 2 ^ 63)
    (hk : (text.length + (k + 1) : Nat) = n + 2) : Escapes lim (.reading cs (.payload n text)) := by
  have hgo : goInt (n + 2) = n + 2 := goInt_add_two (by omega) hn
  induction k generalizing text with
  | zero =>
      have hlast : ¬crlf <:+ text ++ [48] := fun h => absurd (crlf_suffix_concat h).1 (by decide)
      have hstep : (reader lim).step (.reading cs (.payload n text)) 48 = .ok .rejected :=
        (if_pos (by rw [hgo, ← hk])).trans (if_neg hlast)
      exact ⟨[48], .rejected, .single rfl hstep, rfl⟩
  | succ k ih =>
      have hstep : (reader lim).step (.reading cs (.payload n text)) 48 =
          .ok (.reading cs (.payload n (text ++ [48]))) := step_payload_of_ne (by omega)
      refine .of_runs (.single rfl hstep) (ih ?_)
      simp only [List.length_append, List.length_singleton]
      omega

theorem escapes_empty_line (hlim : 0 < lim) (cs : List Ctx) (ty : RcType) :
    Escapes lim (.reading cs (.line ty [])) := by
  have hempty : ∀ {z}, endLine lim cs ty [] = .ok z →
      (reader lim).Runs (.reading cs (.line ty [])) [13, 10] z := fun {z} hz =>
    .cons rfl (step_line_of_not noCrlf_nil.cr.suffix) (.single rfl ((step_line_end ty []).trans hz))
  cases ty with
  | bulk =>
      have hfeed : (reader lim).feed (.reading cs (.line .bulk [])) [48, 13, 10, 48, 48] =
          .ok (.rejected, 5) := rfl
      exact ⟨_, _, (Machine.feed_spec hfeed).2.1, rfl⟩
  | mulit =>
      have hline : Reads lim (.reading cs (.line .mulit [])) ([49] ++ crlf)
          (.reading (⟨[], 0⟩ :: cs) .start) := by
        have hone : atoi [49] = some 1 := by decide
        refine reads_line (noCrlf_of_atoi hone)
          (fun h => Option.some_ne_none _ (hone.symm.trans h.2))
          ?_
        rw [List.nil_append, endLine, hone]
        exact if_neg (by omega)
      exact .of_runs hline.1 (escapes_start lim _)
  | int =>
      have hline : Reads lim (.reading cs (.line .int [])) ([48] ++ crlf) (close cs (.int 0)) := by
        have hzero : atoi [48] = some 0 := by decide
        refine reads_line (noCrlf_of_atoi hzero)
          (fun h => Option.some_ne_none _ (hzero.symm.trans h.2)) ?_
        rw [List.nil_append, endLine, hzero]
      exact .of_runs hline.1 (escapes_close lim cs _)
  | status => exact .of_runs (hempty rfl) (escapes_close lim cs _)
  | error => exact .of_runs (hempty rfl) (escapes_close lim cs _)
  | unknown => exact .of_runs (hempty rfl) (escapes_close lim cs _)

theorem atoi_letter (text : Bytes) : atoi (text ++ [120]) = none := by
  cases hi : atoi (text ++ [120]) with
  | none => rfl
  | some i =>
      rcases atoi_bytes hi 120 (by simp) with h | h | h <;> exact absurd h (by decide)

/-- From inside a line the command can be completed: a letter spoils a number line, which is
then read over, and any other line ends. -/
theorem escapes_line {ty : RcType} (hlim : 0 < lim) (htext : NoCrlf text) :
    Escapes lim (.reading cs (.line ty text)) := by
  have hletter : NoCrlf (text ++ [120]) :=
    htext.snoc fun h => absurd (crlf_suffix_concat h).1 (by decide)
  have hruns : ∀ {z}, endLine lim cs ty (text ++ [120]) = .ok z →
      (reader lim).Runs (.reading cs (.line ty text)) [120, 13, 10] z := fun {z} hz =>
    .cons rfl (step_line_of_not hletter.suffix)
      (.cons rfl (step_line_of_not hletter.cr.suffix) (.single rfl ((step_line_end ty _).trans hz)))
  cases ty with
  | status => exact .of_runs (hruns rfl) (escapes_close lim cs _)
  | error => exact .of_runs (hruns rfl) (escapes_close lim cs _)
  | unknown => exact .of_runs (hruns rfl) (escapes_close lim cs _)
  | int =>
      have hend : endLine lim cs .int (text ++ [120]) = .ok (.reading cs (.line .int [])) := by
        rw [endLine, atoi_letter]
      exact .of_runs (hruns hend) (escapes_empty_line hlim cs .int)
  | bulk =>
      have hend : endLine lim cs .bulk (text ++ [120]) = .ok (.reading cs (.line .bulk [])) := by
        rw [endLine, atoi_letter]
      exact .of_runs (hruns hend) (escapes_empty_line hlim cs .bulk)
  | mulit =>
      have hend : endLine lim cs .mulit (text ++ [120]) = .ok (.reading cs (.line .mulit [])) := by
        rw [endLine, atoi_letter]
      exact .of_runs (hruns hend) (escapes_empty_line hlim cs .mulit)

theorem Alive.escapes (h : z.Alive) (hlim : 0 < lim) : Escapes lim z := by
  cases z with
  | done v => exact ⟨[], _, .nil, rfl⟩
  | rejected => exact ⟨[], _, .nil, rfl⟩
  | reading cs f =>
      cases f with
      | start => exact escapes_start lim cs
      | line ty text => exact escapes_line hlim h
      | payload n text =>
          exact escapes_payload (k := (n + 1 - text.length).toNat) h.1 (by have := h.2; omega)
      | dead => exact h.elim

end

end Reader

/-! ## The frames of the stack -/

/-- The stack of a parser that is not done. -/
structure StackOk (lim : Nat) (ps : Parser) : Prop where
  /-- The top frame takes bytes. -/
  top : ∀ rc, ps.top = some rc → rc.status = .start ∨ rc.status = .unitlCrlf ∨
    rc.status = .fixedLen
  /-- A frame below it that has been started is an array, and the elements that
  it still waits for are above it. -/
  below : ∀ under r above, ps.stack = under ++ r :: above → above ≠ [] →
    (ps.commands r).status = .start ∨ (ps.commands r).status = .mulit ∧
      ∀ q ∈ (ps.commands r).value.commands, (ps.commands q).status ≠ .end → q ∈ above
  /-- An array with all its elements is not on the stack any more. -/
  waits : ∀ r ∈ ps.stack, (ps.commands r).status = .mulit →
    ∃ q ∈ (ps.commands r).value.commands, (ps.commands q).status ≠ .end
  /-- Some bytes complete the command. -/
  goesOn : ∃ bs ps' n, ps.write lim bs = .ok (ps', n) ∧ ps'.getCommand ≠ none

theorem DenotesAll.status_end {mem : Ref → RedisCommand} :
    ∀ {vs : List Resp} {rs : List Ref}, DenotesAll mem rs vs → ∀ q ∈ rs, (mem q).status = .end := by
  intro vs rs h
  induction vs generalizing rs with
  | nil =>
      rw [show rs = [] from h]
      simp
  | cons v vs ih =>
      obtain ⟨r, rs', rfl, hv, hvs⟩ := h
      exact List.forall_mem_cons.mpr ⟨hv.status_end, ih hvs⟩

section

variable {mem : Ref → RedisCommand} {root c : Ref} {cs : List Ctx} {below : List Ref}

theorem CtxsAt.below_top (h : CtxsAt mem root cs c below) {above under : List Ref} {r : Ref}
    (hsplit : c :: below = above ++ r :: under) (hne : above ≠ []) :
    (mem r).status = .start ∨ (mem r).status = .mulit ∧
      ∀ q ∈ (mem r).value.commands, (mem q).status ≠ .end → q ∈ above := by
  induction h generalizing above r under with
  | nil =>
      obtain ⟨a, above, rfl⟩ := List.exists_cons_of_ne_nil hne
      simp at hsplit
  | @cons cs ds c p rs qs below hp hds hqs _ ih =>
      obtain ⟨a, above, rfl⟩ := List.exists_cons_of_ne_nil hne
      obtain ⟨rfl, hrest⟩ := List.cons.inj hsplit
      -- the array that the top frame is in
      have harray : (mem p).status = .mulit
          ∧ ∀ q ∈ (mem p).value.commands, (mem q).status ≠ .end → q ∈ c :: qs := by
        refine ⟨by rw [hp], ?_⟩
        intro q hq hend
        rw [hp] at hq
        rcases List.mem_append.mp hq with hq | hq
        · exact absurd (hds.status_end q hq) hend
        · exact hq
      rcases List.append_eq_append_iff.mp hrest with ⟨extra, rfl, hextra⟩ | ⟨extra, rfl, hextra⟩
      · cases extra with
        | nil =>
            obtain ⟨rfl, -⟩ := List.cons.inj hextra
            exact .inr ⟨harray.1, fun q hq hend => by simpa using harray.2 q hq hend⟩
        | cons o extra =>
            obtain ⟨rfl, hextra⟩ := List.cons.inj hextra
            rcases @ih (p :: extra) under r (by rw [hextra, List.cons_append]) (by simp) with
              h | ⟨h, hall⟩
            · exact .inl h
            · refine .inr ⟨h, ?_⟩
              intro q hq hend
              have := hall q hq hend
              simp only [List.mem_cons, List.mem_append] at this ⊢
              exact .inr (.inr this)
      · cases extra with
        | nil =>
            rw [List.nil_append] at hextra
            obtain ⟨rfl, -⟩ := List.cons.inj hextra
            exact .inr ⟨harray.1, fun q hq hend => by simpa using harray.2 q hq hend⟩
        | cons o extra =>
            obtain ⟨rfl, -⟩ := List.cons.inj hextra
            exact .inl (by rw [hqs r (by simp)]; rfl)

theorem CtxsAt.waits (h : CtxsAt mem root cs c below) (hc : (mem c).status ≠ .end) :
    ∀ r ∈ below, (mem r).status = .mulit → ∃ q ∈ (mem r).value.commands, (mem q).status ≠ .end := by
  induction h with
  | nil => simp
  | @cons cs ds c p rs qs below hp _ hqs _ ih =>
      intro r hr hmulit
      rcases List.mem_append.mp hr with hr | hr
      · rw [hqs r hr] at hmulit
        cases hmulit
      · rcases List.mem_cons.mp hr with rfl | hr
        · exact ⟨c, by rw [hp]; simp, hc⟩
        · exact ih (by rw [hp]; simp) r hr hmulit

end

/-- The frame that takes the next byte is at its start, in a line, or in a payload; the
states in which nothing is read do not come to the top. -/
theorem FocusAt.status {ps : Parser} {c : Ref} {f : Focus} (h : FocusAt ps c f) (hf : f.Alive) :
    (ps.commands c).status = .start ∨ (ps.commands c).status = .unitlCrlf ∨
      (ps.commands c).status = .fixedLen := by
  cases f with
  | start =>
      rw [show ps.commands c = newRedisCommand from h]
      exact .inl rfl
  | line ty text =>
      rw [h.1]
      exact .inr (.inl rfl)
  | payload n text =>
      rw [h.1]
      exact .inr (.inr rfl)
  | dead => exact hf.elim

theorem Holds.stackOk {lim : Nat} {ps : Parser} {cs : List Ctx} {f : Focus} (hlim : 0 < lim)
    (h : Holds ps (.reading cs f)) (hf : f.Alive) : StackOk lim ps := by
  obtain ⟨bs, z', hruns, hend⟩ := (show (Reader.reading cs f).Alive from hf).escapes hlim
  obtain ⟨ps', hps', hz'⟩ := (parser_sim lim).runs h hruns
  obtain ⟨c, htop, hc'⟩ := h.top
  obtain ⟨c, below, hat, hc⟩ := h
  have hst := hc.status hf
  have hcend : (ps.commands c).status ≠ .end := by rcases hst with h | h | h <;> simp [h]
  have hcmulit : (ps.commands c).status ≠ .mulit := by rcases hst with h | h | h <;> simp [h]
  refine ⟨?_, ?_, ?_, bs, ps', bs.length, ?_, ?_⟩
  · intro rc hrc
    rw [htop] at hrc
    cases hrc
    exact hc'.status hf
  · intro under r above hstack hne
    rw [hat.stack] at hstack
    have hsplit : c :: below = above.reverse ++ r :: under.reverse := by
      have hrev := congrArg List.reverse hstack
      simpa using hrev
    simpa using hat.ctxs.below_top hsplit (by simpa using hne)
  · intro r hr hmulit
    rw [hat.stack, List.mem_reverse] at hr
    rcases List.mem_cons.mp hr with rfl | hr
    · exact absurd hmulit hcmulit
    · exact hat.ctxs.waits hcend r hr hmulit
  · rw [Parser.write_eq_feed, hps'.feed]
  · rw [Ne, getCommand_eq_none, show ps'.stack.isEmpty = true from
      ((parser_sim lim).ended hz').trans hend]
    simp

/-- As long as no line announces an empty array, or a payload whose end has no index, the
parser is in a value: the frame on top takes bytes, those below are arrays that wait for
what is above them, and some bytes complete the command. -/
theorem write_stackOk {lim : Nat} {ps : Parser} (hlim : 0 < lim)
    (h : Parser.WrittenBy lim (fun q b => ∀ line, q.endsLine b = some line → ¬DeadEnd line) ps)
    (hne : ps.stack ≠ []) : StackOk lim ps := by
  obtain ⟨bs, hruns, hP⟩ := h.runs
  obtain ⟨z, hz, hholds⟩ := (parser_sim lim).runs_back holds_newParser hruns
  have hQ : (reader lim).EachStep (fun z b => ∀ line, z.endsLine b = some line → ¬DeadEnd line)
      Reader.fresh bs :=
    ((parser_sim lim).eachStep (fun q z b hq _ => by rw [hq.endsLine]) holds_newParser).mp hP
  have hrunsBy : (reader lim).RunsBy _ Reader.fresh bs z := ⟨hz, hQ⟩
  have halive : z.Alive := hrunsBy.inv (t := []) (I := fun _ z => z.Alive)
    (fun _ _ _ _ => Reader.Alive.step) trivial
  cases z with
  | reading cs f => exact hholds.stackOk hlim halive
  | done v => exact absurd hholds.1 hne
  | rejected => exact absurd hholds.1 hne

/-- After `*0` the frame on top is an array with all its elements, which nothing takes off
the stack. -/
theorem write_empty_array :
    ¬∀ ps : Parser, Parser.Written (2 ^ 45) ps → ps.stack ≠ [] → StackOk (2 ^ 45) ps := by
  intro hall
  obtain ⟨ps, hwrite, hps⟩ := write_of_feed (2 ^ 45) [42, 48, 13, 10]
    (z := .reading [] .dead) (n := 4) rfl
  have hwritten : Parser.Written (2 ^ 45) ps :=
    .write .fresh (.of_forall fun _ _ => trivial) hwrite
  obtain ⟨c, htop, hc⟩ := hps.top
  have hne : ps.stack ≠ [] := by
    intro hnil
    rw [Parser.top, hnil] at htop
    cases htop
  have hst := (hall ps hwritten hne).top _ htop
  rw [show ps.commands c = _ from hc] at hst
  simp at hst

/-- After `*2` there are two elements to read, and the array below waits for them. -/
theorem write_two_stackOk : ∃ ps, newParser.write 8 [42, 50, 13, 10] = .ok (ps, 4) ∧
    StackOk 8 ps := by
  obtain ⟨ps, hwrite, hps⟩ := write_of_feed 8 [42, 50, 13, 10]
    (z := .reading [⟨[], 1⟩] .start) (n := 4) rfl
  have hreader : (reader 8).EachStep (fun z b => ∀ line, z.endsLine b = some line → ¬DeadEnd line)
      Reader.fresh [42, 50, 13, 10] := by
    refine fun _ => ⟨by rintro _ ⟨⟩, fun z hz => ?_⟩
    cases hz
    refine fun _ => ⟨by rintro _ ⟨⟩, fun z hz => ?_⟩
    cases hz
    refine fun _ => ⟨by rintro _ ⟨⟩, fun z hz => ?_⟩
    cases hz
    refine fun _ => ⟨?_, fun z hz => trivial⟩
    rintro _ ⟨⟩ (⟨-, h⟩ | ⟨h, -⟩)
    · exact absurd h (by decide)
    · cases h
  have hparser : newParser.EachTurn 8 (fun q b => ∀ line, q.endsLine b = some line → ¬DeadEnd line)
      [42, 50, 13, 10] :=
    ((parser_sim 8).eachStep (fun q z b hq _ => by rw [hq.endsLine]) holds_newParser).mpr hreader
  have hne : ps.stack ≠ [] := by
    obtain ⟨c, below, hat, -⟩ := hps
    simp [hat.stack]
  exact ⟨ps, hwrite, write_stackOk (by decide) (.write .fresh hparser hwrite) hne⟩

end Artorias
