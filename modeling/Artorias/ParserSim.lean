import Artorias.ParserTree

/-!
# The parser simulates the reader

`parser lim` is the loop of `Write` as a machine (`write_eq_feed`), and from
`Holds` on it takes the steps of the reader (`parser_sim`): what it has read,
how far it gets and where it panics can be told from the reader.
-/

namespace Artorias

/-- A turn of the loop of `Write`; the loop is left with an empty stack. -/
def parser (lim : Nat) : Machine Parser UInt8 GoPanic :=
  ⟨fun ps b => (ps.writeByte lim b).map Prod.fst, fun ps => ps.stack.isEmpty⟩

namespace Parser

variable {lim : Nat} {ps ps' : Parser} {b : UInt8}

/-! ## `Write` feeds the machine -/

theorem step_ok {done : Bool} (h : ps.writeByte lim b = .ok (ps', done)) :
    (parser lim).step ps b = .ok ps' := by
  change (ps.writeByte lim b).map Prod.fst = _
  rw [h]
  rfl

theorem step_error {e : GoPanic} (h : ps.writeByte lim b = .error e) :
    (parser lim).step ps b = .error e := by
  change (ps.writeByte lim b).map Prod.fst = _
  rw [h]
  rfl

theorem afterByte_flag (ps : Parser) (r : Ref) :
    (ps.afterByte r).2 = (ps.afterByte r).1.stack.isEmpty := by
  rw [afterByte]
  split_ifs with h1 h2
  · simp [List.length_eq_zero_iff.mp h1]
  · rfl
  · cases hs : ps.stack with
    | nil => simp [hs] at h1
    | cons c cs => rfl

theorem writeByte_flag {done : Bool} (h : ps.writeByte lim b = .ok (ps', done)) :
    done = ps'.stack.isEmpty := by
  rw [writeByte] at h
  cases hr : goIndex ps.stack (ps.stack.length - 1) with
  | error e =>
      rw [hr] at h
      cases h
  | ok r =>
      rw [hr, goBind_ok] at h
      cases hq : ps.switchStatus lim b r with
      | error e =>
          rw [hq] at h
          cases h
      | ok q =>
          rw [hq, goBind_ok] at h
          have hflag := q.afterByte_flag r
          rw [Except.ok.inj h] at hflag
          exact hflag

theorem writeLoop_eq_feed (lim : Nat) {ps : Parser} (i : Nat) (bs : Bytes) (h : ps.stack ≠ []) :
    ps.writeLoop lim i bs = ((parser lim).feed ps bs).map fun r => (r.1, i + r.2) := by
  induction bs generalizing ps i with
  | nil => rfl
  | cons b bs ih =>
      have hend : (parser lim).ended ps = false := List.isEmpty_eq_false_iff.mpr h
      rw [writeLoop]
      cases hb : ps.writeByte lim b with
      | error e =>
          rw [Machine.feed_cons_error hend (step_error hb)]
          rfl
      | ok r =>
          obtain ⟨ps', done⟩ := r
          rw [Machine.feed_cons_ok hend (step_ok hb), goBind_ok]
          have hflag := writeByte_flag hb
          cases done with
          | true =>
              rw [Machine.feed_ended hflag.symm]
              rfl
          | false =>
              have hne : ps'.stack ≠ [] := List.isEmpty_eq_false_iff.mp hflag.symm
              refine (ih (i + 1) hne).trans ?_
              cases (parser lim).feed ps' bs with
              | error e => rfl
              | ok r => simp [Except.map]; omega

theorem write_eq_feed (lim : Nat) (ps : Parser) (bs : Bytes) :
    ps.write lim bs = (parser lim).feed ps bs := by
  rw [write]
  split_ifs with h
  · rw [Machine.feed_ended (List.isEmpty_iff.mpr h)]
  · rw [writeLoop_eq_feed lim 0 bs h]
    cases (parser lim).feed ps bs with
    | error e => rfl
    | ok r => simp [Except.map]

end Parser

/-! ## The three readers -/

theorem endByCtrf_eq (buffer : Bytes) : endByCtrf buffer = .ok (decide (crlf <:+ buffer)) := by
  rcases List.eq_nil_or_concat buffer with rfl | ⟨xs, y, rfl⟩
  · rfl
  rcases List.eq_nil_or_concat xs with rfl | ⟨p, x, rfl⟩
  · have hno : ¬crlf <:+ List.concat [] y := fun h => absurd h.length_le (by simp [crlf])
    rw [decide_eq_false hno]
    rfl
  · rw [List.concat_eq_append, List.concat_eq_append]
    have hlen : ((p ++ [x] ++ [y]).length : Int) = p.length + 2 := by simp
    have hx : goIndex (p ++ [x] ++ [y]) (p.length + 2 - 2 : Int) = .ok x := by
      have h := goIndex_concat p x [y]
      simpa using h
    have hy : goIndex (p ++ [x] ++ [y]) (p.length + 2 - 1 : Int) = .ok y := by
      have h := goIndex_concat (p ++ [x]) y []
      rw [show (p.length + 2 - 1 : Int) = ((p ++ [x]).length : Nat) by simp; omega]
      exact h
    have hiff : crlf <:+ p ++ [x] ++ [y] ↔ x = 13 ∧ y = 10 := by
      constructor
      · rintro ⟨q, hq⟩
        have hsplit : q ++ [13] ++ [10] = p ++ [x] ++ [y] := by simpa [crlf] using hq
        obtain ⟨hl, hy⟩ := List.append_inj' hsplit rfl
        obtain ⟨-, hx⟩ := List.append_inj' hl rfl
        exact ⟨(List.singleton_inj.mp hx).symm, (List.singleton_inj.mp hy).symm⟩
      · rintro ⟨rfl, rfl⟩
        exact ⟨p, by simp [crlf]⟩
    rw [endByCtrf]
    simp only [hlen, hx, hy, goBind_ok, hiff]
    rw [if_pos (by omega)]
    by_cases h13 : x = 13
    · simp [h13]
    · simp [h13]

section

variable {lim : Nat} {ps : Parser} {cs : List Ctx} {c : Ref} {below : List Ref} {text : Bytes}

theorem parseStart_eq (hc : ps.commands c = newRedisCommand) (b : UInt8) :
    parseStart ps b c =
      { ps.set c ⟨Reader.lineType b, newRedisCommandValue, .unitlCrlf⟩ with buffer := [] } := by
  unfold parseStart startType Reader.lineType
  split_ifs <;> simp [Parser.set, Parser.setType, Parser.setStatus, hc, newRedisCommand]

/-- The frame on top completes with `v`, and the arrays whose last element it was complete
with it, as `Reader.close` has it. -/
theorem finish_holds {x : RedisCommand} {v : Resp} (h : StackAt ps cs c below)
    (hc : (ps.commands c).status ≠ .end) (hv : Denotes (ps.set c x).commands c v) :
    ∃ ps', popStacks (ps.set c x) = .ok ps' ∧ Holds ps' (Reader.close cs v) ∧
      (ps'.commands c).status ≠ .error := by
  obtain ⟨ps', hpop, hholds, hkept⟩ := popStacks_holds (h.set hc x) hv
  refine ⟨ps', hpop, hholds, ?_⟩
  rw [hkept c hv.status_end, hv.status_end]
  simp

theorem close_cases (cs : List Ctx) (v : Resp) :
    (∃ w, Reader.close cs v = .done w) ∨ ∃ cs', Reader.close cs v = .reading cs' .start := by
  induction cs generalizing v with
  | nil => exact .inl ⟨v, rfl⟩
  | cons c cs ih =>
      obtain ⟨ds, n⟩ := c
      cases n with
      | zero => exact ih _
      | succ n => exact .inr ⟨_, rfl⟩

theorem Holds.setBuffer {v : Resp} (h : Holds ps (Reader.close cs v)) (bs : Bytes) :
    Holds { ps with buffer := bs } (Reader.close cs v) := by
  rcases close_cases cs v with ⟨w, hw⟩ | ⟨cs', hcs'⟩
  · rw [hw] at h ⊢
    exact h
  · rw [hcs'] at h ⊢
    obtain ⟨c, below, hstack, hc⟩ := h
    exact ⟨c, below, hstack.of_eq rfl rfl rfl rfl, hc⟩

/-- What has to hold after a complete line, as `parseUnitlCrlf` leaves it, for what the
reader makes of the same line. -/
def AfterLine (run : GoRun Parser) (c : Ref) : GoRun Reader → Prop
  | .ok z => ∃ ps', run = .ok ps' ∧ Holds { ps' with buffer := [] } z ∧
      (ps'.commands c).status ≠ .error
  | .error e => run = .error e

theorem afterLine_close {run : GoRun Parser} {v : Resp}
    (h : ∃ ps', run = .ok ps' ∧ Holds ps' (Reader.close cs v) ∧ (ps'.commands c).status ≠ .error) :
    AfterLine run c (.ok (Reader.close cs v)) := by
  obtain ⟨ps', hrun, hholds, hst⟩ := h
  exact ⟨ps', hrun, hholds.setBuffer [], hst⟩

theorem newRedisCommands_eq (h : ∀ r, ps.next ≤ r → ps.commands r = newRedisCommand) (k : Nat) :
    ps.newRedisCommands k = ({ ps with next := ps.next + k }, List.range' ps.next k) := by
  have hsame : (fun r => if ps.next ≤ r ∧ r < ps.next + k then newRedisCommand
      else ps.commands r) = ps.commands := by
    funext r
    split_ifs with hr
    · exact (h r hr.1).symm
    · rfl
  rw [Parser.newRedisCommands, hsame]

/-- The elements made for an array go on the stack, the first of them on top, and the parser
is where the reader is that has opened the array. -/
theorem startMulit_holds {i : Int} (h : StackAt ps cs c below)
    (hc : ps.commands c = ⟨.mulit, newRedisCommandValue, .unitlCrlf⟩) (hi : ¬(i < 0 ∨ i > lim)) :
    AfterLine (startMulit lim ps c i) c (.ok (Reader.openArray cs i.toNat)) := by
  have hcend : (ps.commands c).status ≠ .end := by simp [hc]
  have hmulit := h.set hcend ⟨.mulit, newRedisCommandValue, .mulit⟩
  have hrun : startMulit lim ps c i = .ok
      { ps.set c ⟨.mulit, ⟨0, none, List.range' ps.next i.toNat⟩, .mulit⟩ with
        next := ps.next + i.toNat
        stack := ps.stack ++ (List.range' ps.next i.toNat).reverse } := by
    rw [startMulit, if_neg hi, Parser.setStatus, hc, newRedisCommands_eq hmulit.unmade]
    simp [Parser.set, Parser.setCommands, newRedisCommandValue]
  refine ⟨_, hrun, ?_, by simp⟩
  have hset := h.set hcend ⟨.mulit, ⟨0, none, List.range' ps.next i.toNat⟩, .mulit⟩
  cases hn : i.toNat with
  | zero =>
      rw [hn] at hset
      refine ⟨c, below, hset.of_eq rfl rfl (by simp) rfl, ?_⟩
      simp [FocusAt, newRedisCommandValue]
  | succ n =>
      rw [hn] at hset
      have hold : ∀ r ∈ c :: below, r < ps.next := h.made
      refine ⟨ps.next, List.range' (ps.next + 1) n ++ c :: below, ⟨?_, ?_, ?_, ?_, ?_⟩, ?_⟩
      · simp [h.stack, List.range'_succ]
      · rw [← List.cons_append, ← List.range'_succ, List.nodup_append]
        refine ⟨List.nodup_range', h.nodup, ?_⟩
        intro r hr q hq he
        exact Nat.not_lt.mpr (List.mem_range'_1.mp hr).1 (he ▸ hold q hq)
      · intro r hr
        rw [← List.cons_append, ← List.range'_succ, List.mem_append] at hr
        rcases hr with hr | hr
        · exact (List.mem_range'_1.mp hr).2
        · exact Nat.lt_of_lt_of_le (hold r hr) (Nat.le_add_right _ _)
      · exact fun r hr => hset.unmade r (Nat.le_trans (Nat.le_add_right _ _) hr)
      · have hctx :
          CtxsAt (ps.set c ⟨.mulit, ⟨0, none, List.range' ps.next (n + 1)⟩, .mulit⟩).commands
            ps.redisCommand (⟨[], (List.range' (ps.next + 1) n).length⟩ :: cs) ps.next
            (List.range' (ps.next + 1) n ++ c :: below) :=
          .cons (by rw [Parser.set_commands, Function.update_self, List.range'_succ,
            List.nil_append])
            rfl (fun q hq =>
              hset.unmade q (Nat.le_of_succ_le (List.mem_range'_1.mp hq).1)) hset.ctxs
        rw [List.length_range'] at hctx
        exact hctx
      · exact hset.unmade ps.next (Nat.le_refl _)

theorem parseLine_holds (lim : Nat) {ty : RcType} (h : StackAt ps cs c below)
    (hc : ps.commands c = ⟨ty, newRedisCommandValue, .unitlCrlf⟩)
    (hbuf : ps.buffer = text ++ crlf) :
    AfterLine (parseLine lim ps c) c (Reader.endLine lim cs ty text) := by
  have hcend : (ps.commands c).status ≠ .end := by simp [hc]
  have hline : goSliceTo ps.buffer (ps.buffer.length - 2) = .ok text := by
    have hlen : ((ps.buffer.length : Int) - 2) = text.length := by simp [hbuf, crlf]
    rw [hlen, hbuf, goSliceTo_append]
  -- a number line that is refused only loses the buffer
  have hskip : AfterLine (.ok ps) c (.ok (.reading cs (.line ty []))) :=
    ⟨ps, rfl, ⟨c, below, h.of_eq rfl rfl rfl rfl, hc, rfl⟩, by simp [hc]⟩
  rw [parseLine, hline, goBind_ok, hc]
  cases ty with
  | status =>
      refine afterLine_close ?_
      simp only [Parser.setBytes, Parser.setStatus, Parser.set_set, hc]
      exact finish_holds h hcend (by simp [Denotes, newRedisCommandValue])
  | error =>
      refine afterLine_close ?_
      simp only [Parser.setBytes, Parser.setStatus, Parser.set_set, hc]
      exact finish_holds h hcend (by simp [Denotes, newRedisCommandValue])
  | unknown =>
      refine afterLine_close ?_
      simp only [Parser.setBytes, Parser.setStatus, Parser.set_set, hc]
      exact finish_holds h hcend (by simp [Denotes, newRedisCommandValue])
  | int =>
      rw [Reader.endLine]
      cases hi : atoi text with
      | none =>
          exact hskip
      | some i =>
          refine afterLine_close ?_
          simp only [Parser.setInt, Parser.setStatus, Parser.set_set, hc]
          exact finish_holds h hcend (by simp [Denotes, newRedisCommandValue])
  | bulk =>
      rw [Reader.endLine]
      cases hi : atoi text with
      | none =>
          exact hskip
      | some i =>
          dsimp only
          by_cases hneg : i < 0
          · rw [if_pos hneg, if_pos hneg]
            refine afterLine_close ?_
            simp only [Parser.setBytes, Parser.setStatus, Parser.set_set, hc]
            exact finish_holds h hcend (by simp [Denotes, newRedisCommandValue])
          · rw [if_neg hneg, if_neg hneg]
            refine ⟨_, rfl, ⟨c, below, (h.set hcend _).of_eq rfl rfl rfl rfl, ?_, rfl, rfl⟩, ?_⟩
            · simp [Parser.setStatus, hc]
            · simp [Parser.setStatus]
  | mulit =>
      rw [Reader.endLine]
      cases hi : atoi text with
      | none =>
          exact hskip
      | some i =>
          dsimp only
          by_cases hlim : i < 0 ∨ i > lim
          · rw [if_pos hlim, startMulit]
            exact if_pos hlim
          · rw [if_neg hlim]
            exact startMulit_holds h hc hlim

/-! ## One turn of the loop -/

theorem writeByte_eq (h : StackAt ps cs c below) (b : UInt8) :
    ps.writeByte lim b = (ps.switchStatus lim b c).map fun ps => ps.afterByte c := by
  have htop := goIndex_concat below.reverse c []
  have hlen : (((below.reverse ++ [c]).length : Nat) : Int) - 1 = below.reverse.length := by simp
  rw [Parser.writeByte, h.stack, List.reverse_cons, hlen, htop, goBind_ok]
  cases ps.switchStatus lim b c <;> rfl

theorem step_of_switch {ps' : Parser} {b : UInt8} (h : StackAt ps cs c below)
    (hps : ps.switchStatus lim b c = .ok ps') (herr : (ps'.commands c).status ≠ .error) :
    (parser lim).step ps b = .ok ps' := by
  have hbyte : ps.writeByte lim b = .ok (ps', (ps'.afterByte c).2) := by
    rw [writeByte_eq h, hps, Except.map, Parser.afterByte]
    split_ifs <;> rfl
  exact Parser.step_ok hbyte

theorem step_of_switch_error {b : UInt8} {e : GoPanic} (h : StackAt ps cs c below)
    (hps : ps.switchStatus lim b c = .error e) : (parser lim).step ps b = .error e := by
  refine Parser.step_error ?_
  rw [writeByte_eq h, hps]
  rfl

/-- A frame that fails ends the whole command: the rest of the stack is dropped, as the
reader drops what it was inside of. -/
theorem step_of_failed {ps' : Parser} {b : UInt8} (h : StackAt ps cs c below)
    (hps : ps.switchStatus lim b c = .ok ps') (hstack : ps'.stack ≠ [])
    (herr : (ps'.commands c).status = .error) :
    (parser lim).step ps b = .ok ({ ps' with stack := [] }.setStatus ps'.redisCommand .error) := by
  have hbyte : ps.writeByte lim b =
      .ok ({ ps' with stack := [] }.setStatus ps'.redisCommand .error, true) := by
    rw [writeByte_eq h, hps, Except.map, Parser.afterByte,
      if_neg (fun hl => hstack (List.length_eq_zero_iff.mp hl)), if_pos herr]
  exact Parser.step_ok hbyte

/-- What one step of the reader says about the step of the parser: the same outcome, and
related states after it. -/
def AfterStep (run : GoRun Parser) : GoRun Reader → Prop
  | .ok z => ∃ ps', run = .ok ps' ∧ Holds ps' z
  | .error e => run = .error e

theorem parseUnitlCrlf_end {b : UInt8} (h : StackAt ps cs c below) {ty : RcType}
    (hc : ps.commands c = ⟨ty, newRedisCommandValue, .unitlCrlf⟩)
    (hcrlf : crlf <:+ ps.buffer ++ [b]) :
    AfterStep ((parser lim).step ps b) (Reader.endLine lim cs ty ps.buffer.dropLast) := by
  have hbuf : ps.buffer ++ [b] = ps.buffer.dropLast ++ crlf := by
    obtain ⟨p, hp⟩ := hcrlf
    have hsplit : p ++ [13] ++ [10] = ps.buffer ++ [b] := by simpa [crlf] using hp
    rw [← hp, ← (List.append_inj' hsplit rfl).1, List.dropLast_concat]
  have hat : StackAt { ps with buffer := ps.buffer ++ [b] } cs c below := h.of_eq rfl rfl rfl rfl
  have hline := parseLine_holds lim hat hc hbuf
  have hswitch : ps.switchStatus lim b c =
      (parseLine lim { ps with buffer := ps.buffer ++ [b] } c).map
        fun ps => { ps with buffer := [] } := by
    rw [Parser.switchStatus, hc]
    simp only [parseUnitlCrlf, endByCtrf_eq, decide_eq_true hcrlf, goBind_ok, if_true]
    cases parseLine lim { ps with buffer := ps.buffer ++ [b] } c <;> rfl
  cases hend : Reader.endLine lim cs ty ps.buffer.dropLast with
  | error e =>
      rw [hend] at hline
      exact step_of_switch_error h (by rw [hswitch, hline]; rfl)
  | ok z =>
      rw [hend] at hline
      obtain ⟨ps', hrun, hholds, hst⟩ := hline
      exact ⟨{ ps' with buffer := [] }, step_of_switch h (by rw [hswitch, hrun]; rfl) hst, hholds⟩

theorem afterStep_line {b : UInt8} {ty : RcType} (h : StackAt ps cs c below)
    (hc : FocusAt ps c (.line ty text)) :
    AfterStep ((parser lim).step ps b) ((reader lim).step (.reading cs (.line ty text)) b) := by
  obtain ⟨hc, rfl⟩ := hc
  by_cases hcrlf : crlf <:+ ps.buffer ++ [b]
  · have hstep : (reader lim).step (.reading cs (.line ty ps.buffer)) b =
        Reader.endLine lim cs ty ps.buffer.dropLast := if_pos hcrlf
    rw [hstep]
    exact parseUnitlCrlf_end h hc hcrlf
  · rw [Reader.step_line_of_not hcrlf]
    have hswitch : ps.switchStatus lim b c = .ok { ps with buffer := ps.buffer ++ [b] } := by
      rw [Parser.switchStatus, hc]
      simp [parseUnitlCrlf, endByCtrf_eq, hcrlf]
    refine ⟨_, step_of_switch h hswitch (by simp [hc]), c, below, h.of_eq rfl rfl rfl rfl, hc, rfl⟩

theorem afterStep_payload {b : UInt8} {n : Int} (h : StackAt ps cs c below)
    (hc : FocusAt ps c (.payload n text)) :
    AfterStep ((parser lim).step ps b) ((reader lim).step (.reading cs (.payload n text)) b) := by
  obtain ⟨hc, rfl, rfl⟩ := hc
  have hcend : (ps.commands c).status ≠ .end := by simp [hc]
  have hlength : ((ps.buffer ++ [b]).length : Int) = ((ps.buffer.length + 1 : Nat) : Int) := by simp
  have hswitch : ps.switchStatus lim b c = parseFixedLen ps b c := by
    rw [Parser.switchStatus, hc]
  by_cases hlen : ((ps.buffer.length + 1 : Nat) : Int) = goInt (ps.argLen + 2)
  · by_cases hcrlf : crlf <:+ ps.buffer ++ [b]
    · have hstep : (reader lim).step (.reading cs (.payload ps.argLen ps.buffer)) b =
          .ok (Reader.close cs (.bulk (some ps.buffer.dropLast))) :=
        (if_pos hlen).trans (if_pos hcrlf)
      have hended := decide_eq_true hcrlf
      obtain ⟨p, hp⟩ := hcrlf
      have hsplit : p ++ [13] ++ [10] = ps.buffer ++ [b] := by simpa [crlf] using hp
      have hdrop : ps.buffer.dropLast = p := by
        rw [← (List.append_inj' hsplit rfl).1, List.dropLast_concat]
      have hslice : goSliceTo (ps.buffer ++ [b]) (((ps.buffer ++ [b]).length : Nat) - 2 : Int) =
          .ok p := by
        have hl : (((ps.buffer ++ [b]).length : Nat) - 2 : Int) = p.length := by simp [← hp, crlf]
        rw [hl, ← hp, goSliceTo_append]
      rw [hstep, hdrop]
      have hat : StackAt { ps with buffer := ps.buffer ++ [b] } cs c below :=
        h.of_eq rfl rfl rfl rfl
      have hdone := finish_holds (x := ⟨.bulk, ⟨0, some p, []⟩, .end⟩) (v := .bulk (some p)) hat
        hcend (by simp [Denotes])
      obtain ⟨ps', hpop, hholds, hst⟩ := hdone
      refine ⟨ps', step_of_switch h ?_ hst, hholds⟩
      rw [hswitch, parseFixedLen]
      simp only [hlength, if_pos hlen, endByCtrf_eq, goBind_ok, hended, if_true]
      rw [hlength] at hslice
      rw [hslice, goBind_ok, ← hpop]
      simp [Parser.setBytes, Parser.setStatus, hc, newRedisCommandValue]
    · have hstep : (reader lim).step (.reading cs (.payload ps.argLen ps.buffer)) b =
          .ok .rejected := (if_pos hlen).trans (if_neg hcrlf)
      rw [hstep]
      have hrun : ps.switchStatus lim b c =
          .ok ({ ps with buffer := ps.buffer ++ [b] }.setStatus c .error) := by
        rw [hswitch, parseFixedLen]
        simp only [hlength, if_pos hlen, endByCtrf_eq, goBind_ok, decide_eq_false hcrlf]
        rfl
      refine ⟨_, step_of_failed h hrun ?_ ?_, rfl, ?_⟩
      · simp [Parser.setStatus, h.stack]
      · simp [Parser.setStatus]
      · simp [Parser.setStatus]
  · rw [Reader.step_payload_of_ne hlen]
    have hrun : ps.switchStatus lim b c = .ok { ps with buffer := ps.buffer ++ [b] } := by
      rw [hswitch, parseFixedLen]
      simp only [hlength, if_neg hlen]
    exact ⟨_, step_of_switch h hrun (by simp [hc]), c, below, h.of_eq rfl rfl rfl rfl, hc, rfl, rfl⟩

end

theorem afterStep (lim : Nat) {ps : Parser} {z : Reader} (b : UInt8) (h : Holds ps z)
    (hz : (reader lim).ended z = false) :
    AfterStep ((parser lim).step ps b) ((reader lim).step z b) := by
  cases z with
  | done v => cases hz
  | rejected => cases hz
  | reading cs f =>
      obtain ⟨c, below, hstack, hc⟩ := h
      cases f with
      | start =>
          have hrun : ps.switchStatus lim b c = .ok (parseStart ps b c) := by
            rw [Parser.switchStatus, show ps.commands c = newRedisCommand from hc]
            rfl
          rw [parseStart_eq hc] at hrun
          refine ⟨_, step_of_switch hstack hrun (by simp), c, below, ?_, ?_⟩
          · exact (hstack.set
              (by rw [show ps.commands c = newRedisCommand from hc]; decide) _).of_eq
              rfl rfl rfl rfl
          · simp [FocusAt]
      | line ty text => exact afterStep_line hstack hc
      | payload n text => exact afterStep_payload hstack hc
      | dead =>
          have hrun : ps.switchStatus lim b c = .ok ps := by
            rw [Parser.switchStatus, show ps.commands c = _ from hc]
          refine ⟨ps, step_of_switch hstack hrun ?_, c, below, hstack, hc⟩
          rw [show ps.commands c = _ from hc]
          simp

/-- The parser simulates the reader, turn by turn: with `Holds` between them they go on,
panic and end together. What is known of the reader's runs is then known of the parser's. -/
theorem parser_sim (lim : Nat) : (parser lim).Sim (reader lim) Holds where
  ended := by
    intro ps z h
    cases z with
    | reading cs f =>
        obtain ⟨c, below, hstack, -⟩ := h
        change ps.stack.isEmpty = false
        rw [hstack.stack, List.reverse_cons]
        simp
    | done v => exact List.isEmpty_iff.mpr h.1
    | rejected => exact List.isEmpty_iff.mpr h.1
  step_ok := by
    intro ps z b z' h hz hstep
    have hafter := afterStep lim b h hz
    rw [hstep] at hafter
    exact hafter
  step_error := by
    intro ps z b e h hz hstep
    have hafter := afterStep lim b h hz
    rw [hstep] at hafter
    exact hafter

theorem holds_newParser : Holds newParser Reader.fresh :=
  ⟨0, [], ⟨rfl, by simp, by simp [newParser], fun _ _ => rfl, .nil⟩, rfl⟩

end Artorias
