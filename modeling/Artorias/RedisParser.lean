import Artorias.Resp

/-!
# The incremental parser (`redisparser/parser.go`)

A `*RedisCommand` is a `Ref` into the parser's commands; `newRedisCommand`
takes the next one. Slices are lists, in the order of the source, and every
index, slice and `make` expression is checked as the Go run time checks it:
out of range is a panic. Nothing overwrites a byte slice once it has been
handed out, so slices need no identity.

`Parser.write` takes the limit above which `make` panics.
-/

namespace Artorias

/-! ## Go -/

inductive GoPanic where
  | index
  | slice
  | makeslice
deriving Repr, DecidableEq

abbrev GoRun (α : Type) := Except GoPanic α

/-- `xs[i]` -/
def goIndex {α : Type} (xs : List α) (i : Int) : GoRun α :=
  if i < 0 then .error .index
  else
    match xs[i.toNat]? with
    | some x => .ok x
    | none => .error .index

/-- `xs[:j]` -/
def goSliceTo {α : Type} (xs : List α) (j : Int) : GoRun (List α) :=
  if 0 ≤ j ∧ j ≤ xs.length then .ok (xs.take j.toNat) else .error .slice

/-- `int` is 64 bits wide. -/
def goInt (i : Int) : Int := Int.bmod i (2 ^ 64)

/-! ## Commands -/

/-- `_SM_*` -/
inductive Sm where
  | start
  | unitlCrlf
  | fixedLen
  | mulit
  | end
  | error
deriving Repr, DecidableEq

/-- `RC_TYPE_*` -/
inductive RcType where
  | status
  | error
  | bulk
  | int
  | mulit
  | unknown
deriving Repr, DecidableEq

abbrev Ref := Nat

/-- `redisCommandValue`. A nil `_Bytes` is not an empty one; of `_Commands`
only the length and the elements are ever looked at. -/
structure RedisCommandValue where
  int : Int
  bytes : Option Bytes
  commands : List Ref
deriving Repr, DecidableEq

structure RedisCommand where
  type : RcType
  value : RedisCommandValue
  status : Sm
deriving Repr, DecidableEq

def newRedisCommandValue : RedisCommandValue := ⟨0, none, []⟩

/-- What `newRedisCommand` returns a pointer to. -/
def newRedisCommand : RedisCommand := ⟨.unknown, newRedisCommandValue, .start⟩

def RedisCommand.ok (rc : RedisCommand) : Bool := rc.type ≠ .unknown ∧ rc.status = .end

structure Parser where
  commands : Ref → RedisCommand
  /-- The commands made so far are those below. -/
  next : Ref
  stack : List Ref
  buffer : Bytes
  argLen : Int
  redisCommand : Ref

def newParser : Parser := ⟨fun _ => newRedisCommand, 1, [0], [], 0, 0⟩

namespace Parser

/-- Assign to the command `rc` points at. -/
def set (ps : Parser) (rc : Ref) (c : RedisCommand) : Parser :=
  { ps with commands := Function.update ps.commands rc c }

def setStatus (ps : Parser) (rc : Ref) (sm : Sm) : Parser :=
  ps.set rc { ps.commands rc with status := sm }

def setType (ps : Parser) (rc : Ref) (ty : RcType) : Parser :=
  ps.set rc { ps.commands rc with type := ty }

def setInt (ps : Parser) (rc : Ref) (i : Int) : Parser :=
  ps.set rc { ps.commands rc with value := { (ps.commands rc).value with int := i } }

def setBytes (ps : Parser) (rc : Ref) (bs : Option Bytes) : Parser :=
  ps.set rc { ps.commands rc with value := { (ps.commands rc).value with bytes := bs } }

def setCommands (ps : Parser) (rc : Ref) (rcs : List Ref) : Parser :=
  ps.set rc { ps.commands rc with value := { (ps.commands rc).value with commands := rcs } }

/-- `for j := 0; j < i; j++ { rcs[j] = newRedisCommand() }` -/
def newRedisCommands (ps : Parser) (i : Nat) : Parser × List Ref :=
  ({ ps with
      commands := fun r => if ps.next ≤ r ∧ r < ps.next + i then newRedisCommand
        else ps.commands r
      next := ps.next + i },
    List.range' ps.next i)

end Parser

/-! ## The stack -/

/-- The loop of `popStacks`; its argument is `l`. -/
def popStacksLoop : Nat → Parser → GoRun Parser
  | 0, ps => .ok ps
  | l + 1, ps => do
      let top ← goIndex ps.stack l
      match (ps.commands top).status with
      | .end => do
          let stack ← goSliceTo ps.stack l
          popStacksLoop l { ps with stack := stack }
      | .mulit => do
          let ps := ps.setStatus top .end
          let stack ← goSliceTo ps.stack l
          popStacksLoop l { ps with stack := stack }
      | _ => .ok ps

def popStacks (ps : Parser) : GoRun Parser := popStacksLoop ps.stack.length ps

/-! ## The three readers -/

/-- `endByCtrf` -/
def endByCtrf (buffer : Bytes) : GoRun Bool :=
  let l : Int := buffer.length
  if l ≥ 2 then do
    let b ← goIndex buffer (l - 2)
    if b = 13 then do
      let b ← goIndex buffer (l - 1)
      .ok (b = 10)
    else .ok false
  else .ok false

def parseFixedLen (ps : Parser) (b : UInt8) (rc : Ref) : GoRun Parser := do
  let ps := { ps with buffer := ps.buffer ++ [b] }
  let l : Int := ps.buffer.length
  if l = goInt (ps.argLen + 2) then do
    let ended ← endByCtrf ps.buffer
    if ended then do
      let bs ← goSliceTo ps.buffer (l - 2)
      let ps := ps.setBytes rc (some bs)
      popStacks (ps.setStatus rc .end)
    else .ok (ps.setStatus rc .error)
  else .ok ps

/-- The `switch` of `parseStart`. -/
def startType (ps : Parser) (b : UInt8) (rc : Ref) : Parser :=
  if b = 43 then ps.setType rc .status
  else if b = 45 then ps.setType rc .error
  else if b = 36 then ps.setType rc .bulk
  else if b = 58 then ps.setType rc .int
  else if b = 42 then ps.setType rc .mulit
  else (ps.setType rc .unknown).setStatus rc .error

def parseStart (ps : Parser) (b : UInt8) (rc : Ref) : Parser :=
  let ps := startType ps b rc
  let ps := { ps with buffer := [] }
  ps.setStatus rc .unitlCrlf

/-- The `RC_TYPE_MULIT` branch of `parseUnitlCrlf`, once the count `i` is
read. -/
def startMulit (lim : Nat) (ps : Parser) (rc : Ref) (i : Int) : GoRun Parser := do
  let ps := ps.setStatus rc .mulit
  if i < 0 ∨ i > lim then .error .makeslice
  else
    let (ps, rcs) := ps.newRedisCommands i.toNat
    let ps := ps.setCommands rc rcs
    -- for j := i - 1; j >= 0; j--
    .ok { ps with stack := ps.stack ++ rcs.reverse }

/-- What `parseUnitlCrlf` does with a complete line, up to the two last
statements. -/
def parseLine (lim : Nat) (ps : Parser) (rc : Ref) : GoRun Parser := do
  let line ← goSliceTo ps.buffer (ps.buffer.length - 2)
  match (ps.commands rc).type with
  | .status | .error | .unknown =>
      let ps := ps.setBytes rc (some line)
      popStacks (ps.setStatus rc .end)
  | .int =>
      match atoi line with
      | some i =>
          let ps := ps.setInt rc i
          popStacks (ps.setStatus rc .end)
      | none => .ok ps
  | .bulk =>
      match atoi line with
      | some i =>
          if i < 0 then
            let ps := ps.setBytes rc none
            popStacks (ps.setStatus rc .end)
          else .ok ({ ps with argLen := i }.setStatus rc .fixedLen)
      | none => .ok ps
  | .mulit =>
      match atoi line with
      | some i => startMulit lim ps rc i
      | none => .ok ps

/-- `parseUnitlCrlf`. The `err` that `Atoi` assigns is declared anew in each
branch, so the `err` tested in the end is the outer one: always nil. -/
def parseUnitlCrlf (lim : Nat) (ps : Parser) (b : UInt8) (rc : Ref) : GoRun Parser := do
  let ps := { ps with buffer := ps.buffer ++ [b] }
  let ended ← endByCtrf ps.buffer
  if ended then do
    let ps ← parseLine lim ps rc
    .ok { ps with buffer := [] }
  else .ok ps

/-! ## `Write` and `GetCommand` -/

namespace Parser

/-- The `switch` of `Write`. -/
def switchStatus (lim : Nat) (ps : Parser) (b : UInt8) (r : Ref) : GoRun Parser :=
  match (ps.commands r).status with
  | .start => .ok (parseStart ps b r)
  | .unitlCrlf => parseUnitlCrlf lim ps b r
  | .fixedLen => parseFixedLen ps b r
  | _ => .ok ps

/-- The two tests after it; the flag is set where `Write` returns. -/
def afterByte (ps : Parser) (r : Ref) : Parser × Bool :=
  if ps.stack.length = 0 then (ps, true)
  else if (ps.commands r).status = .error then
    ({ ps with stack := [] }.setStatus ps.redisCommand .error, true)
  else (ps, false)

/-- One turn of the loop of `Write`. -/
def writeByte (lim : Nat) (ps : Parser) (b : UInt8) : GoRun (Parser × Bool) := do
  let r ← goIndex ps.stack (ps.stack.length - 1)
  let ps ← ps.switchStatus lim b r
  .ok (ps.afterByte r)

/-- The loop of `Write` from index `i` on. -/
def writeLoop (lim : Nat) (ps : Parser) (i : Nat) : Bytes → GoRun (Parser × Nat)
  | [] => .ok (ps, i)
  | b :: bs => do
      let (ps, done) ← ps.writeByte lim b
      if done then .ok (ps, i + 1) else writeLoop lim ps (i + 1) bs

/-- `Write` -/
def write (lim : Nat) (ps : Parser) (bs : Bytes) : GoRun (Parser × Nat) :=
  if ps.stack = [] then .ok (ps, 0) else ps.writeLoop lim 0 bs

/-- `GetCommand` -/
def getCommand (ps : Parser) : Option Ref :=
  if ps.stack = [] then some ps.redisCommand else none

end Parser

end Artorias
