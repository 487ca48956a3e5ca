/-
The compare-and-swap unit of the memory device, one clock cycle at a time.

A core posts a request with a special write and collects the answer with a special read.
The unit sits on channel 0 between the host and the memory controller: it keeps the posted
requests in a table by core, sends the special read to the target line instead, compares
when the data comes back, answers in the second word, and writes the swap value through a
single pending register.

The first half are the registers and the wires of `mcas_ctrl`, function by function.  The
second half is the surroundings: the memory, the reads on their way, and what each core
waits for, with ghost lists of what matched, what was written and what was answered.

Read and write beats are one cycle each, and the host takes every read response.  The
write response channel only hides the responses of the unit's own writes; it is left out.
-/
import Cxlalloc.Lib.Numerals
import Mathlib.Data.BitVec
import Mathlib.Logic.Function.Basic
import Mathlib.Data.Option.Basic

namespace Cxlalloc.Mcas

open Function

/-! ### The wires of channel 0 -/

abbrev Word := BitVec 64

abbrev Id := BitVec 8

abbrev Core := BitVec 6

/-- The 512 bits of a line as eight words, lowest first. -/
abbrev Line := Fin 8 → Word

/-- What a core asks for: words 0, 1 and 2 of its special write. -/
structure Request where
  compareValue : Word
  swapValue : Word
  targetPa : Word
  deriving DecidableEq, Repr

def Line.request (line : Line) : Request :=
  { compareValue := line 0, swapValue := line 1, targetPa := line 2 }

/-- `w_core_id`, a byte; a write to an entry beyond the table has no effect. -/
def Line.coreId (line : Line) : Option Core :=
  if (line 3).extractLsb' 6 2 = 0 then some ((line 3).extractLsb' 0 6) else none

/-- One beat of the read response channel. -/
structure ReadBeat where
  rvalid : Bool
  rid : Id
  rdata : Line

/-- `t_to_mc_axi4`: the request channels, from the host or on to the controller. -/
structure ToMc where
  awid : BitVec 8
  awuser : BitVec 6
  awvalid : Bool
  awaddr : BitVec 52
  wdata : Line
  wvalid : Bool
  wlast : Bool
  wstrb : BitVec 64
  arid : Id
  arvalid : Bool
  araddr : BitVec 52

/-- `t_from_mc_axi4`: the ready signals and the read response. -/
structure FromMc extends ReadBeat where
  awready : Bool
  wready : Bool
  arready : Bool

/-- The inputs of one cycle. -/
structure Wires where
  host : ToMc
  mc : FromMc

/-- The pages whose reads and writes are special. -/
structure Match where
  arAddr : BitVec 64
  awAddr : BitVec 64

/-! ### The registers of the unit -/

/-- The status byte of an entry: 0, 1 and 2. -/
inductive Status
  | clear
  | written
  | readIssued
  deriving DecidableEq, Repr

/-- `mCAS_strcut_t`. -/
structure McasStruct extends Request where
  status : Status
  deriving DecidableEq, Repr

/-- The registers.  A byte of the read table is `none` for 0 and `some core` for
`{2'b11, core}`.  Of the stages only the read response is ever used.  The table answers in
two cycles: `tableQ` is the word in between. -/
structure Regs where
  c0AwMatch : Bool
  c0WdData : Line
  structArr : Core → McasStruct
  pendingInsert : Bool
  wrData : Word × Word
  respStruct : McasStruct
  stg0 : ReadBeat
  stg1 : ReadBeat
  stg2 : ReadBeat
  stg3 : ReadBeat
  table : Id → Option Core
  tableQ : Option Core
  rspLoadDataW : Option Core
  rspLoadDataR : Option Core

def McasStruct.zero : McasStruct :=
  { compareValue := 0, swapValue := 0, targetPa := 0, status := .clear }

/-- An assignment to the status of one entry, if there is one to assign to. -/
def setStatus (core : Option Core) (status : Status) (arr : Core → McasStruct) :
    Core → McasStruct := fun c =>
  if core = some c then { arr c with status := status } else arr c

def ReadBeat.idle : ReadBeat := { rvalid := false, rid := 0, rdata := fun _ => 0 }

namespace Regs

/-- After reset, with no response on the wires and the read table blank. -/
def reset : Regs where
  c0AwMatch := false
  c0WdData := fun _ => 0
  structArr := fun _ => .zero
  pendingInsert := false
  wrData := (0, 0)
  respStruct := .zero
  stg0 := .idle
  stg1 := .idle
  stg2 := .idle
  stg3 := .idle
  table := fun _ => none
  tableQ := none
  rspLoadDataW := none
  rspLoadDataR := none

variable (cfg : Match) (r : Regs) (io : Wires)

/-! ### `afu_top`: which beats are special -/

/-- The host's handshakes are masked while a write is pending. -/
def arready : Bool := io.mc.arready && !r.pendingInsert

def awready : Bool := io.mc.awready && !r.pendingInsert

def wready : Bool := io.mc.wready && !r.pendingInsert

def c0ArMatch : Bool :=
  cfg.arAddr != 0 && io.host.araddr.extractLsb' 12 40 == cfg.arAddr.extractLsb' 12 40 &&
    (r.arready io && io.host.arvalid)

def c0AwMatchN : Bool :=
  cfg.awAddr != 0 && io.host.awaddr.extractLsb' 12 40 == cfg.awAddr.extractLsb' 12 40 &&
    (r.awready io && io.host.awvalid)

/-! ### `mcas_ctrl`: the combinational functions, in the order they are called -/

/-- The entry that the special write of the last cycle goes to. -/
def posts : Option Core := if r.c0AwMatch then r.c0WdData.coreId else none

def setWrMatching (arr : Core → McasStruct) : Core → McasStruct := fun c =>
  if r.posts = some c then { toRequest := r.c0WdData.request, status := .written } else arr c

end Regs

def Wires.c0CoreId (io : Wires) : Core := io.host.araddr.extractLsb' 6 6

namespace Regs

variable (cfg : Match) (r : Regs) (io : Wires)

/-- The core whose special read is sent to its target in this cycle. -/
def converts : Option Core :=
  if r.c0ArMatch cfg io && (r.structArr io.c0CoreId).status == .written then some io.c0CoreId
  else none

def setRdMatching (arr : Core → McasStruct) : Core → McasStruct :=
  setStatus (r.converts cfg io) .readIssued arr

def convertedRead : ToMc :=
  match r.converts cfg io with
  | some c => { io.host with araddr := (r.structArr c).targetPa.setWidth 52 }
  | none => io.host

/-- The core whose response the read table has recognised, one stage before the compare. -/
def tableHit : Option Core := if r.stg1.rvalid then r.rspLoadDataW else none

/-- `clear_status_n` is read above its assignment; this is the value it settles to. -/
def clearStatus (arr : Core → McasStruct) : Core → McasStruct :=
  setStatus r.tableHit .clear arr

/-- The compare stage finds a match. -/
def startRequest : Bool :=
  r.stg2.rvalid && r.rspLoadDataR.isSome && r.respStruct.status == .readIssued &&
    r.stg2.rdata 0 == r.respStruct.compareValue

/-- A match clears every entry with the same target. -/
def bully (arr : Core → McasStruct) : Core → McasStruct := fun c =>
  if r.startRequest && (r.structArr c).targetPa == r.respStruct.targetPa then
    { arr c with status := .clear }
  else arr c

def structArrN : Core → McasStruct :=
  r.bully (r.clearStatus (r.setRdMatching cfg io (r.setWrMatching r.structArr)))

/-- What the compare stage will see: the entry of the response, unless a match in this
cycle has the same target. -/
def respStructN : McasStruct :=
  let n := match r.tableHit with
    | some c => r.structArr c
    | none => { r.respStruct with status := .clear }
  if r.startRequest && n.targetPa == r.respStruct.targetPa then { n with status := .clear }
  else n

/-- The answer: the second word of a recognised response is 1 on a match, else 0. -/
def stg3N : ReadBeat :=
  if r.stg2.rvalid && r.rspLoadDataR.isSome then
    { r.stg2 with rdata := update r.stg2.rdata 1 (if r.startRequest then 1 else 0) }
  else r.stg2

/-- The pending write goes out as soon as the data channel is ready. -/
def issueWrite : Bool := r.pendingInsert && io.mc.wready

def insertWr (out : ToMc) : ToMc :=
  let out := if r.issueWrite io then
      { out with
        awid := 0xFF, awuser := 1, awvalid := true, awaddr := r.wrData.1.setWidth 52
        wdata := fun k => if k = 0 then r.wrData.2 else 0
        wvalid := true, wlast := true, wstrb := BitVec.allOnes 64 }
    else out
  { out with arvalid := io.host.arvalid && !r.pendingInsert }

/-- `iafu2mc_to_mc_axi4[0]`. -/
def toMc : ToMc := r.insertWr io (r.convertedRead cfg io)

/-- The two write ports of the read table: one marks the id of a converted read, the other
takes the mark back once the response is recognised. -/
def tableN : Id → Option Core :=
  let marked := match r.converts cfg io with
    | some c => update r.table io.host.arid (some c)
    | none => r.table
  if r.tableHit.isSome then update marked r.stg1.rid none else marked

/-- One rising edge of the clock. -/
def step : Regs where
  c0AwMatch := r.c0AwMatchN cfg io
  c0WdData := io.host.wdata
  structArr := r.structArrN cfg io
  pendingInsert := if r.startRequest then true
    else if r.issueWrite io then false else r.pendingInsert
  wrData := if r.startRequest then (r.respStruct.targetPa, r.respStruct.swapValue)
    else r.wrData
  respStruct := r.respStructN
  stg0 := io.mc.toReadBeat
  stg1 := r.stg0
  stg2 := r.stg1
  stg3 := r.stg3N
  table := r.tableN cfg io
  tableQ := r.table io.mc.rid
  rspLoadDataW := r.tableQ
  rspLoadDataR := r.rspLoadDataW

/-- The debug signal of the source for a core whose special read comes right on the heels
of its special write, before the entry is there. -/
def sameCoreReqBothCh : Bool := r.c0ArMatch cfg io && r.posts == some io.c0CoreId

end Regs

/-! ### The surroundings -/

/-- What a core waits for. -/
inductive Phase
  | idle
  | posted (request : Request)
  | reading
  deriving DecidableEq

def Phase.isPosted : Phase → Bool
  | .posted _ => true
  | _ => false

/-- One compare-and-swap of a core, from the cycle its special read was accepted in. -/
structure Op extends Request where
  core : Core
  accepted : ℕ
  deriving DecidableEq

/-- A read on its way: which operation it belongs to, the core if it was converted, the
first word of the line when the controller accepted it, and the cycle of its response. -/
structure Read where
  op : Option Op
  flag : Option Core
  data : Word
  presented : Option ℕ

/-- An operation that matched, and the cycle of the compare. -/
structure Win where
  op : Op
  cycle : ℕ
  deriving DecidableEq

/-- The write a match asks for: the address as the unit sends it, and the first word. -/
def Win.write (w : Win) : BitVec 52 × Word := (w.op.targetPa.setWidth 52, w.op.swapValue)

/-- The answer a core got, and the cycle of the compare. -/
structure Response where
  op : Op
  compared : ℕ
  success : Word
  deriving DecidableEq

/-- What the answer is about, as the match it should come from. -/
def Response.win (a : Response) : Win := { op := a.op, cycle := a.compared }

abbrev LineAddr := BitVec 46

def lineOf (addr : BitVec 52) : LineAddr := addr.extractLsb' 6 46

/-- The unit in its surroundings.  `mem` is the first word of every line that only the unit
writes.  The lists are newest first: the operations that matched, the writes that were
accepted on both channels, and the answers.  `issued` gives for the cycle of a match the
cycle in which its write went out. -/
structure Sys where
  regs : Regs
  now : ℕ
  mem : LineAddr → Word
  phase : Core → Phase
  reads : Id → Option Read
  wins : List Win
  writes : List (BitVec 52 × Word)
  answers : List Response
  issued : ℕ → Option ℕ

namespace Sys

def init (mem : LineAddr → Word) : Sys where
  regs := .reset
  now := 0
  mem := mem
  phase := fun _ => .idle
  reads := fun _ => none
  wins := []
  writes := []
  answers := []
  issued := fun _ => none

variable (cfg : Match) (s : Sys) (io : Wires)

/-- The operation that a special read of this cycle begins. -/
def newOp : Option Op :=
  if s.regs.c0ArMatch cfg io then
    match s.phase io.c0CoreId with
    | .posted request => some { toRequest := request, core := io.c0CoreId, accepted := s.now }
    | _ => none
  else none

/-- The read the controller accepts in this cycle. -/
def accepts : Option (Id × Read) :=
  let out := s.regs.toMc cfg io
  if out.arvalid && io.mc.arready then
    some (out.arid, {
      op := s.newOp cfg io
      flag := s.regs.converts cfg io
      data := s.mem (lineOf out.araddr)
      presented := none })
  else none

/-- The read whose response reaches the host in this cycle. -/
def delivers : Option Read :=
  if s.regs.stg3.rvalid then s.reads s.regs.stg3.rid else none

def readsN (id : Id) : Option Read :=
  if s.regs.stg3.rvalid && id == s.regs.stg3.rid then none
  else match s.accepts cfg io with
    | some (i, rd) => if id = i then some rd else presents id
    | none => presents id
where
  presents (id : Id) : Option Read :=
    if io.mc.rvalid && id == io.mc.rid then
      (s.reads id).map fun rd => { rd with presented := some s.now }
    else s.reads id

/-- A special write posts what is on the data channel when its address is accepted, as the
unit takes it. -/
def phaseN (c : Core) : Phase :=
  if s.regs.c0AwMatchN cfg io && io.host.wdata.coreId == some c then
    .posted io.host.wdata.request
  else if s.regs.c0ArMatch cfg io && c == io.c0CoreId then .reading
  else if (s.delivers.bind Read.op).map Op.core = some c then .idle
  else s.phase c

/-- The unit's own write is complete when both channels take it in the cycle it goes out. -/
def writeAccepted : Bool := s.regs.issueWrite io && io.mc.awready

/-- The operation in the compare stage, if it matches. -/
def newWin : List Win :=
  if s.regs.startRequest then
    ((s.reads s.regs.stg2.rid).bind Read.op).toList.map fun op => { op := op, cycle := s.now }
  else []

/-- The answer a core gets in this cycle; its compare was one cycle ago. -/
def newAnswer : List Response :=
  (s.delivers.bind Read.op).toList.map fun op =>
    { op := op, compared := s.now - 1, success := s.regs.stg3.rdata 1 }

/-- One clock cycle. -/
def step : Sys where
  regs := s.regs.step cfg io
  now := s.now + 1
  mem :=
    let out := s.regs.toMc cfg io
    if s.writeAccepted io then update s.mem (lineOf out.awaddr) (out.wdata 0) else s.mem
  phase := s.phaseN cfg io
  reads := s.readsN cfg io
  wins := s.newWin ++ s.wins
  writes :=
    let out := s.regs.toMc cfg io
    if s.writeAccepted io then (out.awaddr, out.wdata 0) :: s.writes else s.writes
  answers := s.newAnswer ++ s.answers
  issued := fun n =>
    -- the pending register holds what the latest match asked for
    if s.regs.issueWrite io && s.wins.head?.map Win.cycle == some n then some s.now
    else s.issued n

/-- What the host and the controller keep to.  Reads on their way have ids of their own; a
core posts one request at a time, reads after it has posted, and waits for the response; a
response belongs to a read on its way; and a converted read returns the line as it was when
the controller accepted it. -/
structure Legal : Prop where
  arid : ∀ x ∈ s.accepts cfg io, s.reads x.1 = none
  special_read : s.regs.c0ArMatch cfg io → (s.phase io.c0CoreId).isPosted
  special_write : s.regs.c0AwMatchN cfg io → ∀ c ∈ io.host.wdata.coreId, s.phase c = .idle
  response : io.mc.rvalid → ∃ rd ∈ s.reads io.mc.rid, rd.presented = none ∧
    (rd.flag.isSome → io.mc.rdata 0 = rd.data)

instance : Decidable (Legal cfg s io) :=
  decidable_of_iff
    ((∀ x ∈ s.accepts cfg io, s.reads x.1 = none) ∧
      (s.regs.c0ArMatch cfg io → (s.phase io.c0CoreId).isPosted) ∧
      (s.regs.c0AwMatchN cfg io → ∀ c ∈ io.host.wdata.coreId, s.phase c = .idle) ∧
      (io.mc.rvalid → ∃ rd ∈ s.reads io.mc.rid, rd.presented = none ∧
        (rd.flag.isSome → io.mc.rdata 0 = rd.data)))
    ⟨fun h => ⟨h.1, h.2.1, h.2.2.1, h.2.2.2⟩,
      fun h => ⟨h.arid, h.special_read, h.special_write, h.response⟩⟩

/-- One legal cycle in which the inputs meet `P`. -/
def StepWhere (P : Sys → Wires → Prop) (s s' : Sys) : Prop :=
  ∃ io, Legal cfg s io ∧ P s io ∧ s' = s.step cfg io

end Sys

end Cxlalloc.Mcas
