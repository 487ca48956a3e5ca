/-
The pipeline of the compare-and-swap unit agrees with the reads on their way.

`Moves` says once where a read on its way after a cycle was before it.  `Pipe` is what
holds between cycles: each stage carries the response of a read that was presented so many
cycles ago, the read table marks exactly the converted reads that were not recognised yet,
and the entry of a core holds what the core posted.  One cycle keeps it, provided a core's
special read does not come on the heels of its special write.
-/
import Cxlalloc.Mcas

namespace Cxlalloc.Mcas

open Function

variable {cfg : Match} {r : Regs} {s : Sys} {io : Wires} {P : Word → Prop}

namespace Regs

variable {c : Core}

/-! ### What one cycle does to the entry of a core -/

theorem converts_eq_some (h : r.converts cfg io = some c) :
    r.c0ArMatch cfg io ∧ c = io.c0CoreId ∧ (r.structArr c).status = .written := by
  unfold converts at h
  split at h
  · rename_i hmatch
    cases h
    simpa using hmatch
  · cases h

theorem c0ArMatch_pending (h : r.c0ArMatch cfg io) : r.pendingInsert = false := by
  simp only [c0ArMatch, arready, Bool.and_eq_true, Bool.not_eq_true'] at h
  exact h.2.1.2

theorem c0ArMatch_valid (h : r.c0ArMatch cfg io) :
    io.host.arvalid = true ∧ io.mc.arready = true := by
  simp only [c0ArMatch, arready, Bool.and_eq_true] at h
  exact ⟨h.2.2, h.2.1.1⟩

@[simp] theorem setStatus_request (core : Option Core) (status : Status)
    (arr : Core → McasStruct) : (setStatus core status arr c).toRequest = (arr c).toRequest := by
  unfold setStatus
  split <;> rfl

@[simp] theorem bully_request (arr : Core → McasStruct) :
    (r.bully arr c).toRequest = (arr c).toRequest := by
  unfold bully
  split <;> rfl

/-- Only a special write changes what an entry asks for. -/
theorem structArrN_request : (r.structArrN cfg io c).toRequest
    = if r.posts = some c then r.c0WdData.request else (r.structArr c).toRequest := by
  simp only [structArrN, bully_request, clearStatus, setRdMatching, setStatus_request, setWrMatching]
  split <;> rfl

/-- An entry that waits for its response after this cycle was not cleared, and waited
before or has just been converted. -/
theorem structArrN_readIssued (h : (r.structArrN cfg io c).status = .readIssued) :
    (r.startRequest → (r.structArr c).targetPa ≠ r.respStruct.targetPa) ∧
      (r.converts cfg io = some c ∨ (r.structArr c).status = .readIssued) := by
  unfold structArrN bully at h
  split at h
  · cases h
  · rename_i hbully
    refine ⟨fun hstart heq => hbully (by simp [hstart, heq]), ?_⟩
    unfold clearStatus setStatus at h
    split at h
    · cases h
    · unfold setRdMatching setStatus at h
      split at h
      · exact .inl ‹_›
      · unfold setWrMatching at h
        split at h
        · cases h
        · exact .inr h

theorem respStructN_request (h : r.tableHit = some c) :
    r.respStructN.toRequest = (r.structArr c).toRequest := by
  unfold respStructN
  simp only [h]
  split <;> rfl

theorem respStructN_readIssued (h : r.respStructN.status = .readIssued) :
    ∃ c, r.tableHit = some c ∧ (r.structArr c).status = .readIssued ∧
      (r.startRequest → (r.structArr c).targetPa ≠ r.respStruct.targetPa) := by
  unfold respStructN at h
  cases hhit : r.tableHit with
  | none =>
    simp only [hhit] at h
    split at h <;> cases h
  | some c =>
    simp only [hhit] at h
    split at h
    · cases h
    · rename_i hbully
      exact ⟨c, rfl, h, fun hstart heq => hbully (by simp [hstart, heq])⟩

theorem startRequest_eq_true (h : r.startRequest) :
    r.stg2.rvalid = true ∧ r.rspLoadDataR.isSome ∧ r.respStruct.status = .readIssued ∧
      r.stg2.rdata 0 = r.respStruct.compareValue := by
  simpa [startRequest, and_assoc] using h

theorem stg3N_word (hvalid : r.stg2.rvalid = true) : r.stg3N.rdata 1 =
    if r.rspLoadDataR.isSome then (if r.startRequest then 1 else 0) else r.stg2.rdata 1 := by
  unfold stg3N
  split
  · rename_i hboth
    rw [if_pos (Bool.and_eq_true_iff.mp hboth).2]
    simp
  · rename_i hboth
    rw [if_neg fun hsome => hboth (by simp [hvalid, hsome])]

/-- The write that goes out is the pending one. -/
theorem toMc_issue (cfg : Match) (h : r.issueWrite io = true) :
    (r.toMc cfg io).awaddr = r.wrData.1.setWidth 52 ∧ (r.toMc cfg io).wdata 0 = r.wrData.2 := by
  unfold toMc insertWr
  simp [h]

end Regs

namespace Sys

variable {id : Id} {rd : Read} {op : Op}

/-! ### How a read moves in one cycle -/

/-- The mark of a converted read stays in the read table until its response has passed the
second stage. -/
def Unseen (s : Sys) (rd : Read) : Prop := ∀ n, rd.presented = some n → s.now ≤ n + 2

theorem unseen_of_step (h : (s.step cfg io).Unseen rd) : s.Unseen rd := by
  intro n hn
  have := h n hn
  have hnow : (s.step cfg io).now = s.now + 1 := rfl
  omega

theorem unseen_of_none (h : rd.presented = none) : s.Unseen rd := by
  intro n hn
  rw [h] at hn
  cases hn

theorem accepts_eq_some (h : s.accepts cfg io = some (id, rd)) :
    s.regs.pendingInsert = false ∧ id = io.host.arid ∧ rd.op = s.newOp cfg io ∧
      rd.flag = s.regs.converts cfg io ∧ rd.presented = none ∧
      rd.data = s.mem (lineOf (s.regs.convertedRead cfg io).araddr) := by
  unfold accepts Regs.toMc at h
  have harid : (s.regs.insertWr io (s.regs.convertedRead cfg io)).arid = io.host.arid := by
    unfold Regs.insertWr Regs.convertedRead
    split <;> split <;> rfl
  have haddr : (s.regs.insertWr io (s.regs.convertedRead cfg io)).araddr
      = (s.regs.convertedRead cfg io).araddr := by
    unfold Regs.insertWr
    split <;> rfl
  have hvalid : (s.regs.insertWr io (s.regs.convertedRead cfg io)).arvalid
      = (io.host.arvalid && !s.regs.pendingInsert) := rfl
  simp only [harid, haddr, hvalid] at h
  split at h
  · rename_i hgo
    cases h
    simp only [Bool.and_eq_true, Bool.not_eq_true'] at hgo
    exact ⟨hgo.1.2, rfl, rfl, rfl, rfl, rfl⟩
  · cases h

theorem accepts_of_match (h : s.regs.c0ArMatch cfg io) :
    ∃ rd, s.accepts cfg io = some (io.host.arid, rd) := by
  have hvalid : (s.regs.toMc cfg io).arvalid = true := by
    show (io.host.arvalid && !s.regs.pendingInsert) = true
    simp [(Regs.c0ArMatch_valid h).1, Regs.c0ArMatch_pending h]
  have hid : (s.regs.toMc cfg io).arid = io.host.arid := by
    unfold Regs.toMc Regs.insertWr Regs.convertedRead
    split <;> split <;> rfl
  unfold accepts
  simp only [hvalid, hid, (Regs.c0ArMatch_valid h).2, Bool.and_self, if_true]
  exact ⟨_, rfl⟩

theorem newOp_eq_some (h : s.newOp cfg io = some op) :
    s.regs.c0ArMatch cfg io ∧ op.core = io.c0CoreId ∧ op.accepted = s.now ∧
      s.phase op.core = .posted op.toRequest := by
  unfold newOp at h
  split at h
  · rename_i hmatch
    split at h
    · rename_i hphase
      cases h
      exact ⟨hmatch, rfl, rfl, hphase⟩
    · cases h
  · cases h

/-- Where a read on its way after a cycle was before it. -/
inductive Moves (cfg : Match) (s : Sys) (io : Wires) (id : Id) : Read → Prop
  | accepted (rd : Read) (h : s.accepts cfg io = some (id, rd)) (hnew : s.reads id = none) :
      Moves cfg s io id rd
  | presented (rd : Read) (h : s.reads id = some rd) (hnone : rd.presented = none)
      (hvalid : io.mc.rvalid = true) (hid : io.mc.rid = id)
      (hdata : rd.flag.isSome → io.mc.rdata 0 = rd.data) :
      Moves cfg s io id { rd with presented := some s.now }
  | stays (rd : Read) (h : s.reads id = some rd)
      (hpres : ¬ (io.mc.rvalid = true ∧ io.mc.rid = id)) : Moves cfg s io id rd

theorem moves_of_reads (hl : Legal cfg s io) (h : (s.step cfg io).reads id = some rd) :
    Moves cfg s io id rd := by
  have h : s.readsN cfg io id = some rd := h
  -- the id is not one that is being accepted
  have hkeeps : readsN.presents s io id = some rd → Moves cfg s io id rd := by
    intro hp
    unfold readsN.presents at hp
    split at hp
    · rename_i hr
      simp only [Bool.and_eq_true, beq_iff_eq] at hr
      obtain ⟨rd₀, hrd₀, hnone, hdata⟩ := hl.response hr.1
      have hread : s.reads id = some rd₀ := hr.2 ▸ hrd₀
      rw [hread] at hp
      cases hp
      exact .presented rd₀ hread hnone hr.1 hr.2.symm hdata
    · rename_i hr
      refine .stays rd hp fun hboth => hr ?_
      simp [hboth.1, hboth.2]
  unfold readsN at h
  split at h
  · cases h
  · split at h
    · rename_i i rd' hacc
      split at h
      · rename_i hi
        cases h
        exact .accepted rd (hi ▸ hacc) (hi ▸ hl.arid _ hacc)
      · exact hkeeps h
    · exact hkeeps h

/-- A read on its way that is not answered now stays on its way. -/
theorem reads_stays (hl : Legal cfg s io) (h : s.reads id = some rd)
    (hlast : s.regs.stg3.rvalid = true → s.regs.stg3.rid ≠ id) :
    (s.step cfg io).reads id = readsN.presents s io id := by
  show s.readsN cfg io id = readsN.presents s io id
  have hnot : ¬ (s.regs.stg3.rvalid && id == s.regs.stg3.rid) = true := by
    intro hd
    simp only [Bool.and_eq_true, beq_iff_eq] at hd
    exact hlast hd.1 hd.2.symm
  unfold readsN
  rw [if_neg hnot]
  split
  · rename_i i rd' hacc
    have hne : id ≠ i := by
      intro heq
      have hnone := hl.arid _ hacc
      rw [← heq, h] at hnone
      cases hnone
    rw [if_neg hne]
  · rfl

/-- A read on its way after a cycle was not answered in it. -/
theorem not_answered (h : (s.step cfg io).reads id = some rd)
    (hvalid : s.regs.stg3.rvalid = true) : s.regs.stg3.rid ≠ id := by
  intro heq
  have h : s.readsN cfg io id = some rd := h
  unfold readsN at h
  rw [if_pos (by simp [hvalid, heq])] at h
  cases h

/-- What a read carries along was fixed when it was accepted. -/
theorem Moves.origin (h : Moves cfg s io id rd) :
    (s.accepts cfg io = some (id, rd) ∧ s.reads id = none) ∨
      ∃ rd₀, s.reads id = some rd₀ ∧ rd₀.op = rd.op ∧ rd₀.flag = rd.flag ∧ rd₀.data = rd.data := by
  cases h with
  | accepted _ hacc hnew => exact .inl ⟨hacc, hnew⟩
  | presented rd₀ hread => exact .inr ⟨rd₀, hread, rfl, rfl, rfl⟩
  | stays _ hread => exact .inr ⟨rd, hread, rfl, rfl, rfl⟩

/-! ### The pipeline agrees with the reads on their way -/

/-- A beat in a stage is the response of `rd`, presented `k` cycles ago. -/
structure Carries (P : Word → Prop) (s : Sys) (k : ℕ) (b : ReadBeat) (rd : Read) : Prop where
  read : s.reads b.rid = some rd
  presented : ∃ n, rd.presented = some n ∧ n + k = s.now
  data : rd.flag.isSome → b.rdata 0 = rd.data
  raw : rd.op.isSome → rd.flag = none → P (b.rdata 1)

/-- The stages, the read table and the table of requests agree with the reads on their way
and with what the cores posted. -/
structure Pipe (P : Word → Prop) (s : Sys) : Prop where
  past : ∀ id rd n, s.reads id = some rd → rd.presented = some n → n < s.now
  at0 : ∀ id rd n, s.reads id = some rd → rd.presented = some n → n + 1 = s.now →
    s.regs.stg0.rvalid = true ∧ s.regs.stg0.rid = id
  at1 : ∀ id rd n, s.reads id = some rd → rd.presented = some n → n + 2 = s.now →
    s.regs.stg1.rvalid = true ∧ s.regs.stg1.rid = id
  stg0 : s.regs.stg0.rvalid = true →
    ∃ rd, Carries P s 1 s.regs.stg0 rd ∧ s.regs.tableQ = rd.flag
  stg1 : s.regs.stg1.rvalid = true →
    ∃ rd, Carries P s 2 s.regs.stg1 rd ∧ s.regs.rspLoadDataW = rd.flag
  /-- What the compare stage compares with is what the core asked for. -/
  stg2 : s.regs.stg2.rvalid = true →
    ∃ rd, Carries P s 3 s.regs.stg2 rd ∧ s.regs.rspLoadDataR = rd.flag ∧
      ∀ op, rd.op = some op → rd.flag.isSome → s.regs.respStruct.toRequest = op.toRequest
  stg3 : s.regs.stg3.rvalid = true →
    ∃ rd n, s.reads s.regs.stg3.rid = some rd ∧ rd.presented = some n ∧ n + 4 = s.now
  table_some : ∀ id rd, s.reads id = some rd → s.Unseen rd → s.regs.table id = rd.flag
  table_none : ∀ id, (∀ rd, s.reads id = some rd → ¬ s.Unseen rd) → s.regs.table id = none
  op : ∀ id rd op, s.reads id = some rd → rd.op = some op →
    s.phase op.core = .reading ∧ op.accepted < s.now
  unique : ∀ id id' rd rd' op op', s.reads id = some rd → s.reads id' = some rd' →
    rd.op = some op → rd'.op = some op' → op.core = op'.core → id = id'
  flag : ∀ id rd c, s.reads id = some rd → rd.flag = some c →
    ∃ op, rd.op = some op ∧ op.core = c
  posts : ∀ c, s.regs.posts = some c → s.phase c = .posted s.regs.c0WdData.request
  posted : ∀ c request, s.phase c = .posted request → s.regs.posts ≠ some c →
    (s.regs.structArr c).toRequest = request
  entry : ∀ id rd op, s.reads id = some rd → rd.op = some op → rd.flag = some op.core →
    s.Unseen rd → (s.regs.structArr op.core).toRequest = op.toRequest

/-- What the inputs of a cycle must meet for no two winners to overlap: a core's special
read does not come on the heels of its special write; a match does not find the register
full and stuck; and a special read that was not converted brings no success word of its
own. -/
structure Orderly (P : Word → Prop) (cfg : Match) (s : Sys) (io : Wires) : Prop where
  apart : s.regs.sameCoreReqBothCh cfg io = false
  room : s.regs.startRequest → s.regs.pendingInsert → io.mc.wready
  raw : io.mc.rvalid → ∀ rd ∈ s.reads io.mc.rid, rd.op.isSome → rd.flag = none →
    P (io.mc.rdata 1)

instance [DecidablePred P] : Decidable (Orderly P cfg s io) :=
  decidable_of_iff
    (s.regs.sameCoreReqBothCh cfg io = false ∧
      (s.regs.startRequest → s.regs.pendingInsert → io.mc.wready) ∧
      (io.mc.rvalid → ∀ rd ∈ s.reads io.mc.rid, rd.op.isSome → rd.flag = none →
        P (io.mc.rdata 1)))
    ⟨fun h => ⟨h.1, h.2.1, h.2.2⟩, fun h => ⟨h.apart, h.room, h.raw⟩⟩

theorem Pipe.init (mem : LineAddr → Word) : Pipe P (init mem) := by
  refine ⟨?_, ?_, ?_, ?_, ?_, ?_, ?_, ?_, ?_, ?_, ?_, ?_, ?_, ?_, ?_⟩ <;>
    simp [Sys.init, Regs.reset, ReadBeat.idle, Regs.posts]

/-- The last stage holds the response that was presented four cycles ago, no other. -/
theorem Pipe.stg3_ne (pipe : Pipe P s) (h : s.reads id = some rd)
    (hearly : ∀ n, rd.presented = some n → s.now < n + 4) :
    s.regs.stg3.rvalid = true → s.regs.stg3.rid ≠ id := by
  intro hvalid heq
  obtain ⟨rd', n, hread, hn, hnow⟩ := pipe.stg3 hvalid
  rw [heq, h] at hread
  cases hread
  have := hearly n hn
  omega

theorem Carries.step {k : ℕ} {b : ReadBeat} (h : Carries P s k b rd) (pipe : Pipe P s)
    (hl : Legal cfg s io) (hk : k < 4) : Carries P (s.step cfg io) (k + 1) b rd := by
  obtain ⟨n, hn, hnow⟩ := h.presented
  refine ⟨?_, ⟨n, hn, ?_⟩, h.data, h.raw⟩
  · rw [reads_stays hl h.read]
    · unfold readsN.presents
      split
      · rename_i hr
        simp only [Bool.and_eq_true, beq_iff_eq] at hr
        obtain ⟨rd₀, hread, hnone, -⟩ := hl.response hr.1
        rw [← hr.2] at hread
        cases h.read.symm.trans hread
        rw [hn] at hnone
        cases hnone
      · exact h.read
    · apply pipe.stg3_ne h.read
      intro n' hn'
      cases hn.symm.trans hn'
      omega
  · show n + (k + 1) = s.now + 1
    omega

/-- The response of this cycle enters the first stage. -/
theorem Carries.enter (pipe : Pipe P s) (hl : Legal cfg s io) (hok : Orderly P cfg s io)
    (hvalid : io.mc.rvalid = true) :
    ∃ rd, Carries P (s.step cfg io) 1 io.mc.toReadBeat rd ∧ s.regs.table io.mc.rid = rd.flag := by
  obtain ⟨rd, hread, hnone, hdata⟩ := hl.response hvalid
  refine ⟨{ rd with presented := some s.now }, ⟨?_, ⟨s.now, rfl, rfl⟩, hdata, ?_⟩, ?_⟩
  · rw [reads_stays hl hread (pipe.stg3_ne hread (by simp [hnone]))]
    unfold readsN.presents
    simp only [hvalid, beq_self_eq_true, Bool.and_self, if_true]
    rw [hread]
    rfl
  · exact hok.raw hvalid rd hread
  · exact pipe.table_some _ rd hread (unseen_of_none hnone)

/-- A core that is in the middle of an operation posts nothing and reads nothing. -/
theorem Pipe.posts_ne (pipe : Pipe P s) (h : s.reads id = some rd) (hop : rd.op = some op) :
    s.regs.posts ≠ some op.core := by
  intro hposts
  have hphase := pipe.posts _ hposts
  rw [(pipe.op _ _ _ h hop).1] at hphase
  cases hphase

theorem Pipe.match_ne (pipe : Pipe P s) (hl : Legal cfg s io) (h : s.reads id = some rd)
    (hop : rd.op = some op) (hmatch : s.regs.c0ArMatch cfg io) : io.c0CoreId ≠ op.core := by
  intro heq
  have hposted := hl.special_read hmatch
  rw [heq, (pipe.op _ _ _ h hop).1] at hposted
  cases hposted

/-- The entry of a core whose special read is accepted now holds what the core posted. -/
theorem Pipe.entry_new (pipe : Pipe P s) (hok : Orderly P cfg s io)
    (hop : s.newOp cfg io = some op) :
    s.regs.posts ≠ some op.core ∧ (s.regs.structArr op.core).toRequest = op.toRequest := by
  obtain ⟨hmatch, hcore, -, hphase⟩ := newOp_eq_some hop
  have hposts : s.regs.posts ≠ some op.core := by
    intro hposts
    have hheels := hok.apart
    simp [Regs.sameCoreReqBothCh, hmatch, hposts, hcore] at hheels
  exact ⟨hposts, pipe.posted _ _ hphase hposts⟩

/-! ### One cycle keeps the pipeline in order -/

theorem phaseN_of_old (pipe : Pipe P s) (hl : Legal cfg s io)
    (hnext : (s.step cfg io).reads id = some rd) (hread : s.reads id = some rd₀)
    (hop : rd₀.op = some op) : s.phaseN cfg io op.core = .reading := by
  have hphase := (pipe.op _ _ _ hread hop).1
  unfold phaseN
  split
  · rename_i hw
    simp only [Bool.and_eq_true, beq_iff_eq] at hw
    have hidle := hl.special_write hw.1 _ hw.2
    rw [hphase] at hidle
    cases hidle
  · split
    · rfl
    · split
      · -- the core that is answered now has no second read on its way
        rename_i hans
        exfalso
        unfold delivers at hans
        split at hans
        · rename_i hvalid
          obtain ⟨rd', n, hread', -, -⟩ := pipe.stg3 hvalid
          rw [hread'] at hans
          simp only [Option.bind_some, Option.map_eq_some_iff] at hans
          obtain ⟨op', hop', hcore⟩ := hans
          exact not_answered hnext hvalid (pipe.unique _ _ _ _ _ _ hread' hread hop' hop hcore)
        · cases hans
      · exact hphase

theorem phaseN_of_new (hop : s.newOp cfg io = some op) (hl : Legal cfg s io) :
    s.phaseN cfg io op.core = .reading := by
  obtain ⟨hmatch, hcore, -, hphase⟩ := newOp_eq_some hop
  unfold phaseN
  split
  · rename_i hw
    simp only [Bool.and_eq_true, beq_iff_eq] at hw
    have hidle := hl.special_write hw.1 _ hw.2
    rw [hphase] at hidle
    cases hidle
  · rw [if_pos (by simp [hmatch, hcore])]

theorem phaseN_posted {c : Core} {request : Request} (h : s.phaseN cfg io c = .posted request)
    (hposts : ¬ (s.regs.c0AwMatchN cfg io = true ∧ io.host.wdata.coreId = some c)) :
    s.phase c = .posted request := by
  unfold phaseN at h
  rw [if_neg (by simpa using hposts)] at h
  split at h
  · cases h
  · split at h
    · cases h
    · exact h

theorem posts_step {c : Core} : (s.regs.step cfg io).posts = some c ↔
    s.regs.c0AwMatchN cfg io = true ∧ io.host.wdata.coreId = some c := by
  unfold Regs.posts Regs.step
  simp

/-- The read table after a cycle: marked, taken back, or as it was. -/
theorem tableN_of_ne (hmark : ∀ c, s.regs.converts cfg io = some c → id ≠ io.host.arid)
    (hhit : s.regs.tableHit.isSome → id ≠ s.regs.stg1.rid) :
    s.regs.tableN cfg io id = s.regs.table id := by
  unfold Regs.tableN
  cases hconv : s.regs.converts cfg io with
  | none =>
    dsimp only
    split
    · rw [update_of_ne (hhit ‹_›)]
    · rfl
  | some c =>
    dsimp only
    split
    · rw [update_of_ne (hhit ‹_›), update_of_ne (hmark c hconv)]
    · rw [update_of_ne (hmark c hconv)]

/-- A mark goes to the id of the read that is accepted with it. -/
theorem accepts_of_converts {c : Core} (h : s.regs.converts cfg io = some c) :
    ∃ rd, s.accepts cfg io = some (io.host.arid, rd) :=
  accepts_of_match (Regs.converts_eq_some h).1

theorem reads_of_accepts (pipe : Pipe P s) (hl : Legal cfg s io)
    (h : s.accepts cfg io = some (id, rd)) : (s.step cfg io).reads id = some rd := by
  show s.readsN cfg io id = some rd
  have hnot : ¬ (s.regs.stg3.rvalid && id == s.regs.stg3.rid) = true := by
    intro hd
    simp only [Bool.and_eq_true, beq_iff_eq] at hd
    obtain ⟨rd', n, hread, -⟩ := pipe.stg3 hd.1
    rw [← hd.2, hl.arid _ h] at hread
    cases hread
  unfold readsN
  rw [if_neg hnot, h]
  simp

/-- The stage before the compare recognises the read that was presented two cycles ago. -/
theorem Pipe.tableHit_eq (pipe : Pipe P s) {n : ℕ} (h : s.reads id = some rd)
    (hn : rd.presented = some n) (hnow : n + 2 = s.now) :
    s.regs.stg1.rid = id ∧ s.regs.tableHit = rd.flag := by
  obtain ⟨hvalid, hid⟩ := pipe.at1 _ _ _ h hn hnow
  obtain ⟨rd', hcarries, hflag⟩ := pipe.stg1 hvalid
  have hread := hcarries.read
  rw [hid, h] at hread
  cases hread
  exact ⟨hid, by simp [Regs.tableHit, hvalid, hflag]⟩

theorem Pipe.hit_ne (pipe : Pipe P s) (h : s.reads id = some rd)
    (hlate : ∀ n, rd.presented = some n → s.now < n + 2) :
    s.regs.tableHit.isSome → id ≠ s.regs.stg1.rid := by
  intro hhit heq
  have hvalid : s.regs.stg1.rvalid = true := by
    by_contra hno
    simp [Regs.tableHit, hno] at hhit
  obtain ⟨rd', hcarries, -⟩ := pipe.stg1 hvalid
  have hread := hcarries.read
  rw [← heq, h] at hread
  cases hread
  obtain ⟨n, hn, hnow⟩ := hcarries.presented
  have := hlate n hn
  omega

theorem Pipe.mark_ne (hl : Legal cfg s io) (h : s.reads id = some rd) :
    ∀ c, s.regs.converts cfg io = some c → id ≠ io.host.arid := by
  intro c hconv heq
  obtain ⟨rd', hacc⟩ := accepts_of_converts hconv
  have hnone := hl.arid _ hacc
  rw [← heq, h] at hnone
  cases hnone

theorem Pipe.table_some_step (pipe : Pipe P s) (hl : Legal cfg s io)
    (h : (s.step cfg io).reads id = some rd) (hunseen : (s.step cfg io).Unseen rd) :
    s.regs.tableN cfg io id = rd.flag := by
  cases moves_of_reads hl h with
  | accepted _ hacc hnew =>
    obtain ⟨-, hid, -, hflag, -⟩ := accepts_eq_some hacc
    have hclear : s.regs.tableHit.isSome → id ≠ s.regs.stg1.rid := by
      intro hhit heq
      have hvalid : s.regs.stg1.rvalid = true := by
        by_contra hno
        simp [Regs.tableHit, hno] at hhit
      obtain ⟨rd', hcarries, -⟩ := pipe.stg1 hvalid
      have hread := hcarries.read
      rw [← heq, hnew] at hread
      cases hread
    cases hconv : s.regs.converts cfg io with
    | none =>
      rw [tableN_of_ne (by simp [hconv]) hclear, hflag, hconv]
      exact pipe.table_none _ (by simp [hnew])
    | some c =>
      rw [hflag, hconv]
      unfold Regs.tableN
      simp only [hconv]
      split
      · rw [update_of_ne (hclear ‹_›), hid, update_self]
      · rw [hid, update_self]
  | presented rd₀ hread hnone =>
    rw [tableN_of_ne (Pipe.mark_ne hl hread) (pipe.hit_ne hread (by simp [hnone]))]
    exact pipe.table_some _ rd₀ hread (unseen_of_none hnone)
  | stays _ hread =>
    rw [tableN_of_ne (Pipe.mark_ne hl hread) (pipe.hit_ne hread ?_)]
    · exact pipe.table_some _ _ hread (unseen_of_step hunseen)
    · intro n hn
      have hseen : s.now + 1 ≤ n + 2 := hunseen n hn
      omega

theorem Pipe.table_none_step (pipe : Pipe P s) (hl : Legal cfg s io)
    (h : ∀ rd, (s.step cfg io).reads id = some rd → ¬ (s.step cfg io).Unseen rd) :
    s.regs.tableN cfg io id = none := by
  by_cases hcleared : s.regs.tableHit.isSome = true ∧ id = s.regs.stg1.rid
  · unfold Regs.tableN
    rw [if_pos hcleared.1, hcleared.2, update_self]
  have hmark : ∀ c, s.regs.converts cfg io = some c → id ≠ io.host.arid := by
    intro c hconv heq
    obtain ⟨rd, hacc⟩ := accepts_of_converts hconv
    rw [← heq] at hacc
    exact h rd (reads_of_accepts pipe hl hacc)
      (unseen_of_none (accepts_eq_some hacc).2.2.2.2.1)
  rw [tableN_of_ne hmark (fun hhit heq => hcleared ⟨hhit, heq⟩)]
  -- a mark that is still there belongs to a read whose response was not recognised yet
  by_contra hsome
  obtain ⟨rd, hread, hunseen⟩ : ∃ rd, s.reads id = some rd ∧ s.Unseen rd := by
    by_contra hno
    refine hsome (pipe.table_none _ fun rd hread hunseen => hno ⟨rd, hread, hunseen⟩)
  have hflag := pipe.table_some _ _ hread hunseen
  have hnext := reads_stays hl hread (pipe.stg3_ne hread ?_)
  · unfold readsN.presents at hnext
    split at hnext
    · rw [hread] at hnext
      refine h _ hnext fun n hn => ?_
      cases hn
      exact Nat.le_of_lt (Nat.lt_succ_self _)
    · rw [hread] at hnext
      refine h _ hnext fun n hn => ?_
      by_contra hlate
      have hnow : n + 2 = s.now := by
        have := hunseen n hn
        have hlate : ¬ s.now + 1 ≤ n + 2 := hlate
        omega
      obtain ⟨hid, hhit⟩ := pipe.tableHit_eq hread hn hnow
      refine hcleared ⟨?_, hid.symm⟩
      rw [hhit, ← hflag]
      exact Option.isSome_iff_ne_none.mpr hsome
  · intro n hn
    have := hunseen n hn
    omega

theorem Pipe.compared (pipe : Pipe P s) (hl : Legal cfg s io) (hvalid : s.regs.stg1.rvalid = true) :
    ∃ rd, Carries P (s.step cfg io) 3 s.regs.stg1 rd ∧ s.regs.rspLoadDataW = rd.flag ∧
      ∀ op, rd.op = some op → rd.flag.isSome → s.regs.respStructN.toRequest = op.toRequest := by
  obtain ⟨rd, hcarries, hflag⟩ := pipe.stg1 hvalid
  refine ⟨rd, hcarries.step pipe hl (by omega), hflag, fun op hop hsome => ?_⟩
  obtain ⟨c, hc⟩ := Option.isSome_iff_exists.mp hsome
  obtain ⟨op', hop', hcore⟩ := pipe.flag _ _ _ hcarries.read hc
  cases hop.symm.trans hop'
  obtain ⟨n, hn, hnow⟩ := hcarries.presented
  have hhit : s.regs.tableHit = some op.core := by
    simp [Regs.tableHit, hvalid, hflag, hc, hcore]
  rw [Regs.respStructN_request hhit]
  refine pipe.entry _ _ _ hcarries.read hop (by rw [hc, hcore]) fun n' hn' => ?_
  cases hn.symm.trans hn'
  omega

theorem Pipe.step (pipe : Pipe P s) (hl : Legal cfg s io) (hok : Orderly P cfg s io) :
    Pipe P (s.step cfg io) where
  past := by
    intro id rd n h hn
    show n < s.now + 1
    cases moves_of_reads hl h with
    | accepted _ hacc =>
      rw [(accepts_eq_some hacc).2.2.2.2.1] at hn
      cases hn
    | presented =>
      cases hn
      omega
    | stays _ hread =>
      have := pipe.past _ _ _ hread hn
      omega
  at0 := by
    intro id rd n h hn hnow
    have hnow : n + 1 = s.now + 1 := hnow
    cases moves_of_reads hl h with
    | accepted _ hacc =>
      rw [(accepts_eq_some hacc).2.2.2.2.1] at hn
      cases hn
    | presented _ _ _ hvalid hid => exact ⟨hvalid, hid⟩
    | stays _ hread =>
      have := pipe.past _ _ _ hread hn
      omega
  at1 := by
    intro id rd n h hn hnow
    have hnow : n + 2 = s.now + 1 := hnow
    cases moves_of_reads hl h with
    | accepted _ hacc =>
      rw [(accepts_eq_some hacc).2.2.2.2.1] at hn
      cases hn
    | presented =>
      cases hn
      omega
    | stays _ hread => exact pipe.at0 _ _ _ hread hn (by omega)
  stg0 := Carries.enter pipe hl hok
  stg1 := by
    intro hvalid
    obtain ⟨rd, hcarries, hflag⟩ := pipe.stg0 hvalid
    exact ⟨rd, hcarries.step pipe hl (by omega), hflag⟩
  stg2 := pipe.compared hl
  stg3 := by
    intro hvalid
    have hrid : s.regs.stg3N.rid = s.regs.stg2.rid := by
      unfold Regs.stg3N
      split <;> rfl
    have hvalid : s.regs.stg2.rvalid = true := by
      have hvalid : s.regs.stg3N.rvalid = true := hvalid
      unfold Regs.stg3N at hvalid
      split at hvalid <;> exact hvalid
    obtain ⟨rd, hcarries, -⟩ := pipe.stg2 hvalid
    have hnext : Carries P (s.step cfg io) 4 s.regs.stg2 rd :=
      hcarries.step pipe hl (by omega)
    obtain ⟨n, hn, hnow⟩ := hnext.presented
    exact ⟨rd, n, hrid ▸ hnext.read, hn, hnow⟩
  table_some := by
    intro id rd h hunseen
    exact pipe.table_some_step hl h hunseen
  table_none := by
    intro id h
    exact pipe.table_none_step hl h
  op := by
    intro id rd op h hop
    rcases (moves_of_reads hl h).origin with ⟨hacc, -⟩ | ⟨rd₀, hread, hop₀, -⟩
    · rw [(accepts_eq_some hacc).2.2.1] at hop
      refine ⟨phaseN_of_new hop hl, ?_⟩
      rw [(newOp_eq_some hop).2.2.1]
      exact Nat.lt_succ_self _
    · rw [← hop₀] at hop
      exact ⟨phaseN_of_old pipe hl h hread hop,
        Nat.lt_succ_of_lt (pipe.op _ _ _ hread hop).2⟩
  unique := by
    intro id id' rd rd' op op' h h' hop hop' hcore
    rcases (moves_of_reads hl h).origin with ⟨hacc, -⟩ | ⟨rd₀, hread, hop₀, -⟩
    · rcases (moves_of_reads hl h').origin with ⟨hacc', -⟩ | ⟨rd₀', hread', hop₀', -⟩
      · cases hacc.symm.trans hacc'
        rfl
      · rw [(accepts_eq_some hacc).2.2.1] at hop
        obtain ⟨hmatch, hnew, -⟩ := newOp_eq_some hop
        exact absurd (hnew.symm.trans hcore)
          (pipe.match_ne hl hread' (hop₀'.trans hop') hmatch)
    · rcases (moves_of_reads hl h').origin with ⟨hacc', -⟩ | ⟨rd₀', hread', hop₀', -⟩
      · rw [(accepts_eq_some hacc').2.2.1] at hop'
        obtain ⟨hmatch, hnew, -⟩ := newOp_eq_some hop'
        exact absurd (hnew.symm.trans hcore.symm)
          (pipe.match_ne hl hread (hop₀.trans hop) hmatch)
      · exact pipe.unique _ _ _ _ _ _ hread hread' (hop₀.trans hop) (hop₀'.trans hop') hcore
  flag := by
    intro id rd c h hflag
    rcases (moves_of_reads hl h).origin with ⟨hacc, -⟩ | ⟨rd₀, hread, hop₀, hflag₀, -⟩
    · obtain ⟨-, -, hop, hflag', -⟩ := accepts_eq_some hacc
      obtain ⟨hmatch, hc, -⟩ := Regs.converts_eq_some (hflag'.symm.trans hflag)
      have hposted := hl.special_read hmatch
      rw [hop, hc]
      unfold newOp
      rw [if_pos hmatch]
      cases hphase : s.phase io.c0CoreId with
      | posted request => exact ⟨_, rfl, rfl⟩
      | idle => rw [hphase] at hposted; cases hposted
      | reading => rw [hphase] at hposted; cases hposted
    · rw [← hop₀]
      exact pipe.flag _ _ _ hread (hflag₀.trans hflag)
  posts := by
    intro c hposts
    obtain ⟨hmatch, hcore⟩ := posts_step.mp hposts
    show s.phaseN cfg io c = _
    unfold phaseN
    rw [if_pos (by simp [hmatch, hcore])]
    rfl
  posted := by
    intro c request hphase hposts
    have hphase := phaseN_posted hphase fun h => hposts (posts_step.mpr h)
    show (s.regs.structArrN cfg io c).toRequest = request
    rw [Regs.structArrN_request]
    split
    · rename_i hc
      rw [pipe.posts _ hc] at hphase
      cases hphase
      rfl
    · exact pipe.posted _ _ hphase ‹_›
  entry := by
    intro id rd op h hop hflag hunseen
    show (s.regs.structArrN cfg io op.core).toRequest = op.toRequest
    rw [Regs.structArrN_request]
    cases moves_of_reads hl h with
    | accepted _ hacc =>
      rw [(accepts_eq_some hacc).2.2.1] at hop
      obtain ⟨hposts, hentry⟩ := pipe.entry_new hok hop
      rw [if_neg hposts, hentry]
    | presented rd₀ hread hnone =>
      rw [if_neg (pipe.posts_ne hread hop)]
      exact pipe.entry _ _ _ hread hop hflag (unseen_of_none hnone)
    | stays _ hread =>
      rw [if_neg (pipe.posts_ne hread hop)]
      exact pipe.entry _ _ _ hread hop hflag (unseen_of_step hunseen)

end Sys

end Cxlalloc.Mcas
