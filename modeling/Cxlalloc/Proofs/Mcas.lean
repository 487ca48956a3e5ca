/-
Winners of the compare-and-swap unit: none is lost, and none overlaps another.

`Exclusive` says that an operation that can still match was accepted after the write of
every earlier match on its target had gone out.  `Written` says that it also read what is
in memory, so that the matches on one target form a chain.

What carries both is `Alive`: a converted read whose entry no match has cleared yet.  A
match clears the entry wherever the competitor is (posted, on its way, in either of the
first stages), and while its write is pending no read is accepted.
-/
import Cxlalloc.Lib.Script
import Cxlalloc.Proofs.McasPipe
import Mathlib.Data.List.Chain
import Mathlib.Logic.Relation

namespace Cxlalloc.Mcas

open Function
open Relation

variable {cfg : Match} {s : Sys} {io : Wires} {P : Word → Prop}

namespace Sys

variable {id : Id} {rd : Read} {op : Op}

/-! ### A read that can still match -/

/-- A converted read whose entry no match has cleared: before the compare stage the entry
counts, in it the copy taken of the entry. -/
structure Alive (s : Sys) (rd : Read) (op : Op) : Prop where
  begun : rd.op = some op
  flag : rd.flag = some op.core
  status : (s.Unseen rd ∧ (s.regs.structArr op.core).status = .readIssued) ∨
    ∃ n, rd.presented = some n ∧ n + 3 = s.now ∧ s.regs.respStruct.status = .readIssued

/-- A read that can still match after a cycle could match before it or has just been
converted, and no match of the cycle was on its target. -/
theorem Alive.of_step (pipe : Pipe P s) (hl : Legal cfg s io) (hok : Orderly P cfg s io)
    (h : (s.step cfg io).reads id = some rd) (halive : (s.step cfg io).Alive rd op) :
    (s.regs.startRequest → s.regs.respStruct.targetPa ≠ op.targetPa) ∧
      ((s.accepts cfg io = some (id, rd) ∧ s.newOp cfg io = some op ∧
          s.regs.converts cfg io = some op.core) ∨
        ∃ rd₀, s.reads id = some rd₀ ∧ rd₀.data = rd.data ∧ s.Alive rd₀ op) := by
  have hop := halive.begun
  have hflag := halive.flag
  -- an entry that still waits, of a core that was reading before
  have hwaits : ∀ rd₀, s.reads id = some rd₀ → rd₀.op = some op → rd₀.flag = some op.core →
      s.Unseen rd₀ → (s.regs.structArrN cfg io op.core).status = .readIssued →
      (s.regs.startRequest → s.regs.respStruct.targetPa ≠ op.targetPa) ∧
        (s.regs.structArr op.core).status = .readIssued := by
    intro rd₀ hread hop₀ hflag₀ hunseen hstatus
    obtain ⟨hbully, hold⟩ := Regs.structArrN_readIssued hstatus
    have hentry := pipe.entry _ _ _ hread hop₀ hflag₀ hunseen
    refine ⟨fun hstart heq => hbully hstart ?_, ?_⟩
    · rw [hentry, heq]
    · rcases hold with hconv | hold
      · obtain ⟨hmatch, hcore, -⟩ := Regs.converts_eq_some hconv
        exact absurd hcore.symm (pipe.match_ne hl hread hop₀ hmatch)
      · exact hold
  cases moves_of_reads hl h with
  | accepted _ hacc =>
    obtain ⟨-, -, hnew, hconv, hnone, -⟩ := accepts_eq_some hacc
    rw [hnew] at hop
    rw [hconv] at hflag
    have hstatus : (s.regs.structArrN cfg io op.core).status = .readIssued := by
      rcases halive.status with hwait | ⟨n, hn, -⟩
      · exact hwait.2
      · rw [hnone] at hn
        cases hn
    refine ⟨fun hstart heq => (Regs.structArrN_readIssued hstatus).1 hstart ?_,
      .inl ⟨hacc, hop, hflag⟩⟩
    rw [(pipe.entry_new hok hop).2, heq]
  | presented rd₀ hread hnone =>
    rcases halive.status with hwait | ⟨n, hn, hnow, -⟩
    · obtain ⟨hbully, hstatus⟩ := hwaits rd₀ hread hop hflag (unseen_of_none hnone) hwait.2
      exact ⟨hbully, .inr ⟨rd₀, hread, rfl, hop, hflag,
        .inl ⟨unseen_of_none hnone, hstatus⟩⟩⟩
    · cases hn
      have hnow : s.now + 3 = s.now + 1 := hnow
      omega
  | stays _ hread =>
    rcases halive.status with hwait | ⟨n, hn, hnow, hstatus⟩
    · have hunseen := unseen_of_step hwait.1
      obtain ⟨hbully, hstatus⟩ := hwaits rd hread hop hflag hunseen hwait.2
      exact ⟨hbully, .inr ⟨rd, hread, rfl, hop, hflag, .inl ⟨hunseen, hstatus⟩⟩⟩
    · -- the copy is taken in this cycle
      have hnow : n + 2 = s.now := Nat.succ.inj hnow
      obtain ⟨-, hhit⟩ := pipe.tableHit_eq hread hn hnow
      obtain ⟨c, hc, hold, hbully⟩ := Regs.respStructN_readIssued hstatus
      rw [hhit, hflag] at hc
      cases hc
      have hunseen : s.Unseen rd := by
        intro n' hn'
        cases hn.symm.trans hn'
        omega
      refine ⟨fun hstart heq => hbully hstart ?_,
        .inr ⟨rd, hread, rfl, hop, hflag, .inl ⟨hunseen, hold⟩⟩⟩
      rw [pipe.entry _ _ _ hread hop hflag hunseen, heq]

/-- The operation that matches was alive, and asked for what the stage compares. -/
theorem Pipe.winner (pipe : Pipe P s) (hstart : s.regs.startRequest) :
    ∃ rd op, s.reads s.regs.stg2.rid = some rd ∧ s.Alive rd op ∧
      s.newWin = [{ op := op, cycle := s.now }] ∧
      s.regs.respStruct.toRequest = op.toRequest ∧ rd.data = op.compareValue := by
  obtain ⟨hvalid, hsome, hstatus, hdata⟩ := Regs.startRequest_eq_true hstart
  obtain ⟨rd, hcarries, hflag, hrequest⟩ := pipe.stg2 hvalid
  rw [hflag] at hsome
  obtain ⟨c, hc⟩ := Option.isSome_iff_exists.mp hsome
  obtain ⟨op, hop, rfl⟩ := pipe.flag _ _ _ hcarries.read hc
  have hasked := hrequest op hop hsome
  obtain ⟨n, hn, hnow⟩ := hcarries.presented
  refine ⟨rd, op, hcarries.read, ⟨hop, hc, .inr ⟨n, hn, hnow, hstatus⟩⟩, ?_, hasked, ?_⟩
  · simp [newWin, hstart, hcarries.read, hop]
  · rw [← hcarries.data hsome, hdata, hasked]

theorem newWin_of_not (h : ¬ s.regs.startRequest = true) : s.newWin = [] := by
  unfold newWin
  rw [if_neg h]

/-! ### No two winners overlap -/

/-- `new` matched after `old`; if on the same target, its read was accepted after the write
of `old` had gone out. -/
def After (s : Sys) (new old : Win) : Prop :=
  old.cycle < new.cycle ∧ (old.op.targetPa = new.op.targetPa →
    ∃ i < new.op.accepted, s.issued old.cycle = some i)

/-- The write of a match went out before any read was accepted that can still match on the
same target. -/
structure Exclusive (s : Sys) : Prop where
  /-- The pending register holds what the latest match asked for. -/
  pending : s.regs.pendingInsert = true → ∃ w ws, s.wins = w :: ws ∧
    s.issued w.cycle = none ∧ s.regs.wrData = (w.op.targetPa, w.op.swapValue) ∧
    ∀ w ∈ ws, ∃ i < s.now, s.issued w.cycle = some i
  settled : s.regs.pendingInsert = false →
    ∀ w ∈ s.wins, ∃ i < s.now, s.issued w.cycle = some i
  fresh : ∀ n, s.now ≤ n → s.issued n = none
  cycles : ∀ w ∈ s.wins, w.cycle < s.now
  later : ∀ id rd op, s.reads id = some rd → s.Alive rd op → ∀ w ∈ s.wins,
    w.op.targetPa = op.targetPa → ∃ i < op.accepted, s.issued w.cycle = some i
  ordered : s.wins.Pairwise s.After

theorem Exclusive.init (mem : LineAddr → Word) : Exclusive (init mem) := by
  refine ⟨?_, ?_, ?_, ?_, ?_, ?_⟩ <;> simp [Sys.init, Regs.reset]

theorem step_issued (n : ℕ) : (s.step cfg io).issued n =
    if s.regs.issueWrite io && s.wins.head?.map Win.cycle == some n then some s.now
    else s.issued n := rfl

/-- What went out stays out. -/
theorem Exclusive.issued_mono (ex : s.Exclusive) {n i : ℕ} (h : s.issued n = some i) :
    (s.step cfg io).issued n = some i := by
  rw [step_issued]
  split
  · -- what goes out now was still waiting
    rename_i hissue
    simp only [Regs.issueWrite, Bool.and_eq_true, beq_iff_eq] at hissue
    obtain ⟨w, ws, hwins, hnone, -⟩ := ex.pending hissue.1.1
    rw [hwins] at hissue
    cases hissue.2
    rw [hnone] at h
    cases h
  · exact h

theorem Exclusive.issued_now (ex : s.Exclusive) (hissue : s.regs.issueWrite io = true) :
    ∀ w ∈ s.wins, ∃ i < s.now + 1, (s.step cfg io).issued w.cycle = some i := by
  have hpending : s.regs.pendingInsert = true := by
    simp only [Regs.issueWrite, Bool.and_eq_true] at hissue
    exact hissue.1
  obtain ⟨w, ws, hwins, -, -, hold⟩ := ex.pending hpending
  intro w' hw'
  rw [hwins] at hw'
  rcases List.mem_cons.mp hw' with rfl | hw'
  · refine ⟨s.now, Nat.lt_succ_self _, ?_⟩
    rw [step_issued, hwins]
    simp [hissue]
  · obtain ⟨i, hi, hissued⟩ := hold w' hw'
    exact ⟨i, by omega, ex.issued_mono hissued⟩

theorem Exclusive.issued_kept (ex : s.Exclusive) {ws : List Win}
    (h : ∀ w ∈ ws, ∃ i < s.now, s.issued w.cycle = some i) :
    ∀ w ∈ ws, ∃ i < s.now + 1, (s.step cfg io).issued w.cycle = some i := by
  intro w hw
  obtain ⟨i, hi, hissued⟩ := h w hw
  exact ⟨i, Nat.lt_succ_of_lt hi, ex.issued_mono hissued⟩

/-- With room for the write of a match, everything before it has gone out. -/
theorem Exclusive.settled_of_room (ex : s.Exclusive)
    (hroom : s.regs.pendingInsert = true → io.mc.wready = true) :
    ∀ w ∈ s.wins, ∃ i < s.now + 1, (s.step cfg io).issued w.cycle = some i := by
  by_cases hpending : s.regs.pendingInsert = true
  · exact ex.issued_now (by simp [Regs.issueWrite, hpending, hroom hpending])
  · exact ex.issued_kept (ex.settled (by simpa using hpending))

theorem step_wins : (s.step cfg io).wins = s.newWin ++ s.wins := rfl

theorem step_pending : (s.step cfg io).regs.pendingInsert =
    if s.regs.startRequest then true
    else if s.regs.issueWrite io then false else s.regs.pendingInsert := rfl

theorem step_wrData : (s.step cfg io).regs.wrData =
    if s.regs.startRequest then (s.regs.respStruct.targetPa, s.regs.respStruct.swapValue)
    else s.regs.wrData := rfl

theorem Exclusive.fresh_step (ex : s.Exclusive) {n : ℕ} (hn : s.now ≤ n) :
    (s.step cfg io).issued n = none := by
  rw [step_issued]
  split
  · rename_i hissue
    simp only [Regs.issueWrite, Bool.and_eq_true, beq_iff_eq] at hissue
    obtain ⟨w, ws, hwins, -⟩ := ex.pending hissue.1.1
    rw [hwins] at hissue
    cases hissue.2
    have := ex.cycles w (by simp [hwins])
    omega
  · exact ex.fresh n hn

theorem Exclusive.later_step (ex : s.Exclusive) (pipe : Pipe P s) (hl : Legal cfg s io)
    (hok : Orderly P cfg s io) (h : (s.step cfg io).reads id = some rd)
    (halive : (s.step cfg io).Alive rd op) {w : Win} (hw : w ∈ s.newWin ++ s.wins)
    (htarget : w.op.targetPa = op.targetPa) :
    ∃ i < op.accepted, (s.step cfg io).issued w.cycle = some i := by
  obtain ⟨hbully, hold⟩ := halive.of_step pipe hl hok h
  rcases List.mem_append.mp hw with hnew | hw
  · -- a match of this cycle would have cleared the entry
    by_cases hstart : s.regs.startRequest = true
    · obtain ⟨_, op', -, -, hwin, hasked, -⟩ := pipe.winner hstart
      rw [hwin, List.mem_singleton] at hnew
      subst hnew
      rw [hasked] at hbully
      exact absurd htarget (hbully hstart)
    · rw [newWin_of_not hstart] at hnew
      cases hnew
  · rcases hold with ⟨hacc, hop, -⟩ | ⟨rd₀, hread, -, halive₀⟩
    · -- reads are accepted only while nothing is pending
      obtain ⟨i, hi, hissued⟩ := ex.settled (accepts_eq_some hacc).1 w hw
      rw [(newOp_eq_some hop).2.2.1]
      exact ⟨i, hi, ex.issued_mono hissued⟩
    · obtain ⟨i, hi, hissued⟩ := ex.later _ _ _ hread halive₀ w hw htarget
      exact ⟨i, hi, ex.issued_mono hissued⟩

theorem Exclusive.step (ex : s.Exclusive) (pipe : Pipe P s) (hl : Legal cfg s io)
    (hok : Orderly P cfg s io) : (s.step cfg io).Exclusive where
  pending := by
    intro hpending
    rw [step_pending] at hpending
    by_cases hstart : s.regs.startRequest = true
    · obtain ⟨rd, op, -, -, hwin, hasked, -⟩ := pipe.winner hstart
      refine ⟨{ op := op, cycle := s.now }, s.wins, by rw [step_wins, hwin]; rfl,
        ex.fresh_step le_rfl, ?_, ex.settled_of_room (hok.room hstart)⟩
      rw [step_wrData, if_pos hstart, hasked]
    · rw [if_neg hstart] at hpending
      by_cases hissue : s.regs.issueWrite io = true
      · rw [if_pos hissue] at hpending
        cases hpending
      · rw [if_neg hissue] at hpending
        obtain ⟨w, ws, hwins, hnone, hdata, hold⟩ := ex.pending hpending
        refine ⟨w, ws, by rw [step_wins, newWin_of_not hstart, hwins]; rfl, ?_, ?_,
          ex.issued_kept hold⟩
        · rw [step_issued, if_neg (by simp [hissue]), hnone]
        · rw [step_wrData, if_neg hstart, hdata]
  settled := by
    intro hpending
    rw [step_pending] at hpending
    by_cases hstart : s.regs.startRequest = true
    · rw [if_pos hstart] at hpending
      cases hpending
    · rw [if_neg hstart] at hpending
      rw [step_wins, newWin_of_not hstart]
      by_cases hissue : s.regs.issueWrite io = true
      · exact ex.issued_now hissue
      · rw [if_neg hissue] at hpending
        exact ex.issued_kept (ex.settled hpending)
  fresh := by
    intro n hn
    exact ex.fresh_step (Nat.le_of_succ_le hn)
  cycles := by
    intro w hw
    show w.cycle < s.now + 1
    rw [step_wins] at hw
    rcases List.mem_append.mp hw with hnew | hw
    · unfold newWin at hnew
      split at hnew
      · obtain ⟨op, -, rfl⟩ := List.mem_map.mp hnew
        exact Nat.lt_succ_self _
      · cases hnew
    · exact Nat.lt_succ_of_lt (ex.cycles w hw)
  later := by
    intro id rd op h halive w hw htarget
    exact ex.later_step pipe hl hok h halive hw htarget
  ordered := by
    have hold : s.wins.Pairwise (s.step cfg io).After := by
      refine ex.ordered.imp fun h => ⟨h.1, fun htarget => ?_⟩
      obtain ⟨i, hi, hissued⟩ := h.2 htarget
      exact ⟨i, hi, ex.issued_mono hissued⟩
    rw [step_wins]
    by_cases hstart : s.regs.startRequest = true
    · obtain ⟨rd, op, hread, halive, hwin, -⟩ := pipe.winner hstart
      rw [hwin]
      refine List.pairwise_cons.mpr ⟨fun w hw => ⟨ex.cycles w hw, fun htarget => ?_⟩, hold⟩
      obtain ⟨i, hi, hissued⟩ := ex.later _ _ _ hread halive w hw htarget
      exact ⟨i, hi, ex.issued_mono hissued⟩
    · rw [newWin_of_not hstart]
      exact hold

/-- Of two matches on one target, the earlier one's write went out before the later one's
read was accepted. -/
theorem Exclusive.issued_before (ex : s.Exclusive) {new old : Win} (hnew : new ∈ s.wins)
    (hold : old ∈ s.wins) (hcycle : old.cycle < new.cycle)
    (htarget : old.op.targetPa = new.op.targetPa) :
    ∃ i < new.op.accepted, s.issued old.cycle = some i := by
  have hne : new ≠ old := by
    intro heq
    rw [heq] at hcycle
    exact Nat.lt_irrefl _ hcycle
  have heither : s.wins.Pairwise fun x y => s.After x y ∨ s.After y x :=
    ex.ordered.imp .inl
  have : Std.Symm fun x y => s.After x y ∨ s.After y x := ⟨fun _ _ => Or.symm⟩
  rcases heither.forall hnew hold hne with h | h
  · exact h.2 htarget
  · exact absurd h.1 (Nat.lt_asymm hcycle)

/-! ### Answers tell the matches -/

/-- The answers so far, with the one on the wires now: those of success are the matches, in
order, and no other answer says success. -/
structure Answered (P : Word → Prop) (s : Sys) : Prop where
  reported : ((s.newAnswer ++ s.answers).filter (·.success = 1)).map Response.win = s.wins
  binary : ∀ a ∈ s.newAnswer ++ s.answers, a.success = 1 ∨ a.success = 0 ∨ P a.success

theorem Answered.init (mem : LineAddr → Word) : Answered P (init mem) := by
  constructor <;> simp [Sys.init, Regs.reset, newAnswer, delivers, ReadBeat.idle]

theorem Pipe.newAnswer_step (pipe : Pipe P s) (hl : Legal cfg s io)
    (hvalid : s.regs.stg2.rvalid = true) (hread : s.reads s.regs.stg2.rid = some rd) :
    (s.step cfg io).newAnswer = rd.op.toList.map fun op =>
      { op := op, compared := s.now, success := s.regs.stg3N.rdata 1 } := by
  have hstage : s.regs.stg3N.rvalid = true ∧ s.regs.stg3N.rid = s.regs.stg2.rid := by
    unfold Regs.stg3N
    split <;> exact ⟨hvalid, rfl⟩
  obtain ⟨rd', hcarries, -⟩ := pipe.stg2 hvalid
  have hnext : (s.step cfg io).reads s.regs.stg2.rid = some rd' :=
    (hcarries.step pipe hl (by omega)).read
  cases hread.symm.trans hcarries.read
  have hdelivers : (s.step cfg io).delivers = some rd := by
    show (if s.regs.stg3N.rvalid then (s.step cfg io).reads s.regs.stg3N.rid else none) = _
    rw [if_pos hstage.1, hstage.2, hnext]
  unfold newAnswer
  rw [hdelivers]
  rfl

/-- The answer that leaves the compare stage. -/
theorem Pipe.answer (pipe : Pipe P s) (hl : Legal cfg s io) (hP : ¬ P 1) :
    (((s.step cfg io).newAnswer).filter (·.success = 1)).map Response.win = s.newWin ∧
      ∀ a ∈ (s.step cfg io).newAnswer, a.success = 1 ∨ a.success = 0 ∨ P a.success := by
  by_cases hvalid : s.regs.stg2.rvalid = true
  · obtain ⟨rd, hcarries, hflag, -⟩ := pipe.stg2 hvalid
    rw [pipe.newAnswer_step hl hvalid hcarries.read]
    have hword := Regs.stg3N_word hvalid
    rw [hflag] at hword
    cases hf : rd.flag with
    | none =>
      have hno : ¬ s.regs.startRequest = true := by
        intro hstart
        have hsome := (Regs.startRequest_eq_true hstart).2.1
        simp [hflag, hf] at hsome
      rw [newWin_of_not hno]
      cases hop : rd.op with
      | none => simp
      | some op =>
        have hraw := hcarries.raw (by simp [hop]) hf
        simp only [hf, Option.isSome_none, Bool.false_eq_true, if_false] at hword
        have hne : s.regs.stg2.rdata 1 ≠ 1 := by
          intro heq
          rw [heq] at hraw
          exact hP hraw
        simpa [hword, hraw] using hne
    | some c =>
      obtain ⟨op, hop, -⟩ := pipe.flag _ _ _ hcarries.read hf
      simp only [hf, Option.isSome_some, if_true] at hword
      by_cases hstart : s.regs.startRequest = true
      · simp [newWin, hstart, hcarries.read, hop, hword, Response.win]
      · simp [newWin_of_not hstart, hstart, hop, hword]
  · have hnone : (s.step cfg io).newAnswer = [] := by
      have hstage : s.regs.stg3N.rvalid = false := by
        unfold Regs.stg3N
        split <;> simpa using hvalid
      have hdelivers : (s.step cfg io).delivers = none := by
        show (if s.regs.stg3N.rvalid then (s.step cfg io).reads s.regs.stg3N.rid else none) = _
        simp [hstage]
      simp [newAnswer, hdelivers]
    have hno : ¬ s.regs.startRequest = true := fun hstart =>
      hvalid (Regs.startRequest_eq_true hstart).1
    simp [hnone, newWin_of_not hno]

theorem Answered.step (ans : Answered P s) (pipe : Pipe P s) (hl : Legal cfg s io)
    (hP : ¬ P 1) : Answered P (s.step cfg io) := by
  have hanswers : (s.step cfg io).answers = s.newAnswer ++ s.answers := rfl
  obtain ⟨hreported, hbinary⟩ := pipe.answer hl hP
  constructor
  · rw [hanswers, List.filter_append, List.map_append, hreported, ans.reported, step_wins]
  · intro a ha
    rw [hanswers] at ha
    rcases List.mem_append.mp ha with ha | ha
    · exact hbinary a ha
    · exact ans.binary a ha

/-! ### What was matched was written -/

/-- A target is the address of a line: nothing above bit 51, nothing below bit 6. -/
def Aligned (pa : Word) : Prop := pa.toNat < 2 ^ 52 ∧ 64 ∣ pa.toNat

instance (pa : Word) : Decidable (Aligned pa) := inferInstanceAs (Decidable (_ ∧ _))

/-- The line of a target. -/
def targetLine (pa : Word) : LineAddr := lineOf (pa.setWidth 52)

theorem Aligned.eq {x y : Word} (hx : Aligned x) (hy : Aligned y)
    (h : targetLine x = targetLine y) : x = y := by
  have h := congrArg BitVec.toNat h
  simp only [targetLine, lineOf, BitVec.extractLsb'_toNat, BitVec.toNat_setWidth,
    Nat.shiftRight_eq_div_pow] at h
  obtain ⟨hx52, a, ha⟩ := hx
  obtain ⟨hy52, b, hb⟩ := hy
  apply BitVec.eq_of_toNat_eq
  omega

/-- The write that is still pending. -/
def pendingWrites (s : Sys) : List (BitVec 52 × Word) :=
  if s.regs.pendingInsert then [(s.regs.wrData.1.setWidth 52, s.regs.wrData.2)] else []

/-- What the inputs of a cycle must meet for no match to be lost: besides `Orderly`, the
controller takes the address of the pending write in the cycle it takes the data, the host's
writes are accepted with their data (so that what a special write posts is its own data), and
the targets that are posted are addresses of lines. -/
structure Served (cfg : Match) (s : Sys) (io : Wires) : Prop
    extends Orderly (· ≠ 1) cfg s io where
  both : s.regs.issueWrite io → io.mc.awready
  beat : (s.regs.awready io && io.host.awvalid) = (s.regs.wready io && io.host.wvalid)
  aligned : s.regs.c0AwMatchN cfg io → Aligned io.host.wdata.request.targetPa

instance : Decidable (Served cfg s io) :=
  decidable_of_iff
    (Orderly (· ≠ 1) cfg s io ∧ (s.regs.issueWrite io → io.mc.awready) ∧
      (s.regs.awready io && io.host.awvalid) = (s.regs.wready io && io.host.wvalid) ∧
      (s.regs.c0AwMatchN cfg io → Aligned io.host.wdata.request.targetPa))
    ⟨fun h => ⟨h.1, h.2.1, h.2.2.1, h.2.2.2⟩,
      fun h => ⟨h.toOrderly, h.both, h.beat, h.aligned⟩⟩

/-- A read that can still match has seen what is in memory, and the matches on a target
lead from one to the next up to there. -/
structure Written (s : Sys) : Prop where
  posted : ∀ c request, s.phase c = .posted request → Aligned request.targetPa
  reading : ∀ id rd op, s.reads id = some rd → rd.op = some op → Aligned op.targetPa
  won : ∀ w ∈ s.wins, Aligned w.op.targetPa
  current : ∀ id rd op, s.reads id = some rd → s.Alive rd op →
    rd.data = s.mem (targetLine op.targetPa) ∧
      (s.regs.pendingInsert = true → s.regs.wrData.1 ≠ op.targetPa)
  accepted : s.wins.map Win.write = s.pendingWrites ++ s.writes
  last : ∀ pa w, s.wins.find? (·.op.targetPa = pa) = some w →
    (s.regs.pendingInsert = true → s.regs.wrData.1 ≠ pa) →
    s.mem (targetLine pa) = w.op.swapValue
  chain : ∀ pa, (s.wins.filter (·.op.targetPa = pa)).IsChain fun new old =>
    new.op.compareValue = old.op.swapValue

theorem Written.init (mem : LineAddr → Word) : Written (init mem) := by
  refine ⟨?_, ?_, ?_, ?_, ?_, ?_, ?_⟩ <;> simp [Sys.init, Regs.reset, pendingWrites]

theorem step_mem : (s.step cfg io).mem =
    if s.writeAccepted io then update s.mem (targetLine s.regs.wrData.1) s.regs.wrData.2
    else s.mem := by
  show (if s.writeAccepted io then
    update s.mem (lineOf (s.regs.toMc cfg io).awaddr) ((s.regs.toMc cfg io).wdata 0) else s.mem) = _
  split
  · rename_i h
    obtain ⟨haddr, hdata⟩ := Regs.toMc_issue cfg (Bool.and_eq_true_iff.mp h).1
    rw [haddr, hdata]
    rfl
  · rfl

/-- With the pending write taken, or none pending, all there was to write is written. -/
theorem writes_step (h : s.regs.pendingInsert = true → s.writeAccepted io = true) :
    (s.step cfg io).writes = s.pendingWrites ++ s.writes := by
  show (if s.writeAccepted io then
    ((s.regs.toMc cfg io).awaddr, (s.regs.toMc cfg io).wdata 0) :: s.writes else s.writes) = _
  unfold pendingWrites
  split
  · rename_i hacc
    have hissue := (Bool.and_eq_true_iff.mp hacc).1
    have hpending := (Bool.and_eq_true_iff.mp hissue).1
    obtain ⟨haddr, hdata⟩ := Regs.toMc_issue cfg hissue
    rw [haddr, hdata, if_pos hpending]
    rfl
  · rename_i hno
    rw [if_neg fun hpending => hno (h hpending)]
    rfl

/-- The pending write is that of a target that matched, so a line of its own. -/
theorem Written.pending_line (wr : s.Written) (ex : s.Exclusive)
    (hpending : s.regs.pendingInsert = true) {pa : Word} (hpa : Aligned pa)
    (hne : s.regs.wrData.1 ≠ pa) : targetLine pa ≠ targetLine s.regs.wrData.1 := by
  intro heq
  obtain ⟨w, ws, hwins, -, hdata, -⟩ := ex.pending hpending
  have haligned : Aligned s.regs.wrData.1 := by
    rw [hdata]
    exact wr.won w (by simp [hwins])
  exact hne (hpa.eq haligned heq).symm

theorem writeAccepted_pending (h : s.writeAccepted io = true) : s.regs.pendingInsert = true :=
  (Bool.and_eq_true_iff.mp (Bool.and_eq_true_iff.mp h).1).1

/-- Memory changes only under the pending write. -/
theorem Written.mem_eq (wr : s.Written) (ex : s.Exclusive) {pa : Word} (hpa : Aligned pa)
    (hne : s.regs.pendingInsert = true → s.regs.wrData.1 ≠ pa) :
    (s.step cfg io).mem (targetLine pa) = s.mem (targetLine pa) := by
  rw [step_mem]
  split
  · have hpending := writeAccepted_pending ‹_›
    rw [update_of_ne (wr.pending_line ex hpending hpa (hne hpending))]
  · rfl

theorem Written.current_step (wr : s.Written) (ex : s.Exclusive) (pipe : Pipe P s)
    (hl : Legal cfg s io) (hok : Orderly P cfg s io)
    (h : (s.step cfg io).reads id = some rd) (halive : (s.step cfg io).Alive rd op) :
    rd.data = (s.step cfg io).mem (targetLine op.targetPa) ∧
      ((s.step cfg io).regs.pendingInsert = true →
        (s.step cfg io).regs.wrData.1 ≠ op.targetPa) := by
  obtain ⟨hbully, hold⟩ := halive.of_step pipe hl hok h
  -- before the cycle: the data is what memory holds, and no write to the target is pending
  have hbefore : Aligned op.targetPa ∧ rd.data = s.mem (targetLine op.targetPa) ∧
      (s.regs.pendingInsert = true → s.regs.wrData.1 ≠ op.targetPa) := by
    rcases hold with ⟨hacc, hop, hconv⟩ | ⟨rd₀, hread, hdata, halive₀⟩
    · obtain ⟨hnone, -, -, -, -, hdata⟩ := accepts_eq_some hacc
      obtain ⟨-, hcore, -, hphase⟩ := newOp_eq_some hop
      refine ⟨wr.posted _ _ hphase, ?_, by simp [hnone]⟩
      rw [hdata]
      unfold Regs.convertedRead
      simp only [hconv]
      rw [(pipe.entry_new hok hop).2]
      rfl
    · obtain ⟨hmem, hne⟩ := wr.current _ _ _ hread halive₀
      exact ⟨wr.reading _ _ _ hread halive₀.begun, hdata ▸ hmem, hne⟩
  obtain ⟨haligned, hdata, hne⟩ := hbefore
  refine ⟨by rw [wr.mem_eq ex haligned hne, hdata], fun hpending => ?_⟩
  rw [step_wrData]
  by_cases hstart : s.regs.startRequest = true
  · rw [if_pos hstart]
    exact hbully hstart
  · rw [step_pending, if_neg hstart] at hpending
    rw [if_neg hstart]
    split at hpending
    · cases hpending
    · exact hne hpending

/-- A target whose pending write, if it has one, is taken now holds the latest swap. -/
theorem Written.last_mem (wr : s.Written) (ex : s.Exclusive) {pa : Word} {w : Win}
    (h : s.wins.find? (·.op.targetPa = pa) = some w)
    (htaken : s.regs.pendingInsert = true →
      s.regs.wrData.1 = pa → s.writeAccepted io = true) :
    (s.step cfg io).mem (targetLine pa) = w.op.swapValue := by
  have hpa : w.op.targetPa = pa := by simpa using List.find?_some h
  by_cases hmine : s.regs.pendingInsert = true ∧ s.regs.wrData.1 = pa
  · -- the latest match on the target is the one that is pending
    obtain ⟨hpending, htarget⟩ := hmine
    obtain ⟨w', ws, hwins, -, hdata, -⟩ := ex.pending hpending
    rw [step_mem, if_pos (htaken hpending htarget), htarget, update_self, hdata]
    rw [hdata] at htarget
    rw [hwins, List.find?_cons_of_pos (by simpa using htarget)] at h
    cases h
    rfl
  · have hne : s.regs.pendingInsert = true → s.regs.wrData.1 ≠ pa :=
      fun hpending heq => hmine ⟨hpending, heq⟩
    have haligned : Aligned pa := hpa ▸ wr.won w (List.mem_of_find?_eq_some h)
    rw [wr.mem_eq ex haligned hne]
    exact wr.last pa w h hne

theorem Served.taken (hok : Served cfg s io) (hissue : s.regs.issueWrite io = true) :
    s.writeAccepted io = true := by
  simp [writeAccepted, hissue, hok.both hissue]

theorem Served.taken_of_start (hok : Served cfg s io) (hstart : s.regs.startRequest = true)
    (hpending : s.regs.pendingInsert = true) : s.writeAccepted io = true :=
  hok.taken (by simp [Regs.issueWrite, hpending, hok.room hstart hpending])

theorem Written.step (wr : s.Written) (ex : s.Exclusive) (pipe : Pipe (· ≠ 1) s)
    (hl : Legal cfg s io) (hok : Served cfg s io) : (s.step cfg io).Written where
  posted := by
    intro c request hphase
    by_cases hposts : s.regs.c0AwMatchN cfg io = true ∧ io.host.wdata.coreId = some c
    · have hphase : s.phaseN cfg io c = .posted request := hphase
      unfold phaseN at hphase
      rw [if_pos (by simp [hposts.1, hposts.2])] at hphase
      cases hphase
      exact hok.aligned hposts.1
    · exact wr.posted c request (phaseN_posted hphase hposts)
  reading := by
    intro id rd op h hop
    rcases (moves_of_reads hl h).origin with ⟨hacc, -⟩ | ⟨rd₀, hread, hop₀, -⟩
    · rw [(accepts_eq_some hacc).2.2.1] at hop
      exact wr.posted _ _ (newOp_eq_some hop).2.2.2
    · exact wr.reading _ _ _ hread (hop₀.trans hop)
  won := by
    intro w hw
    rw [step_wins] at hw
    rcases List.mem_append.mp hw with hnew | hw
    · by_cases hstart : s.regs.startRequest = true
      · obtain ⟨rd, op, hread, halive, hwin, -⟩ := pipe.winner hstart
        rw [hwin, List.mem_singleton] at hnew
        subst hnew
        exact wr.reading _ _ _ hread halive.begun
      · rw [newWin_of_not hstart] at hnew
        cases hnew
    · exact wr.won w hw
  current := by
    intro id rd op h halive
    exact wr.current_step ex pipe hl hok.toOrderly h halive
  accepted := by
    rw [step_wins]
    by_cases hstart : s.regs.startRequest = true
    · obtain ⟨rd, op, -, -, hwin, hasked, -⟩ := pipe.winner hstart
      rw [writes_step (hok.taken_of_start hstart), hwin, List.map_append, wr.accepted]
      unfold pendingWrites
      rw [step_pending, step_wrData, if_pos hstart, if_pos hstart, hasked]
      rfl
    · rw [newWin_of_not hstart, List.nil_append, wr.accepted]
      by_cases hissue : s.regs.issueWrite io = true
      · rw [writes_step fun _ => hok.taken hissue]
        have hnone : (s.step cfg io).pendingWrites = [] := by
          unfold pendingWrites
          rw [step_pending, if_neg hstart, if_pos hissue]
          rfl
        rw [hnone, List.nil_append]
      · have hsame : (s.step cfg io).pendingWrites = s.pendingWrites := by
          unfold pendingWrites
          rw [step_pending, step_wrData, if_neg hstart, if_neg hissue, if_neg hstart]
        have hwrites : (s.step cfg io).writes = s.writes := by
          show (if s.writeAccepted io then _ else s.writes) = _
          rw [if_neg (by simp [writeAccepted, hissue])]
        rw [hsame, hwrites]
  last := by
    intro pa w h hne
    rw [step_pending, step_wrData] at hne
    rw [step_wins] at h
    by_cases hstart : s.regs.startRequest = true
    · obtain ⟨rd, op, -, -, hwin, hasked, -⟩ := pipe.winner hstart
      rw [if_pos hstart, if_pos hstart, hasked] at hne
      rw [hwin, List.singleton_append, List.find?_cons_of_neg (by simpa using hne rfl)] at h
      exact wr.last_mem ex h fun hpending _ => hok.taken_of_start hstart hpending
    · rw [if_neg hstart, if_neg hstart] at hne
      rw [newWin_of_not hstart, List.nil_append] at h
      by_cases hissue : s.regs.issueWrite io = true
      · exact wr.last_mem ex h fun _ _ => hok.taken hissue
      · rw [if_neg hissue] at hne
        exact wr.last_mem ex h fun hpending heq => absurd heq (hne hpending)
  chain := by
    intro pa
    rw [step_wins]
    by_cases hstart : s.regs.startRequest = true
    · obtain ⟨rd, op, hread, halive, hwin, -, hdata⟩ := pipe.winner hstart
      rw [hwin, List.singleton_append]
      by_cases hpa : op.targetPa = pa
      · rw [List.filter_cons_of_pos (by simpa using hpa)]
        refine List.isChain_cons.mpr ⟨fun w hw => ?_, wr.chain pa⟩
        rw [List.head?_filter] at hw
        obtain ⟨hmem, hne⟩ := wr.current _ _ _ hread halive
        rw [← hdata, hmem, hpa]
        exact wr.last pa w hw (hpa ▸ hne)
      · rw [List.filter_cons_of_neg (by simpa using hpa)]
        exact wr.chain pa
    · rw [newWin_of_not hstart]
      exact wr.chain pa

/-! ### Whole runs -/

theorem orderly_run {mem : LineAddr → Word} (hP : ¬ P 1)
    (hrun : ReflTransGen (StepWhere cfg (Orderly P cfg)) (init mem) s) :
    Pipe P s ∧ s.Exclusive ∧ Answered P s := by
  induction hrun with
  | refl => exact ⟨.init mem, .init mem, .init mem⟩
  | tail _ hstep ih =>
    obtain ⟨pipe, ex, ans⟩ := ih
    obtain ⟨io, hl, hok, rfl⟩ := hstep
    exact ⟨pipe.step hl hok, ex.step pipe hl hok, ans.step pipe hl hP⟩

theorem written_run {mem : LineAddr → Word}
    (hrun : ReflTransGen (StepWhere cfg (Served cfg)) (init mem) s) :
    Pipe (· ≠ 1) s ∧ s.Exclusive ∧ Answered (· ≠ 1) s ∧ s.Written := by
  induction hrun with
  | refl => exact ⟨.init mem, .init mem, .init mem, .init mem⟩
  | tail _ hstep ih =>
    obtain ⟨pipe, ex, ans, wr⟩ := ih
    obtain ⟨io, hl, hok, rfl⟩ := hstep
    exact ⟨pipe.step hl hok.toOrderly, ex.step pipe hl hok.toOrderly,
      ans.step pipe hl (by simp), wr.step ex pipe hl hok⟩

/-- No success is lost: the answers of success are the matches, in order, up to one on its
way; their writes are those accepted on both channels, in order, up to one pending; and the
matches on one target lead from each swap value to the next compare value. -/
structure NoneLost (s : Sys) : Prop where
  reported : (s.answers.filter (·.success = 1)).map Response.win <:+ s.wins
  accepted : s.wins.map Win.write = s.pendingWrites ++ s.writes
  chain : ∀ pa, (s.wins.filter (·.op.targetPa = pa)).IsChain fun new old =>
    new.op.compareValue = old.op.swapValue

theorem noneLost_of_served {mem : LineAddr → Word}
    (hrun : ReflTransGen (StepWhere cfg (Served cfg)) (init mem) s) : s.NoneLost := by
  obtain ⟨-, -, ans, wr⟩ := written_run hrun
  refine ⟨?_, wr.accepted, wr.chain⟩
  rw [← ans.reported, List.filter_append, List.map_append]
  exact List.suffix_append _ _

/-- After a match, whoever was accepted before the write went out and is compared later
gets a 0. -/
theorem loses_of_orderly {mem : LineAddr → Word}
    (hrun : ReflTransGen (StepWhere cfg (Orderly (· = 0) cfg)) (init mem) s)
    {w : Win} (hw : w ∈ s.wins) {a : Response} (ha : a ∈ s.answers)
    (htarget : a.op.targetPa = w.op.targetPa) (hlater : w.cycle < a.compared)
    (hbefore : ∀ i, s.issued w.cycle = some i → a.op.accepted ≤ i) : a.success = 0 := by
  obtain ⟨-, ex, ans⟩ := orderly_run (by decide) hrun
  rcases ans.binary a (List.mem_append_right _ ha) with hone | hzero | hzero
  · exfalso
    -- a success is a match, and the order of the matches says when the write went out
    have hwin : a.win ∈ s.wins := by
      rw [← ans.reported]
      exact List.mem_map_of_mem (List.mem_filter.mpr
        ⟨List.mem_append_right _ ha, by simpa using hone⟩)
    obtain ⟨i, hi, hissued⟩ : ∃ i < a.op.accepted, s.issued w.cycle = some i :=
      ex.issued_before hwin hw hlater htarget.symm
    have := hbefore i hissued
    omega
  · exact hzero
  · exact hzero

/-! ### Fixed runs -/

/-- Runs the cycles as long as they are legal and meet `ok`. -/
def script (cfg : Match) (ok : Sys → Wires → Bool) (s : Sys) (ios : List Wires) : Option Sys :=
  ios.foldlM (fun s io => if Legal cfg s io ∧ ok s io = true then some (s.step cfg io) else none) s

theorem run_of_script {Q : Sys → Wires → Prop} {ok : Sys → Wires → Bool}
    (hok : ∀ s io, ok s io = true → Q s io) {ios : List Wires} {s' : Sys}
    (h : script cfg ok s ios = some s') : ReflTransGen (StepWhere cfg Q) s s' := by
  refine Lib.run_of_foldlM (fun s io s' h => ?_) h
  split at h
  · rename_i hgo
    exact ⟨io, hgo.1, hok _ _ hgo.2, (Option.some.inj h).symm⟩
  · cases h

/-- Special reads go to page 2, special writes to page 1. -/
def pages : Match := { arAddr := 0x2000, awAddr := 0x1000 }

def idleHost : ToMc where
  awid := 0
  awuser := 0
  awvalid := false
  awaddr := 0
  wdata := fun _ => 0
  wvalid := false
  wlast := false
  wstrb := 0
  arid := 0
  arvalid := false
  araddr := 0

/-- A cycle without beats. -/
def rest (awready wready : Bool) : Wires where
  host := idleHost
  mc := { ReadBeat.idle with awready, wready, arready := true }

def post (core : Core) (request : Request) : Wires where
  host := { idleHost with
    awvalid := true
    awaddr := 0x1000
    wvalid := true
    wlast := true
    wstrb := BitVec.allOnes 64
    wdata := fun k =>
      if k = 0 then request.compareValue else if k = 1 then request.swapValue
      else if k = 2 then request.targetPa else if k = 3 then core.setWidth 64 else 0 }
  mc := (rest true true).mc

def collect (core : Core) (id : Id) : Wires where
  host := { idleHost with
    arvalid := true
    arid := id
    araddr := 0x2000 + core.setWidth 52 * 64 }
  mc := (rest true true).mc

/-- The response of a line whose first word is `v`. -/
def reply (id : Id) (v : Word) : Wires where
  host := idleHost
  mc := { (rest true true).mc with
    rvalid := true
    rid := id
    rdata := fun k => if k = 0 then v else 0 }

/-- One core swaps 0 for 7, then another 7 for 9. -/
def handover : List Wires :=
  [post 0 ⟨0, 7, 0x4000⟩, rest true true, collect 0 5, reply 5 0, rest true true, rest true true,
    rest true true, rest true true, post 1 ⟨7, 9, 0x4000⟩, rest true true, collect 1 6, reply 6 7,
    rest true true, rest true true, rest true true, rest true true]

theorem noneLost_of_served_handover : ∃ s,
    ReflTransGen (StepWhere pages (Served pages)) (init fun _ => 0) s ∧
      s.writes = [(0x4000, 9), (0x4000, 7)] ∧ s.NoneLost := by
  have heval : ((script pages (fun s io => decide (Served pages s io)) (init fun _ => 0)
      handover).map writes) = some [(0x4000, 9), (0x4000, 7)] := by decide +kernel
  obtain ⟨s, hs, hwrites⟩ := Option.map_eq_some_iff.mp heval
  have hrun : ReflTransGen (StepWhere pages (Served pages)) (init fun _ => 0) s :=
    run_of_script (fun _ _ => of_decide_eq_true) hs
  exact ⟨s, hrun, hwrites, noneLost_of_served hrun⟩

/-- The write of a match goes out in a cycle in which only the data channel is ready. -/
def halfTaken : List Wires :=
  [post 0 ⟨0, 7, 0x4000⟩, rest true true, collect 0 5, reply 5 0, rest true true, rest true true,
    rest true true, rest false true]

/-- The core got its 1, nothing is pending, and nothing was written. -/
theorem success_lost_of_awready : ∃ s,
    ReflTransGen (StepWhere pages fun _ _ => True) (init fun _ => 0) s ∧
      s.answers.map Response.success = [1] ∧ s.pendingWrites = [] ∧ s.writes = [] ∧
      ¬ s.NoneLost := by
  have heval : ((script pages (fun _ _ => true) (init fun _ => 0) halfTaken).map fun s =>
      (s.answers.map Response.success, s.pendingWrites, s.writes, s.wins.length))
        = some ([1], [], [], 1) := by decide +kernel
  obtain ⟨s, hs, hfacts⟩ := Option.map_eq_some_iff.mp heval
  simp only [Prod.mk.injEq] at hfacts
  obtain ⟨hanswers, hpending, hwrites, hwins⟩ := hfacts
  refine ⟨s, run_of_script (fun _ _ _ => trivial) hs, hanswers, hpending, hwrites, ?_⟩
  intro h
  have hlen := congrArg List.length h.accepted
  simp [hpending, hwrites, hwins] at hlen

/-- Two cores read the same line, and the responses come back to back. -/
def race : List Wires :=
  [post 0 ⟨0, 7, 0x4000⟩, post 1 ⟨0, 8, 0x4000⟩, collect 0 5, collect 1 6, reply 5 0, reply 6 0,
    rest true true, rest true true, rest true true, rest true true, rest true true]

theorem loses_of_orderly_race : ∃ s,
    ReflTransGen (StepWhere pages (Orderly (· = 0) pages)) (init fun _ => 0) s ∧
      ∃ w ∈ s.wins, ∃ a ∈ s.answers, a.op.targetPa = w.op.targetPa ∧ w.cycle < a.compared ∧
        (∀ i, s.issued w.cycle = some i → a.op.accepted ≤ i) ∧ a.success = 0 := by
  have heval : ((script pages (fun s io => decide (Orderly (· = 0) pages s io))
      (init fun _ => 0) race).map fun s => (s.wins, s.answers.head?, s.issued 7))
        = some ([⟨⟨⟨0, 7, 0x4000⟩, 0, 2⟩, 7⟩], some ⟨⟨⟨0, 8, 0x4000⟩, 1, 3⟩, 8, 0⟩, some 8) := by
    decide +kernel
  obtain ⟨s, hs, hfacts⟩ := Option.map_eq_some_iff.mp heval
  simp only [Prod.mk.injEq] at hfacts
  obtain ⟨hwins, hanswer, hissued⟩ := hfacts
  have hrun : ReflTransGen (StepWhere pages (Orderly (· = 0) pages)) (init fun _ => 0) s :=
    run_of_script (fun _ _ => of_decide_eq_true) hs
  have hw : (⟨⟨⟨0, 7, 0x4000⟩, 0, 2⟩, 7⟩ : Win) ∈ s.wins := by simp [hwins]
  have ha : (⟨⟨⟨0, 8, 0x4000⟩, 1, 3⟩, 8, 0⟩ : Response) ∈ s.answers :=
    List.mem_of_mem_head? hanswer
  have hbefore : ∀ i, s.issued 7 = some i → 3 ≤ i := by
    intro i hi
    rw [hissued] at hi
    cases hi
    decide
  exact ⟨s, hrun, _, hw, _, ha, rfl, by decide, hbefore,
    loses_of_orderly hrun hw ha rfl (by decide) hbefore⟩

/-- Two matches on different targets in a row, while the data channel is not ready: the
second overwrites the pending write of the first.  Then the first target again. -/
def overwritten : List Wires :=
  [post 0 ⟨0, 7, 0x4000⟩, post 1 ⟨0, 8, 0x8000⟩, collect 0 5, collect 1 6, reply 5 0, reply 6 0,
    rest true true, rest true true, rest true false, rest true true, post 2 ⟨0, 9, 0x4000⟩,
    rest true true, collect 2 7, reply 7 0, rest true true, rest true true, rest true true,
    rest true true]

/-- A second core wins on a target whose first winner's write never went out. -/
theorem wins_of_overwritten : ∃ s,
    ReflTransGen (StepWhere pages fun _ _ => True) (init fun _ => 0) s ∧
      ∃ w ∈ s.wins, ∃ a ∈ s.answers, a.op.targetPa = w.op.targetPa ∧ w.cycle < a.compared ∧
        s.issued w.cycle = none ∧ s.writes = [(0x4000, 9), (0x8000, 8)] ∧ a.success = 1 := by
  have heval : ((script pages (fun _ _ => true) (init fun _ => 0) overwritten).map fun s =>
      ((s.wins.getLast?, s.answers.head?), s.issued 7, s.writes))
        = some ((some ⟨⟨⟨0, 7, 0x4000⟩, 0, 2⟩, 7⟩, some ⟨⟨⟨0, 9, 0x4000⟩, 2, 12⟩, 16, 1⟩), none,
          [(0x4000, 9), (0x8000, 8)]) := by
    decide +kernel
  obtain ⟨s, hs, hfacts⟩ := Option.map_eq_some_iff.mp heval
  simp only [Prod.mk.injEq] at hfacts
  obtain ⟨⟨hwin, hanswer⟩, hissued, hwrites⟩ := hfacts
  exact ⟨s, run_of_script (fun _ _ _ => trivial) hs, _, List.mem_of_getLast? hwin, _,
    List.mem_of_mem_head? hanswer, rfl, by decide, hissued, hwrites, rfl⟩

end Sys

end Cxlalloc.Mcas
