import Mathlib.Data.Nat.Choose.Basic
import Interception.Proofs.Forwarding
import Interception.Proofs.Patches

namespace Interception

variable {p : Program} {maxDepth m : Nat} {q : Ending} {a b : Activation} {i : Instruction} {is js : List Instruction}

theorem Bytecode.Lists.behind {code : Array UInt8} {pos : Nat} (h : Lists code pos (is ++ js)) :
    Lists code (is.foldl (fun o i => o + i.size) pos) js := by
  induction is generalizing pos with
  | nil => exact h
  | cons i is ih => exact ih h.2

namespace Activation

theorem step_proceed {operands : List Value} {locals : Array Value}
    (hi : Instruction.decode a.code.body a.pc = .ok i)
    (h : i.act a.locals a.operands = .ok (.proceed operands locals)) :
    a.step p = .running { a with pc := a.pc + i.size, operands, locals } := by
  rw [step, advance_of_decode hi, execute_eq, h]
  rfl

def through? (a : Activation) : List Instruction → Option Activation
  | [] => some a
  | i :: is =>
    match i.act a.locals a.operands with
    | .ok (.proceed operands locals) => through? { a with pc := a.pc + i.size, operands, locals } is
    | _ => none

theorem of_through?_cons (h : a.through? (i :: is) = some b) : ∃ operands locals,
    i.act a.locals a.operands = .ok (.proceed operands locals) ∧
      ({ a with pc := a.pc + i.size, operands, locals } : Activation).through? is = some b := by
  rw [through?] at h
  split at h
  · next operands locals haction => exact ⟨operands, locals, haction, h⟩
  · cases h

end Activation

theorem Computes.through_iff (hl : Bytecode.Lists a.code.body a.pc (is ++ js)) (h : a.through? is = some b) :
    Computes p maxDepth (.body a) m q ↔ Computes p maxDepth (.body b) m q := by
  induction is generalizing a with
  | nil =>
    obtain rfl : a = b := Option.some.inj h
    rfl
  | cons i is ih =>
    obtain ⟨hi, hl⟩ := hl
    obtain ⟨operands, locals, haction, h⟩ := Activation.of_through?_cons h
    let next : Activation := { a with pc := a.pc + i.size, operands, locals }
    have hm : (Job.body a).move p maxDepth = .becomes (.body next) := by
      rw [Job.move, Activation.step_proceed hi haction]
    exact (becomes_iff hm).trans (ih (a := next) hl h)

namespace Countdown

open Bytecode

def entry : List Instruction := [.constInt 0, .storeLocal 1]

def test : List Instruction := [.constInt 0, .loadLocal 0, .lt]

def turn : List Instruction :=
  [.loadLocal 1, .loadLocal 0, .add, .storeLocal 1, .loadLocal 0, .constInt 1, .sub, .storeLocal 0]

def top : Nat := (listing entry).offset

def emissions : List Emission :=
  [.instruction (.constInt 0), .instruction (.storeLocal 1),
    .instruction (.constInt 0), .instruction (.loadLocal 0), .opcode .lt, .placeholder .jumpIfFalse,
    .instruction (.loadLocal 1), .instruction (.loadLocal 0), .opcode .add, .instruction (.storeLocal 1),
    .instruction (.loadLocal 0), .instruction (.constInt 1), .opcode .sub, .instruction (.storeLocal 0),
    .jumpTo .jump top, .patch 0, .instruction (.loadLocal 1), .opcode .ret]

def instructions : List Instruction :=
  entry ++ (test ++ ([.jumpIfFalse 31] ++ (turn ++ ([.jump (-49)] ++ [.loadLocal 1, .ret]))))

theorem assemble?_emissions : (Body.emissions emissions).assemble? = some (listing instructions).code := by
  decide +kernel

def state (g : Code) (depth pc : Nat) (n acc : Int64) : Activation := ⟨g, pc, [], #[.int n, .int acc], depth⟩

section Loop

variable {g : Code} {depth k : Nat} {n acc : Int64} {v : Value} (hg : Lists g.body 0 instructions)

include hg

theorem size_body : g.body.size = 65 := by
  rw [← List.append_nil instructions] at hg
  exact hg.behind.symm

theorem lists_branch : Lists g.body 25 ([.jumpIfFalse 31] ++ (turn ++ ([.jump (-49)] ++ [.loadLocal 1, .ret]))) :=
  hg.behind.behind

theorem enter_iff : Computes p maxDepth (.body ⟨g, 0, [], #[.int n, v], depth⟩) m q ↔
    Computes p maxDepth (.body (state g depth top n 0)) m q :=
  Computes.through_iff hg rfl

theorem test_iff : Computes p maxDepth (.body (state g depth top n acc)) m q ↔
    Computes p maxDepth (.body ((state g depth 25 n acc).push (.bool (decide (0 < n))))) m q :=
  Computes.through_iff hg.behind rfl

theorem turn_iff (hn : 0 < n) : Computes p maxDepth (.body (state g depth top n acc)) m q ↔
    Computes p maxDepth (.body (state g depth top (n - 1) (acc + n))) m q := by
  have hbranch := lists_branch hg
  have hturn : Lists g.body 30 (turn ++ ([.jump (-49)] ++ [.loadLocal 1, .ret])) := hbranch.behind
  have hjump : Instruction.decode g.body 56 = .ok (.jump (-49)) := hturn.behind.1
  have hback : (Job.body (state g depth 56 (n - 1) (acc + n))).move p maxDepth =
      .becomes (.body (state g depth top (n - 1) (acc + n))) := by
    have hle : top ≤ g.body.size := by
      rw [size_body hg]
      decide
    rw [Job.move, Activation.step_jump (a := state g depth 56 (n - 1) (acc + n)) hjump rfl hle]
    rfl
  -- past the branch, through the turn, and back by the jump
  rw [test_iff hg, decide_eq_true hn]
  calc
    _ ↔ Computes p maxDepth (.body (state g depth 30 n acc)) m q := Computes.through_iff hbranch rfl
    _ ↔ Computes p maxDepth (.body (state g depth 56 (n - 1) (acc + n))) m q := Computes.through_iff hturn rfl
    _ ↔ _ := Computes.becomes_iff hback

theorem leave_iff (hn : ¬0 < n) : Computes p maxDepth (.body (state g depth top n acc)) m q ↔
    .result (.ok (.int acc)) = q ∧ m = 0 := by
  have hbranch := lists_branch hg
  have hexit : Lists g.body 61 ([.loadLocal 1] ++ [.ret]) := hbranch.behind.behind.behind
  have hret : Instruction.decode g.body 64 = .ok .ret := hexit.behind.1
  let tested : Activation := (state g depth 25 n acc).push (.bool false)
  let loaded : Activation := (state g depth 64 n acc).push (.int acc)
  have hforth : (Job.body tested).move p maxDepth = .becomes (.body (state g depth 61 n acc)) := by
    have hle : 61 ≤ g.body.size := by
      rw [size_body hg]
      decide
    rw [Job.move, Activation.step_jumpIfFalse (a := tested) hbranch.1 rfl rfl rfl hle]
    rfl
  have hend : (Job.body loaded).move p maxDepth = .ends (.result (.ok (.int acc))) := by
    rw [Job.move, Activation.step_ret hret]
  rw [test_iff hg, decide_eq_false hn]
  calc
    _ ↔ Computes p maxDepth (.body (state g depth 61 n acc)) m q := Computes.becomes_iff hforth
    _ ↔ Computes p maxDepth (.body loaded) m q := Computes.through_iff hexit rfl
    _ ↔ _ := Computes.ends_iff hend

end Loop

def total (k : Nat) : Nat := k * (k + 1) / 2

def sum (n : Int64) : Int64 := if n < 0 then 0 else Int64.ofInt (n.toInt * (n.toInt + 1) / 2)

variable {g : Code} {depth k : Nat} {n acc : Int64} {v : Value}

theorem total_succ (k : Nat) : total (k + 1) = total k + (k + 1) := by
  have h := Nat.triangle_succ (k + 1)
  rwa [Nat.add_sub_cancel, Nat.add_sub_cancel, Nat.mul_comm, Nat.mul_comm (k + 1) k] at h

theorem sum_eq_total (hn : n.toInt = k) : sum n = Int64.ofInt (total k) := by
  have hneg : ¬n < 0 := by
    rw [Int64.lt_iff_toInt_lt, Int64.toInt_zero]
    omega
  rw [sum, if_neg hneg, hn]
  rfl

theorem toInt_pred (hn : n.toInt = (k + 1 : Nat)) : (n - 1).toInt = k := by
  have hlt := n.toInt_lt
  rw [Int64.toInt_sub, Int64.toInt_one, Int.bmod_eq_of_le] <;> omega

theorem add_total_succ (hn : n.toInt = (k + 1 : Nat)) :
    acc + n + Int64.ofInt (total k) = acc + Int64.ofInt (total (k + 1)) := by
  have hword : Int64.ofInt (k + 1 : Nat) = n := by rw [← hn, Int64.ofInt_toInt]
  rw [total_succ, Int.natCast_add, Int64.ofInt_add, hword, Int64.add_assoc, Int64.add_comm n]

theorem computes_total (hg : Lists g.body 0 instructions) (hn : n.toInt = k) :
    Computes p maxDepth (.body (state g depth top n acc)) 0 (.result (.ok (.int (acc + Int64.ofInt (total k))))) := by
  -- on the counter, for every accumulator: the sum of both parts is what the turns preserve
  induction k generalizing n acc with
  | zero =>
    have hstop : ¬0 < n := by
      rw [Int64.lt_iff_toInt_lt, Int64.toInt_zero]
      omega
    have hzero : acc + Int64.ofInt (total 0) = acc := Int64.add_zero acc
    rw [leave_iff hg hstop, hzero]
    exact ⟨rfl, rfl⟩
  | succ k ih =>
    have hgoes : 0 < n := by
      rw [Int64.lt_iff_toInt_lt, Int64.toInt_zero]
      omega
    rw [turn_iff hg hgoes, ← add_total_succ hn]
    exact ih (toInt_pred hn)

theorem computes_sum (hg : Lists g.body 0 instructions) :
    Computes p maxDepth (.body (state g depth top n 0)) 0 (.result (.ok (.int (sum n)))) := by
  by_cases hneg : n < 0
  · rw [leave_iff hg (Int64.lt_asymm hneg), sum, if_pos hneg]
    exact ⟨rfl, rfl⟩
  · obtain ⟨k, hk⟩ : ∃ k : Nat, n.toInt = k := by
      apply Int.eq_ofNat_of_zero_le
      rwa [Int64.lt_iff_toInt_lt, Int64.toInt_zero, Int.not_lt] at hneg
    rw [sum_eq_total hk, ← Int64.zero_add (Int64.ofInt _)]
    exact computes_total hg hk

theorem exists_start (v : Value) (depth : Nat) (hlocals : g.locals = 2) :
    ∃ f, Frame.make? g #[v] depth = some f ∧ Activation.start f = ⟨g, 0, [], #[v, .null], depth⟩ := by
  have hroom : max #[v].size g.locals ≤ maxLocals := by
    rw [hlocals]
    show max 1 2 ≤ maxLocals
    decide
  refine ⟨_, dif_pos hroom, ?_⟩
  simp only [Activation.start, hlocals]
  rfl

theorem call_computes {function : UInt32} (hd : 0 < maxDepth) (hcode : p.function? function = some g)
    (hparams : g.params = 1) (hlocals : g.locals = 2) (hg : Lists g.body 0 instructions) :
    Computes p maxDepth (.call function #[.int n]) 1 (.result (.ok (.int (sum n)))) := by
  obtain ⟨f, hf, hstart⟩ := exists_start (.int n) 0 hlocals
  have hcall : (Job.call function #[.int n]).move p maxDepth = .becomes (.frame f) := by
    simp only [Job.move, hcode, List.size_toArray, List.length_singleton, hparams, if_true, hf]
  have hframe : (Job.frame f).move p maxDepth = .enters f := by
    refine Job.enters_iff.mpr ⟨rfl, ?_⟩
    rwa [(Frame.of_make? hf).2]
  have hbody : Computes p maxDepth (.body (.start f)) 0 (.result (.ok (.int (sum n)))) := by
    rw [hstart, enter_iff hg]
    exact computes_sum hg
  exact .becomes hcall (.enters hframe hbody)

end Countdown

open State

/-- Whatever number the loop is given, it ends in the one frame that it was started in and returns the sum of the
numbers from one up to that number, reduced to a word. -/
theorem countdown_sums_up {H : Host} (β : Behaviour H) (name : String) :
    ∃ p, Program.ofRecipes? [⟨name, 1, 2, .emissions Countdown.emissions⟩] = some p ∧
      ∀ (w : World H) (e : EvaluatorId) (maxDepth : Nat), 0 < maxDepth → w.Equipped e p maxDepth .null →
        ∀ n : Int64, Finishes β (ofRequest w (.evaluate e 0 #[.int n])) (w.countFrame e)
          (.ok (.ok (.int (if n < 0 then 0 else Int64.ofInt (n.toInt * (n.toInt + 1) / 2))))) := by
  let g : Code := .make ⟨1⟩ ⟨name, 1, 2, (Bytecode.listing Countdown.instructions).code⟩
  have hprogram : Program.ofRecipes? [⟨name, 1, 2, .emissions Countdown.emissions⟩] = some ⟨#[g]⟩ := by
    simp only [Program.ofRecipes?, List.mapM_cons, List.mapM_nil, Code.Recipe.source?, Countdown.assemble?_emissions]
    rfl
  refine ⟨⟨#[g]⟩, hprogram, ?_⟩
  intro w e maxDepth hd hw n
  have hcall : Computes ⟨#[g]⟩ maxDepth (.call 0 #[.int n]) 1 (.result (.ok (.int (Countdown.sum n)))) :=
    Countdown.call_computes (g := g) hd rfl rfl rfl (Bytecode.lists_listing Countdown.instructions)
  change Finishes β ((Job.call 0 #[.int n]).start w e) _ _
  exact (finishes_iff_computes hw).mpr ⟨1, _, hcall, rfl, rfl⟩

namespace Countdown

open Evaluation

theorem countdown_sums_up_largest : ∃ p, Program.ofRecipes? [⟨"sum", 1, 2, .emissions emissions⟩] = some p ∧
    Finishes behaviour (ofRequest (world p 256) (.evaluate evaluator 0 #[.int 9223372036854775807]))
      ((world p 256).countFrame evaluator) (.ok (.ok (.int (-4611686018427387904)))) := by
  obtain ⟨p, hp, hsums⟩ := countdown_sums_up behaviour "sum"
  exact ⟨p, hp, hsums (world p 256) evaluator 256 (by decide) (world_equipped p 256) 9223372036854775807⟩

end Countdown

end Interception
