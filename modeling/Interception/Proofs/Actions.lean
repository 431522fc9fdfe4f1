import Interception.Activation
import Interception.Proofs.Encoding

namespace Interception

inductive Instruction.Action
  | proceed (operands : List Value) (locals : Array Value)
  | jump (rel : Int32) (operands : List Value)
  | call (function : UInt32) (args operands : List Value)
  | ret (v : Value)

def Instruction.act (locals : Array Value) (i : Instruction) (s : List Value) :
    Except (Nat → EvalError) Instruction.Action :=
  match i with
  | .nop => .ok (.proceed s locals)
  | .pop => top s fun _ s => .ok (.proceed s locals)
  | .constNull => .ok (.proceed (.null :: s) locals)
  | .constTrue => .ok (.proceed (.bool true :: s) locals)
  | .constFalse => .ok (.proceed (.bool false :: s) locals)
  | .constInt n => .ok (.proceed (.int n :: s) locals)
  | .constFloat bits => .ok (.proceed (.float (Float.ofBits bits) :: s) locals)
  | .loadLocal slot =>
    match locals[slot.toNat]? with
    | some v => .ok (.proceed (v :: s) locals)
    | none => .error fun _ => .invalidLocal slot
  | .storeLocal slot => top s fun v s =>
    if slot.toNat < locals.size then .ok (.proceed s (locals.setIfInBounds slot.toNat v))
    else .error fun _ => .invalidLocal slot
  | .add => top₂ s fun x y s => combine .add (Value.arithmetic? .add x y) x y s
  | .sub => top₂ s fun x y s => combine .sub (Value.arithmetic? .sub x y) x y s
  | .mul => top₂ s fun x y s => combine .mul (Value.arithmetic? .mul x y) x y s
  | .lt => top₂ s fun x y s => combine .lt ((Value.less? x y).map Value.bool) x y s
  | .eq => top₂ s fun x y s => .ok (.proceed (.bool (x.equal y) :: s) locals)
  | .not => top s fun v s => .ok (.proceed (.bool (!v.truthy) :: s) locals)
  | .jump rel => .ok (.jump rel s)
  | .jumpIfFalse rel => top s fun v s => .ok (if v.truthy then .proceed s locals else .jump rel s)
  | .call function argc =>
    if s.length < argc.toNat then .error .stackUnderflow
    else .ok (.call function (s.take argc.toNat).reverse (s.drop argc.toNat))
  | .ret => top s fun v _ => .ok (.ret v)
where
  top (s : List Value) (k : Value → List Value → Except (Nat → EvalError) Instruction.Action) :
      Except (Nat → EvalError) Instruction.Action :=
    match s with
    | v :: s => k v s
    | [] => .error .stackUnderflow
  top₂ (s : List Value) (k : Value → Value → List Value → Except (Nat → EvalError) Instruction.Action) :
      Except (Nat → EvalError) Instruction.Action :=
    match s with
    | y :: x :: s => k x y s
    | _ => .error .stackUnderflow
  combine (op : Opcode) (v : Option Value) (x y : Value) (s : List Value) :
      Except (Nat → EvalError) Instruction.Action :=
    match v with
    | some v => .ok (.proceed (v :: s) locals)
    | none => .error fun _ => Activation.mismatch op x y

inductive Instruction.Acts (locals : Array Value) (s : List Value) : Instruction → Instruction.Action → Prop
  | proceed {i : Instruction} {locals' : Array Value} (s' : List Value) (hsize : locals'.size = locals.size) :
    Acts locals s i (.proceed s' locals')
  | jump {i : Instruction} {rel : Int32} (s' : List Value) (hi : i.distance? = some rel) :
    Acts locals s i (.jump rel s')
  | call {function : UInt32} {argc : UInt8} (hargc : argc.toNat ≤ s.length) :
    Acts locals s (.call function argc) (.call function (s.take argc.toNat).reverse (s.drop argc.toNat))
  | ret (v : Value) : Acts locals s .ret (.ret v)

namespace Instruction

variable {i : Instruction} {locals : Array Value} {s : List Value} {action : Instruction.Action}
  {fault : Nat → EvalError}

theorem act.top_ok {k : Value → List Value → Except (Nat → EvalError) Instruction.Action}
    (h : act.top s k = .ok action) : ∃ v s', s = v :: s' ∧ k v s' = .ok action := by
  cases s with
  | nil => cases h
  | cons v s => exact ⟨v, s, rfl, h⟩

theorem act.top_error {k : Value → List Value → Except (Nat → EvalError) Instruction.Action}
    (h : act.top s k = .error fault) : fault = .stackUnderflow ∨ ∃ v s', k v s' = .error fault := by
  cases s with
  | nil =>
    cases h
    exact .inl rfl
  | cons v s => exact .inr ⟨v, s, h⟩

theorem act.top₂_ok {k : Value → Value → List Value → Except (Nat → EvalError) Instruction.Action}
    (h : act.top₂ s k = .ok action) : ∃ x y s', s = y :: x :: s' ∧ k x y s' = .ok action := by
  rcases s with _ | ⟨y, _ | ⟨x, s⟩⟩
  · cases h
  · cases h
  · exact ⟨x, y, s, rfl, h⟩

theorem act.top₂_error {k : Value → Value → List Value → Except (Nat → EvalError) Instruction.Action}
    (h : act.top₂ s k = .error fault) : fault = .stackUnderflow ∨ ∃ x y s', k x y s' = .error fault := by
  rcases s with _ | ⟨y, _ | ⟨x, s⟩⟩
  · cases h
    exact .inl rfl
  · cases h
    exact .inl rfl
  · exact .inr ⟨x, y, s, h⟩

variable {op : Opcode} {result : Option Value} {x y : Value}

theorem act.combine_ok (h : act.combine locals op result x y s = .ok action) :
    ∃ v, action = .proceed (v :: s) locals := by
  cases result with
  | none => cases h
  | some v =>
    cases h
    exact ⟨v, rfl⟩

theorem act.combine_error (h : act.combine locals op result x y s = .error fault) :
    fault = fun _ => Activation.mismatch op x y := by
  cases result <;> cases h
  rfl

theorem acts (h : i.act locals s = .ok action) : Acts locals s i action := by
  cases i with
  | pop | not =>
    obtain ⟨v, s', rfl, h⟩ := act.top_ok h
    cases h
    exact .proceed _ rfl
  | loadLocal slot =>
    rw [act] at h
    split at h <;> cases h
    exact .proceed _ rfl
  | storeLocal slot =>
    obtain ⟨v, s', rfl, hk⟩ := act.top_ok h
    split at hk <;> cases hk
    exact .proceed _ Array.size_setIfInBounds
  | add | sub | mul | lt =>
    obtain ⟨x, y, s', rfl, h⟩ := act.top₂_ok h
    obtain ⟨v, rfl⟩ := act.combine_ok h
    exact .proceed _ rfl
  | eq =>
    obtain ⟨x, y, s', rfl, h⟩ := act.top₂_ok h
    cases h
    exact .proceed _ rfl
  | jump rel =>
    cases h
    exact .jump _ rfl
  | jumpIfFalse rel =>
    obtain ⟨v, s', rfl, h⟩ := act.top_ok h
    cases h
    split
    · exact .proceed _ rfl
    · exact .jump _ rfl
  | call function argc =>
    rw [act] at h
    split at h <;> cases h
    exact .call (by omega)
  | ret =>
    obtain ⟨v, s', rfl, h⟩ := act.top_ok h
    cases h
    exact .ret v
  | _ =>
    cases h
    exact .proceed _ rfl

end Instruction

def EvalError.Arises (a : Activation) : EvalError → Prop
  | stackUnderflow offset => offset = a.pc
  | invalidJump target => target < 0 ∨ (a.code.body.size : Int) < target
  | invalidLocal slot => a.locals.size ≤ slot.toNat
  | typeMismatch _ _ _ | unknownFunction _ | arityMismatch _ _ _ => True
  | invalidOpcode _ | truncatedOperand _ | recursionLimit _ | missingReturn _ | hook _ => False

namespace Activation

def carryOut (a : Activation) (p : Program) (next : Nat) : Instruction.Action → Except EvalError Progress
  | .proceed operands locals => .ok (.running { a with pc := next, operands, locals })
  | .jump rel operands => (a.jumpTarget next rel).map fun target => .running { a with pc := target, operands }
  | .call function args operands =>
    match p.function? function with
    | none => .error (.unknownFunction function)
    | some code =>
      if args.length = code.params then
        match Frame.make? code args.toArray (a.depth + 1) with
        | some callee => .ok (.calling { a with pc := next, operands } callee)
        | none => .ok .stranded
      else .error (.arityMismatch code.name code.params args.length)
  | .ret v => .ok (.finished (.ok v))

theorem execute_eq (a : Activation) (p : Program) (i : Instruction) (next : Nat) :
    a.execute p i next =
      match i.act a.locals a.operands with
      | .ok action => a.carryOut p next action
      | .error fault => .error (fault a.pc) := by
  obtain ⟨code, pc, operands, locals, depth⟩ := a
  have harithmetic (op : Opcode) (operator : Value.Operator) (x y : Value) (s : List Value) :
      arithmetic ⟨code, pc, y :: x :: s, locals, depth⟩ op operator next =
        match Instruction.act.combine locals op (Value.arithmetic? operator x y) x y s with
        | .ok action => carryOut ⟨code, pc, y :: x :: s, locals, depth⟩ p next action
        | .error fault => .error (fault pc) := by
    simp only [arithmetic, pop₂, bind, Except.bind, Instruction.act.combine]
    cases Value.arithmetic? operator x y <;> rfl
  cases i with
  | add | sub | mul =>
    rcases operands with _ | ⟨y, _ | ⟨x, s⟩⟩
    · rfl
    · rfl
    · exact harithmetic ..
  | lt =>
    rcases operands with _ | ⟨y, _ | ⟨x, s⟩⟩
    · rfl
    · rfl
    · simp only [execute, pop₂, bind, Except.bind, Instruction.act, Instruction.act.top₂, Instruction.act.combine]
      cases Value.less? x y <;> rfl
  | eq => rcases operands with _ | ⟨y, _ | ⟨x, s⟩⟩ <;> rfl
  | pop | not | ret => cases operands <;> rfl
  | loadLocal slot =>
    simp only [execute, Instruction.act]
    cases locals[slot.toNat]? <;> rfl
  | storeLocal slot =>
    rcases operands with _ | ⟨v, s⟩
    · rfl
    · simp only [execute, pop, bind, Except.bind, Instruction.act, Instruction.act.top]
      split <;> rfl
  | jump rel =>
    simp only [execute, Instruction.act, carryOut]
    cases jumpTarget ⟨code, pc, operands, locals, depth⟩ next rel <;> rfl
  | jumpIfFalse rel =>
    rcases operands with _ | ⟨v, s⟩
    · rfl
    · simp only [execute, pop, bind, Except.bind, Instruction.act, Instruction.act.top]
      cases v.truthy with
      | true => rfl
      | false =>
        have htarget : jumpTarget ⟨code, pc, s, locals, depth⟩ next rel =
          jumpTarget ⟨code, pc, v :: s, locals, depth⟩ next rel := rfl
        simp only [Bool.false_eq_true, if_false, carryOut, htarget]
        cases jumpTarget ⟨code, pc, v :: s, locals, depth⟩ next rel <;> rfl
  | call function argc =>
    simp only [execute, call, Instruction.act]
    by_cases hargc : operands.length < argc.toNat
    · simp only [if_pos hargc]
    · have hlength : (operands.take argc.toNat).reverse.length = argc.toNat := by
        rw [List.length_reverse, List.length_take]
        omega
      simp only [if_neg hargc, carryOut, hlength]
      cases p.function? function with
      | none => rfl
      | some callee =>
        dsimp only
        split
        · cases Frame.make? callee (operands.take argc.toNat).reverse.toArray (depth + 1) <;> rfl
        · rfl
  | _ => rfl

variable {a : Activation} {p : Program} {i : Instruction} {next : Nat} {g : Progress} {cause : EvalError}

theorem jumpTarget_eq_ok_iff {rel : Int32} {target : Nat} :
    a.jumpTarget next rel = .ok target ↔ (next : Int) + rel.toInt = target ∧ target ≤ a.code.body.size := by
  rw [jumpTarget]
  split
  · next h =>
    rw [Except.ok.injEq]
    omega
  · next h =>
    simp only [reduceCtorEq, false_iff]
    omega

inductive Executes (a : Activation) (p : Program) (next : Nat) : Instruction → Progress → Prop
  | proceeds {i : Instruction} {locals : Array Value} (operands : List Value) (hsize : locals.size = a.locals.size) :
    Executes a p next i (.running { a with pc := next, operands, locals })
  | jumps {i : Instruction} {rel : Int32} {target : Nat} (operands : List Value) (hi : i.distance? = some rel)
    (ht : a.jumpTarget next rel = .ok target) : Executes a p next i (.running { a with pc := target, operands })
  | calls {function : UInt32} {argc : UInt8} {code : Code} {callee : Frame} (hargc : argc.toNat ≤ a.operands.length)
    (hcode : p.function? function = some code) (hparams : argc.toNat = code.params)
    (hcallee : Frame.make? code (a.operands.take argc.toNat).reverse.toArray (a.depth + 1) = some callee) :
    Executes a p next (.call function argc)
      (.calling { a with pc := next, operands := a.operands.drop argc.toNat } callee)
  | strands {function : UInt32} {argc : UInt8} {code : Code} (hcode : p.function? function = some code)
    (hparams : argc.toNat = code.params)
    (hcallee : Frame.make? code (a.operands.take argc.toNat).reverse.toArray (a.depth + 1) = none) :
    Executes a p next (.call function argc) .stranded
  | returns (v : Value) : Executes a p next .ret (.finished (.ok v))

theorem executes (h : a.execute p i next = .ok g) : a.Executes p next i g := by
  rw [execute_eq] at h
  split at h
  · next action haction =>
    cases Instruction.acts haction with
    | proceed operands hsize =>
      cases h
      exact .proceeds operands hsize
    | @jump _ rel operands hi =>
      rw [carryOut] at h
      cases ht : a.jumpTarget next rel with
      | error cause =>
        rw [ht] at h
        cases h
      | ok target =>
        rw [ht] at h
        cases h
        exact .jumps operands hi ht
    | @call function argc hargc =>
      have hlength : (a.operands.take argc.toNat).reverse.length = argc.toNat := by
        rw [List.length_reverse, List.length_take]
        omega
      simp only [carryOut, hlength] at h
      split at h
      · cases h
      · next code hcode =>
        split at h
        · next hparams =>
          split at h <;> cases h
          · next hcallee => exact .calls hargc hcode hparams hcallee
          · next hcallee => exact .strands hcode hparams hcallee
        · cases h
    | ret v =>
      cases h
      exact .returns v
  · cases h

theorem act_arises {fault : Nat → EvalError} (h : i.act a.locals a.operands = .error fault) :
    (fault a.pc).Arises a := by
  cases i with
  | pop | not | ret | jumpIfFalse =>
    rcases Instruction.act.top_error h with rfl | ⟨v, s, h⟩
    · rfl
    · cases h
  | loadLocal slot =>
    rw [Instruction.act] at h
    split at h <;> cases h
    next hnone => exact Array.getElem?_eq_none_iff.mp hnone
  | storeLocal slot =>
    rcases Instruction.act.top_error h with rfl | ⟨v, s, h⟩
    · rfl
    · split at h <;> cases h
      next hslot => exact Nat.not_lt.mp hslot
  | add | sub | mul | lt =>
    rcases Instruction.act.top₂_error h with rfl | ⟨x, y, s, h⟩
    · rfl
    · rw [Instruction.act.combine_error h]
      trivial
  | eq =>
    rcases Instruction.act.top₂_error h with rfl | ⟨x, y, s, h⟩
    · rfl
    · cases h
  | call function argc =>
    rw [Instruction.act] at h
    split at h <;> cases h
    rfl
  | _ => cases h

theorem execute_arises (h : a.execute p i next = .error cause) : cause.Arises a := by
  rw [execute_eq] at h
  split at h
  · next action haction =>
    cases action with
    | proceed operands locals => cases h
    | jump rel operands =>
      simp only [carryOut, jumpTarget] at h
      split at h <;> cases h
      next htarget =>
        simp only [EvalError.Arises]
        omega
    | call function args operands =>
      simp only [carryOut] at h
      split at h
      · cases h
        trivial
      · split at h
        · split at h <;> cases h
        · cases h
          trivial
    | ret v => cases h
  · next fault hfault =>
    cases h
    exact act_arises hfault

theorem advance_of_decode (hi : Instruction.decode a.code.body a.pc = .ok i) :
    a.advance p = a.execute p i (a.pc + i.size) := by
  have hroom := Instruction.decode_bound hi
  simp only [Instruction.size] at hroom
  rw [advance, if_pos (by omega), hi]

theorem execute_of_step (h : a.step p = g) (hne : ∀ cause, g ≠ .finished (.error cause)) :
    ∃ i, Instruction.decode a.code.body a.pc = .ok i ∧ a.execute p i (a.pc + i.size) = .ok g := by
  rw [step] at h
  split at h
  · next g' hg =>
    subst h
    rw [advance] at hg
    split at hg
    · split at hg
      · next i hi => exact ⟨i, hi, hg⟩
      · cases hg
    · cases hg
  · next cause _ => exact absurd h.symm (hne cause)

theorem step_error (h : a.step p = .finished (.error cause)) :
    (a.code.body.size ≤ a.pc ∧ cause = .missingReturn a.code.name) ∨
      (a.pc < a.code.body.size ∧ ∃ fault, Instruction.decode a.code.body a.pc = .error fault ∧
        cause = faultError fault) ∨
      ∃ i, Instruction.decode a.code.body a.pc = .ok i ∧ cause.Arises a := by
  by_cases hpc : a.pc < a.code.body.size
  · cases hi : Instruction.decode a.code.body a.pc with
    | ok i =>
      rw [step, advance_of_decode hi] at h
      split at h
      · next g hg =>
        subst h
        cases executes hg
      · next e he =>
        cases h
        exact .inr (.inr ⟨i, rfl, execute_arises he⟩)
    | error fault =>
      simp only [step, advance, if_pos hpc, hi] at h
      cases h
      exact .inr (.inl ⟨hpc, fault, rfl, rfl⟩)
  · simp only [step, advance, if_neg hpc] at h
    cases h
    exact .inl ⟨Nat.not_lt.mp hpc, rfl⟩

end Activation

end Interception
