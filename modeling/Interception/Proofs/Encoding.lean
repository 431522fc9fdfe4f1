import Interception.Bytecode.Walk

namespace Interception

namespace Bytes

variable {code code' : Array UInt8} {start width n : Nat} {bytes bytes' : List UInt8}

def At (code : Array UInt8) : Nat → List UInt8 → Prop
  | _, [] => True
  | start, b :: rest => code[start]? = some b ∧ At code (start + 1) rest

theorem at_append :
    At code start (bytes ++ bytes') ↔ At code start bytes ∧ At code (start + bytes.length) bytes' := by
  induction bytes generalizing start with
  | nil => simp [At]
  | cons b rest ih =>
    have hlength : start + (b :: rest).length = start + 1 + rest.length := by
      rw [List.length_cons]
      omega
    rw [hlength, List.cons_append, At, At, ih, and_assoc]

theorem At.congr (h : At code start bytes)
    (hc : ∀ k, start ≤ k → k < start + bytes.length → code'[k]? = code[k]?) : At code' start bytes := by
  induction bytes generalizing start with
  | nil => trivial
  | cons b rest ih =>
    rw [List.length_cons] at hc
    refine ⟨(hc start (Nat.le_refl _) (by omega)).trans h.1, ih h.2 fun k hk hlt => ?_⟩
    exact hc k (by omega) (by omega)

theorem At.extend (h : At code start bytes) (more : Array UInt8) : At (code ++ more) start bytes := by
  induction bytes generalizing start with
  | nil => trivial
  | cons b rest ih =>
    obtain ⟨hs, -⟩ := Array.getElem?_eq_some_iff.mp h.1
    exact ⟨(Array.getElem?_append_left hs).trans h.1, ih h.2⟩

theorem At.behind (h : At code start bytes) (front : Array UInt8) : At (front ++ code) (front.size + start) bytes := by
  induction bytes generalizing start with
  | nil => trivial
  | cons b rest ih =>
    refine ⟨?_, ih h.2⟩
    rw [Array.getElem?_append_right (Nat.le_add_right _ _), Nat.add_sub_cancel_left]
    exact h.1

theorem at_size (code : Array UInt8) (bytes : List UInt8) : At (code ++ bytes.toArray) code.size bytes := by
  induction bytes generalizing code with
  | nil => trivial
  | cons b rest ih =>
    have hpush : code ++ (b :: rest).toArray = code.push b ++ rest.toArray := by simp
    have hrest := ih (code.push b)
    rw [Array.size_push] at hrest
    rw [hpush]
    exact ⟨by simp, hrest⟩

theorem getElem?_overwrite {k : Nat} (hk : k < start ∨ start + bytes.length ≤ k) :
    (overwrite code start bytes)[k]? = code[k]? := by
  induction bytes generalizing code start with
  | nil => rfl
  | cons b rest ih =>
    rw [List.length_cons] at hk
    rw [overwrite, ih (by omega), Array.getElem?_setIfInBounds_ne (by omega)]

theorem at_overwrite (h : start + bytes.length ≤ code.size) : At (overwrite code start bytes) start bytes := by
  induction bytes generalizing code start with
  | nil => trivial
  | cons b rest ih =>
    rw [List.length_cons] at h
    refine ⟨?_, ih (by rw [Array.size_setIfInBounds]; omega)⟩
    rw [overwrite, getElem?_overwrite (.inl (Nat.lt_succ_self _)), Array.getElem?_setIfInBounds_self_of_lt (by omega)]

theorem field?_eq_some_iff :
    field? code width start = some n ↔ n < Nat.pow 256 width ∧ At code start (littleEndian width n) := by
  induction width generalizing start n with
  | zero =>
    simp only [field?, Option.some.injEq, littleEndian, At, and_true]
    change 0 = n ↔ n < 1
    omega
  | succ width ih =>
    have hpow : Nat.pow 256 (width + 1) = 256 * Nat.pow 256 width := Nat.mul_comm _ _
    simp only [field?, Option.bind_eq_bind, Option.bind_eq_some_iff, Option.pure_def, Option.some.injEq, littleEndian,
      At, ih, hpow]
    constructor
    · rintro ⟨low, hl, high, ⟨hlt, hh⟩, rfl⟩
      have hlow := low.toNat_lt
      have hhigh : (low.toNat + 256 * high) / 256 = high := by omega
      have hbyte : UInt8.ofNat (low.toNat + 256 * high) = low := by
        apply UInt8.toNat_inj.mp
        rw [UInt8.toNat_ofNat']
        omega
      rw [hhigh, hbyte]
      exact ⟨by omega, hl, hh⟩
    · rintro ⟨hlt, hl, hh⟩
      refine ⟨_, hl, n / 256, ⟨by omega, hh⟩, ?_⟩
      rw [UInt8.toNat_ofNat']
      omega

theorem exists_field? (h : start + width ≤ code.size) : ∃ n, field? code width start = some n := by
  induction width generalizing start with
  | zero => exact ⟨0, rfl⟩
  | succ width ih =>
    have hstart : start < code.size := by omega
    have hlow : code[start]? = some code[start] := Array.getElem?_eq_getElem hstart
    obtain ⟨high, hhigh⟩ := @ih (start + 1) (by omega)
    exact ⟨_, by simp only [field?, hlow, hhigh]; rfl⟩

end Bytes

namespace Instruction

open Bytes

variable {code code' : Array UInt8} {pos start width n : Nat} {i : Instruction} {op : Opcode}

def distance? : Instruction → Option Int32
  | jump rel | jumpIfFalse rel => some rel
  | _ => none

theorem operand_eq_ok_iff :
    operand code width start = .ok n ↔ n < Nat.pow 256 width ∧ At code start (littleEndian width n) := by
  rw [← field?_eq_some_iff, operand]
  cases field? code width start <;> simp

theorem operand_map_eq_ok_iff {α : Type} {f : Nat → α} {g : α → Nat} {c : α → Instruction} {a : α}
    (hc : ∀ b, c b = c a → b = a) (hf : f (g a) = a) (hg : ∀ n, n < Nat.pow 256 width → g (f n) = n)
    (ha : g a < Nat.pow 256 width) :
    (operand code width start).map (fun n => c (f n)) = .ok (c a) ↔ At code start (littleEndian width (g a)) := by
  constructor
  · intro h
    cases ho : operand code width start with
    | error fault => simp [ho, Except.map] at h
    | ok n =>
      simp only [ho, Except.map, Except.ok.injEq] at h
      obtain ⟨hn, hat⟩ := operand_eq_ok_iff.mp ho
      rw [← hc _ h, hg n hn]
      exact hat
  · intro h
    rw [operand_eq_ok_iff.mpr ⟨ha, h⟩]
    simp only [Except.map, hf]

theorem ofOpcode_eq_ok_iff : ofOpcode code start i.opcode = .ok i ↔ At code start i.operandBytes := by
  have hword (n : Nat) (hn : n < Nat.pow 256 8) : (UInt64.ofNat n).toNat = n := UInt64.toNat_ofNat_of_lt' hn
  have hhalf (n : Nat) (hn : n < Nat.pow 256 4) : (UInt32.ofNat n).toNat = n := UInt32.toNat_ofNat_of_lt' hn
  have hquarter (n : Nat) (hn : n < Nat.pow 256 2) : (UInt16.ofNat n).toNat = n := UInt16.toNat_ofNat_of_lt' hn
  cases i with
  | constInt m =>
    exact operand_map_eq_ok_iff (f := fun n => (UInt64.ofNat n).toInt64) (g := fun m => m.toUInt64.toNat)
      (c := constInt) (fun _ h => constInt.inj h) (by simp) hword m.toUInt64.toNat_lt
  | constFloat bits =>
    exact operand_map_eq_ok_iff (f := UInt64.ofNat) (g := UInt64.toNat) (c := constFloat)
      (fun _ h => constFloat.inj h) (by simp) hword bits.toNat_lt
  | loadLocal slot =>
    exact operand_map_eq_ok_iff (f := UInt16.ofNat) (g := UInt16.toNat) (c := loadLocal)
      (fun _ h => loadLocal.inj h) (by simp) hquarter slot.toNat_lt
  | storeLocal slot =>
    exact operand_map_eq_ok_iff (f := UInt16.ofNat) (g := UInt16.toNat) (c := storeLocal)
      (fun _ h => storeLocal.inj h) (by simp) hquarter slot.toNat_lt
  | jump rel =>
    exact operand_map_eq_ok_iff (f := fun n => (UInt32.ofNat n).toInt32) (g := fun rel => rel.toUInt32.toNat)
      (c := jump) (fun _ h => jump.inj h) (by simp) hhalf rel.toUInt32.toNat_lt
  | jumpIfFalse rel =>
    exact operand_map_eq_ok_iff (f := fun n => (UInt32.ofNat n).toInt32) (g := fun rel => rel.toUInt32.toNat)
      (c := jumpIfFalse) (fun _ h => jumpIfFalse.inj h) (by simp) hhalf rel.toUInt32.toNat_lt
  | call function argc =>
    have hone : littleEndian 1 argc.toNat = [argc] := by simp [littleEndian]
    simp only [opcode, operandBytes, at_append, length_littleEndian]
    rw [← hone]
    constructor
    · intro h
      cases hf : operand code 4 start with
      | error fault => simp [ofOpcode, hf, bind, Except.bind] at h
      | ok m =>
        cases ha : operand code 1 (start + 4) with
        | error fault => simp [ofOpcode, hf, ha, bind, Except.bind] at h
        | ok k =>
          simp only [ofOpcode, hf, ha, bind, Except.bind, pure, Except.pure, Except.ok.injEq, call.injEq] at h
          obtain ⟨rfl, rfl⟩ := h
          obtain ⟨hm, hmat⟩ := operand_eq_ok_iff.mp hf
          obtain ⟨hk, hkat⟩ := operand_eq_ok_iff.mp ha
          rw [hhalf m hm, UInt8.toNat_ofNat_of_lt' hk]
          exact ⟨hmat, hkat⟩
    · rintro ⟨hm, hk⟩
      have hf := operand_eq_ok_iff.mpr ⟨function.toNat_lt, hm⟩
      have ha := operand_eq_ok_iff.mpr ⟨argc.toNat_lt, hk⟩
      simp [ofOpcode, hf, ha, bind, Except.bind, pure, Except.pure]
  | _ => simp [ofOpcode, opcode, operandBytes, At]

theorem decode_eq_ok_iff : decode code pos = .ok i ↔ At code pos i.encode := by
  constructor
  · intro h
    rw [decode] at h
    split at h
    · cases h
    · next byte hb =>
      obtain ⟨hpos, -⟩ := Array.getElem?_eq_some_iff.mp hb
      split at h
      · cases h
      · next op hop =>
        obtain ⟨rfl, -⟩ := ofOpcode_ok (by omega) h
        exact ⟨hb.trans (congrArg some (Opcode.byte_of_ofByte? hop).symm), ofOpcode_eq_ok_iff.mp h⟩
  · rintro ⟨hb, h⟩
    simp only [decode, hb, Opcode.ofByte?_byte]
    exact ofOpcode_eq_ok_iff.mpr h

theorem exists_operand (code : Array UInt8) (h : start + width ≤ code.size) :
    ∃ n, operand code width start = .ok n := by
  obtain ⟨n, hn⟩ := exists_field? h
  exact ⟨n, by rw [operand, hn]⟩

theorem exists_ofOpcode (h : start + op.operandSize ≤ code.size) : ∃ i, ofOpcode code start op = .ok i := by
  have single (f : Nat → Instruction) (w : Nat) (hw : start + w ≤ code.size) :
      ∃ i, (operand code w start).map f = .ok i := by
    obtain ⟨n, hn⟩ := exists_operand code hw
    exact ⟨f n, by rw [hn]; rfl⟩
  cases op with
  | constInt | constFloat | loadLocal | storeLocal | jump | jumpIfFalse => exact single _ _ h
  | call =>
    simp only [Opcode.operandSize] at h
    obtain ⟨function, hf⟩ : ∃ n, operand code 4 start = .ok n := exists_operand code (by omega)
    obtain ⟨argc, ha⟩ : ∃ n, operand code 1 (start + 4) = .ok n := exists_operand code (by omega)
    exact ⟨_, by simp only [ofOpcode, hf, ha]; rfl⟩
  | _ => exact ⟨_, rfl⟩

theorem exists_decode_iff :
    (∃ i, decode code pos = .ok i ∧ i.opcode = op) ↔
      code[pos]? = some op.byte ∧ pos + (1 + op.operandSize) ≤ code.size := by
  constructor
  · rintro ⟨i, hi, rfl⟩
    exact ⟨(decode_eq_ok_iff.mp hi).1, decode_bound hi⟩
  · rintro ⟨hb, hroom⟩
    obtain ⟨i, hi⟩ : ∃ i, ofOpcode code (pos + 1) op = .ok i := exists_ofOpcode (by omega)
    have hop := (ofOpcode_ok (by omega) hi).1
    exact ⟨i, by simpa only [decode, hb, Opcode.ofByte?_byte] using hi, hop⟩

end Instruction

namespace Bytecode

variable {code : Array UInt8} {pos : Nat}

def outlineFrom (code : Array UInt8) (pos : Nat) : List (Nat × Opcode) :=
  match code[pos]?.bind Opcode.ofByte? with
  | none => []
  | some op =>
    let next := pos + (1 + op.operandSize)
    if next ≤ code.size then (pos, op) :: outlineFrom code next else []
termination_by code.size - pos
decreasing_by omega

def outline (code : Array UInt8) : List (Nat × Opcode) := outlineFrom code 0

theorem outlineFrom_eq : outlineFrom code pos = (walkFrom code pos).map fun (o, i) => (o, i.opcode) := by
  induction pos using walkFrom.induct code with
  | case1 pos i hi ih =>
    obtain ⟨hbyte, hroom⟩ := Instruction.exists_decode_iff.mp ⟨i, hi, rfl⟩
    rw [walkFrom_ok hi, outlineFrom]
    simp only [hbyte, Option.bind_some, Opcode.ofByte?_byte, hroom, if_true, List.map_cons]
    rw [← ih]
    rfl
  | case2 pos fault hf =>
    rw [walkFrom_error hf, outlineFrom]
    split
    · rfl
    · next op hop =>
      obtain ⟨b, hb, hop⟩ := Option.bind_eq_some_iff.mp hop
      obtain rfl := Opcode.byte_of_ofByte? hop
      refine if_neg fun hroom => ?_
      obtain ⟨i, hi, -⟩ := Instruction.exists_decode_iff.mpr ⟨hb, hroom⟩
      cases hf.symm.trans hi

end Bytecode

end Interception
