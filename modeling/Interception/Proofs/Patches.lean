import Interception.Proofs.Emissions

namespace Interception

namespace Activation

variable {a : Activation} {p : Program} {rel : Int32} {next target : Nat}

theorem step_jump (hi : Instruction.decode a.code.body a.pc = .ok (.jump rel))
    (h : ((a.pc + 5 : Nat) : Int) + rel.toInt = target) (ht : target ≤ a.code.body.size) :
    a.step p = .running { a with pc := target } := by
  have htarget : a.jumpTarget (a.pc + 5) rel = .ok target := jumpTarget_eq_ok_iff.mpr ⟨h, ht⟩
  have hadvance : a.advance p = .ok (.running { a with pc := target }) := by
    rw [advance_of_decode hi]
    simp only [Instruction.size, Instruction.opcode, Opcode.operandSize, execute, htarget]
    rfl
  rw [step, hadvance]

theorem step_jumpIfFalse {v : Value} {rest : List Value}
    (hi : Instruction.decode a.code.body a.pc = .ok (.jumpIfFalse rel)) (ho : a.operands = v :: rest)
    (hv : v.truthy = false) (h : ((a.pc + 5 : Nat) : Int) + rel.toInt = target) (ht : target ≤ a.code.body.size) :
    a.step p = .running { a with pc := target, operands := rest } := by
  have hpop : a.pop = .ok (v, { a with operands := rest }) := by rw [pop, ho]
  have htarget : ({ a with operands := rest } : Activation).jumpTarget (a.pc + 5) rel = .ok target :=
    jumpTarget_eq_ok_iff.mpr ⟨h, ht⟩
  have hadvance : a.advance p = .ok (.running { a with pc := target, operands := rest }) := by
    rw [advance_of_decode hi]
    simp only [Instruction.size, Instruction.opcode, Opcode.operandSize, execute, hpop, hv, bind, Except.bind, htarget]
    rfl
  rw [step, hadvance]

end Activation

namespace Bytecode

open Instruction Bytes

variable {b b' : Builder} {d d' : Draft} {e : Emission} {es : List Emission} {i : Instruction} {pos lo hi : Nat}

namespace Builder

def distanceFrom (b : Builder) (pos : Nat) : Int32 := Int32.ofInt ((b.offset : Int) - (pos + 5 : Nat))

theorem patchJump?_eq_none_iff : b.patchJump? pos = none ↔ b.offset < pos + 5 := by
  rw [patchJump?]
  split <;> simp <;> omega

theorem of_patchJump? (h : b.patchJump? pos = some b') :
    pos + 5 ≤ b.offset ∧ b'.code = redirect b.code pos (b.distanceFrom pos) := by
  rw [patchJump?] at h
  split at h
  · next hroom =>
    obtain rfl := Option.some.inj h
    refine ⟨hroom, ?_⟩
    rw [distanceFrom, redirect]
  · cases h

theorem toInt_distanceFrom (hroom : pos + 5 ≤ b.offset) (hnear : b.offset - (pos + 5) < Nat.pow 2 31) :
    ((pos + 5 : Nat) : Int) + (b.distanceFrom pos).toInt = b.offset := by
  have hpow : Nat.pow 2 31 = 2147483648 := rfl
  rw [distanceFrom, Int32.toInt_ofInt_of_le (by omega) (by omega)]
  omega

end Builder

def Emission.patched? (placeholders : Array Nat) : Emission → Option Nat
  | patch k => placeholders[k]?
  | patchAt pos => some pos
  | _ => none

namespace Draft

def Spares (lo hi : Nat) : Draft → List Emission → Prop
  | _, [] => True
  | d, e :: es => (∀ o, e.patched? d.placeholders = some o → o + 5 ≤ lo ∨ hi ≤ o + 1) ∧
    ∀ d', d.add? e = some d' → d'.Spares lo hi es

theorem add?_cases (h : d.add? e = some d') :
    (∃ bytes, d'.builder.code = d.builder.code ++ bytes) ∨
      ∃ o, e.patched? d.placeholders = some o ∧ d.builder.patchJump? o = some d'.builder := by
  cases e with
  | patch k =>
    obtain ⟨o, ho, h⟩ := Option.bind_eq_some_iff.mp h
    obtain ⟨b, hb, h⟩ := Option.bind_eq_some_iff.mp h
    cases h
    exact .inr ⟨o, ho, hb⟩
  | patchAt o =>
    obtain ⟨b, hb, h⟩ := Option.map_eq_some_iff.mp h
    cases h
    exact .inr ⟨o, rfl, hb⟩
  | opcode op =>
    cases h
    exact .inl ⟨#[op.byte], rfl⟩
  | _ =>
    cases h
    exact .inl ⟨_, rfl⟩

theorem offset_le_of_add? (h : d.add? e = some d') : d.builder.offset ≤ d'.builder.offset := by
  simp only [Builder.offset]
  rcases add?_cases h with ⟨bytes, hcode⟩ | ⟨o, -, hpatch⟩
  · rw [hcode, Array.size_append]
    omega
  · have hsize : d'.builder.code.size = d.builder.code.size := by
      rw [(Builder.of_patchJump? hpatch).2, size_redirect]
    omega

theorem add?_keeps (h : d.add? e = some d')
    (hs : ∀ o, e.patched? d.placeholders = some o → o + 5 ≤ lo ∨ hi ≤ o + 1) (hroom : hi ≤ d.builder.offset)
    {k : Nat} (hlo : lo ≤ k) (hhi : k < hi) : d'.builder.code[k]? = d.builder.code[k]? := by
  rcases add?_cases h with ⟨bytes, hcode⟩ | ⟨o, ho, hpatch⟩
  · simp only [Builder.offset] at hroom
    rw [hcode, Array.getElem?_append_left (by omega)]
  · have hapart := hs o ho
    rw [(Builder.of_patchJump? hpatch).2, getElem?_redirect (by omega)]

theorem addAll?_keeps (h : d.addAll? es = some d') (hs : d.Spares lo hi es) (hroom : hi ≤ d.builder.offset) :
    d.builder.offset ≤ d'.builder.offset ∧
      ∀ k, lo ≤ k → k < hi → d'.builder.code[k]? = d.builder.code[k]? := by
  induction es generalizing d with
  | nil =>
    cases h
    exact ⟨Nat.le_refl _, fun _ _ _ => rfl⟩
  | cons e es ih =>
    rw [addAll?, List.foldlM_cons] at h
    obtain ⟨d₁, hadd, h⟩ := Option.bind_eq_some_iff.mp h
    have hgrows := offset_le_of_add? hadd
    obtain ⟨hrest, hkept⟩ := ih h (hs.2 d₁ hadd) (by omega)
    refine ⟨by omega, fun k hlo hhi => ?_⟩
    rw [hkept k hlo hhi, add?_keeps hadd hs.1 hroom hlo hhi]

end Draft

theorem encode_of_distance? {rel : Int32} (h : i.distance? = some rel) :
    i.encode = i.opcode.byte :: littleEndian 4 rel.toUInt32.toNat := by
  cases i with
  | jump | jumpIfFalse =>
    cases h
    rfl
  | _ => cases h

theorem decode_patched {placeholders : Array Nat} (hpatch : b.patchJump? pos = some b')
    (h : (⟨b', placeholders⟩ : Draft).addAll? es = some d) (hs : Draft.Spares pos (pos + 5) ⟨b', placeholders⟩ es)
    (hbyte : b.code[pos]? = some i.opcode.byte) (hi : i.distance? = some (b.distanceFrom pos)) :
    decode d.builder.finish.1 pos = .ok i ∧ b.offset ≤ d.builder.finish.1.size := by
  obtain ⟨hroom, hcode⟩ := Builder.of_patchJump? hpatch
  have hsize : b'.offset = b.offset := by
    rw [Builder.offset, hcode, size_redirect]
    rfl
  obtain ⟨hgrows, hkept⟩ := Draft.addAll?_keeps h hs (by simp only [hsize, hroom])
  have hlength := length_littleEndian 4 (b.distanceFrom pos).toUInt32.toNat
  have hopcode : b'.code[pos]? = some i.opcode.byte := by
    rw [hcode, getElem?_redirect (.inl (Nat.lt_succ_self pos)), hbyte]
  have hoperand : At b'.code (pos + 1) (littleEndian 4 (b.distanceFrom pos).toUInt32.toNat) := by
    rw [hcode]
    apply at_overwrite
    simp only [Builder.offset] at hroom
    omega
  have hat : At b'.code pos i.encode := by
    rw [encode_of_distance? hi]
    exact ⟨hopcode, hoperand⟩
  refine ⟨decode_eq_ok_iff.mpr (hat.congr fun k hk hlt => hkept k hk ?_), by rw [← hsize]; exact hgrows⟩
  rw [encode_of_distance? hi, List.length_cons] at hlt
  omega

def JumpsTo (code : Array UInt8) (pos target : Nat) : Opcode → Prop
  | .jump => ∀ (p : Program) (a : Activation), a.code.body = code → a.pc = pos →
    a.step p = .running { a with pc := target }
  | .jumpIfFalse => ∀ (p : Program) (a : Activation) (v : Value) (rest : List Value), a.code.body = code → a.pc = pos →
    a.operands = v :: rest → v.truthy = false → a.step p = .running { a with pc := target, operands := rest }
  | _ => False

theorem jumpsTo_patched {op : Opcode} {placeholders : Array Nat} (hpatch : b.patchJump? pos = some b')
    (hnear : b.offset - (pos + 5) < Nat.pow 2 31) (h : (⟨b', placeholders⟩ : Draft).addAll? es = some d)
    (hs : Draft.Spares pos (pos + 5) ⟨b', placeholders⟩ es) (hop : op.IsJump) (hbyte : b.code[pos]? = some op.byte) :
    JumpsTo d.builder.finish.1 pos b.offset op := by
  have htarget := Builder.toInt_distanceFrom (Builder.of_patchJump? hpatch).1 hnear
  rcases hop with rfl | rfl
  · intro p a hcode hpc
    obtain ⟨hi, hle⟩ := decode_patched (i := .jump (b.distanceFrom pos)) hpatch h hs hbyte rfl
    subst hpc
    rw [← hcode] at hi hle
    exact Activation.step_jump hi htarget hle
  · intro p a v rest hcode hpc ho hv
    obtain ⟨hi, hle⟩ := decode_patched (i := .jumpIfFalse (b.distanceFrom pos)) hpatch h hs hbyte rfl
    subst hpc
    rw [← hcode] at hi hle
    exact Activation.step_jumpIfFalse hi ho hv htarget hle

theorem byte_placed {b : Builder} {d : Draft} {op : Opcode} {es : List Emission} {placeholders : Array Nat}
    (h : d.addAll? (.placeholder op :: es) = some ⟨b, placeholders⟩)
    (hs : d.Spares d.builder.offset (d.builder.offset + 1) (.placeholder op :: es)) :
    b.code[d.builder.offset]? = some op.byte := by
  rw [Draft.addAll?, List.foldlM_cons] at h
  obtain ⟨d₁, hadd, h⟩ := Option.bind_eq_some_iff.mp h
  have hspared := hs.2 d₁ hadd
  cases hadd
  have hplaced : (d.builder.emitJump op 0).code[d.builder.offset]? = some op.byte := by
    simp [Builder.emitJump, Builder.offset]
  have hroom : d.builder.offset + 1 ≤ (d.builder.emitJump op 0).offset := by simp [Builder.emitJump, Builder.offset]
  obtain ⟨-, hkept⟩ := Draft.addAll?_keeps h hspared hroom
  exact (hkept _ (Nat.le_refl _) (Nat.lt_succ_self _)).trans hplaced

structure PatchLands (b : Builder) (pos : Nat) : Prop where
  fails : b.patchJump? pos = none ↔ b.offset < pos + 5
  offset : ∀ {b'}, b.patchJump? pos = some b' → b'.offset = b.offset
  kept : ∀ {b'}, b.patchJump? pos = some b' → ∀ {k}, k < pos + 1 ∨ pos + 5 ≤ k → b'.code[k]? = b.code[k]?
  lands : ∀ {b'}, b.patchJump? pos = some b' → b.offset - (pos + 5) < Nat.pow 2 31 →
    ∀ {op : Opcode}, op.IsJump → b.code[pos]? = some op.byte →
    ∀ {placeholders es d}, (⟨b', placeholders⟩ : Draft).addAll? es = some d →
      Draft.Spares pos (pos + 5) ⟨b', placeholders⟩ es → JumpsTo d.builder.finish.1 pos b.offset op
  placed : ∀ {d : Draft} {op es placeholders}, d.builder.offset = pos →
    d.addAll? (.placeholder op :: es) = some ⟨b, placeholders⟩ → d.Spares pos (pos + 1) (.placeholder op :: es) →
    b.code[pos]? = some op.byte

/-- Patching fails exactly if the jump would not lie within the code, and otherwise writes its distance and nothing
else. The finished code leads from the jump to the offset at which it was last patched. -/
theorem patched_jump_lands (b : Builder) (pos : Nat) : PatchLands b pos where
  fails := Builder.patchJump?_eq_none_iff
  offset hpatch := by
    rw [Builder.offset, (Builder.of_patchJump? hpatch).2, size_redirect]
    rfl
  kept hpatch _ hk := by rw [(Builder.of_patchJump? hpatch).2, getElem?_redirect hk]
  lands hpatch hnear _ hop hbyte _ _ _ h hs := jumpsTo_patched hpatch hnear h hs hop hbyte
  placed := by
    rintro d op es placeholders rfl h hs
    exact byte_placed h hs

namespace NestedJumps

def emissions : List Emission :=
  [.placeholder .jump, .placeholder .jumpIfFalse, .opcode .constTrue, .patch 0, .opcode .constNull, .patch 1,
    .opcode .nop, .patch 0, .opcode .constTrue, .opcode .ret]

def code : Array UInt8 := #[0x30, 8, 0, 0, 0, 0x31, 2, 0, 0, 0, 0x03, 0x02, 0x00, 0x03, 0x33]

def beforeInner : Builder := ⟨#[0x30, 6, 0, 0, 0, 0x31, 0, 0, 0, 0, 0x03, 0x02]⟩

def beforeOuter : Builder := ⟨#[0x30, 6, 0, 0, 0, 0x31, 2, 0, 0, 0, 0x03, 0x02, 0x00]⟩

theorem patched_jump_lands_nested : (Body.emissions emissions).assemble? = some code ∧
    JumpsTo code 0 13 .jump ∧ JumpsTo code 5 12 .jumpIfFalse := by
  have hplaced : Draft.Spares 0 1 {} (emissions.take 7) := by
    simp [emissions, Draft.Spares, Draft.add?, Emission.patched?, Builder.patchJump?, Builder.offset]
  have hall : ({} : Draft).addAll? (.placeholder .jump :: (emissions.take 7).tail) = some ⟨beforeOuter, #[0, 5]⟩ := rfl
  have houter : beforeOuter.code[0]? = some Opcode.jump.byte :=
    (patched_jump_lands beforeOuter 0).placed rfl hall hplaced
  have hspared : Draft.Spares 5 10 ⟨⟨#[0x30, 6, 0, 0, 0, 0x31, 2, 0, 0, 0, 0x03, 0x02]⟩, #[0, 5]⟩
      (emissions.drop 6) := by
    simp [emissions, Draft.Spares, Draft.add?, Emission.patched?, Builder.patchJump?, Builder.offset]
  have hkept : Draft.Spares 0 5 ⟨⟨#[0x30, 8, 0, 0, 0, 0x31, 2, 0, 0, 0, 0x03, 0x02, 0x00]⟩, #[0, 5]⟩
      (emissions.drop 8) := by
    simp [emissions, Draft.Spares, Draft.add?, Emission.patched?]
  refine ⟨rfl, ?_, ?_⟩
  · exact (patched_jump_lands beforeOuter 0).lands rfl (by decide) (.inl rfl) houter rfl hkept
  · exact (patched_jump_lands beforeInner 5).lands rfl (by decide) (.inr rfl) rfl rfl hspared

end NestedJumps

end Bytecode

end Interception
