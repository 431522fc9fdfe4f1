import Mathlib.Data.List.Forall2
import Interception.Proofs.Encoding
import Interception.Proofs.LinearWalk

namespace Interception

def Opcode.IsJump (op : Opcode) : Prop := op = .jump ∨ op = .jumpIfFalse

theorem Opcode.IsJump.operandSize {op : Opcode} (h : op.IsJump) : op.operandSize = 4 := by
  rcases h with rfl | rfl <;> rfl

theorem Opcode.IsJump.size {i : Instruction} (h : i.opcode.IsJump) : i.size = 5 := by
  rw [Instruction.size, h.operandSize]

namespace Bytecode

open Instruction Bytes

variable {code code' : Array UInt8} {pos o : Nat} {i j : Instruction} {is : List Instruction} {op : Opcode}
  {ops : List Opcode}

def Lists (code : Array UInt8) : Nat → List Instruction → Prop
  | pos, [] => pos = code.size
  | pos, i :: is => decode code pos = .ok i ∧ Lists code (pos + i.size) is

def placed : Nat → List Instruction → List (Nat × Instruction)
  | _, [] => []
  | pos, i :: is => (pos, i) :: placed (pos + i.size) is

def layout : Nat → List Opcode → List (Nat × Opcode)
  | _, [] => []
  | pos, op :: ops => (pos, op) :: layout (pos + (1 + op.operandSize)) ops

theorem map_placed (pos : Nat) (is : List Instruction) :
    (placed pos is).map (fun (o, i) => (o, i.opcode)) = layout pos (is.map opcode) := by
  induction is generalizing pos with
  | nil => rfl
  | cons i is ih => simp [placed, layout, ih, size]

theorem layout_append (h : (o, op) ∈ layout pos ops) (more : List Opcode) : (o, op) ∈ layout pos (ops ++ more) := by
  induction ops generalizing pos with
  | nil => exact absurd h List.not_mem_nil
  | cons head ops ih =>
    rcases List.mem_cons.mp h with h | h
    · exact List.mem_cons.mpr (.inl h)
    · exact List.mem_cons.mpr (.inr (ih h))

theorem le_of_mem_layout (h : (o, op) ∈ layout pos ops) : pos ≤ o := by
  induction ops generalizing pos with
  | nil => exact absurd h List.not_mem_nil
  | cons head ops ih =>
    rcases List.mem_cons.mp h with h | h
    · cases h
      exact Nat.le_refl _
    · have hle := ih h
      omega

def redirect (code : Array UInt8) (o : Nat) (rel : Int32) : Array UInt8 :=
  overwrite code (o + 1) (littleEndian 4 rel.toUInt32.toNat)

@[simp] theorem size_redirect (rel : Int32) : (redirect code o rel).size = code.size := size_overwrite ..

theorem getElem?_redirect {rel : Int32} {k : Nat} (hk : k < o + 1 ∨ o + 5 ≤ k) :
    (redirect code o rel)[k]? = code[k]? :=
  getElem?_overwrite (by rw [length_littleEndian]; omega)

theorem redirect_jump (h : decode code o = .ok i) (hi : i.opcode.IsJump) (rel : Int32) :
    ∃ j, decode (redirect code o rel) o = .ok j ∧ j.opcode = i.opcode := by
  have hroom := decode_bound h
  rw [hi.size] at hroom
  have hopcode : At (redirect code o rel) o [i.opcode.byte] :=
    ⟨(getElem?_redirect (.inl (Nat.lt_succ_self o))).trans (decode_eq_ok_iff.mp h).1, trivial⟩
  have hoperand : At (redirect code o rel) (o + 1) (littleEndian 4 rel.toUInt32.toNat) :=
    at_overwrite (by rw [length_littleEndian]; omega)
  have hat := at_append.mpr ⟨hopcode, hoperand⟩
  rcases hi with hi | hi
  · exact ⟨.jump rel, decode_eq_ok_iff.mpr (by rwa [hi] at hat), hi.symm⟩
  · exact ⟨.jumpIfFalse rel, decode_eq_ok_iff.mpr (by rwa [hi] at hat), hi.symm⟩

namespace Lists

theorem walked (h : Lists code pos is) : walkFrom code pos = placed pos is ∧ endFrom code pos = code.size := by
  induction is generalizing pos with
  | nil =>
    obtain rfl : pos = code.size := h
    have hend : decode code code.size = .error (.truncatedOperand code.size) := by simp [decode]
    exact ⟨walkFrom_error hend, endFrom_error hend⟩
  | cons i is ih =>
    obtain ⟨hwalk, hend⟩ := ih h.2
    rw [walkFrom_ok h.1, endFrom_ok h.1, hwalk]
    exact ⟨rfl, hend⟩

theorem outlined (h : Lists code 0 is) : outline code = layout 0 (is.map opcode) := by
  rw [Bytecode.outline, outlineFrom_eq, h.walked.1, map_placed]

theorem decoded (h : Lists code pos is) (hi : (o, i) ∈ placed pos is) : decode code o = .ok i := by
  induction is generalizing pos with
  | nil => exact absurd hi List.not_mem_nil
  | cons j is ih =>
    rcases List.mem_cons.mp hi with hi | hi
    · cases hi
      exact h.1
    · exact ih h.2 hi

theorem bound (h : Lists code pos is) (hop : (o, op) ∈ layout pos (is.map opcode)) :
    o + (1 + op.operandSize) ≤ code.size := by
  induction is generalizing pos with
  | nil => exact absurd hop List.not_mem_nil
  | cons i is ih =>
    rcases List.mem_cons.mp hop with hop | hop
    · cases hop
      exact decode_bound h.1
    · exact ih h.2 hop

theorem last_mem_layout (h : Lists code pos is) (i : Instruction) :
    (code.size, i.opcode) ∈ layout pos (is.map opcode ++ [i].map opcode) := by
  induction is generalizing pos with
  | nil =>
    obtain rfl : pos = code.size := h
    exact List.mem_cons_self
  | cons j is ih => exact List.mem_cons_of_mem _ (ih h.2)

theorem emit (h : Lists code pos is) (i : Instruction) : Lists (code ++ i.encode.toArray) pos (is ++ [i]) := by
  induction is generalizing pos with
  | nil =>
    obtain rfl : pos = code.size := h
    refine ⟨decode_eq_ok_iff.mpr (at_size code i.encode), ?_⟩
    change code.size + i.size = (code ++ i.encode.toArray).size
    rw [Array.size_append, ← length_encode]
    rfl
  | cons j is ih => exact ⟨decode_eq_ok_iff.mpr ((decode_eq_ok_iff.mp h.1).extend _), ih h.2⟩

theorem congr (h : Lists code pos is) (hsize : code'.size = code.size)
    (hc : ∀ k, pos ≤ k → code'[k]? = code[k]?) : Lists code' pos is := by
  induction is generalizing pos with
  | nil =>
    obtain rfl : pos = code.size := h
    exact hsize.symm
  | cons i is ih =>
    refine ⟨decode_eq_ok_iff.mpr ((decode_eq_ok_iff.mp h.1).congr fun k hk _ => hc k hk), ih h.2 fun k hk => ?_⟩
    exact hc k (by omega)

theorem patch (h : Lists code pos is) (hop : (o, op) ∈ layout pos (is.map opcode)) (hjump : op.IsJump)
    (rel : Int32) : ∃ is', Lists (redirect code o rel) pos is' ∧ is'.map opcode = is.map opcode := by
  induction is generalizing pos with
  | nil => exact absurd hop List.not_mem_nil
  | cons i is ih =>
    rcases List.mem_cons.mp hop with hop | hop
    · cases hop
      obtain ⟨j, hj, hsame⟩ := redirect_jump h.1 hjump rel
      have hsize : j.size = i.size := by rw [size, hsame, size]
      have hrest : Lists (redirect code o rel) (o + i.size) is :=
        h.2.congr (size_redirect rel) fun k hk => getElem?_redirect (.inr (by rw [hjump.size] at hk; exact hk))
      exact ⟨j :: is, ⟨hj, by rwa [hsize]⟩, by rw [List.map_cons, List.map_cons, hsame]⟩
    · obtain ⟨is', his', hsame⟩ := ih h.2 hop
      have hafter : pos + i.size ≤ o := le_of_mem_layout hop
      have hhead : At (redirect code o rel) pos i.encode := (decode_eq_ok_iff.mp h.1).congr fun k _ hk => by
        rw [length_encode] at hk
        exact getElem?_redirect (.inl (by omega))
      exact ⟨i :: is', ⟨decode_eq_ok_iff.mpr hhead, his'⟩, by rw [List.map_cons, List.map_cons, hsame]⟩

end Lists

namespace Emission

def Complete : Emission → Prop
  | opcode op => op.operandSize = 0
  | instruction _ => True
  | jump op _ | placeholder op | jumpTo op _ => op.IsJump
  | patch _ | patchAt _ => False

def Writes (offset : Nat) : Emission → Instruction → Prop
  | opcode op, i => i.opcode = op
  | instruction j, i => i = j
  | jump op rel, i => i.opcode = op ∧ i.distance? = some rel
  | placeholder op, i => i.opcode = op ∧ i.distance? = some 0
  | jumpTo op target, i => i.opcode = op ∧ i.distance? = some (Int32.ofInt (target - (offset + 5)))
  | patch _, _ | patchAt _, _ => False

def isPatch : Emission → Bool
  | patch _ => true
  | _ => false

def marks (offset : Nat) : Emission → Array Nat
  | placeholder _ => #[offset]
  | _ => #[]

variable {e : Emission} {offset : Nat}

theorem size_marks : (e.marks offset).size = (e.marks 0).size := by
  cases e <;> rfl

theorem exists_opcode (h : op.operandSize = 0) : ∃ i : Instruction, i.opcode = op ∧ i.encode = [op.byte] := by
  obtain ⟨i, -, rfl⟩ : ∃ i, decode #[op.byte] 0 = .ok i ∧ i.opcode = op :=
    exists_decode_iff.mpr ⟨rfl, by simp [h]⟩
  have hlength : (i.opcode.byte :: i.operandBytes).length = 1 + i.opcode.operandSize := length_encode i
  rw [h, List.length_cons] at hlength
  have hnone : i.operandBytes = [] := List.length_eq_zero_iff.mp (by omega)
  exact ⟨i, rfl, by rw [encode, hnone]⟩

theorem exists_jump (h : op.IsJump) (rel : Int32) : ∃ i : Instruction, i.opcode = op ∧ i.distance? = some rel ∧
    i.encode = op.byte :: littleEndian 4 rel.toUInt32.toNat := by
  rcases h with rfl | rfl
  · exact ⟨.jump rel, rfl, rfl, rfl⟩
  · exact ⟨.jumpIfFalse rel, rfl, rfl, rfl⟩

end Emission

def Timely : Nat → List Emission → Prop
  | _, [] => True
  | n, .patch k :: es => k < n ∧ Timely n es
  | n, e :: es => Timely (n + (e.marks 0).size) es

theorem Timely.of_not_patch {n : Nat} {e : Emission} {es : List Emission} (h : Timely n (e :: es))
    (he : e.isPatch = false) : Timely (n + (e.marks 0).size) es := by
  cases e with
  | patch => cases he
  | _ => exact h

structure Emitted where
  emission : Emission
  offset : Nat
  next : Nat

namespace Draft

variable {d d' : Draft} {e : Emission} {es es' : List Emission} {k : Nat}

def written (d : Draft) (e : Emission) (i : Instruction) : Draft :=
  ⟨d.builder.emit i, d.placeholders ++ e.marks d.builder.offset⟩

theorem offset_written : (d.written e i).builder.offset = d.builder.offset + i.size := by
  rw [← length_encode]
  exact Array.size_append

theorem exists_add? (he : e.Complete) (offset : Nat) : ∃ i, e.Writes offset i ∧
    (∀ d : Draft, d.builder.offset = offset → d.add? e = some (d.written e i)) ∧
    (e.marks offset ≠ #[] → i.opcode.IsJump) := by
  cases e with
  | opcode op =>
    obtain ⟨i, hop, hencode⟩ := Emission.exists_opcode he
    refine ⟨i, hop, fun d _ => ?_, fun hm => absurd rfl hm⟩
    simp [add?, written, Builder.emitOpcode, Builder.emit, hencode, Emission.marks]
  | instruction i =>
    refine ⟨i, rfl, fun d _ => ?_, fun hm => absurd rfl hm⟩
    simp [add?, written, Emission.marks]
  | jump op rel =>
    obtain ⟨i, hop, hrel, hencode⟩ := Emission.exists_jump he rel
    refine ⟨i, ⟨hop, hrel⟩, fun d _ => ?_, fun hm => absurd rfl hm⟩
    simp [add?, written, Builder.emitJump, Builder.emit, hencode, Emission.marks]
  | placeholder op =>
    obtain ⟨i, hop, hrel, hencode⟩ := Emission.exists_jump he 0
    refine ⟨i, ⟨hop, hrel⟩, fun d _ => ?_, fun _ => hop ▸ he⟩
    simp [add?, written, Builder.emitJump, Builder.emit, hencode, Emission.marks]
  | jumpTo op target =>
    obtain ⟨i, hop, hrel, hencode⟩ := Emission.exists_jump he (Int32.ofInt (target - (offset + 5)))
    refine ⟨i, ⟨hop, hrel⟩, fun d hd => ?_, fun hm => absurd rfl hm⟩
    simp [add?, written, Builder.emitJump, Builder.emit, hencode, Emission.marks, hd]
  | patch | patchAt => exact he.elim

structure Holds (d : Draft) (is : List Instruction) : Prop where
  lists : Lists d.builder.code 0 is
  placeholder : ∀ o ∈ d.placeholders, ∃ op, op.IsJump ∧ (o, op) ∈ layout 0 (is.map opcode)

theorem holds_empty : ({} : Draft).Holds [] := ⟨rfl, fun o ho => by simp at ho⟩

theorem Holds.written (h : d.Holds is) (hm : e.marks d.builder.offset ≠ #[] → i.opcode.IsJump) :
    (d.written e i).Holds (is ++ [i]) := by
  refine ⟨h.lists.emit i, fun o ho => ?_⟩
  rw [List.map_append]
  rcases Array.mem_append.mp ho with ho | ho
  · obtain ⟨op, hop, hmem⟩ := h.placeholder o ho
    exact ⟨op, hop, layout_append hmem _⟩
  · have hlast := h.lists.last_mem_layout i
    refine ⟨i.opcode, hm (Array.ne_empty_of_mem ho), ?_⟩
    cases e with
    | placeholder op =>
      obtain rfl : o = d.builder.offset := by simpa [Emission.marks] using ho
      exact hlast
    | _ => simp [Emission.marks] at ho

theorem Holds.patched (h : d.Holds is) (hk : k < d.placeholders.size) : ∃ is' d', d.add? (.patch k) = some d' ∧
    d'.Holds is' ∧ is'.map opcode = is.map opcode ∧ d'.placeholders = d.placeholders ∧
    d'.builder.offset = d.builder.offset := by
  have hget : d.placeholders[k]? = some d.placeholders[k] := Array.getElem?_eq_getElem hk
  obtain ⟨op, hop, hmem⟩ := h.placeholder _ (Array.getElem_mem hk)
  have hroom : d.placeholders[k] + 5 ≤ d.builder.offset := by
    have hbound := h.lists.bound hmem
    rwa [hop.operandSize] at hbound
  obtain ⟨rel, hadd⟩ : ∃ rel, d.add? (.patch k) =
      some ⟨⟨redirect d.builder.code d.placeholders[k] rel⟩, d.placeholders⟩ := by
    simp only [add?, hget, Builder.patchJump?, Option.bind_eq_bind, Option.bind_some, if_pos hroom]
    exact ⟨_, rfl⟩
  obtain ⟨is', his', hsame⟩ := h.lists.patch hmem hop rel
  have hsize : (redirect d.builder.code d.placeholders[k] rel).size = d.builder.code.size := size_redirect rel
  generalize redirect d.builder.code d.placeholders[k] rel = code' at hadd his' hsize
  refine ⟨is', _, hadd, ⟨his', ?_⟩, hsame, rfl, hsize⟩
  rw [hsame]
  exact h.placeholder

def record : Draft → List Draft → List Emission → List Emitted
  | d, d' :: ds, e :: es => ⟨e, d.builder.offset, d'.builder.offset⟩ :: d'.record ds es
  | _, _, _ => []

theorem Holds.scan (h : d.Holds is) (hes : ∀ e ∈ es, e.Complete) : ∃ ds js d', d.scan? es = some ds ∧
    d.addAll? es = some d' ∧ d'.Holds (is ++ js) ∧ (d.record ds es).map Emitted.emission = es ∧
    List.Forall₂ (fun x (o, i) => o = x.offset ∧ x.emission.Writes o i ∧ o + i.size = x.next)
      (d.record ds es) (placed d.builder.offset js) := by
  induction es generalizing d is with
  | nil => exact ⟨[], [], d, rfl, rfl, by rwa [List.append_nil], rfl, .nil⟩
  | cons e es ih =>
    obtain ⟨he, hes⟩ := List.forall_mem_cons.mp hes
    obtain ⟨i, hwrites, hadd, hm⟩ := exists_add? he d.builder.offset
    obtain ⟨ds, js, d', hscan, hall, hholds, hes', hrecord⟩ := ih (h.written hm) hes
    refine ⟨d.written e i :: ds, i :: js, d', ?_, ?_, by rwa [List.append_assoc] at hholds, ?_, .cons ?_ ?_⟩
    · simp [scan?, hadd d rfl, hscan]
    · simpa [addAll?, hadd d rfl] using hall
    · rw [record, List.map_cons, hes']
    · exact ⟨rfl, hwrites, offset_written.symm⟩
    · rwa [offset_written] at hrecord

structure Twin (d d' : Draft) : Prop where
  holds : ∃ is is', d.Holds is ∧ d'.Holds is' ∧ is'.map opcode = is.map opcode
  placeholders : d'.placeholders = d.placeholders
  offset : d'.builder.offset = d.builder.offset

theorem Twin.patched (h : d.Twin d') (hk : k < d.placeholders.size) :
    ∃ f, d'.add? (.patch k) = some f ∧ d.Twin f := by
  obtain ⟨is, is', his, his', hsame⟩ := h.holds
  obtain ⟨js, f, hf, hjs, hops, hplaceholders, hoffset⟩ := his'.patched (h.placeholders ▸ hk)
  exact ⟨f, hf, ⟨is, js, his, hjs, hops.trans hsame⟩, hplaceholders.trans h.placeholders,
    hoffset.trans h.offset⟩

theorem Twin.added (h : d.Twin d') (he : e.Complete) : ∃ f f', d.add? e = some f ∧ d'.add? e = some f' ∧
    f.Twin f' ∧ f.placeholders = d.placeholders ++ e.marks d.builder.offset := by
  obtain ⟨is, is', his, his', hsame⟩ := h.holds
  obtain ⟨i, -, hadd, hm⟩ := exists_add? he d.builder.offset
  have hm' : e.marks d'.builder.offset ≠ #[] → i.opcode.IsJump := by rwa [h.offset]
  refine ⟨_, _, hadd d rfl, hadd d' h.offset, ⟨⟨_, _, his.written hm, his'.written hm', ?_⟩, ?_, ?_⟩, rfl⟩
  · rw [List.map_append, List.map_append, hsame]
  · simp only [Draft.written, h.placeholders, h.offset]
  · rw [offset_written, offset_written, h.offset]

theorem Twin.addAll (h : d.Twin d') (hes : ∀ e ∈ es, e.Complete) (hfilter : es'.filter (!·.isPatch) = es)
    (ht : Timely d.placeholders.size es') :
    ∃ f f', d.addAll? es = some f ∧ d'.addAll? es' = some f' ∧ f.Twin f' := by
  induction es' generalizing d d' es with
  | nil =>
    subst hfilter
    exact ⟨d, d', rfl, rfl, h⟩
  | cons e es' ih =>
    cases hp : e.isPatch with
    | true =>
      cases e with
      | patch k =>
        obtain ⟨hk, ht⟩ := ht
        obtain ⟨f, hadd, hf⟩ := h.patched hk
        obtain ⟨g, g', hg, hg', htwin⟩ := ih hf hes hfilter ht
        exact ⟨g, g', hg, by simpa [addAll?, hadd] using hg', htwin⟩
      | _ => cases hp
    | false =>
      rw [List.filter_cons_of_pos (by rw [hp]; rfl)] at hfilter
      subst hfilter
      obtain ⟨he, hes⟩ := List.forall_mem_cons.mp hes
      obtain ⟨f, f', hadd, hadd', hf, hplaceholders⟩ := h.added he
      have hrest : Timely f.placeholders.size es' := by
        rw [hplaceholders, Array.size_append, Emission.size_marks]
        exact ht.of_not_patch hp
      obtain ⟨g, g', hg, hg', htwin⟩ := ih hf hes rfl hrest
      exact ⟨g, g', by simpa [addAll?, hadd] using hg, by simpa [addAll?, hadd'] using hg', htwin⟩

end Draft

structure Emitted.ReadsAs (code : Array UInt8) (x : Emitted) (y : Nat × Opcode) : Prop where
  offset : y.1 = x.offset
  instruction : ∃ i, i.opcode = y.2 ∧ x.emission.Writes x.offset i ∧ decode code x.offset = .ok i ∧
    x.offset + i.size = x.next ∧
    ∀ (p : Program) (a : Activation), a.code.body = code → a.pc = x.offset → a.advance p = a.execute p i x.next

theorem readsAs_of_decode {x : Emitted} (h : decode code x.offset = .ok i) (hw : x.emission.Writes x.offset i)
    (hn : x.offset + i.size = x.next) : x.ReadsAs code (x.offset, i.opcode) := by
  refine ⟨rfl, i, rfl, hw, h, hn, fun p a hcode hpc => ?_⟩
  subst hcode
  rw [← hpc] at h hn
  have hroom := decode_bound h
  have hlt : a.pc < a.code.body.size := by
    simp only [size] at hroom
    omega
  simp only [Activation.advance, if_pos hlt, h, hn]

structure ReadBack (es : List Emission) (ds : List Draft) (code : Array UInt8) : Prop where
  emissions : (({} : Draft).record ds es).map Emitted.emission = es
  reads : List.Forall₂ (Emitted.ReadsAs code) (({} : Draft).record ds es) (outline code)
  consumed : endFrom code 0 = code.size
  patched : ∀ {es'}, es'.filter (!·.isPatch) = es → Timely 0 es' →
    ∃ code', (Body.emissions es').assemble? = some code' ∧ outline code' = outline code ∧
      endFrom code' 0 = code'.size ∧ code'.size = code.size

/-- Emitting and decoding are inverse, and patching changes neither the opcodes nor their offsets. -/
theorem emissions_read_back (es : List Emission) (hes : ∀ e ∈ es, e.Complete) :
    ∃ ds code, ({} : Draft).scan? es = some ds ∧ (Body.emissions es).assemble? = some code ∧ ReadBack es ds code := by
  obtain ⟨ds, is, d, hscan, hall, hd, hemissions, hrecord⟩ := Draft.holds_empty.scan hes
  rw [List.nil_append] at hd
  refine ⟨ds, d.builder.code, hscan, by rw [Body.assemble?, hall]; rfl, hemissions, ?_, hd.lists.walked.2, ?_⟩
  · rw [outline, outlineFrom_eq, hd.lists.walked.1, List.forall₂_map_right_iff]
    refine List.forall₂_iff_zip.mpr ⟨hrecord.length_eq, @fun x (o, i) hmem => ?_⟩
    obtain ⟨ho, hw, hn⟩ := List.forall₂_zip hrecord hmem
    subst ho
    exact readsAs_of_decode (hd.lists.decoded (List.of_mem_zip hmem).2) hw hn
  · intro es' hfilter ht
    have htwin : Draft.Twin {} {} := ⟨⟨[], [], Draft.holds_empty, Draft.holds_empty, rfl⟩, rfl, rfl⟩
    obtain ⟨f, f', hf, hf', ⟨js, js', hjs, hjs', hsame⟩, -, hoffset⟩ := htwin.addAll hes hfilter ht
    obtain rfl : f = d := Option.some.inj (hf.symm.trans hall)
    refine ⟨f'.builder.code, by rw [Body.assemble?, hf']; rfl, ?_, hjs'.lists.walked.2, hoffset⟩
    rw [hjs'.lists.outlined, hjs.lists.outlined, hsame]

namespace Summation

def loop : List Emission :=
  [.instruction (.loadLocal 2), .instruction (.loadLocal 0), .opcode .lt, .placeholder .jumpIfFalse,
    .instruction (.loadLocal 1), .instruction (.loadLocal 2), .opcode .add, .instruction (.storeLocal 1),
    .instruction (.loadLocal 2), .instruction (.constInt 1), .opcode .add, .instruction (.storeLocal 2),
    .jumpTo .jump 0, .instruction (.loadLocal 1), .opcode .ret]

def patchedLoop : List Emission := loop.take 13 ++ .patch 0 :: loop.drop 13

theorem emissions_read_back_loop : ∃ code code', (Body.emissions loop).assemble? = some code ∧
    (Body.emissions patchedLoop).assemble? = some code' ∧ endFrom code' 0 = code'.size ∧
    outline code' = outline code ∧ (outline code).length = 15 := by
  have hcomplete : ∀ e ∈ loop, e.Complete := by
    simp [loop, Emission.Complete, Opcode.operandSize, Opcode.IsJump]
  have htimely : Timely 0 patchedLoop := by simp [patchedLoop, loop, Timely, Emission.marks]
  obtain ⟨ds, code, -, hcode, hread⟩ := emissions_read_back loop hcomplete
  have hfilter : patchedLoop.filter (!·.isPatch) = loop := rfl
  obtain ⟨code', hcode', houtline, hend, -⟩ := hread.patched hfilter htimely
  refine ⟨code, code', hcode, hcode', hend, houtline, ?_⟩
  rw [← hread.reads.length_eq, ← List.length_map, hread.emissions]
  rfl

end Summation

end Bytecode

end Interception
