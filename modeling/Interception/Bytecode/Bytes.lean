namespace Interception.Bytes

def littleEndian : Nat → Nat → List UInt8
  | 0, _ => []
  | width + 1, n => UInt8.ofNat n :: littleEndian width (n / 256)

def field? (code : Array UInt8) : Nat → Nat → Option Nat
  | 0, _ => some 0
  | width + 1, start => do
    let low ← code[start]?
    let high ← field? code width (start + 1)
    pure (low.toNat + 256 * high)

theorem field?_bound {code : Array UInt8} {width start n : Nat} (hw : 0 < width)
    (h : field? code width start = some n) : start + width ≤ code.size := by
  induction width generalizing start n with
  | zero => omega
  | succ width ih =>
    simp only [field?, Option.bind_eq_bind, Option.bind_eq_some_iff] at h
    obtain ⟨low, hl, high, hh, -⟩ := h
    obtain ⟨hs, -⟩ := Array.getElem?_eq_some_iff.mp hl
    rcases Nat.eq_zero_or_pos width with rfl | hp
    · omega
    · have := ih hp hh; omega

@[simp] theorem length_littleEndian (width n : Nat) : (littleEndian width n).length = width := by
  induction width generalizing n with
  | zero => rfl
  | succ width ih => simp [littleEndian, ih]

def overwrite (code : Array UInt8) : Nat → List UInt8 → Array UInt8
  | _, [] => code
  | start, b :: rest => overwrite (code.setIfInBounds start b) (start + 1) rest

@[simp] theorem size_overwrite (code : Array UInt8) (start : Nat) (bytes : List UInt8) :
    (overwrite code start bytes).size = code.size := by
  induction bytes generalizing code start with
  | nil => rfl
  | cons b rest ih => simp [overwrite, ih]

end Interception.Bytes
