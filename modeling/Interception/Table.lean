namespace Interception

structure Table (α : Type) where
  cells : Array α := #[]

namespace Table

variable {α : Type} [Inhabited α]

def get (t : Table α) (i : Nat) : α := t.cells.getD i default

def set (t : Table α) (i : Nat) (a : α) : Table α :=
  ⟨(t.cells ++ Array.replicate (i + 1 - t.cells.size) default).setIfInBounds i a⟩

def add (t : Table α) (a : α) : Nat × Table α := (t.cells.size, ⟨t.cells.push a⟩)

instance : Inhabited (Table α) := ⟨{}⟩

@[simp] theorem get_set_self (t : Table α) (i : Nat) (a : α) : (t.set i a).get i = a := by
  simp [get, set]; omega

theorem get_set_ne (t : Table α) {i j : Nat} (a : α) (h : i ≠ j) : (t.set i a).get j = t.get j := by
  simp only [get, set, Array.getD_eq_getD_getElem?, Array.getElem?_setIfInBounds_ne h,
    Array.getElem?_append, Array.getElem?_replicate]
  split
  · rfl
  · split <;> simp_all

@[simp] theorem get_add_new (t : Table α) (a : α) : (t.add a).2.get (t.add a).1 = a := by
  simp [get, add]

theorem get_add_old (t : Table α) (a : α) {i : Nat} (h : i ≠ (t.add a).1) :
    (t.add a).2.get i = t.get i := by
  simp only [get, add, Array.getD_eq_getD_getElem?, Array.getElem?_push] at *
  simp [h]

end Table

end Interception
