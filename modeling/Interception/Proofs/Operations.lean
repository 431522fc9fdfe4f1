import Interception.Proofs.Guards
import Interception.Session.Run

namespace Interception.Session

open State Procedure

variable {k final : Kind} {w w' : World host} {s : SlotId} {h : Hook} {b : Body} {r : Except (Panic host) Report}

def Operation.guardedSlot? (w : World host) : Operation → Option SlotId
  | .within name _ _ _ => (w.host.scopes.lookup name).map fun entry => (w.scope entry.scope).slot
  | .call name _ false _ => (w.host.wraps.lookup name).map fun wrapped => wrapped.slot
  | _ => none

theorem reaches_find {α : Type} {listing : Directory → Listing α} {name : Name} {a : α}
    (ha : (listing w.host).lookup name = some a) (next : α → Script host (k.Result host))
    (stack : Stack host k final) :
    Reaches behaviour ⟨w, k, stack, .script (find listing name >>= next)⟩ ⟨w, k, stack, .script (next a)⟩ := by
  have hread : Reaches behaviour ⟨w, k, stack, .script (find listing name >>= next)⟩
      ⟨w, k, stack, .script (need ((listing w.host).lookup name) >>= next)⟩ := .step rfl
  rw [ha] at hread
  exact hread

theorem reaches_arguments (w : World host) (args : Arguments) (next : List Value → Script host (k.Result host))
    (stack : Stack host k final) :
    (∃ vs, Reaches behaviour ⟨w, k, stack, .script (argumentsOf args >>= next)⟩ ⟨w, k, stack, .script (next vs)⟩) ∨
      Reaches behaviour ⟨w, k, stack, .script (argumentsOf args >>= next)⟩
        ⟨w, k, stack, .unwind (.host .badInput)⟩ := by
  cases args with
  | values vs => exact .inl ⟨vs, .refl⟩
  | own =>
    have hread : Reaches behaviour ⟨w, k, stack, .script (argumentsOf .own >>= next)⟩
        ⟨w, k, stack, .script ((need w.host.calls.head? >>= fun call => pure call.args) >>= next)⟩ := .step rfl
    cases hc : w.host.calls.head? with
    | none =>
      rw [hc] at hread
      exact .inr (hread.trans (.step rfl))
    | some call =>
      rw [hc] at hread
      exact .inl ⟨call.args, hread⟩

theorem guarded_restores {next : Report → Procedure Report}
    (hnext : ∀ report, ∃ report', next report = .done report')
    (hf : Finishes behaviour
      ((State.ofRequest w (.within s h b)).under (.cons (.proceed (l := .body) next) .nil)) w' r) :
    w'.slot s = w.slot s := by
  obtain ⟨w₁, r₁, hwithin, hrest⟩ := finishes_under_iff.mp hf
  have hw₁ : w' = w₁ := by
    cases r₁ with
    | error panic => exact (hrest.unique ⟨2, rfl⟩).1
    | ok report =>
      obtain ⟨report', hdone⟩ := hnext report
      have hanswer : Reaches behaviour (returning w₁ (.cons (.proceed (l := .body) next) .nil) (.ok report))
          ⟨w₁, .body, .nil, .script (next report)⟩ := .step rfl
      have hends : Finishes behaviour ⟨w₁, .body, .nil, .script (.done report')⟩ w₁ (.ok report') := ⟨2, rfl⟩
      rw [hdone] at hanswer
      exact (hrest.unique (hanswer.finishes hends)).1
  obtain ⟨w₂, -, hclosed⟩ := finishes_within_iff.mp hwithin
  rw [hw₁, hclosed]
  exact World.slot_closeGuard_self ..

theorem within_restores_slot {name : Name} {showDisplaced : Bool} {body : List Operation} {stopAtError : Bool}
    {entry : ScopeEntry} (he : w.host.scopes.lookup name = some entry)
    (hf : Finishes behaviour
      (.ofRequest w (.perform (.operation (.within name showDisplaced body stopAtError)))) w' r) :
    w'.slot (w.scope entry.scope).slot = w.slot (w.scope entry.scope).slot := by
  have hfound : Reaches behaviour
      ⟨w, .body, .nil, .script (Operation.script (.within name showDisplaced body stopAtError))⟩ _ :=
    reaches_find he _ .nil
  have hguard : ∃ next : Report → Procedure Report, (∀ report, ∃ report', next report = .done report') ∧
      Reaches behaviour (.ofRequest w (.perform (.operation (.within name showDisplaced body stopAtError))))
        ((State.ofRequest w
          (.within (w.scope entry.scope).slot (w.scope entry.scope).hook (.steps body stopAtError))).under
          (.cons (.proceed (l := .body) next) .nil)) := by
    refine ⟨_, ?_, (Reaches.step rfl).trans (hfound.trans ⟨4, rfl⟩)⟩
    intro report
    cases report <;> exact ⟨_, rfl⟩
  obtain ⟨next, hnext, hreaches⟩ := hguard
  exact guarded_restores hnext (hreaches.finishes_iff.mp hf)

theorem modified_restores_slot {f : Directory → Directory}
    (hf : Finishes behaviour ⟨w, .body, .nil, .script (modify f >>= fun _ => request (.within s h b))⟩ w' r) :
    w'.slot s = w.slot s := by
  have hguard : Reaches behaviour ⟨w, .body, .nil, .script (modify f >>= fun _ => request (.within s h b))⟩
      ((State.ofRequest { w with host := f w.host } (.within s h b)).under
        (.cons (.proceed (l := .body) .done) .nil)) := ⟨3, rfl⟩
  have hslot := guarded_restores (fun report => ⟨report, rfl⟩) (hguard.finishes_iff.mp hf)
  exact hslot

theorem call_restores_slot {name : Name} {args : Arguments} {limit : Option Nat} {wrapped : Wrapped}
    (hw : w.host.wraps.lookup name = some wrapped)
    (hf : Finishes behaviour (.ofRequest w (.perform (.operation (.call name args false limit)))) w' r) :
    w'.slot wrapped.slot = w.slot wrapped.slot := by
  have hfound : Reaches behaviour ⟨w, .body, .nil, .script (Operation.script (.call name args false limit))⟩ _ :=
    reaches_find hw _ .nil
  have hstart : Reaches behaviour (.ofRequest w (.perform (.operation (.call name args false limit)))) _ :=
    (Reaches.step rfl).trans hfound
  have hlimit : Reaches behaviour (.ofRequest w (.perform (.operation (.call name args false limit))))
      ⟨w, .body, .nil, .script
        (if limit.any (· ≤ w.host.calls.countP (·.wrap = name)) then answer (.text "limit") else
          argumentsOf args >>= fun vs => modify (fun d => { d with calls := ⟨name, vs⟩ :: d.calls }) >>=
            fun _ => request (.within wrapped.slot wrapped.hook (.steps wrapped.body wrapped.stopAtError)))⟩ :=
    hstart.trans (.step rfl)
  rw [hlimit.finishes_iff] at hf
  split at hf
  · rw [(hf.unique ⟨2, rfl⟩).1]
  · rcases reaches_arguments w args _ .nil with ⟨vs, hargs⟩ | hpanic
    · exact modified_restores_slot (hargs.finishes_iff.mp hf)
    · rw [((hpanic.finishes_iff.mp hf).unique ⟨1, rfl⟩).1]

theorem operation_restores {op : Operation} (hg : op.guardedSlot? w = some s)
    (hf : Finishes behaviour (.ofRequest w (.perform (.operation op))) w' r) : w'.slot s = w.slot s := by
  cases op with
  | within name showDisplaced body stopAtError =>
    obtain ⟨entry, he, rfl⟩ := Option.map_eq_some_iff.mp hg
    exact within_restores_slot he hf
  | call name args bare limit =>
    cases bare with
    | true => cases hg
    | false =>
      obtain ⟨wrapped, hw, rfl⟩ := Option.map_eq_some_iff.mp hg
      exact call_restores_slot hw hf
  | _ => cases hg

end Interception.Session
