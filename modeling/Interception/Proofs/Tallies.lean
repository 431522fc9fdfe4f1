import Interception.Proofs.Effects
import Interception.Proofs.Visits

namespace Interception

variable {H : Host} {k l final : Kind} {β : Behaviour H}

def Dispatch.records (d : Dispatch) (τ : TallyId) : Bool := d.config.recordTally && d.tally = τ

def Tally.settled (t : Tally) : Nat := t.replaced + t.declined + t.failed

theorem Tally.settled_record (t : Tally) {event : Tally.Event} (h : event ≠ .intercepted) :
    (t.record event).settled = t.settled + 1 ∧ (t.record event).intercepted = t.intercepted := by
  cases event with
  | intercepted => exact absurd rfl h
  | _ =>
    refine ⟨?_, rfl⟩
    simp only [record, settled]
    omega

namespace World

variable {w w' : World H} {d : Dispatch} {τ : TallyId}

theorem tally_of_books (h : w'.books = w.books) (τ : TallyId) : w'.tally τ = w.tally τ :=
  congrArg (fun b => b.2.1.get τ.index) h

theorem tally_log (w : World H) (level : Level) (message : Message) (τ : TallyId) :
    (w.log level message).tally τ = w.tally τ := by
  unfold log; split <;> rfl

theorem tally_recordTally (w : World H) (event : Tally.Event) (h : d.records τ) :
    (w.recordTally d event).tally τ = (w.tally τ).record event := by
  obtain ⟨hrecord, rfl⟩ : d.config.recordTally ∧ d.tally = τ := by simpa [Dispatch.records] using h
  rw [recordTally, if_pos hrecord]
  exact Table.get_set_self ..

theorem tally_recordTally_ne (w : World H) (event : Tally.Event) (h : d.records τ = false) :
    (w.recordTally d event).tally τ = w.tally τ := by
  rw [recordTally]
  split
  · next hrecord =>
    have hne : d.tally.index ≠ τ.index := by
      intro hi
      obtain rfl : d.tally = τ := congrArg TallyId.mk hi
      simp [Dispatch.records, hrecord] at h
    exact Table.get_set_ne _ _ hne
  · rfl

theorem tally_run (w : World H) {c : Command H} (hc : c ≠ .resetTally τ) : (c.run w).2.tally τ = w.tally τ := by
  cases c with
  | resetTally τ' =>
    apply Table.get_set_ne
    intro hi
    exact hc (congrArg (Command.resetTally ⟨·⟩) hi)
  | newTally =>
    -- the new tally is empty, and so was the one of its number before it existed
    by_cases hi : τ.index = w.tallies.cells.size
    · simp [Command.run, tally, Table.get, Table.add, hi, Array.getD]
      rfl
    · exact Table.get_add_old _ _ hi
  | invalidate c code =>
    simp only [Command.run]
    cases w.converter c <;> rfl
  | newConverter _ | newEvaluator _ _ _ => rfl
  | _ => exact tally_of_books (Command.books_run w id) τ

end World

namespace Conversion

def event : Conversion → Tally.Event
  | converted _ => .replaced
  | declined _ => .declined
  | failed _ => .failed

theorem event_ne_intercepted (a : Conversion) : a.event ≠ .intercepted := by cases a <;> nofun

def outcome : Conversion → Except HookError Decision
  | converted r => .ok (.replace r)
  | declined _ => .ok .fallback
  | failed cause => .error (.conversion cause)

end Conversion

namespace World

variable {d : Dispatch} {τ : TallyId}

def classify (w : World H) (d : Dispatch) (f : Frame) : Conversion → World H
  | .declined reason => (w.log d.config.declinedLevel (.notConverted f.name reason)).recordTally d .declined
  | a => w.recordTally d a.event

theorem tally_classify (w : World H) (f : Frame) (a : Conversion) (h : d.records τ) :
    (w.classify d f a).tally τ = (w.tally τ).record a.event := by
  cases a with
  | declined reason => exact (tally_recordTally _ _ h).trans (congrArg (·.record .declined) (tally_log ..))
  | _ => exact tally_recordTally w _ h

theorem tally_classify_ne (w : World H) (f : Frame) (a : Conversion) (h : d.records τ = false) :
    (w.classify d f a).tally τ = w.tally τ := by
  cases a with
  | declined reason => exact (tally_recordTally_ne _ _ h).trans (tally_log ..)
  | _ => exact tally_recordTally_ne w _ h

end World

def Pending.handles (τ : TallyId) : Pending H k l → Bool
  | .classify d _ => d.records τ
  | _ => false

def Stack.handling (τ : TallyId) : {k : Kind} → Stack H k final → Nat
  | _, .nil => 0
  | _, .cons p stack => stack.handling τ + (p.handles τ).toNat

theorem Pending.handles_of_not_accounts {p : Pending H k l} (h : ¬ p.Accounts) (τ : TallyId) :
    p.handles τ = false := by
  cases p with
  | classify d f => exact absurd trivial h
  | _ => rfl

theorem Stack.handling_cons {p : Pending H k l} {τ : TallyId} (h : p.handles τ = false) (stack : Stack H l final) :
    (Stack.cons p stack).handling τ = stack.handling τ := by
  rw [handling, h]
  rfl

theorem Stack.handling_cons_self {p : Pending H k l} {τ : TallyId} (h : p.handles τ) (stack : Stack H l final) :
    (Stack.cons p stack).handling τ = stack.handling τ + 1 := by
  rw [handling, h]
  rfl

theorem Stack.handling_classify {d : Dispatch} {τ : TallyId} (h : d.records τ) (f : Frame)
    (stack : Stack H .decision final) :
    (Stack.cons (.classify d f) stack).handling τ = stack.handling τ + 1 :=
  handling_cons_self (p := (.classify d f : Pending H .conversion .decision)) h stack

theorem Stack.handling_classify_ne {d : Dispatch} {τ : TallyId} (h : d.records τ = false) (f : Frame)
    (stack : Stack H .decision final) :
    (Stack.cons (.classify d f) stack).handling τ = stack.handling τ :=
  handling_cons (p := (.classify d f : Pending H .conversion .decision)) h stack

namespace State

def dispatch? : State H final → Option Dispatch
  | ⟨_, _, _, .request (.dispatch d _)⟩ => some d
  | _ => none

def resets (τ : TallyId) : State H final → Bool
  | ⟨_, _, _, .script (.act (.resetTally τ') _)⟩ => τ' = τ
  | _ => false

theorem resets_act_iff {w : World H} {stack : Stack H k final} {c : Command H}
    {next : c.Answer → Script H (k.Result H)} {τ : TallyId} :
    resets τ ⟨w, k, stack, .script (.act c next)⟩ = false ↔ c ≠ .resetTally τ := by
  cases c with
  | resetTally τ' => simp [resets]
  | _ => exact iff_of_true rfl nofun

def abandons (τ : TallyId) : State H final → Bool
  | ⟨_, _, .cons p _, .unwind _⟩ => p.handles τ
  | _ => false

theorem abandons_of_works {w : World H} {stack : Stack H k final} {task : Task H k} (h : task.Works) (τ : TallyId) :
    abandons τ ⟨w, k, stack, task⟩ = false := by
  cases task with
  | unwind panic => exact h.elim
  | _ => cases stack <;> rfl

theorem abandons_returning {w : World H} {p : Pending H k l} {stack : Stack H l final} {τ : TallyId}
    (r : Except (Panic H) (k.Result H)) (h : p.handles τ = false) :
    abandons τ (returning w (.cons p stack) r) = false := by
  cases r with
  | error panic => exact h
  | ok a => rfl

inductive Tallied (τ : TallyId) (s t : State H final) : Prop
  | still (htally : t.world.tally τ = s.world.tally τ) (hstack : t.stack.handling τ = s.stack.handling τ)
    (hs : s.abandons τ = false)
  | intercepted {d : Dispatch} (hd : s.dispatch? = some d) (hr : d.records τ)
    (htally : t.world.tally τ = (s.world.tally τ).record .intercepted)
    (hstack : t.stack.handling τ = s.stack.handling τ + 1) (hs : s.abandons τ = false)
  | settled {event : Tally.Event} (hevent : event ≠ .intercepted)
    (htally : t.world.tally τ = (s.world.tally τ).record event)
    (hstack : s.stack.handling τ = t.stack.handling τ + 1) (hs : s.abandons τ = false)
  | abandoned (htally : t.world.tally τ = s.world.tally τ) (hstack : s.stack.handling τ = t.stack.handling τ + 1)
    (hs : s.abandons τ = true)

theorem deliver_classify (w : World H) (d : Dispatch) (f : Frame) (a : Conversion) (stack : Stack H .decision final) :
    deliver (k := .conversion) w a (.classify d f) stack = ⟨w.classify d f a, _, stack, .answer a.outcome⟩ := by
  cases a <;> rfl

theorem classified_tallied (τ : TallyId) (w : World H) (d : Dispatch) (f : Frame) (a : Conversion)
    (stack : Stack H .decision final) :
    Tallied τ ⟨w, _, .cons (.classify d f) stack, .answer a⟩
      (⟨w.classify d f a, _, stack, .answer a.outcome⟩ : State H final) := by
  cases hr : d.records τ with
  | true =>
    exact .settled a.event_ne_intercepted (World.tally_classify w f a hr) (Stack.handling_classify hr f stack) rfl
  | false => exact .still (World.tally_classify_ne w f a hr) (Stack.handling_classify_ne hr f stack).symm rfl

theorem Effect.tallied {s t : State H final} {τ : TallyId} (h : Effect s t) (hr : s.resets τ = false) :
    Tallied τ s t := by
  cases h with
  | turn hw ht => exact .still (World.tally_of_books hw τ) rfl (abandons_of_works ht τ)
  | push hw hp ht =>
    exact .still (World.tally_of_books hw τ) (Stack.handling_cons (Pending.handles_of_not_accounts hp τ) _)
      (abandons_of_works ht τ)
  | @pop _ _ _ _ _ _ r _ hw hp =>
    have hhandles := Pending.handles_of_not_accounts hp τ
    exact .still (World.tally_of_books hw τ) (Stack.handling_cons hhandles _).symm (abandons_returning r hhandles)
  | @command _ w stack c next =>
    exact .still (World.tally_run w (resets_act_iff.mp hr)) rfl (by cases stack <;> rfl)
  | @entered _ _ _ stack => exact .still rfl rfl (by cases stack <;> rfl)
  | @offered w e _ _ stack =>
    have hopened := World.tally_of_books (World.books_openGuard (w.countFrame e) (w.evaluator e).slot .null) τ
    exact .still hopened rfl (by cases stack <;> rfl)
  | @settled w e f d stack =>
    have hw : (w.settle e f d).world.tally τ = w.tally τ :=
      congrArg (fun b => b.2.1.get τ.index) (World.books_settle w e f d)
    have hs : abandons τ (returning (k := .decision) w (.cons (.settle e f) stack) d) = false :=
      abandons_returning (p := .settle e f) d rfl
    cases hsettle : w.settle e f d <;> rw [hsettle] at hw <;> exact .still hw rfl hs
  | @dispatched w d f stack =>
    cases hrecords : d.records τ with
    | true =>
      exact .intercepted rfl hrecords (World.tally_recordTally w _ hrecords)
        (Stack.handling_classify hrecords f stack) (by cases stack <;> rfl)
    | false =>
      exact .still (World.tally_recordTally_ne w _ hrecords)
        (Stack.handling_classify_ne hrecords f stack) (by cases stack <;> rfl)
  | @classified w d f a stack =>
    rw [deliver_classify]
    exact classified_tallied τ w d f a stack
  | @recalled _ _ _ _ _ _ _ stack => exact .still rfl rfl (by cases stack <;> rfl)
  | @consulted _ _ _ _ _ _ stack => exact .still rfl rfl (by cases stack <;> rfl)
  | remembered => exact .still rfl rfl rfl
  | strayed => exact .still rfl rfl rfl
  | @abandoned _ _ _ p stack _ =>
    cases hp : p.handles τ with
    | true => exact .abandoned rfl (Stack.handling_cons_self hp stack) hp
    | false => exact .still rfl (Stack.handling_cons hp stack).symm hp

section

variable {s t : State H final} {n : Nat} {τ : TallyId}

def abandonments (β : Behaviour H) (τ : TallyId) (n : Nat) (s : State H final) : Nat :=
  (s.visited β n).countP (·.abandons τ)

theorem tally_balanced (hn : s.run β n = .running t) (hr : ∀ u ∈ s.visited β n, u.resets τ = false)
    (hs : (s.world.tally τ).intercepted = (s.world.tally τ).settled + s.stack.handling τ) :
    (t.world.tally τ).intercepted =
      (t.world.tally τ).settled + t.stack.handling τ + s.abandonments β τ n := by
  refine visited_induct (I := fun past t => (t.world.tally τ).intercepted =
    (t.world.tally τ).settled + t.stack.handling τ + past.countP (·.abandons τ)) ?_ hr hn hs
  intro past s t hr hst ih
  rw [List.countP_append, List.countP_singleton]
  cases (effect_of_step hst).tallied hr with
  | still htally hstack hs =>
    rw [htally, hstack, hs]
    exact ih
  | intercepted _ _ htally hstack hs =>
    have hsettled : ((s.world.tally τ).record .intercepted).settled = (s.world.tally τ).settled := rfl
    have hmore : ((s.world.tally τ).record .intercepted).intercepted = (s.world.tally τ).intercepted + 1 := rfl
    rw [htally, hstack, hs, hsettled, hmore, ih]
    simp only [Bool.false_eq_true, if_false]
    omega
  | settled hevent htally hstack hs =>
    obtain ⟨hsettled, hsame⟩ := (s.world.tally τ).settled_record hevent
    rw [htally, hs, hsettled, hsame, ih, hstack]
    simp only [Bool.false_eq_true, if_false]
    omega
  | abandoned htally hstack hs =>
    rw [htally, hs, ih, hstack, if_pos rfl]
    omega

theorem tally_untouched (hn : s.run β n = .running t) (hs : s.stack.handling τ = 0)
    (hr : ∀ u ∈ s.visited β n, u.resets τ = false ∧ ∀ d ∈ u.dispatch?, d.records τ = false) :
    t.world.tally τ = s.world.tally τ := by
  have hkept : t.stack.handling τ = 0 ∧ t.world.tally τ = s.world.tally τ := by
    refine visited_induct (I := fun _ t => t.stack.handling τ = 0 ∧ t.world.tally τ = s.world.tally τ)
      ?_ hr hn ⟨hs, rfl⟩
    rintro - u v ⟨hr, hd⟩ huv ⟨hidle, htally⟩
    cases (effect_of_step huv).tallied hr with
    | still htally' hstack _ => exact ⟨hstack.trans hidle, htally'.trans htally⟩
    | intercepted hdispatch hrecords =>
      rw [hd _ hdispatch] at hrecords
      cases hrecords
    | settled _ _ hstack => omega
    | abandoned _ hstack => omega
  exact hkept.2

end

end State

end Interception
