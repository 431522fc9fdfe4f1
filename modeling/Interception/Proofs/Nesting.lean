import Interception.Proofs.Scopes

/-!
Scopes that are closed in the reverse order of their opening, slot by slot. The hooks that they have displaced are
kept in different places, by guards and by the scopes themselves, and form one chain on each slot: every opening has
displaced the hook of the next one.
-/

namespace Interception

variable {H : Host}

inductive Opener
  | hand (s : ScopeId)
  | guard (n : Nat)
  deriving DecidableEq

/-- `before` is the hook that was current in the slot until then. -/
structure Opening where
  opener : Opener
  slot : SlotId
  hook : Hook
  before : Hook
  deriving DecidableEq

inductive ScopeMove
  | create (slot : SlotId) (hook : Hook)
  | enter (s : ScopeId)
  | exit (s : ScopeId)
  | drop (s : ScopeId)
  | guard (n : Nat) (slot : SlotId) (hook : Hook)
  | close (n : Nat)
  | install (slot : SlotId) (hook : Hook)

/-- A world with the guards that are open in it, each with its slot and the hook that it will put back. What is open
is noted besides, innermost first, and no move looks at that. -/
structure Ledger (H : Host) where
  world : World H
  guards : Nat → Option (SlotId × Hook)
  openings : List Opening

namespace Ledger

def start (w : World H) : Ledger H := ⟨w, fun _ => none, []⟩

def effect (l : Ledger H) : ScopeMove → World H × (Nat → Option (SlotId × Hook))
  | .create slot hook => (((Command.newScope slot hook).run l.world).2, l.guards)
  | .enter s => ((l.world.enter s).2, l.guards)
  | .exit s => ((l.world.exit s).2, l.guards)
  | .drop s => (l.world.drop s, l.guards)
  | .guard n slot hook =>
    (l.world.openGuard slot hook, fun m => if m = n then some (slot, l.world.slot slot) else l.guards m)
  | .close n =>
    match l.guards n with
    | some (slot, displaced) => (l.world.closeGuard slot displaced, fun m => if m = n then none else l.guards m)
    | none => (l.world, l.guards)
  | .install slot hook => (l.world.install slot hook, l.guards)

def opens? (l : Ledger H) : ScopeMove → Option Opening
  | .enter s =>
    match (l.world.enter s).1 with
    | .ok _ =>
      let scope := l.world.scope s
      some ⟨.hand s, scope.slot, scope.hook, l.world.slot scope.slot⟩
    | .error _ => none
  | .guard n slot hook => some ⟨.guard n, slot, hook, l.world.slot slot⟩
  | _ => none

def closes? (l : Ledger H) : ScopeMove → Option Opener
  | .exit s =>
    match (l.world.exit s).1 with
    | .ok _ => some (.hand s)
    | .error _ => none
  | .drop s => if (l.world.scope s).displaced.isSome then some (.hand s) else none
  | .close n => if (l.guards n).isSome then some (.guard n) else none
  | _ => none

def move (l : Ledger H) (m : ScopeMove) : Ledger H where
  world := (l.effect m).1
  guards := (l.effect m).2
  openings := (l.opens? m).toList ++ l.openings.filter fun o => l.closes? m ≠ some o.opener

def run (l : Ledger H) (ms : List ScopeMove) : Ledger H := ms.foldl move l

def innermost? (l : Ledger H) (r : SlotId) : Option Opening := l.openings.find? (·.slot = r)

def Nests (l : Ledger H) : ScopeMove → Prop
  | .install _ _ => False
  | .guard n _ _ => l.guards n = none
  | m => ∀ opener ∈ l.closes? m, ∃ o ∈ l.openings, o.opener = opener ∧ l.innermost? o.slot = some o

def Nested (l : Ledger H) : List ScopeMove → Prop
  | [] => True
  | m :: ms => l.Nests m ∧ (l.move m).Nested ms

end Ledger

namespace Opening

def current (base : SlotId → Hook) (os : List Opening) (r : SlotId) : Hook :=
  (os.find? (·.slot = r)).elim (base r) hook

def Chained (base : SlotId → Hook) : List Opening → Prop
  | [] => True
  | o :: os => o.before = current base os o.slot ∧ Chained base os

variable {base : SlotId → Hook} {o : Opening} {os : List Opening} {r : SlotId}

theorem current_cons (base : SlotId → Hook) (o : Opening) (os : List Opening) (r : SlotId) :
    current base (o :: os) r = if o.slot = r then o.hook else current base os r := by
  unfold current
  rw [List.find?_cons]
  by_cases h : o.slot = r <;> simp [h]

theorem Chained.close (hc : Chained base os) (hd : (os.map opener).Nodup)
    (ho : os.find? (·.slot = r) = some o) :
    Chained base (os.filter fun o' => some o.opener ≠ some o'.opener) ∧
      ∀ t, current base (os.filter fun o' => some o.opener ≠ some o'.opener) t =
        if r = t then o.before else current base os t := by
  induction os with
  | nil => cases ho
  | cons a os ih =>
    obtain ⟨ha, hc⟩ := hc
    obtain ⟨hfresh, hd⟩ := List.nodup_cons.mp hd
    rw [List.find?_cons] at ho
    by_cases hr : a.slot = r
    · -- the opening on top is the one that closes, and what it has displaced is what is current below it
      obtain rfl : a = o := by simpa [hr] using ho
      have hkeep : (os.filter fun o' => some a.opener ≠ some o'.opener) = os := by
        rw [List.filter_eq_self]
        intro o' ho'
        have hne : a.opener ≠ o'.opener := fun he => hfresh (he ▸ List.mem_map_of_mem ho')
        simpa using hne
      have hdrop : ((a :: os).filter fun o' => some a.opener ≠ some o'.opener) = os := by
        rw [List.filter_cons_of_neg (by simp), hkeep]
      rw [hdrop]
      refine ⟨hc, fun t => ?_⟩
      rw [current_cons, ha, hr]
      by_cases ht : r = t
      · rw [if_pos ht, ht]
      · rw [if_neg ht, if_neg ht]
    · -- the opening on top is on another slot, where nothing changes
      have ho : os.find? (·.slot = r) = some o := by simpa [hr] using ho
      obtain ⟨hchain, hcurrent⟩ := ih hc hd ho
      have hne : o.opener ≠ a.opener := fun he =>
        hfresh (he ▸ List.mem_map_of_mem (List.mem_of_find?_eq_some ho))
      have hcons : ((a :: os).filter fun o' => some o.opener ≠ some o'.opener) =
          a :: os.filter fun o' => some o.opener ≠ some o'.opener := by
        rw [List.filter_cons_of_pos (by simpa using hne)]
      rw [hcons]
      refine ⟨⟨?_, hchain⟩, fun t => ?_⟩
      · rw [ha, hcurrent, if_neg (Ne.symm hr)]
      · rw [current_cons, current_cons, hcurrent]
        by_cases ht : a.slot = t
        · rw [if_pos ht, if_pos ht, if_neg (ht ▸ Ne.symm hr)]
        · rw [if_neg ht, if_neg ht]

end Opening

namespace Ledger

variable {base : SlotId → Hook} {l l' : Ledger H} {o : Opening} {s : ScopeId} {m : ScopeMove}

def Keeps (l : Ledger H) (o : Opening) : Prop :=
  match o.opener with
  | .hand s => l.world.scope s = ⟨o.slot, o.hook, some o.before⟩
  | .guard n => l.guards n = some (o.slot, o.before)

structure Sound (base : SlotId → Hook) (l : Ledger H) : Prop where
  current : ∀ r, l.world.slot r = Opening.current base l.openings r
  chained : Opening.Chained base l.openings
  distinct : (l.openings.map Opening.opener).Nodup
  kept : ∀ o ∈ l.openings, l.Keeps o

namespace Sound

theorem start (w : World H) : (Ledger.start w).Sound w.slot :=
  ⟨fun _ => rfl, trivial, .nil, nofun⟩

theorem quiet (h : l.Sound base) (hos : l'.openings = l.openings) (hslot : ∀ r, l'.world.slot r = l.world.slot r)
    (hkeeps : ∀ o ∈ l.openings, l.Keeps o → l'.Keeps o) : l'.Sound base := by
  refine ⟨fun r => ?_, hos ▸ h.chained, hos ▸ h.distinct, fun o ho => ?_⟩
  · rw [hslot, hos, h.current]
  · rw [hos] at ho
    exact hkeeps o ho (h.kept o ho)

theorem opened (h : l.Sound base) (hos : l'.openings = o :: l.openings) (hbefore : o.before = l.world.slot o.slot)
    (hslot : ∀ r, l'.world.slot r = if o.slot = r then o.hook else l.world.slot r)
    (hfresh : ∀ o' ∈ l.openings, o'.opener ≠ o.opener) (hown : l'.Keeps o)
    (hkeeps : ∀ o' ∈ l.openings, l.Keeps o' → l'.Keeps o') : l'.Sound base := by
  refine ⟨fun r => ?_, ?_, ?_, ?_⟩
  · rw [hslot, hos, Opening.current_cons, h.current]
  · rw [hos]
    exact ⟨hbefore.trans (h.current o.slot), h.chained⟩
  · rw [hos, List.map_cons, List.nodup_cons]
    refine ⟨fun hmem => ?_, h.distinct⟩
    obtain ⟨o', ho', he⟩ := List.mem_map.mp hmem
    exact hfresh o' ho' he
  · rw [hos]
    rintro o' (_ | ⟨_, ho'⟩)
    · exact hown
    · exact hkeeps o' ho' (h.kept o' ho')

theorem closed (h : l.Sound base) (hinner : l.innermost? o.slot = some o)
    (hos : l'.openings = l.openings.filter fun o' => some o.opener ≠ some o'.opener)
    (hslot : ∀ r, l'.world.slot r = if o.slot = r then o.before else l.world.slot r)
    (hkeeps : ∀ o' ∈ l.openings, o'.opener ≠ o.opener → l.Keeps o' → l'.Keeps o') : l'.Sound base := by
  obtain ⟨hchain, hcurrent⟩ := h.chained.close h.distinct hinner
  refine ⟨fun r => ?_, hos ▸ hchain, ?_, fun o' ho' => ?_⟩
  · rw [hslot, hos, hcurrent, h.current]
  · rw [hos]
    exact h.distinct.sublist (List.filter_sublist.map _)
  · rw [hos, List.mem_filter] at ho'
    obtain ⟨hmem, hne⟩ := ho'
    exact hkeeps o' hmem (fun he => by simp [he] at hne) (h.kept o' hmem)

end Sound

theorem Keeps.congr (h : l.Keeps o) (hscope : ∀ s, o.opener = .hand s → l'.world.scope s = l.world.scope s)
    (hguard : ∀ n, o.opener = .guard n → l'.guards n = l.guards n) : l'.Keeps o := by
  cases ho : o.opener with
  | hand s =>
    simp only [Keeps, ho] at h ⊢
    rw [hscope s ho, h]
  | guard n =>
    simp only [Keeps, ho] at h ⊢
    rw [hguard n ho, h]

theorem Keeps.active (h : l.Keeps o) (ho : o.opener = .hand s) : l.world.scope s = ⟨o.slot, o.hook, some o.before⟩ := by
  simpa only [Keeps, ho] using h

theorem Keeps.pending {n : Nat} (h : l.Keeps o) (ho : o.opener = .guard n) : l.guards n = some (o.slot, o.before) := by
  simpa only [Keeps, ho] using h

theorem openings_move_none (ho : l.opens? m = none) (hc : l.closes? m = none) :
    (l.move m).openings = l.openings := by
  simp [move, ho, hc]

theorem openings_move_some (ho : l.opens? m = some o) (hc : l.closes? m = none) :
    (l.move m).openings = o :: l.openings := by
  simp [move, ho, hc]

theorem openings_move_closed {opener : Opener} (ho : l.opens? m = none) (hc : l.closes? m = some opener) :
    (l.move m).openings = l.openings.filter fun o => some opener ≠ some o.opener := by
  simp [move, ho, hc]

theorem move_eq_self (he : l.effect m = (l.world, l.guards)) (ho : l.opens? m = none) (hc : l.closes? m = none) :
    l.move m = l := by
  have hos := openings_move_none ho hc
  have hworld : (l.move m).world = l.world := congrArg Prod.fst he
  have hguards : (l.move m).guards = l.guards := congrArg Prod.snd he
  cases hl : l.move m
  simp_all

theorem move_enter_of_rejected {e : ScopeError} (h : (l.world.enter s).1 = .error e) : l.move (.enter s) = l := by
  cases hs : (l.world.scope s).displaced with
  | none =>
    rw [World.enter_ok_iff.mpr hs] at h
    cases h
  | some d =>
    apply move_eq_self
    · simp [effect, World.enter_of_active hs]
    · simp [opens?, h]
    · rfl

theorem move_exit_of_rejected {e : ScopeError} (h : (l.world.exit s).1 = .error e) : l.move (.exit s) = l := by
  cases hs : (l.world.scope s).displaced with
  | some d =>
    rw [World.exit_ok_iff.mpr (by simp [hs])] at h
    cases h
  | none =>
    apply move_eq_self
    · simp [effect, World.exit_of_idle hs]
    · rfl
    · simp [closes?, h]

theorem Nests.closes {opener : Opener} (h : l.Nests m) (hc : l.closes? m = some opener) :
    l.opens? m = none ∧ ∃ o ∈ l.openings, o.opener = opener ∧ l.innermost? o.slot = some o := by
  cases m with
  | exit s => exact ⟨rfl, h opener hc⟩
  | drop s => exact ⟨rfl, h opener hc⟩
  | close n => exact ⟨rfl, h opener hc⟩
  | _ => exact absurd hc (by simp [closes?])

namespace Sound

theorem create (h : l.Sound base) (r : SlotId) (hook : Hook) : (l.move (.create r hook)).Sound base := by
  refine h.quiet (openings_move_none rfl rfl) (fun _ => rfl) fun o ho hk => ?_
  refine hk.congr (fun s hs => ?_) fun _ _ => rfl
  apply World.scope_newScope
  rw [hk.active hs]
  simp

theorem enter (h : l.Sound base) (s : ScopeId) : (l.move (.enter s)).Sound base := by
  cases hs : (l.world.scope s).displaced with
  | some d =>
    have hrejected := World.enter_of_active hs
    rwa [move_enter_of_rejected (congrArg Prod.fst hrejected)]
  | none =>
    have haccepted := World.enter_ok_iff.mpr hs
    let o : Opening := ⟨.hand s, (l.world.scope s).slot, (l.world.scope s).hook, l.world.slot (l.world.scope s).slot⟩
    have ho : l.opens? (.enter s) = some o := by simp [opens?, haccepted, o]
    -- had the scope been opened by hand before, it would not be idle
    have hidle (o' : Opening) (ho' : o' ∈ l.openings) : o'.opener ≠ .hand s := by
      intro he
      rw [(h.kept o' ho').active he] at hs
      exact absurd hs (by simp)
    apply h.opened (openings_move_some ho rfl)
    · rfl
    · exact World.slot_enter hs
    · exact hidle
    · exact World.scope_enter_self hs
    · intro o' ho' hk
      refine hk.congr (fun t ht => ?_) fun _ _ => rfl
      exact World.scope_enter_ne _ fun he => hidle o' ho' (he ▸ ht)

theorem leave (h : l.Sound base) (hn : l.Nests m) (hopens : l.opens? m = none)
    (hcloses : l.closes? m = if (l.world.scope s).displaced.isSome then some (.hand s) else none)
    (hhooks : (l.move m).world.hooks = (l.world.exit s).2.hooks) (hguards : (l.move m).guards = l.guards) :
    (l.move m).Sound base := by
  have hscope := World.scope_of_hooks hhooks
  have hslot := World.slot_of_hooks hhooks
  cases hs : (l.world.scope s).displaced with
  | none =>
    rw [World.exit_of_idle hs] at hscope hslot
    rw [hs] at hcloses
    refine h.quiet (openings_move_none hopens hcloses) hslot fun o _ hk => ?_
    exact hk.congr (fun t _ => hscope t) fun n _ => by rw [hguards]
  | some d =>
    rw [hs] at hcloses
    obtain ⟨-, o, ho, hopener, hinner⟩ := hn.closes hcloses
    have hkept := (h.kept o ho).active hopener
    apply h.closed hinner
    · rw [hopener]
      exact openings_move_closed hopens hcloses
    · intro r
      rw [hslot, World.slot_exit (by rw [hkept]), hkept]
    · intro o' _ hne hk
      refine hk.congr (fun t ht => ?_) fun n _ => by rw [hguards]
      rw [hscope]
      exact World.scope_exit_ne _ fun he => hne (by rw [ht, hopener, he])

theorem guard {n : Nat} (h : l.Sound base) (hn : l.guards n = none) (r : SlotId) (hook : Hook) :
    (l.move (.guard n r hook)).Sound base := by
  have hfresh (o' : Opening) (ho' : o' ∈ l.openings) : o'.opener ≠ .guard n := by
    intro he
    rw [(h.kept o' ho').pending he] at hn
    exact absurd hn (by simp)
  apply h.opened (openings_move_some rfl rfl)
  · rfl
  · exact fun t => World.slot_openGuard ..
  · exact hfresh
  · simp [Keeps, move, effect]
  · intro o' ho' hk
    refine hk.congr (fun t _ => ?_) fun m hm => ?_
    · exact World.scope_openGuard ..
    · exact if_neg fun he => hfresh o' ho' (by rw [hm, he])

theorem close {n : Nat} (h : l.Sound base) (hn : l.Nests (.close n)) : (l.move (.close n)).Sound base := by
  cases hg : l.guards n with
  | none =>
    have hself : l.move (.close n) = l := by
      apply move_eq_self
      · simp [effect, hg]
      · rfl
      · simp [closes?, hg]
    rwa [hself]
  | some p =>
    obtain ⟨r, d⟩ := p
    have hc : l.closes? (.close n) = some (.guard n) := by simp [closes?, hg]
    have hmove : l.effect (.close n) = (l.world.closeGuard r d, fun m => if m = n then none else l.guards m) := by
      simp [effect, hg]
    obtain ⟨-, o, ho, hopener, hinner⟩ := hn.closes hc
    have hkept := (h.kept o ho).pending hopener
    obtain ⟨rfl, rfl⟩ : r = o.slot ∧ d = o.before := by simpa [hg] using hkept
    apply h.closed hinner
    · rw [hopener]
      exact openings_move_closed rfl hc
    · intro t
      rw [move, hmove]
      exact World.slot_closeGuard ..
    · intro o' _ hne hk
      refine hk.congr (fun t _ => ?_) fun m hm => ?_
      · rw [move, hmove]
        exact World.scope_closeGuard ..
      · rw [move, hmove]
        exact if_neg fun he => hne (by rw [hm, hopener, he])

theorem move (h : l.Sound base) (hn : l.Nests m) : (l.move m).Sound base := by
  cases m with
  | create r hook => exact h.create r hook
  | enter s => exact h.enter s
  | exit s =>
    have hc : l.closes? (.exit s) = if (l.world.scope s).displaced.isSome then some (.hand s) else none := by
      cases hs : (l.world.scope s).displaced <;> simp [closes?, World.exit, hs]
    exact h.leave hn rfl hc rfl rfl
  | drop s => exact h.leave hn rfl rfl (World.hooks_drop ..) rfl
  | guard n r hook => exact h.guard hn r hook
  | close n => exact h.close hn
  | install r hook => exact hn.elim

theorem run {ms : List ScopeMove} (h : l.Sound base) (hn : l.Nested ms) : (l.run ms).Sound base := by
  induction ms generalizing l with
  | nil => exact h
  | cons m ms ih => exact ih (h.move hn.1) hn.2

end Sound

theorem run_append (l : Ledger H) (ms ms' : List ScopeMove) : l.run (ms ++ ms') = (l.run ms).run ms' :=
  List.foldl_append

theorem nested_append {ms ms' : List ScopeMove} :
    l.Nested (ms ++ ms') ↔ l.Nested ms ∧ (l.run ms).Nested ms' := by
  induction ms generalizing l with
  | nil => exact (and_iff_right trivial).symm
  | cons m ms ih =>
    simp only [List.cons_append, Nested, ih, and_assoc]
    rfl

theorem mem_openings_move (h : o ∈ (l.move m).openings) : l.opens? m = some o ∨ o ∈ l.openings := by
  rcases List.mem_append.mp h with ho | ho
  · exact .inl (Option.mem_toList.mp ho)
  · exact .inr (List.mem_filter.mp ho).1

theorem opened_of_mem {ms : List ScopeMove} (h : o ∈ (l.run ms).openings) :
    o ∈ l.openings ∨ ∃ past m, past ++ [m] <+: ms ∧ (l.run past).opens? m = some o := by
  induction ms generalizing l with
  | nil => exact .inl h
  | cons m ms ih =>
    rcases ih h with hm | ⟨past, m', hp, ho⟩
    · rcases mem_openings_move hm with ho | ho
      · exact .inr ⟨[], m, ⟨ms, rfl⟩, ho⟩
      · exact .inl ho
    · exact .inr ⟨m :: past, m', List.cons_prefix_cons.mpr ⟨rfl, hp⟩, ho⟩

theorem before_of_opens? (h : l.opens? m = some o) : o.before = l.world.slot o.slot := by
  cases m with
  | enter s =>
    simp only [opens?] at h
    split at h
    · obtain rfl := Option.some.inj h
      rfl
    · exact absurd h (by simp)
  | guard n r hook =>
    obtain rfl := Option.some.inj h
    rfl
  | _ => exact absurd h (by simp [opens?])

theorem Sound.slot_of_closes {opener : Opener} (h : l.Sound base) (hn : l.Nests m)
    (hc : l.closes? m = some opener) :
    ∃ o ∈ l.openings, o.opener = opener ∧ (l.move m).world.slot o.slot = o.before := by
  obtain ⟨hopens, o, ho, rfl, hinner⟩ := hn.closes hc
  have hcurrent := (h.chained.close h.distinct hinner).2 o.slot
  rw [if_pos rfl] at hcurrent
  refine ⟨o, ho, rfl, ?_⟩
  rw [(h.move hn).current, openings_move_closed hopens hc, hcurrent]

instance (l : Ledger H) : (m : ScopeMove) → Decidable (l.Nests m)
  | .install _ _ => inferInstanceAs (Decidable False)
  | .guard n _ _ => inferInstanceAs (Decidable (l.guards n = none))
  | .create _ _ | .enter _ | .exit _ | .drop _ | .close _ =>
    inferInstanceAs (Decidable (∀ opener ∈ l.closes? _, ∃ o ∈ l.openings, o.opener = opener ∧
      l.innermost? o.slot = some o))

instance decidableNested : (l : Ledger H) → (ms : List ScopeMove) → Decidable (l.Nested ms)
  | _, [] => inferInstanceAs (Decidable True)
  | l, m :: ms =>
    have := decidableNested (l.move m) ms
    inferInstanceAs (Decidable (l.Nests m ∧ (l.move m).Nested ms))

end Ledger

open Ledger

/-- As long as the closes on each slot come in the reverse order of its opens, a slot holds the hook of its innermost
opening, and a close brings back the hook from before its opening. -/
theorem innermost_hook_current {w : World H} {ms past : List ScopeMove} (hn : (start w).Nested ms)
    (hp : past <+: ms) :
    let l := (start w).run past
    (∀ r, l.world.slot r = (l.innermost? r).elim (w.slot r) Opening.hook) ∧
      (∀ m opener, past ++ [m] <+: ms → l.closes? m = some opener →
        ∃ o ∈ l.openings, o.opener = opener ∧
          ∃ earlier m', earlier ++ [m'] <+: past ∧ ((start w).run earlier).opens? m' = some o ∧
            (l.move m).world.slot o.slot = ((start w).run earlier).world.slot o.slot) ∧
      ∀ s e, ((l.world.enter s).1 = .error e → l.move (.enter s) = l) ∧
        ((l.world.exit s).1 = .error e → l.move (.exit s) = l) := by
  obtain ⟨rest, rfl⟩ := hp
  obtain ⟨hpast, hrest⟩ := nested_append.mp hn
  have hsound := (Sound.start w).run hpast
  refine ⟨hsound.current, fun m opener hm hc => ?_, fun s e => ⟨move_enter_of_rejected, move_exit_of_rejected⟩⟩
  have hnests : ((start w).run past).Nests m := by
    obtain ⟨rest', hrest'⟩ := hm
    rw [List.append_assoc, List.append_cancel_left_eq] at hrest'
    rw [← hrest'] at hrest
    exact hrest.1
  obtain ⟨o, ho, hopener, hslot⟩ := hsound.slot_of_closes hnests hc
  rcases opened_of_mem ho with hnone | ⟨earlier, m', he, hopens⟩
  · exact absurd hnone List.not_mem_nil
  · exact ⟨o, ho, hopener, earlier, m', he, hopens, hslot.trans (before_of_opens? hopens)⟩

namespace TwoSlots

abbrev host : Host := ⟨Unit, Empty, Empty, Empty, Empty, Empty, Empty, Empty⟩

def hook (n : Nat) : Hook := .active ⟨n⟩

def world : World host :=
  { slots := ⟨#[.null, hook 7]⟩
    scopes := ⟨#[{ slot := ⟨0⟩, hook := hook 1 }, { slot := ⟨1⟩, hook := hook 2 }]⟩
    host := () }

def crossing : List ScopeMove :=
  [.enter ⟨0⟩, .guard 0 ⟨1⟩ (hook 2), .guard 1 ⟨0⟩ (hook 1), .enter ⟨0⟩, .enter ⟨1⟩, .close 1, .guard 2 ⟨1⟩ .null,
    .close 2, .exit ⟨1⟩, .drop ⟨0⟩, .exit ⟨0⟩, .close 0]

theorem innermost_hook_current_crossing :
    (start world).Nested crossing ∧
      let l := (start world).run (crossing.take 8)
      l.innermost? ⟨1⟩ = some ⟨.hand ⟨1⟩, ⟨1⟩, hook 2, hook 2⟩ ∧ l.innermost? ⟨2⟩ = none ∧
        (∀ r, l.world.slot r = (l.innermost? r).elim (world.slot r) Opening.hook) ∧
        ∃ o ∈ l.openings, o.opener = .hand ⟨1⟩ ∧
          ∃ earlier m', earlier ++ [m'] <+: crossing.take 8 ∧ ((start world).run earlier).opens? m' = some o ∧
            (l.move (.exit ⟨1⟩)).world.slot o.slot = ((start world).run earlier).world.slot o.slot := by
  have hn : (start world).Nested crossing := by decide
  obtain ⟨hcurrent, hcloses, -⟩ := innermost_hook_current hn (List.take_prefix 8 crossing)
  exact ⟨hn, by decide, by decide, hcurrent, hcloses (.exit ⟨1⟩) _ ⟨crossing.drop 9, rfl⟩ (by decide)⟩

end TwoSlots

end Interception
