import Interception.Proofs.Nesting

namespace Interception

variable {H : Host} {w : World H} {s t : ScopeId} {r : SlotId}

namespace World

theorem scope_drop_ne (w : World H) (hst : s ≠ t) : (w.drop s).scope t = w.scope t :=
  (scope_of_hooks (hooks_drop w s) t).trans (scope_exit_ne w hst)

theorem slot_enter_ne (w : World H) (hr : (w.scope s).slot ≠ r) : (w.enter s).2.slot r = w.slot r := by
  cases hs : (w.scope s).displaced with
  | none => rw [slot_enter hs, if_neg hr]
  | some d => rw [enter_of_active hs]

theorem slot_exit_ne (w : World H) (hr : (w.scope s).slot ≠ r) : (w.exit s).2.slot r = w.slot r := by
  cases hs : (w.scope s).displaced with
  | none => rw [exit_of_idle hs]
  | some d => rw [slot_exit hs, if_neg hr]

theorem slot_drop (w : World H) (s : ScopeId) (r : SlotId) : (w.drop s).slot r = (w.exit s).2.slot r :=
  slot_of_hooks (hooks_drop w s) r

theorem scope_exit_self {h : Hook} (hs : (w.scope s).displaced = some h) :
    (w.exit s).2.scope s = { w.scope s with displaced := none } := by
  have hscopes := congrArg (fun p => p.2.get s.index) (hooks_exit_of_active hs)
  exact hscopes.trans (Table.get_set_self ..)

end World

namespace Ledger

variable {l : Ledger H} {m : ScopeMove} {ms : List ScopeMove}

def scope? (l : Ledger H) : ScopeMove → Option ScopeId
  | .create _ _ => some ⟨l.world.scopes.cells.size⟩
  | .enter s | .exit s | .drop s => some s
  | .guard _ _ _ | .close _ | .install _ _ => none

def slot? (l : Ledger H) : ScopeMove → Option SlotId
  | .create _ _ => none
  | .enter s | .exit s | .drop s => some (l.world.scope s).slot
  | .guard _ r _ | .install r _ => some r
  | .close n => (l.guards n).map Prod.fst

theorem scope_move_ne (h : l.scope? m ≠ some s) : (l.move m).world.scope s = l.world.scope s := by
  cases m with
  | create r hook =>
    have hold : s.index ≠ l.world.scopes.cells.size := fun he => h (congrArg (fun i => some (ScopeId.mk i)) he.symm)
    exact Table.get_add_old _ _ hold
  | enter t => exact World.scope_enter_ne _ fun he => h (congrArg some he)
  | exit t => exact World.scope_exit_ne _ fun he => h (congrArg some he)
  | drop t => exact World.scope_drop_ne _ fun he => h (congrArg some he)
  | guard n r hook => exact World.scope_openGuard ..
  | close n =>
    simp only [move, effect]
    split
    · exact World.scope_closeGuard ..
    · rfl
  | install r hook => rfl

theorem slot_move_ne (h : l.slot? m ≠ some r) : (l.move m).world.slot r = l.world.slot r := by
  cases m with
  | create t hook => rfl
  | enter s => exact World.slot_enter_ne _ fun he => h (congrArg some he)
  | exit s => exact World.slot_exit_ne _ fun he => h (congrArg some he)
  | drop s => exact (World.slot_drop ..).trans (World.slot_exit_ne _ fun he => h (congrArg some he))
  | guard n t hook => exact (World.slot_openGuard ..).trans (if_neg fun he => h (congrArg some he))
  | close n =>
    cases hg : l.guards n with
    | none => simp only [move, effect, hg]
    | some p =>
      have hne : p.1 ≠ r := fun he => h (by simp only [slot?, hg, Option.map_some, he])
      simp only [move, effect, hg]
      rw [World.slot_closeGuard, if_neg hne]
  | install t hook => exact World.slot_install_ne _ _ fun he => h (congrArg some he)

theorem move_enter_of_active {d : Hook} (hs : (l.world.scope s).displaced = some d) : l.move (.enter s) = l :=
  move_enter_of_rejected (congrArg Prod.fst (World.enter_of_active hs))

theorem move_exit_of_idle (hs : (l.world.scope s).displaced = none) : l.move (.exit s) = l :=
  move_exit_of_rejected (congrArg Prod.fst (World.exit_of_idle hs))

theorem move_drop_of_idle (hs : (l.world.scope s).displaced = none) : l.move (.drop s) = l := by
  apply move_eq_self
  · rw [effect, World.drop_of_idle hs]
  · rfl
  · simp [closes?, hs]

theorem scope_move_of_active {d : Hook} (hs : (l.world.scope s).displaced = some d) (he : m ≠ .exit s)
    (hd : m ≠ .drop s) : (l.move m).world.scope s = l.world.scope s := by
  cases m with
  | create r hook => exact World.scope_newScope (by simp [hs])
  | enter t =>
    by_cases hts : t = s
    · rw [hts, move_enter_of_active hs]
    · exact scope_move_ne fun ht => hts (Option.some.inj ht)
  | exit t => exact scope_move_ne fun ht => he (congrArg ScopeMove.exit (Option.some.inj ht))
  | drop t => exact scope_move_ne fun ht => hd (congrArg ScopeMove.drop (Option.some.inj ht))
  | _ => exact scope_move_ne (by simp [scope?])

def LeavesOpen (s : ScopeId) (ms : List ScopeMove) : Prop := .exit s ∉ ms ∧ .drop s ∉ ms

theorem leavesOpen_cons : LeavesOpen s (m :: ms) ↔ (m ≠ .exit s ∧ m ≠ .drop s) ∧ LeavesOpen s ms := by
  simp only [LeavesOpen, List.mem_cons, not_or, ne_comm, ne_eq]
  exact and_and_and_comm

theorem scope_run_of_active {d : Hook} (hs : (l.world.scope s).displaced = some d) (ho : LeavesOpen s ms) :
    (l.run ms).world.scope s = l.world.scope s := by
  induction ms generalizing l with
  | nil => rfl
  | cons m ms ih =>
    obtain ⟨⟨he, hd⟩, ho⟩ := leavesOpen_cons.mp ho
    have hm := scope_move_of_active hs he hd
    exact (ih (hm ▸ hs) ho).trans hm

theorem idle_move (hs : (l.world.scope s).displaced = none) (he : m ≠ .enter s) :
    ((l.move m).world.scope s).displaced = none := by
  by_cases hm : l.scope? m = some s
  · cases m with
    | create r hook =>
      obtain rfl := Option.some.inj hm
      have hnew : (l.move (.create r hook)).world.scope ⟨l.world.scopes.cells.size⟩ = ⟨r, hook, none⟩ :=
        Table.get_add_new ..
      rw [hnew]
    | enter t => exact absurd (congrArg ScopeMove.enter (Option.some.inj hm)) he
    | exit t =>
      obtain rfl := Option.some.inj hm
      rwa [move_exit_of_idle hs]
    | drop t =>
      obtain rfl := Option.some.inj hm
      rwa [move_drop_of_idle hs]
    | _ => cases hm
  · rwa [scope_move_ne hm]

theorem idle_run (hs : (l.world.scope s).displaced = none) (he : .enter s ∉ ms) :
    ((l.run ms).world.scope s).displaced = none := by
  induction ms generalizing l with
  | nil => exact hs
  | cons m ms ih =>
    exact ih (idle_move hs (List.ne_of_not_mem_cons he).symm) (List.not_mem_of_not_mem_cons he)

theorem scope_move_close (hm : m = .exit s ∨ m = .drop s) {d : Hook} (hs : (l.world.scope s).displaced = some d) :
    (l.move m).world.scope s = { l.world.scope s with displaced := none } ∧
      (l.move m).world.slot (l.world.scope s).slot = d := by
  have hscope := World.scope_exit_self hs
  have hslot := (World.slot_exit hs (l.world.scope s).slot).trans (if_pos rfl)
  rcases hm with rfl | rfl
  · exact ⟨hscope, hslot⟩
  · exact ⟨(World.scope_of_hooks (World.hooks_drop ..) s).trans hscope, (World.slot_drop ..).trans hslot⟩

theorem scope_move_or_idle (hm : m = .enter s → (l.world.enter s).1 ≠ .ok ()) :
    (l.move m).world.scope s = l.world.scope s ∨ ((l.move m).world.scope s).displaced = none := by
  cases hs : (l.world.scope s).displaced with
  | none => exact .inr (idle_move hs fun he => hm he (World.enter_ok_iff.mpr hs))
  | some d =>
    by_cases hc : m = .exit s ∨ m = .drop s
    · exact .inr (congrArg Scope.displaced (scope_move_close hc hs).1)
    · exact .inl (scope_move_of_active hs (fun he => hc (.inl he)) fun hd => hc (.inr hd))

theorem scope_run_or_idle
    (hms : ∀ mid rest, ms = mid ++ .enter s :: rest → ((l.run mid).world.enter s).1 ≠ .ok ()) :
    (l.run ms).world.scope s = l.world.scope s ∨ ((l.run ms).world.scope s).displaced = none := by
  induction ms generalizing l with
  | nil => exact .inl rfl
  | cons m ms ih =>
    have hrest : (l.run (m :: ms)).world.scope s = (l.move m).world.scope s ∨
        ((l.run (m :: ms)).world.scope s).displaced = none :=
      ih fun mid rest he => hms (m :: mid) rest (congrArg (m :: ·) he)
    have hfirst := scope_move_or_idle (l := l) (m := m) (s := s) fun he => hms [] ms (congrArg (· :: ms) he)
    rcases hrest with hrest | hrest
    · exact hfirst.imp hrest.trans fun hidle => hrest ▸ hidle
    · exact .inr hrest

theorem scope_move_enter (h : (l.world.enter s).1 = .ok ()) :
    (l.move (.enter s)).world.scope s = { l.world.scope s with displaced := l.world.slot (l.world.scope s).slot } :=
  World.scope_enter_self (World.enter_ok_iff.mp h)

structure LatestEnter (w : World H) (s : ScopeId) (past earlier since : List ScopeMove) : Prop where
  past_eq : past = earlier ++ .enter s :: since
  accepted : (((start w).run earlier).world.enter s).1 = .ok ()
  latest : ∀ mid rest, since = mid ++ .enter s :: rest →
    (((start w).run (earlier ++ .enter s :: mid)).world.enter s).1 ≠ .ok ()

namespace LatestEnter

variable {past earlier since : List ScopeMove}

theorem of_leavesOpen (hp : past = earlier ++ .enter s :: since)
    (ha : (((start w).run earlier).world.enter s).1 = .ok ()) (ho : LeavesOpen s since) :
    LatestEnter w s past earlier since := by
  refine ⟨hp, ha, fun mid rest hsince hok => ?_⟩
  subst hsince
  have hentered := scope_move_enter ha
  have hmid : LeavesOpen s mid := ho.imp (mt (List.mem_append_left _)) (mt (List.mem_append_left _))
  have hscope := scope_run_of_active (congrArg Scope.displaced hentered) hmid
  -- had it been accepted, the scope would have been idle, which it was not
  have hidle := World.enter_ok_iff.mp hok
  rw [run_append] at hidle
  have hactive := congrArg Scope.displaced (hscope.trans hentered)
  exact absurd (hactive.symm.trans hidle) (by simp)

theorem scope_eq (h : LatestEnter w s past earlier since)
    (hs : (((start w).run past).world.scope s).displaced.isSome) :
    ((start w).run past).world.scope s =
      let before := ((start w).run earlier).world
      { before.scope s with displaced := before.slot (before.scope s).slot } := by
  have hrun : (start w).run past = (((start w).run earlier).move (.enter s)).run since := by
    rw [h.past_eq, run_append]
    rfl
  have hlatest : ∀ mid rest, since = mid ++ .enter s :: rest →
      (((((start w).run earlier).move (.enter s)).run mid).world.enter s).1 ≠ .ok () := by
    intro mid rest he
    have hne := h.latest mid rest he
    rwa [run_append] at hne
  rw [hrun] at hs ⊢
  -- nothing since can have made it active anew
  rcases scope_run_or_idle hlatest with hkept | hidle
  · exact hkept.trans (scope_move_enter h.accepted)
  · simp [hidle] at hs

end LatestEnter

theorem entered_of_active (hs : ((l.run ms).world.scope s).displaced.isSome) :
    ((l.world.scope s).displaced.isSome ∧ LeavesOpen s ms) ∨
      ∃ earlier since, ms = earlier ++ .enter s :: since ∧ ((l.run earlier).world.enter s).1 = .ok () ∧
        LeavesOpen s since := by
  induction ms generalizing l with
  | nil => exact .inl ⟨hs, List.not_mem_nil, List.not_mem_nil⟩
  | cons m ms ih =>
    rcases ih hs with ⟨hm, ho⟩ | ⟨earlier, since, rfl, ha, ho⟩
    -- active from the first move on: then this is the enter, or it was active before
    · cases hl : (l.world.scope s).displaced with
      | none =>
        obtain rfl : m = .enter s := by
          refine Classical.byContradiction fun hne => ?_
          simp [idle_move hl hne] at hm
        exact .inr ⟨[], ms, rfl, World.enter_ok_iff.mpr hl, ho⟩
      | some d =>
        have hclose : ¬(m = .exit s ∨ m = .drop s) := fun hc => by simp [(scope_move_close hc hl).1] at hm
        exact .inl ⟨rfl, leavesOpen_cons.mpr ⟨not_or.mp hclose, ho⟩⟩
    · exact .inr ⟨m :: earlier, since, rfl, ha, ho⟩

theorem active_iff (hs : (w.scope s).displaced = none) (past : List ScopeMove) :
    (((start w).run past).world.scope s).displaced.isSome ↔
      ∃ earlier since, LatestEnter w s past earlier since ∧ LeavesOpen s since := by
  constructor
  · intro hactive
    rcases entered_of_active hactive with ⟨hold, -⟩ | ⟨earlier, since, rfl, ha, ho⟩
    · simp [start, hs] at hold
    · exact ⟨earlier, since, .of_leavesOpen rfl ha ho, ho⟩
  · rintro ⟨earlier, since, h, ho⟩
    have hentered := scope_move_enter h.accepted
    have hkept := scope_run_of_active (congrArg Scope.displaced hentered) ho
    rw [h.past_eq, run_append]
    exact congrArg (fun scope => scope.displaced.isSome) (hkept.trans hentered)

structure Spent (l : Ledger H) (s : ScopeId) : Prop where
  exit_result : (l.world.exit s).1 = .error .notActive
  exit : l.move (.exit s) = l
  drop : l.move (.drop s) = l

structure HandsBack (l : Ledger H) (s : ScopeId) (m : ScopeMove) (hook : Hook) : Prop where
  slot : (l.move m).world.slot (l.world.scope s).slot = hook
  once : ∀ {later}, .enter s ∉ later → ((l.move m).run later).Spent s

structure KeepsOwn (w : World H) (s : ScopeId) (past : List ScopeMove) (l : Ledger H) : Prop where
  enter_ok : (l.world.enter s).1 = .ok () ↔ (l.world.scope s).displaced = none
  exit_ok : (l.world.exit s).1 = .ok () ↔ (l.world.scope s).displaced.isSome
  active : (l.world.scope s).displaced.isSome ↔
    ∃ earlier since, LatestEnter w s past earlier since ∧ LeavesOpen s since
  enter_rejected : ∀ {e}, (l.world.enter s).1 = .error e → l.move (.enter s) = l
  exit_rejected : ∀ {e}, (l.world.exit s).1 = .error e → l.move (.exit s) = l
  drop_idle : (l.world.scope s).displaced = none → l.move (.drop s) = l
  enter_idle : (l.world.scope s).displaced = none →
    (l.move (.enter s)).world.slot (l.world.scope s).slot = (l.world.scope s).hook
  closes : ∀ {earlier since}, LatestEnter w s past earlier since → (l.world.scope s).displaced.isSome →
    ∀ {m}, m = .exit s ∨ m = .drop s →
      l.HandsBack s m (((start w).run earlier).world.slot (l.world.scope s).slot)
  scope_ne : ∀ {m t}, l.scope? m ≠ some t → (l.move m).world.scope t = l.world.scope t
  slot_ne : ∀ {m r}, l.slot? m ≠ some r → (l.move m).world.slot r = l.world.slot r

theorem spent_of_idle {l : Ledger H} (hidle : (l.world.scope s).displaced = none) : l.Spent s where
  exit_result := congrArg Prod.fst (World.exit_of_idle hidle)
  exit := move_exit_of_idle hidle
  drop := move_drop_of_idle hidle

theorem LatestEnter.handsBack {past earlier since : List ScopeMove} {m : ScopeMove}
    (h : LatestEnter w s past earlier since) (hactive : (((start w).run past).world.scope s).displaced.isSome)
    (hm : m = .exit s ∨ m = .drop s) :
    ((start w).run past).HandsBack s m
      (((start w).run earlier).world.slot (((start w).run past).world.scope s).slot) := by
  have hscope := h.scope_eq hactive
  obtain ⟨hclosed, hslot⟩ := scope_move_close hm (congrArg Scope.displaced hscope)
  refine ⟨?_, fun hlater => spent_of_idle (idle_run (congrArg Scope.displaced hclosed) hlater)⟩
  rw [hslot, congrArg Scope.slot hscope]

end Ledger

open Ledger

/-- Scopes and guards need not be closed in any order, and hooks may be installed past them: closing a scope brings back
the hook from before its latest accepted enter, and then no more until it is entered again. -/
theorem own_displaced_hook_restored {w : World H} {s : ScopeId} (hs : (w.scope s).displaced = none)
    (past : List ScopeMove) : KeepsOwn w s past ((start w).run past) where
  enter_ok := World.enter_ok_iff
  exit_ok := World.exit_ok_iff.trans Option.isSome_iff_ne_none.symm
  active := active_iff hs past
  enter_rejected := move_enter_of_rejected
  exit_rejected := move_exit_of_rejected
  drop_idle := move_drop_of_idle
  enter_idle hidle := (World.slot_enter hidle _).trans (if_pos rfl)
  closes h hactive _ hm := h.handsBack hactive hm
  scope_ne := scope_move_ne
  slot_ne := slot_move_ne

namespace SharedSlot

abbrev host : Host := ⟨Unit, Empty, Empty, Empty, Empty, Empty, Empty, Empty⟩

def hook (n : Nat) : Hook := .active ⟨n⟩

def world : World host :=
  { slots := ⟨#[.null]⟩
    scopes := ⟨#[{ slot := ⟨0⟩, hook := hook 1 }, { slot := ⟨0⟩, hook := hook 2 }]⟩
    host := () }

def crossed : List ScopeMove :=
  [.guard 0 ⟨0⟩ (hook 3), .enter ⟨0⟩, .exit ⟨0⟩, .install ⟨0⟩ (hook 4)]

theorem own_displaced_hook_restored_crossed :
    (world.scope ⟨1⟩).displaced = none ∧
      LatestEnter world ⟨1⟩ (.enter ⟨0⟩ :: .enter ⟨1⟩ :: crossed) [.enter ⟨0⟩] crossed ∧
      let l := (start world).run (.enter ⟨0⟩ :: .enter ⟨1⟩ :: crossed)
      l.world.slot ⟨0⟩ = hook 4 ∧ (l.world.scope ⟨1⟩).displaced.isSome ∧
        (l.move (.drop ⟨1⟩)).world.slot ⟨0⟩ = hook 1 ∧
        let l' := (l.move (.drop ⟨1⟩)).run [.close 0, .exit ⟨1⟩]
        l'.world.slot ⟨0⟩ = hook 2 ∧ l'.move (.exit ⟨1⟩) = l' := by
  have hs : (world.scope ⟨1⟩).displaced = none := rfl
  have ho : LeavesOpen ⟨1⟩ crossed := by simp [LeavesOpen, crossed]
  have hlatest : LatestEnter world ⟨1⟩ (.enter ⟨0⟩ :: .enter ⟨1⟩ :: crossed) [.enter ⟨0⟩] crossed :=
    .of_leavesOpen rfl (World.enter_ok_iff.mpr rfl) ho
  have h := own_displaced_hook_restored hs (.enter ⟨0⟩ :: .enter ⟨1⟩ :: crossed)
  have hback := h.closes hlatest (by decide) (.inr (rfl : ScopeMove.drop ⟨1⟩ = _))
  have hlater : ScopeMove.enter ⟨1⟩ ∉ [.close 0, .exit ⟨1⟩] := by simp
  exact ⟨hs, hlatest, by decide, by decide, hback.slot, by decide, (hback.once hlater).exit⟩

end SharedSlot

end Interception
