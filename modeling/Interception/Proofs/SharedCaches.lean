import Mathlib.Data.List.Forall2
import Interception.Proofs.Failures
import Interception.Proofs.Keys
import Interception.Proofs.PureConverters

namespace Interception

open State Cache

variable {H : Host} {β : Behaviour H}

structure Converter.Functional (β : Behaviour H) (ok : World H → Prop) (c inner : ConverterId)
    (ask : CompilerId → Frame → Conversion) : Prop where
  answers : ∀ w b f, ok w → ∃ w', Finishes β (ofRequest w (.convert inner b f)) w' (.ok (ask b f)) ∧ ok w' ∧
    w'.converter c = w.converter c
  cached : ∀ w cache, ok w → ok (w.setConverter c (.caching inner cache))
  tallied : ∀ w d event, ok w → ok (w.recordTally d event)
  logged : ∀ w level message, ok w → ok (w.log level message)

structure World.Caches (ok : World H → Prop) (c inner : ConverterId) (w : World H) (cache : Cache) : Prop where
  ok : ok w
  converter : w.converter c = .caching inner cache

inductive Use
  | convert (b : CompilerId) (f : Frame)
  | dispatch (d : Dispatch) (f : Frame)
  | offer (h : HandlerId) (d : Dispatch) (f : Frame)
  | invalidate (code : CodeId)

inductive Use.Reply
  | conversion (a : Conversion)
  | decision (d : Except HookError Decision)
  | forgotten

namespace Use

def inquiry : Use → Inquiry
  | convert b f => .convert b f
  | dispatch d f | offer _ d f => .convert d.compiler f
  | invalidate code => .invalidate code

def reply : Use → Option Conversion → Reply
  | convert _ _, some a => .conversion a
  | dispatch _ _, some a | offer _ _ _, some a => .decision a.outcome
  | _, _ => .forgotten

def Ready (c : ConverterId) (w : World H) : Use → Prop
  | dispatch d _ => d.converter = c
  | offer h d _ => d.converter = c ∧ w.handler h = .dispatch d
  | _ => True

def Alike (x y : Use × Reply) : Prop :=
  x.1.inquiry = y.1.inquiry ∧ ∃ a, x.2 = x.1.reply a ∧ y.2 = y.1.reply a

def Shows (x : Use × Reply) (t : Inquiry × Option Conversion) : Prop :=
  x.1.inquiry = t.1 ∧ x.2 = x.1.reply t.2

end Use

inductive Served (β : Behaviour H) (c : ConverterId) (w : World H) : Use → Use.Reply → World H → Prop
  | convert {b f w' a} (hf : Finishes β (ofRequest w (.convert c b f)) w' (.ok a)) :
    Served β c w (.convert b f) (.conversion a) w'
  | dispatch {d f w' r} (hf : Finishes β (ofRequest w (.dispatch d f)) w' (.ok r)) :
    Served β c w (.dispatch d f) (.decision r) w'
  | offer {h d f w' r} (hf : Finishes β (ofRequest w (.decide (.active h) f)) w' (.ok r)) :
    Served β c w (.offer h d f) (.decision r) w'
  | invalidate {code} : Served β c w (.invalidate code) .forgotten ((Command.invalidate c code).run w).2

inductive Uses (β : Behaviour H) (ok : World H → Prop) (c : ConverterId) :
    World H → List (Use × Use.Reply) → World H → Prop
  | nil {w} : Uses β ok c w [] w
  | use {w u r w₁ l w'} (hu : u.Ready c w) (h : Served β c w u r w₁) (hs : Uses β ok c w₁ l w') :
    Uses β ok c w ((u, r) :: l) w'
  | command {w q l w'} (hok : ok (Command.run w q).2) (hc : (Command.run w q).2.converter c = w.converter c)
    (hs : Uses β ok c (Command.run w q).2 l w') : Uses β ok c w l w'

def inquiries (l : List (Use × Use.Reply)) : List Inquiry := l.map (·.1.inquiry)

def World.AlikeUnder (β : Behaviour H) (ok : World H → Prop) (c : ConverterId) (k : Key) (w v : World H) : Prop :=
  ∀ {l l' w' v'}, Uses β ok c w l w' → Uses β ok c v l' v' →
    (inquiries l).filter (·.concerns k) = (inquiries l').filter (·.concerns k) →
    List.Forall₂ Use.Alike (l.filter (·.1.inquiry.concerns k)) (l'.filter (·.1.inquiry.concerns k))

structure Cache.Indistinct (cache cache' : Cache) : Prop where
  agrees : cache.Agrees cache'
  contains : ∀ code, cache.contains code = cache'.contains code
  isSkipped : ∀ code, cache.isSkipped code = cache'.isSkipped code
  size : cache.size = cache'.size

structure World.Interchanged (ok : World H → Prop) (c inner : ConverterId) (l l' : List (Use × Use.Reply))
    (w v : World H) : Prop where
  replies : List.Forall₂ Use.Alike l l'
  caches : ∃ cache cache', w.Caches ok c inner cache ∧ v.Caches ok c inner cache' ∧ cache.Indistinct cache'

structure World.ForgetsOnly (β : Behaviour H) (ok : World H → Prop) (c inner : ConverterId) (w : World H)
    (cache : Cache) (code : CodeId) : Prop where
  forgotten : ∀ {v : World H} {fresh : Cache} {k}, v.Caches ok c inner fresh → fresh.limit = cache.limit →
    fresh.entries = [] → k.code = code → ((Command.invalidate c code).run w).2.AlikeUnder β ok c k v
  kept : ∃ cache', ((Command.invalidate c code).run w).2.Caches ok c inner cache' ∧ ∀ k, k.code ≠ code →
    cache'.entry k = cache.entry k ∧ ((Command.invalidate c code).run w).2.AlikeUnder β ok c k w

structure KeysIndependent (β : Behaviour H) (ok : World H → Prop) (c inner : ConverterId) : Prop where
  answers : ∀ {w w' : World H} {cache l u}, w.Caches ok c inner cache → Uses β ok c w l w' → u.Ready c w' →
    ∃ r v, Uses β ok c w (l ++ [(u, r)]) v
  alike : ∀ {w v : World H} {cache cache' : Cache} {k}, w.Caches ok c inner cache → v.Caches ok c inner cache' →
    cache.limit = cache'.limit → cache.entry k = cache'.entry k → w.AlikeUnder β ok c k v
  interchange : ∀ {w w' v : World H} {cache : Cache} {l₁ x y l₂ l}, w.Caches ok c inner cache → cache.entries = [] →
    Uses β ok c w (l₁ ++ x :: y :: l₂) w' → Uses β ok c w l v → inquiries l = inquiries (l₁ ++ y :: x :: l₂) →
    x.1.inquiry.Apart y.1.inquiry → World.Interchanged ok c inner (l₁ ++ y :: x :: l₂) l w' v
  invalidate : ∀ {w : World H} {cache : Cache} (code), w.Caches ok c inner cache →
    w.ForgetsOnly β ok c inner cache code

theorem Served.unique {c : ConverterId} {w w' v : World H} {u : Use} {r r' : Use.Reply} (h : Served β c w u r w')
    (h' : Served β c w u r' v) : w' = v ∧ r = r' := by
  cases h with
  | convert hf =>
    cases h' with | convert hf'
    obtain ⟨rfl, ha⟩ := hf.unique hf'
    exact ⟨rfl, congrArg Use.Reply.conversion (Except.ok.inj ha)⟩
  | dispatch hf =>
    cases h' with | dispatch hf'
    obtain ⟨rfl, hr⟩ := hf.unique hf'
    exact ⟨rfl, congrArg Use.Reply.decision (Except.ok.inj hr)⟩
  | offer hf =>
    cases h' with | offer hf'
    obtain ⟨rfl, hr⟩ := hf.unique hf'
    exact ⟨rfl, congrArg Use.Reply.decision (Except.ok.inj hr)⟩
  | invalidate =>
    cases h' with | invalidate
    exact ⟨rfl, rfl⟩

namespace Uses

variable {ok : World H → Prop} {c : ConverterId} {w w' v : World H} {l l' : List (Use × Use.Reply)}

theorem append (h : Uses β ok c w l v) (h' : Uses β ok c v l' w') : Uses β ok c w (l ++ l') w' := by
  induction h with
  | nil => exact h'
  | use hu hr _ ih => exact .use hu hr (ih h')
  | command hok hc _ ih => exact .command hok hc (ih h')

theorem split (h : Uses β ok c w (l ++ l') w') : ∃ v, Uses β ok c w l v ∧ Uses β ok c v l' w' := by
  generalize hl : l ++ l' = both at h
  induction h generalizing l with
  | nil =>
    obtain ⟨rfl, rfl⟩ := List.append_eq_nil_iff.mp hl
    exact ⟨_, .nil, .nil⟩
  | @use w u r w₁ rest w' hu hr hs ih =>
    cases l with
    | nil =>
      subst hl
      exact ⟨w, .nil, .use hu hr hs⟩
    | cons x l =>
      obtain ⟨rfl, hrest⟩ := List.cons.inj hl
      obtain ⟨v, hl, hl'⟩ := ih hrest
      exact ⟨v, .use hu hr hl, hl'⟩
  | command hok hc _ ih =>
    obtain ⟨v, hl, hl'⟩ := ih hl
    exact ⟨v, .command hok hc hl, hl'⟩

end Uses

theorem Use.alike_of_shows {l l' : List (Use × Reply)} {ts : List (Inquiry × Option Conversion)}
    (h : List.Forall₂ Shows l ts) (h' : List.Forall₂ Shows l' ts) : List.Forall₂ Alike l l' := by
  induction h generalizing l' with
  | nil =>
    cases h'
    exact .nil
  | cons hx _ ih =>
    cases h' with | cons hy hrest
    exact .cons ⟨hx.1.trans hy.1.symm, _, hx.2, hy.2⟩ (ih hrest)

section

variable {ok : World H → Prop} {c inner : ConverterId} {ask : CompilerId → Frame → Conversion} {w w' v : World H}
  {cache cache' : Cache} {d : Dispatch} {u : Use} {k : Key} {l l₁ l₂ : List (Use × Use.Reply)}
  {x y : Use × Use.Reply} (hp : Converter.Functional β ok c inner ask)

theorem World.Caches.of_invalidate (h : w.Caches ok c inner cache) {code : CodeId} :
    ((Command.invalidate c code).run w).2 = w.setConverter c (.caching inner (cache.invalidate code)) := by
  simp only [Command.run, h.converter]

include hp

namespace Converter.Functional

theorem sets (h : w.Caches ok c inner cache) (cache' : Cache) :
    (w.setConverter c (.caching inner cache')).Caches ok c inner cache' :=
  ⟨hp.cached w cache' h.ok, World.converter_setConverter_self ..⟩

theorem converts (h : w.Caches ok c inner cache) (b : CompilerId) (f : Frame) :
    ∃ w', Finishes β (ofRequest w (.convert c b f)) w' (.ok (cache.answer ask b f).1) ∧
      w'.Caches ok c inner (cache.answer ask b f).2 := by
  rw [answer]
  generalize hl : cache.lookup ⟨f.code.id, b⟩ f = looked
  obtain ⟨found, cache'⟩ := looked
  have hlooked := hp.sets h cache'
  cases found with
  | some a => exact ⟨_, convert_remembered h.converter hl, hlooked⟩
  | none =>
    obtain ⟨w₁, hfin, hok, hkept⟩ := hp.answers _ b f hlooked.ok
    have hasked : w₁.Caches ok c inner cache' := ⟨hok, hkept.trans hlooked.converter⟩
    exact ⟨_, convert_asked h.converter hl hfin hasked.converter, hp.sets hasked _⟩

theorem classifies (h : w.Caches ok c inner cache) (d : Dispatch) (f : Frame) (a : Conversion) :
    (w.classify d f a).Caches ok c inner cache := by
  refine ⟨?_, (World.converter_classify ..).trans h.converter⟩
  cases a with
  | declined reason => exact hp.tallied _ d _ (hp.logged w _ _ h.ok)
  | _ => exact hp.tallied w d _ h.ok

theorem dispatches (h : w.Caches ok c inner cache) (hd : d.converter = c) (f : Frame) :
    ∃ w', Finishes β (ofRequest w (.dispatch d f)) w' (.ok (cache.answer ask d.compiler f).1.outcome) ∧
      w'.Caches ok c inner (cache.answer ask d.compiler f).2 := by
  subst hd
  have hcounted : (w.recordTally d .intercepted).Caches ok d.converter inner cache :=
    ⟨hp.tallied w d _ h.ok, (World.converter_of_converters (World.converters_recordTally ..) _).trans h.converter⟩
  obtain ⟨v, hfin, hv⟩ := hp.converts hcounted d.compiler f
  exact ⟨_, finishes_dispatch hfin, hp.classifies hv ..⟩

theorem serves (h : w.Caches ok c inner cache) (hu : u.Ready c w) :
    ∃ w', Served β c w u (u.reply (cache.serve ask u.inquiry).1) w' ∧
      w'.Caches ok c inner (cache.serve ask u.inquiry).2 := by
  cases u with
  | convert b f =>
    obtain ⟨w', hfin, hw'⟩ := hp.converts h b f
    exact ⟨w', .convert hfin, hw'⟩
  | dispatch d f =>
    obtain ⟨w', hfin, hw'⟩ := hp.dispatches h hu f
    exact ⟨w', .dispatch hfin, hw'⟩
  | offer i d f =>
    obtain ⟨hd, hh⟩ := hu
    obtain ⟨w', hfin, hw'⟩ := hp.dispatches h hd f
    exact ⟨w', .offer ((reaches_dispatch hh f).finishes hfin), hw'⟩
  | invalidate code => exact ⟨_, .invalidate, h.of_invalidate ▸ hp.sets h _⟩

end Converter.Functional

theorem Uses.shows (h : w.Caches ok c inner cache) (hs : Uses β ok c w l w') :
    List.Forall₂ Use.Shows l (cache.transcript ask (inquiries l)) ∧
      w'.Caches ok c inner (cache.served ask (inquiries l)) := by
  induction hs generalizing cache with
  | nil => exact ⟨.nil, h⟩
  | use hu hserved _ ih =>
    obtain ⟨w₁, hserved', hw₁⟩ := hp.serves h hu
    obtain ⟨rfl, rfl⟩ := hserved.unique hserved'
    obtain ⟨hrest, hlast⟩ := ih hw₁
    exact ⟨.cons ⟨rfl, rfl⟩ hrest, hlast⟩
  | command hok hc _ ih => exact ih ⟨hok, hc.trans h.converter⟩

theorem Uses.continues (h : w.Caches ok c inner cache) (hs : Uses β ok c w l w') (hu : u.Ready c w') :
    ∃ r v, Uses β ok c w (l ++ [(u, r)]) v := by
  obtain ⟨v, hserved, -⟩ := hp.serves (hs.shows hp h).2 hu
  exact ⟨_, v, hs.append (.use hu hserved .nil)⟩

theorem World.alikeUnder (h : w.Caches ok c inner cache) (h' : v.Caches ok c inner cache')
    (hlimit : cache.limit = cache'.limit) (hentry : cache.entry k = cache'.entry k) : w.AlikeUnder β ok c k v := by
  intro l l' w' v' hs hs' hinquiries
  have hfilter {l : List (Use × Use.Reply)} {ts : List (Inquiry × Option Conversion)}
      (h : List.Forall₂ Use.Shows l ts) :
      List.Forall₂ Use.Shows (l.filter (·.1.inquiry.concerns k)) (ts.filter (·.1.concerns k)) := by
    refine List.rel_filter (fun x t hxt => ?_) h
    show x.1.inquiry.concerns k ↔ t.1.concerns k
    rw [hxt.1]
  have hleft := hfilter (hs.shows hp h).1
  have hright := hfilter (hs'.shows hp h').1
  rw [filter_transcript, hinquiries, hlimit, hentry, ← filter_transcript] at hleft
  exact Use.alike_of_shows hleft hright

theorem Uses.swaps (h : w.Caches ok c inner cache) (hs : Uses β ok c w (l₁ ++ x :: y :: l₂) w')
    (hapart : x.1.inquiry.Apart y.1.inquiry) :
    List.Forall₂ Use.Shows (l₁ ++ y :: x :: l₂) (cache.transcript ask (inquiries (l₁ ++ y :: x :: l₂))) := by
  obtain ⟨v, hbefore, hafter⟩ := hs.split
  obtain ⟨hshown, hv⟩ := hbefore.shows hp h
  have hlater := (hafter.shows hp hv).1
  have hinquiries (x y : Use × Use.Reply) : inquiries (x :: y :: l₂) = x.1.inquiry :: y.1.inquiry :: inquiries l₂ := rfl
  rw [hinquiries, transcript_pair hapart] at hlater
  cases hlater with | cons hx hlater
  cases hlater with | cons hy hlater
  have happend : inquiries (l₁ ++ y :: x :: l₂) = inquiries l₁ ++ inquiries (y :: x :: l₂) := List.map_append
  -- the later uses meet caches that agree
  rw [happend, transcript_append, hinquiries, transcript_pair hapart.symm, ← (agrees_swap hapart _).transcript]
  exact List.rel_append hshown (.cons hy (.cons hx hlater))

theorem Uses.interchanged (h : w.Caches ok c inner cache) (hfresh : cache.entries = [])
    (hs : Uses β ok c w (l₁ ++ x :: y :: l₂) w') (hs' : Uses β ok c w l v)
    (hinquiries : inquiries l = inquiries (l₁ ++ y :: x :: l₂)) (hapart : x.1.inquiry.Apart y.1.inquiry) :
    World.Interchanged ok c inner (l₁ ++ y :: x :: l₂) l w' v := by
  obtain ⟨hshown, hv⟩ := hs'.shows hp h
  have hw' := (hs.shows hp h).2
  have happend (l : List (Use × Use.Reply)) : inquiries (l₁ ++ l) = inquiries l₁ ++ inquiries l := List.map_append
  rw [hinquiries] at hshown hv
  rw [happend] at hv hw'
  refine ⟨Use.alike_of_shows (hs.swaps hp h hapart) hshown, _, _, hw', hv, ?_⟩
  have hagrees : (cache.served ask (inquiries l₁ ++ _)).Agrees (cache.served ask (inquiries l₁ ++ _)) :=
    agrees_served_swap hapart cache (inquiries l₁) (inquiries l₂)
  have hkeyed (is : List Inquiry) : (cache.served ask is).Keyed := (Keyed.of_entries_nil hfresh).served is
  exact {
    agrees := hagrees
    contains := hagrees.contains (hkeyed _) (hkeyed _)
    isSkipped := hagrees.isSkipped (hkeyed _) (hkeyed _)
    size := hagrees.size (hkeyed _) (hkeyed _) }

theorem World.Caches.forgetsOnly (h : w.Caches ok c inner cache) (code : CodeId) :
    w.ForgetsOnly β ok c inner cache code := by
  have hforgotten : ((Command.invalidate c code).run w).2.Caches ok c inner (cache.invalidate code) :=
    h.of_invalidate ▸ hp.sets h _
  constructor
  · rintro v fresh k hv hlimit hfresh rfl
    refine World.alikeUnder hp hforgotten hv hlimit.symm ?_
    rw [entry_invalidate, if_pos rfl, entry_of_entries_nil hfresh]
  · refine ⟨_, hforgotten, fun k hk => ?_⟩
    have hentry : (cache.invalidate code).entry k = cache.entry k := by rw [entry_invalidate, if_neg hk]
    exact ⟨hentry, World.alikeUnder hp hforgotten h rfl hentry⟩

end

/-- Before a converter that answers by the frame and the compiler alone, what comes under one key of a cache is answered
and kept as if nothing else came. -/
theorem cache_keys_independent {ok : World H → Prop} {c inner : ConverterId} {ask : CompilerId → Frame → Conversion}
    (hp : Converter.Functional β ok c inner ask) : KeysIndependent β ok c inner where
  answers := Uses.continues hp
  alike := World.alikeUnder hp
  interchange := Uses.interchanged hp
  invalidate code h := h.forgetsOnly hp code

theorem functional_custom {c inner : ConverterId} {ask : CompilerId → Frame → Conversion} {s : H.Converter}
    (hne : c ≠ inner) (hs : ∀ b f, β.convert s f b = .done (ask b f)) :
    Converter.Functional β (fun w => w.converter inner = .custom s) c inner ask where
  answers := by
    intro w b f hw
    have hbegin : (ofRequest w (.convert inner b f)).step β =
        .running ⟨w, .conversion, .nil, .script (.done (ask b f))⟩ := by
      simp only [ofRequest, step, begin, hw, hs]
    exact ⟨w, (Reaches.step hbegin).finishes ⟨2, rfl⟩, hw, rfl⟩
  cached w cache hw := (World.converter_setConverter_ne w _ hne).trans hw
  tallied w d event hw := (World.converter_of_converters (World.converters_recordTally ..) inner).trans hw
  logged w level message hw := (World.converter_of_converters (World.converters_log ..) inner).trans hw

namespace TwoCompilers

open OneVariant (code frame)
open Overtaken (host)

def replaced : Conversion := .converted ⟨code, .argTags [.int]⟩

def failed : Conversion := .failed (.compilation (.unsupported "stub backend cannot compile 'id'"))

def ask (b : CompilerId) (f : Frame) : Conversion :=
  if b = ⟨1⟩ then failed else .converted ⟨f.code, .argTags f.argTags⟩

def behaviour : Behaviour host := ⟨nofun, fun _ f b => .done (ask b f), nofun, nofun⟩

def dispatch (b : CompilerId) : Dispatch := ⟨⟨0⟩, b, {}, ⟨0⟩⟩

def world : World host :=
  { handlers := ⟨#[.dispatch (dispatch ⟨0⟩), .dispatch (dispatch ⟨1⟩)]⟩
    converters := ⟨#[.caching ⟨1⟩ {}, .custom ()]⟩
    tallies := ⟨#[{}]⟩
    host := () }

def Customary (w : World host) : Prop := w.converter ⟨1⟩ = .custom ()

def first : Use × Use.Reply := (.offer ⟨0⟩ (dispatch ⟨0⟩) (frame (.int 1)), .decision replaced.outcome)

def second : Use × Use.Reply := (.offer ⟨1⟩ (dispatch ⟨1⟩) (frame (.int 2)), .decision failed.outcome)

def third : Use × Use.Reply := (.dispatch (dispatch ⟨0⟩) (frame (.int 3)), .decision replaced.outcome)

def alone : List (Use × Use.Reply) :=
  [(.convert ⟨0⟩ (frame (.int 1)), .conversion replaced), (.convert ⟨0⟩ (frame (.int 3)), .conversion replaced)]

theorem cache_keys_independent_twoCompilers :
    (∃ w r v, Uses behaviour Customary ⟨0⟩ world [first, second, third] w ∧
      Uses behaviour Customary ⟨0⟩ world ([first, second, third] ++ [(.convert ⟨1⟩ (frame .null), r)]) v) ∧
    List.Forall₂ Use.Alike [first, third] alone ∧
    (∃ w v cache₁ cache₂, Uses behaviour Customary ⟨0⟩ world [first, second, third] w ∧
      Uses behaviour Customary ⟨0⟩ world [second, first, third] v ∧ w.converter ⟨0⟩ = .caching ⟨1⟩ cache₁ ∧
      v.converter ⟨0⟩ = .caching ⟨1⟩ cache₂ ∧ cache₁.Agrees cache₂) ∧
    ∃ w, Uses behaviour Customary ⟨0⟩ world [first, second, third] w ∧
      ((Command.invalidate ⟨0⟩ ⟨1⟩).run w).2.AlikeUnder behaviour Customary ⟨0⟩ ⟨⟨1⟩, ⟨0⟩⟩ world := by
  have hp : Converter.Functional behaviour Customary ⟨0⟩ ⟨1⟩ ask := functional_custom (by decide) fun _ _ => rfl
  have hworld : world.Caches Customary ⟨0⟩ ⟨1⟩ {} := ⟨rfl, rfl⟩
  have hfirst : Uses behaviour Customary ⟨0⟩ world [first, second, third] _ :=
    .use ⟨rfl, rfl⟩ (.offer ⟨20, rfl⟩) (.use ⟨rfl, rfl⟩ (.offer ⟨20, rfl⟩) (.use rfl (.dispatch ⟨20, rfl⟩) .nil))
  have hsecond : Uses behaviour Customary ⟨0⟩ world [second, first, third] _ :=
    .use ⟨rfl, rfl⟩ (.offer ⟨20, rfl⟩) (.use ⟨rfl, rfl⟩ (.offer ⟨20, rfl⟩) (.use rfl (.dispatch ⟨20, rfl⟩) .nil))
  have halone : Uses behaviour Customary ⟨0⟩ world alone _ :=
    .use trivial (.convert ⟨20, rfl⟩) (.use trivial (.convert ⟨20, rfl⟩) .nil)
  have hapart : first.1.inquiry.Apart second.1.inquiry := by
    intro k hfirst hsecond
    have hkeys := (of_decide_eq_true hfirst).trans (of_decide_eq_true hsecond).symm
    exact absurd hkeys (by decide)
  have hused := (hfirst.shows hp hworld).2
  have hkeys := cache_keys_independent hp
  obtain ⟨r, v, hlonger⟩ := hkeys.answers (u := .convert ⟨1⟩ (frame .null)) hworld hfirst trivial
  have hfiltered := hkeys.alike (k := ⟨⟨1⟩, ⟨0⟩⟩) hworld hworld rfl rfl hfirst halone rfl
  have hordered : Uses behaviour Customary ⟨0⟩ world ([] ++ first :: second :: [third]) _ := hfirst
  obtain ⟨cache₁, cache₂, hcache₁, hcache₂, hboth⟩ :=
    (hkeys.interchange hworld rfl hordered hsecond rfl hapart).caches
  have hforgets := hkeys.invalidate ⟨1⟩ hused
  exact ⟨⟨_, r, v, hfirst, hlonger⟩, hfiltered,
    ⟨_, _, cache₁, cache₂, hfirst, hsecond, hcache₁.converter, hcache₂.converter, hboth.agrees⟩,
    _, hfirst, hforgets.forgotten hworld rfl rfl rfl⟩

end TwoCompilers

end Interception
