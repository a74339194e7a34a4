import FlowGraph.Signal
import Mathlib.Data.List.Nodup

/-!
What an emission does to its signal. Handlers may do anything while they are called: connect and disconnect handlers, emit
again, fail. Each emission, nested ones too, calls the handlers that were connected when it began and comes back, and the
handlers at the end are those at the beginning with all connections and disconnections in the order in which they were made.
-/
namespace FlowGraph.Signal

variable {α σ : Type} [DecidableEq α]

/-- A change of the list of handlers. -/
inductive Change (α : Type) where
  | connected (handler : α)
  | disconnected (handler : α)
  deriving DecidableEq

/-- A new handler goes last. -/
def Change.apply (hs : List α) : Change α → List α
  | .connected h => if h ∈ hs then hs else hs ++ [h]
  | .disconnected h => hs.erase h

/-- The handlers after changes, one after the other. -/
def replay (hs : List α) (cs : List (Change α)) : List α := cs.foldl Change.apply hs

@[simp] theorem replay_nil (hs : List α) : replay hs [] = hs := rfl

@[simp] theorem replay_cons (hs : List α) (c : Change α) (cs : List (Change α)) :
    replay hs (c :: cs) = replay (c.apply hs) cs := rfl

@[simp] theorem replay_append (hs : List α) (cs ds : List (Change α)) : replay hs (cs ++ ds) = replay (replay hs cs) ds :=
  List.foldl_append

theorem handlers_connect (s : Signal α) (h : α) : (s.connect h).handlers = Change.apply s.handlers (.connected h) := by
  unfold connect
  by_cases hmem : h ∈ s.handlers
  · rw [if_pos hmem]
    exact (if_pos hmem).symm
  · rw [if_neg hmem]
    exact (if_neg hmem).symm

theorem Change.nodup_apply {hs : List α} (h : hs.Nodup) (c : Change α) : (c.apply hs).Nodup := by
  cases c with
  | connected x =>
    by_cases hmem : x ∈ hs
    · rwa [show Change.apply hs (.connected x) = hs from if_pos hmem]
    · rw [show Change.apply hs (.connected x) = hs ++ [x] from if_neg hmem, List.nodup_append]
      refine ⟨h, List.nodup_singleton x, ?_⟩
      rintro a ha b hb rfl
      exact hmem (List.mem_singleton.1 hb ▸ ha)
  | disconnected x => exact h.erase x

/-- No changes put a handler into the list twice. -/
theorem nodup_replay {hs : List α} (h : hs.Nodup) (cs : List (Change α)) : (replay hs cs).Nodup := by
  induction cs generalizing hs with
  | nil => exact h
  | cons c cs ih => exact ih (c.nodup_apply h)

/-! ### What can be read off the deeds -/

mutual
/-- The changes among the deeds, in the order in which they were made, those inside emissions included. -/
def Deeds.changes : Deeds α → List (Change α)
  | .nothing => []
  | .connect h rest => .connected h :: rest.changes
  | .disconnect h rest => .disconnected h :: rest.changes
  | .emission _ calls rest => calls.changes ++ rest.changes
  | .refusal rest => rest.changes
@[inherit_doc Deeds.changes]
def Calls.changes : Calls α → List (Change α)
  | .nothing => []
  | .call _ deeds rest => deeds.changes ++ rest.changes
end

def Calls.handlers : Calls α → List α
  | .nothing => []
  | .call h _ rest => h :: rest.handlers

/-- An emission: the handlers that were connected when it began, and those that it called. -/
structure Emitted (α : Type) where
  connected : List α
  called : List α
  deriving DecidableEq

mutual
/-- All emissions among deeds that begin with the handlers `hs`, those inside emissions included. -/
def Deeds.emissions (hs : List α) : Deeds α → List (Emitted α)
  | .nothing => []
  | .connect h rest => rest.emissions (Change.apply hs (.connected h))
  | .disconnect h rest => rest.emissions (Change.apply hs (.disconnected h))
  | .emission _ calls rest =>
    ⟨hs, calls.handlers⟩ :: (calls.emissions hs ++ rest.emissions (replay hs calls.changes))
  | .refusal rest => rest.emissions hs
@[inherit_doc Deeds.emissions]
def Calls.emissions (hs : List α) : Calls α → List (Emitted α)
  | .nothing => []
  | .call _ deeds rest => deeds.emissions hs ++ rest.emissions (replay hs deeds.changes)
end

mutual
theorem Deeds.nodup_connected {hs : List α} (h : hs.Nodup) :
    ∀ (deeds : Deeds α), ∀ e ∈ deeds.emissions hs, e.connected.Nodup
  | .nothing, _, he => absurd he List.not_mem_nil
  | .connect _ rest, e, he => rest.nodup_connected (Change.nodup_apply h _) e he
  | .disconnect _ rest, e, he => rest.nodup_connected (Change.nodup_apply h _) e he
  | .emission _ calls rest, e, he => by
    rcases List.mem_cons.1 he with rfl | he
    · exact h
    · rcases List.mem_append.1 he with he | he
      · exact calls.nodup_connected h e he
      · exact rest.nodup_connected (nodup_replay h _) e he
  | .refusal rest, e, he => rest.nodup_connected h e he
theorem Calls.nodup_connected {hs : List α} (h : hs.Nodup) :
    ∀ (calls : Calls α), ∀ e ∈ calls.emissions hs, e.connected.Nodup
  | .nothing, _, he => absurd he List.not_mem_nil
  | .call _ deeds rest, e, he => by
    rcases List.mem_append.1 he with he | he
    · exact deeds.nodup_connected h e he
    · exact rest.nodup_connected (nodup_replay h _) e he
end

mutual
/-- For each refusal among the deeds, how many emissions of them were under way. -/
def Deeds.refusals : Deeds α → List Nat
  | .nothing => []
  | .connect _ rest | .disconnect _ rest => rest.refusals
  | .emission _ calls rest => calls.refusals.map (· + 1) ++ rest.refusals
  | .refusal rest => 0 :: rest.refusals
@[inherit_doc Deeds.refusals]
def Calls.refusals : Calls α → List Nat
  | .nothing => []
  | .call _ deeds rest => deeds.refusals ++ rest.refusals
end

/-! ### Emissions are stable -/

/-- The deeds lead from the first handlers to the second. Each emission among them calls the handlers that it finds, and none
is refused before `depth` others are under way. -/
structure Deeds.Leads (depth : Nat) (hs hs' : List α) (deeds : Deeds α) : Prop where
  called : ∀ e ∈ deeds.emissions hs, e.called = e.connected
  refused : ∀ n ∈ deeds.refusals, n = depth
  changed : hs' = replay hs deeds.changes

@[inherit_doc Deeds.Leads]
structure Calls.Leads (depth : Nat) (hs hs' : List α) (calls : Calls α) : Prop where
  called : ∀ e ∈ calls.emissions hs, e.called = e.connected
  refused : ∀ n ∈ calls.refusals, n = depth
  changed : hs' = replay hs calls.changes

section Steps

variable {depth : Nat} {hs hs' hs'' : List α} {h : α} {deeds : Deeds α} {calls : Calls α}

theorem Deeds.leads_nothing : (Deeds.nothing : Deeds α).Leads depth hs hs where
  called _ he := absurd he List.not_mem_nil
  refused _ hn := absurd hn List.not_mem_nil
  changed := rfl

theorem Deeds.Leads.connect (hd : deeds.Leads depth (Change.apply hs (.connected h)) hs') :
    (Deeds.connect h deeds).Leads depth hs hs' := ⟨hd.called, hd.refused, hd.changed⟩

theorem Deeds.Leads.disconnect (hd : deeds.Leads depth (Change.apply hs (.disconnected h)) hs') :
    (Deeds.disconnect h deeds).Leads depth hs hs' := ⟨hd.called, hd.refused, hd.changed⟩

theorem Deeds.Leads.refusal (hd : deeds.Leads 0 hs hs') : (Deeds.refusal deeds).Leads 0 hs hs' where
  called := hd.called
  refused n hn := by
    rcases List.mem_cons.1 hn with rfl | hn
    · rfl
    · exact hd.refused n hn
  changed := hd.changed

/-- An emission that calls the handlers it finds, and what comes after it. -/
theorem Deeds.Leads.emission (arguments : List Value) (hall : calls.handlers = hs) (hc : calls.Leads depth hs hs')
    (hd : deeds.Leads (depth + 1) hs' hs'') : (Deeds.emission arguments calls deeds).Leads (depth + 1) hs hs'' where
  called e he := by
    obtain rfl := hc.changed
    rcases List.mem_cons.1 he with rfl | he
    · exact hall
    · rcases List.mem_append.1 he with he | he
      · exact hc.called e he
      · exact hd.called e he
  refused n hn := by
    rcases List.mem_append.1 hn with hn | hn
    · obtain ⟨m, hm, rfl⟩ := List.mem_map.1 hn
      rw [hc.refused m hm]
    · exact hd.refused n hn
  changed := by
    rw [hd.changed, hc.changed]
    exact (replay_append hs calls.changes deeds.changes).symm

theorem Calls.leads_nothing : (Calls.nothing : Calls α).Leads depth hs hs where
  called _ he := absurd he List.not_mem_nil
  refused _ hn := absurd hn List.not_mem_nil
  changed := rfl

/-- One more call, before calls that lead on from where it led. -/
theorem Calls.Leads.call (h : α) (hd : deeds.Leads depth hs hs') (hc : calls.Leads depth hs' hs'') :
    (Calls.call h deeds calls).Leads depth hs hs'' where
  called e he := by
    obtain rfl := hd.changed
    rcases List.mem_append.1 he with he | he
    · exact hd.called e he
    · exact hc.called e he
  refused n hn := by
    rcases List.mem_append.1 hn with hn | hn
    · exact hd.refused n hn
    · exact hc.refused n hn
  changed := by
    rw [hc.changed, hd.changed]
    exact (replay_append hs deeds.changes calls.changes).symm

end Steps

/-- A way to emit that calls the handlers it finds, and refuses only at depth zero. -/
def IsStable (depth : Nat) (emission : List Value → Scene α σ → Scene α σ × Except Fault (Calls α)) : Prop :=
  ∀ arguments s,
    (∀ calls, (emission arguments s).2 = .ok calls → ∃ d, depth = d + 1 ∧ calls.handlers = s.signal.handlers ∧
      calls.Leads d s.signal.handlers (emission arguments s).1.signal.handlers) ∧
    ∀ fault, (emission arguments s).2 = .error fault → depth = 0 ∧ (emission arguments s).1 = s

/-- A routine leads from the handlers it finds to those it leaves. -/
theorem Routine.leads_run {depth : Nat} {emission : List Value → Scene α σ → Scene α σ × Except Fault (Calls α)}
    (he : IsStable depth emission) (r : Routine α σ) (s : Scene α σ) :
    (r.run emission s).deeds.Leads depth s.signal.handlers (r.run emission s).scene.signal.handlers := by
  induction r generalizing s with
  | done => exact Deeds.leads_nothing
  | raise fault => exact Deeds.leads_nothing
  | look next ih => exact ih s.signal s.shared s
  | alter f next ih => exact ih { s with shared := f s.shared }
  | connect h next ih =>
    have hnext := ih { s with signal := s.signal.connect h }
    rw [handlers_connect] at hnext
    exact hnext.connect
  | disconnect h next ih =>
    have hnext := ih { s with signal := s.signal.disconnect h }
    exact Deeds.Leads.disconnect hnext
  | emit arguments next ih =>
    obtain ⟨hok, herror⟩ := he arguments s
    unfold Routine.run
    generalize emission arguments s = outcome at hok herror
    obtain ⟨t, result⟩ := outcome
    cases result with
    | error fault =>
      obtain ⟨rfl, rfl⟩ := herror fault rfl
      exact (ih _ t).refusal
    | ok calls =>
      obtain ⟨d, rfl, hall, hleads⟩ := hok calls rfl
      exact Deeds.Leads.emission arguments hall hleads (ih _ t)

omit [DecidableEq α] in
theorem handlers_callAll (call : α → Scene α σ → Ending α σ) (hs : List α) (s : Scene α σ) :
    (callAll call hs s).2.handlers = hs := by
  induction hs generalizing s with
  | nil => rfl
  | cons h hs ih => exact congrArg (h :: ·) (ih _)

theorem leads_callAll {depth : Nat} {call : α → Scene α σ → Ending α σ}
    (hcall : ∀ h s, (call h s).deeds.Leads depth s.signal.handlers (call h s).scene.signal.handlers) (hs : List α)
    (s : Scene α σ) : (callAll call hs s).2.Leads depth s.signal.handlers (callAll call hs s).1.signal.handlers := by
  induction hs generalizing s with
  | nil => exact Calls.leads_nothing
  | cons h hs ih => exact Calls.Leads.call h (hcall h s) (ih _)

/-- Whatever the handlers do, by induction on how deep emissions may still nest. -/
theorem isStable_emission (handlers : α → List Value → Routine α σ) (depth : Nat) :
    IsStable depth (emission handlers depth) := by
  induction depth with
  | zero => exact fun _ _ => ⟨fun _ h => (nomatch h), fun _ _ => ⟨rfl, rfl⟩⟩
  | succ depth ih =>
    refine fun arguments s => ⟨fun calls h => ?_, fun _ h => (nomatch h)⟩
    cases h
    exact ⟨depth, rfl, handlers_callAll _ _ s, leads_callAll (fun h => (handlers h arguments).leads_run ih) _ s⟩

/-- An emission comes back, whatever the handlers do. It and all emissions inside it call the handlers that were connected
when they began, each once and in the order of connection; only an emission inside `depth` others of them is refused. No handler
is connected twice at any time, and in the end the handlers are those of the beginning with the changes that were made, in
order. -/
theorem emission_stable (handlers : α → List Value → Routine α σ) (depth : Nat) (arguments : List Value) (s : Scene α σ)
    (hdistinct : s.signal.handlers.Nodup) :
    ∃ calls, (emission handlers (depth + 1) arguments s).2 = .ok calls ∧
      calls.handlers = s.signal.handlers ∧
      (∀ e ∈ calls.emissions s.signal.handlers, e.called = e.connected ∧ e.connected.Nodup) ∧
      (∀ n ∈ calls.refusals, n = depth) ∧
      (∀ n, (replay s.signal.handlers (calls.changes.take n)).Nodup) ∧
      (emission handlers (depth + 1) arguments s).1.signal.handlers = replay s.signal.handlers calls.changes := by
  obtain ⟨hreturns, -⟩ := isStable_emission handlers (depth + 1) arguments s
  obtain ⟨d, hd, hall, hleads⟩ := hreturns _ rfl
  cases hd
  refine ⟨_, rfl, hall, fun e he => ⟨hleads.called e he, ?_⟩, hleads.refused, ?_, hleads.changed⟩
  · exact Calls.nodup_connected hdistinct _ e he
  · exact fun n => nodup_replay hdistinct _

/-- One handler leaves and emits again, the other connects a third one and fails. -/
def stir : String → List Value → Routine String Unit
  | "once", _ => .disconnect "once" (.emit [] fun _ => .done)
  | "twin", _ => .connect "late" (.raise (.scripted .runtime "handler failed"))
  | _, _ => .done

def stirred : Scene String Unit := { signal := { handlers := ["once", "twin"] }, shared := () }

theorem emission_stable_stirred : stirred.signal.handlers.Nodup ∧ ∃ calls, (emission stir 2 [] stirred).2 = .ok calls ∧
    calls.handlers = ["once", "twin"] ∧
    calls.emissions ["once", "twin"] = [⟨["twin"], ["twin"]⟩] ∧
    (emission stir 2 [] stirred).1.signal.handlers = ["twin", "late"] := by
  obtain ⟨calls, hreturns, hall, -, -, -, hchanged⟩ := emission_stable stir 1 [] stirred (by decide)
  refine ⟨by decide, calls, hreturns, hall, ?_, hchanged.trans ?_⟩
  · cases hreturns
    decide
  · cases hreturns
    decide

/-! ### What the handlers notice -/

mutual
/-- The calls among the deeds in the order in which they began, with what was passed to the handlers. -/
def Deeds.made : Deeds α → List (α × List Value)
  | .nothing => []
  | .connect _ rest | .disconnect _ rest | .refusal rest => rest.made
  | .emission arguments calls rest => calls.made arguments ++ rest.made
@[inherit_doc Deeds.made]
def Calls.made (arguments : List Value) : Calls α → List (α × List Value)
  | .nothing => []
  | .call h deeds rest => (h, arguments) :: (deeds.made ++ rest.made arguments)
end

namespace Stage

/-- A way to emit during which handlers note the calls on record. -/
def IsNoted (emission : List Value → Scene String Notes → Scene String Notes × Except Fault (Calls String)) : Prop :=
  ∀ arguments s,
    (∀ calls, (emission arguments s).2 = .ok calls →
      (emission arguments s).1.shared.calls = s.shared.calls ++ calls.made arguments) ∧
    ∀ fault, (emission arguments s).2 = .error fault → (emission arguments s).1.shared.calls = s.shared.calls

/-- A routine adds to the notes the calls that its deeds made. -/
theorem calls_routine {emission : List Value → Scene String Notes → Scene String Notes × Except Fault (Calls String)}
    (he : IsNoted emission) (scripts : Table String (List Act)) (acts : List Act) (s : Scene String Notes) :
    ((routine scripts acts).run emission s).scene.shared.calls =
      s.shared.calls ++ ((routine scripts acts).run emission s).deeds.made := by
  have hraise (fault : Fault) (t : Scene String Notes) : t.shared.calls =
      t.shared.calls ++ ((Routine.raise fault).run emission t).deeds.made := (List.append_nil _).symm
  induction acts generalizing s with
  | nil => exact (List.append_nil _).symm
  | cons a rest ih =>
    cases a with
    | connect h =>
      unfold routine
      split
      · exact ih _
      · exact hraise _ s
    | disconnect h =>
      unfold routine
      split
      · exact ih _
      · exact hraise _ s
    | unsubscribe h =>
      unfold routine Routine.run
      dsimp only
      split
      · exact ih _
      · exact hraise _ s
    | raise => exact hraise _ s
    | emit arguments =>
      obtain ⟨hok, herror⟩ := he arguments s
      unfold routine Routine.run
      generalize emission arguments s = outcome at hok herror
      obtain ⟨t, result⟩ := outcome
      cases result with
      | error fault =>
        rw [← herror fault rfl]
        exact hraise fault t
      | ok calls =>
        have hrest := ih t
        rw [hok calls rfl, List.append_assoc] at hrest
        exact hrest

/-- An emission adds to the notes the calls that it made, at any depth. -/
theorem isNoted_emission (scripts : Table String (List Act)) (depth : Nat) : IsNoted (emission (handle scripts) depth) := by
  induction depth with
  | zero => exact fun _ _ => ⟨fun _ h => (nomatch h), fun _ _ => rfl⟩
  | succ depth ih =>
    have hall (arguments : List Value) (hs : List String) (s : Scene String Notes) :
        (callAll (fun h => (handle scripts h arguments).run (emission (handle scripts) depth)) hs s).1.shared.calls =
          s.shared.calls ++
            (callAll (fun h => (handle scripts h arguments).run (emission (handle scripts) depth)) hs s).2.made arguments := by
      induction hs generalizing s with
      | nil => exact (List.append_nil _).symm
      | cons h hs ihs =>
        have hone : ((handle scripts h arguments).run (emission (handle scripts) depth) s).scene.shared.calls =
            s.shared.calls ++ ([(h, arguments)] ++
              ((handle scripts h arguments).run (emission (handle scripts) depth) s).deeds.made) := by
          rw [← List.append_assoc]
          unfold handle
          split
          · exact calls_routine ih scripts _ _
          · exact (List.append_nil _).symm
        have hrest := ihs ((handle scripts h arguments).run (emission (handle scripts) depth) s).scene
        rw [hone, List.append_assoc, List.append_assoc] at hrest
        exact hrest
    refine fun arguments s => ⟨fun calls h => ?_, fun _ h => (nomatch h)⟩
    cases h
    exact hall arguments _ s

end Stage

/-- The calls that handlers note during an emission of the host are those on record. -/
theorem perform_emit (depth : Nat) (arguments : List Value) (st : Stage) :
    ∃ calls : Calls String, (emission (Stage.handle st.scripts) (depth + 1) arguments ⟨st.signal, st.toNotes⟩).2 = .ok calls ∧
      ((perform (depth + 1) (.emit arguments)).run st).1 = .ok () ∧
      ((perform (depth + 1) (.emit arguments)).run st).2.calls = st.calls ++ calls.made arguments := by
  refine ⟨_, rfl, rfl, ?_⟩
  exact (Stage.isNoted_emission st.scripts (depth + 1) arguments ⟨st.signal, st.toNotes⟩).1 _ rfl

end FlowGraph.Signal
