import FlowGraph.Proofs.Inert
import FlowGraph.Proofs.Showing
import FlowGraph.Proofs.Trends

/-!
Sleep and wake-up of asynchronous runs. A run that has nothing left to do while operations are under way sleeps until its
flag is set. Whoever gives the engine work sets the flag, and whoever completes an operation does, with two exceptions: the
disposal of the engine, and a completion whose output is refused. But for these every operation that was under way when the
run fell asleep still is as long as the flag is unset.
-/
namespace FlowGraph

open World Play

/-- The failure of a commit or a completion whose output is none of the node, or of a node without one. -/
def Failure.refusesOutput : Failure → Bool
  | .node _ _ (.notFlowOutput _) | .node _ _ .noFlowOutput => true
  | _ => false

namespace Engine

/-- Nobody is notified: but for fibers and for what went wrong the engine is as it was. -/
structure Calm (e e' : Engine) : Prop where
  wake : e'.wake = e.wake
  queue : e'.queue = e.queue
  inbox : e'.inbox = e.inbox
  pending : e'.pending = e.pending
  isDisposed : e'.isDisposed = e.isDisposed
  failures : ∃ es, e'.failures = es ++ e.failures

theorem Calm.refl (e : Engine) : e.Calm e := ⟨rfl, rfl, rfl, rfl, rfl, [], rfl⟩

theorem Calm.trans {e e' e'' : Engine} (h : e.Calm e') (h' : e'.Calm e'') : e.Calm e'' := by
  obtain ⟨es, hes⟩ := h.failures
  obtain ⟨es', hes'⟩ := h'.failures
  refine ⟨h'.wake.trans h.wake, h'.queue.trans h.queue, h'.inbox.trans h.inbox, h'.pending.trans h.pending,
    h'.isDisposed.trans h.isDisposed, es' ++ es, ?_⟩
  rw [hes', hes, List.append_assoc]

/-- The flag is set, if there is one. -/
def Notified (e e' : Engine) : Prop := e'.wake = e.wake.map fun _ => true

/-- Since `a` the flag is unset and there is nothing to do. Unless the engine was disposed of or an output was refused, all
operations that were under way still are. -/
structure Dozes (a e : Engine) : Prop where
  wake : e.wake = some false
  queue : e.queue = []
  inbox : e.inbox = []
  since : ∃ es, e.failures = es ++ a.failures ∧
    (e.isDisposed = true ∨ a.pending ⊆ e.pending ∨ ∃ x ∈ es, x.refusesOutput = true)

namespace Dozes

variable {a e e' : Engine}

/-- A change that neither gives the engine work nor ends an operation, unless the engine is disposed of. -/
theorem keep (h : a.Dozes e) (hwake : e'.wake = e.wake) (hqueue : e.queue = [] → e'.queue = [])
    (hinbox : e.inbox = [] → e'.inbox = []) (hfailures : ∃ es, e'.failures = es ++ e.failures)
    (hdisposed : e.isDisposed = true → e'.isDisposed = true) (hpending : e.pending ⊆ e'.pending ∨ e'.isDisposed = true) :
    a.Dozes e' := by
  refine ⟨hwake.trans h.wake, hqueue h.queue, hinbox h.inbox, ?_⟩
  obtain ⟨es, hes, hcause⟩ := h.since
  obtain ⟨es', hes'⟩ := hfailures
  refine ⟨es' ++ es, by rw [hes', hes, List.append_assoc], ?_⟩
  rcases hpending with hpending | hclosed
  · rcases hcause with hcause | hcause | ⟨x, hx, hrefuses⟩
    · exact .inl (hdisposed hcause)
    · exact .inr (.inl (List.Subset.trans hcause hpending))
    · exact .inr (.inr ⟨x, List.mem_append_right es' hx, hrefuses⟩)
  · exact .inl hclosed

theorem calm (h : a.Dozes e) (hc : e.Calm e') : a.Dozes e' :=
  h.keep hc.wake (fun hq => hc.queue.trans hq) (fun hb => hc.inbox.trans hb) hc.failures (fun hd => hc.isDisposed.trans hd)
    (.inl (by rw [hc.pending]; exact List.Subset.refl _))

theorem refuse (h : a.Dozes e) {x : Failure} (hx : x.refusesOutput = true) (pending : List Nat) :
    a.Dozes { e with pending := pending, failures := x :: e.failures } := by
  obtain ⟨es, hes, -⟩ := h.since
  exact ⟨h.wake, h.queue, h.inbox, x :: es, congrArg (x :: ·) hes, .inr (.inr ⟨x, List.mem_cons_self, hx⟩)⟩

/-- What notifies wakes the run. -/
theorem awake (h : a.Dozes e) (hn : e.Notified e') : e'.wake = some true := by
  rw [hn, h.wake]
  rfl

end Dozes

/-- Only a run takes back that it was woken. -/
theorem trend_awake : Trend fun e e' => e.wake = some true → e'.wake = some true where
  refl _ := id
  trans h h' := h' ∘ h
  fibers _ _ _ _ := id
  notify e h := by simp [Engine.notify, h]
  report _ _ := id
  work _ _ _ _ := id
  close _ := id

/-- The flag stays where there is one. -/
theorem trend_flagged : Trend fun e e' => e.wake.isSome = true → e'.wake.isSome = true where
  refl _ := id
  trans h h' := h' ∘ h
  fibers _ _ _ _ := id
  notify e h := by simpa [Engine.notify] using h
  report _ _ := id
  work _ _ _ _ := id
  close _ := id

end Engine

namespace World

variable {i : Nat} {w : World}

theorem calm_report (w : World) (i j : Nat) (x : Failure) : (w.engine i).Calm ((w.report j x).engine i) := by
  rw [engine_congr (engines_report w j x), engine_modifyEngine]
  split
  · exact ⟨rfl, rfl, rfl, rfl, rfl, [x], rfl⟩
  · exact .refl _

/-- Whoever puts a new fiber into the queue notifies. Only outputs of a path with nothing to run can be refused instead. -/
theorem notified_enqueue (hi : i < w.engines.size) (f : Nat) : (w.engine i).Notified ((w.enqueue i f).engine i) ∨
    ((w.engine i).fiber f).isComplete = true ∧ ((w.engine i).fiber f).due ≠ none ∧
      (w.engine i).Calm ((w.enqueue i f).engine i) := by
  unfold World.enqueue
  dsimp only
  split
  · rename_i hcomplete
    have happlied := engine_applyEntry hi f
    have hsize := (Local.applyEntry w i f).size
    split
    · rename_i e v heq
      rw [heq] at happlied
      refine .inr ⟨hcomplete, fun hdue => ?_, ?_⟩
      · rw [World.applyEntry, hdue] at heq
        cases heq
      · have hmarked : (w.engine i).Calm (v.engine i) := by
          rw [happlied]
          exact ⟨rfl, rfl, rfl, rfl, rfl, [], rfl⟩
        exact hmarked.trans (calm_report v i i e)
    · rename_i v heq
      rw [heq] at happlied hsize
      left
      rw [Engine.Notified, engine_modifyEngine_self (by rw [hsize]; exact hi), happlied]
      rfl
  · left
    rw [Engine.Notified]
    split
    · rw [engine_modifyEngine_self hi]
      rfl
    · rw [engine_modifyEngine_self hi]
      rfl

/-- Likewise for whoever commits a new fiber and puts it into the queue; the commit is refused where the output is none. -/
theorem notified_commit (hi : i < w.engines.size) {f : Nat} (hf : f < (w.engine i).fibers.size)
    (entry : Option (NodeRef × List (String × Value))) (hfiber : (w.engine i).fiber f = { entry := entry }) (x : NodeRef)
    (output : String) (l : Option Listener) :
    let v := match w.commitFiber i f x output l with
      | (.error e, w) => w.report i e
      | (.ok _, w) => w.enqueue i f
    (w.engine i).Notified (v.engine i) ∨
      (w.engine i).Calm (v.engine i) ∧ ((w.node x).isFlowOutput output = true → entry ≠ none) := by
  unfold World.commitFiber
  cases hflow : (w.node x).isFlowOutput output with
  | false =>
    have hrefused : w.commitRefusal? i f x output = some (w.nodeFailure x (.notFlowOutput output)) := by
      simp [commitRefusal?, hfiber, hflow]
    rw [hrefused]
    exact .inr ⟨calm_report w i i _, fun h => by cases h⟩
  | true =>
    have htaken : w.commitRefusal? i f x output = none := by simp [commitRefusal?, hfiber, hflow]
    rw [htaken]
    dsimp only
    generalize w.wiresAt x output = wires
    have hcommitted := engine_modifyEngine_self hi (·.commit f x l wires)
    have hroot : (((w.engine i).commit f x l wires).fiber f) = Engine.onto x l wires { entry := entry } := by
      rw [Engine.fiber_commit hf, if_pos hf, if_pos rfl, hfiber]
    rcases notified_enqueue (w := w.modifyEngine i (·.commit f x l wires)) (by simpa using hi) f with hn | ⟨hover, hdue, hkept⟩
    · left
      rw [Engine.Notified, hn, hcommitted, Engine.commit_frame]
    · rw [hcommitted, hroot] at hover hdue
      rw [hcommitted] at hkept
      have hnone : wires = [] := by
        apply Decidable.byContradiction
        intro hne
        rw [Engine.isComplete_onto x l wires { entry := entry } rfl hne] at hover
        cases hover
      subst hnone
      have hsilent : (w.engine i).Calm ((w.engine i).commit f x l []) := ⟨rfl, rfl, rfl, rfl, rfl, [], rfl⟩
      refine .inr ⟨hsilent.trans hkept, fun _ hentry => hdue ?_⟩
      rw [Fiber.due, Engine.onto_entry, hentry]
      split <;> rfl

/-- Whoever starts a path notifies, unless the output is none or the path has nothing to run and its outputs are refused. -/
theorem notified_begin (hi : i < w.engines.size) (hopen : (w.engine i).isDisposed = false) (x : NodeRef) (output : String)
    (l : Option Listener) (values : List (String × Value)) :
    (w.engine i).Notified ((w.begin i x output l values).engine i) ∨
      (w.engine i).Calm ((w.begin i x output l values).engine i) ∧
        ((w.node x).isFlowOutput output = true → values ≠ []) := by
  rw [World.begin, if_neg (by simp [hopen])]
  have hengines := engines_stampOutputs w x.graph values
  have hnode := node_stampOutputs w x.graph values x
  have hbare : values = [] → (if (w.stampOutputs x.graph values).1.isEmpty then none
      else some (x, (Table.ofList (w.stampOutputs x.graph values).1).entries)) = none := by
    rintro rfl
    rfl
  dsimp only
  generalize (if (w.stampOutputs x.graph values).1.isEmpty then none
    else some (x, (Table.ofList (w.stampOutputs x.graph values).1).entries)) = entry at hbare ⊢
  generalize (w.stampOutputs x.graph values).2 = v at hengines hnode ⊢
  have hsize : i < v.engines.size := by rw [hengines]; exact hi
  have hpushed := engine_modifyEngine_self hsize fun e => { e with fibers := e.fibers.push { entry := entry } }
  have hcalm : (w.engine i).Calm ((v.modifyEngine i fun e => { e with fibers := e.fibers.push { entry := entry } }).engine i) := by
    rw [hpushed, engine_congr hengines]
    exact ⟨rfl, rfl, rfl, rfl, rfl, [], rfl⟩
  rcases notified_commit (w := v.modifyEngine i fun e => { e with fibers := e.fibers.push { entry := entry } })
    (f := (v.engine i).fibers.size) (by simpa using hsize) (by rw [hpushed]; simp) entry
    (by rw [hpushed]; simp [Engine.fiber]) x output l with hn | ⟨hkept, hflow⟩
  · left
    rw [Engine.Notified, ← hcalm.wake]
    exact hn
  · refine .inr ⟨hcalm.trans hkept, fun h hvalues => hflow ?_ (hbare hvalues)⟩
    show (v.node x).isFlowOutput output = true
    rw [hnode, h]

/-- An output that is settled on is one of the node; a completion that is refused says so. -/
theorem chosen_or_refused (w : World) (x : NodeRef) (output : Option String) : match w.chooseOutput x output with
    | (v, .ok name) => (v.node x).isFlowOutput name = true
    | (_, .error e) => e.refusesOutput = true := by
  unfold chooseOutput
  dsimp only
  generalize (if output.isNone then w.modifyNode x fun n => { n with lastOutput := none } else w) = v
  have hkept (o : String) : ((v.modifyNode x fun n => { n with lastOutput := some o }).node x).isFlowOutput o =
      (v.node x).isFlowOutput o := by
    have houtputs := outputs_modifyNode v x (f := fun n => { n with lastOutput := some o }) (fun _ => rfl) x
    rw [Node.isFlowOutput, Node.output?, houtputs]
    rfl
  cases output with
  | some o =>
    cases hflow : (v.node x).isFlowOutput o with
    | true => simp only [hflow, if_true, hkept]
    | false => simp only [hflow, Bool.false_eq_true, if_false]; rfl
  | none =>
    cases hchosen : v.outputOf x with
    | error e =>
      simp only [outputOf] at hchosen
      split at hchosen
      · cases hchosen
      · split at hchosen
        · cases hchosen
        · cases hchosen
          rfl
    | ok o =>
      cases hflow : (v.node x).isFlowOutput o with
      | true => simp only [hflow, if_true, hkept]
      | false => simp only [hflow, Bool.false_eq_true, if_false]; rfl

end World

/-- The engine has been woken, or dozes since it fell asleep as `a`. -/
structure Vigil (i : Nat) (a : Engine) (w : World) : Prop where
  inside : i < w.engines.size
  engine : (w.engine i).wake = some true ∨ a.Dozes (w.engine i)

namespace Vigil

variable {i j : Nat} {a : Engine} {u w z : World}

theorem of_engine (h : Vigil i a w) (hs : z.engines.size = w.engines.size) (he : z.engine i = w.engine i) : Vigil i a z :=
  ⟨by rw [hs]; exact h.inside, by rw [he]; exact h.engine⟩

theorem of_engines (h : Vigil i a w) (he : z.engines = w.engines) : Vigil i a z :=
  h.of_engine (by rw [he]) (engine_congr he i)

theorem of_local (h : Vigil i a w) (hl : Local j w z) (hj : j ≠ i) : Vigil i a z := h.of_engine hl.size (hl.others i hj.symm)

/-- Where a change keeps those awake that are, all depends on those that doze. -/
theorem next (h : Vigil i a w) (hs : z.engines.size = w.engines.size)
    (hawake : (w.engine i).wake = some true → (z.engine i).wake = some true)
    (hdozes : a.Dozes (w.engine i) → (z.engine i).wake = some true ∨ a.Dozes (z.engine i)) : Vigil i a z :=
  ⟨by rw [hs]; exact h.inside, h.engine.elim (fun hw => .inl (hawake hw)) hdozes⟩

/-- A change of an engine that neither gives it work nor ends an operation, unless it is disposed of. -/
theorem keep (h : Vigil i a w) (j : Nat) {g : Engine → Engine} (hwake : ∀ e, (g e).wake = e.wake)
    (hqueue : ∀ e : Engine, e.queue = [] → (g e).queue = []) (hinbox : ∀ e : Engine, e.inbox = [] → (g e).inbox = [])
    (hfailures : ∀ e, (g e).failures = e.failures) (hdisposed : ∀ e : Engine, e.isDisposed = true → (g e).isDisposed = true)
    (hpending : j = i → (w.engine i).pending ⊆ (g (w.engine i)).pending ∨ (g (w.engine i)).isDisposed = true) :
    Vigil i a (w.modifyEngine j g) := by
  by_cases hj : j = i
  · subst hj
    have he := engine_modifyEngine_self h.inside g
    refine h.next (by simp) (fun hw => by rw [he, hwake, hw]) fun hd => .inr ?_
    rw [he]
    exact hd.keep (hwake _) (hqueue _) (hinbox _) ⟨[], hfailures _⟩ (hdisposed _) (hpending rfl)
  · exact h.of_engine (by simp) (engine_modifyEngine_of_ne hj w g)

theorem aside (h : Vigil i a w) (j : Nat) {g : Engine → Engine}
    (hg : ∀ e : Engine, (g e).wake = e.wake ∧ (g e).queue = e.queue ∧ (g e).inbox = e.inbox ∧ (g e).failures = e.failures ∧
      (g e).isDisposed = e.isDisposed ∧ (g e).pending = e.pending) : Vigil i a (w.modifyEngine j g) := by
  refine h.keep j (fun e => (hg e).1) (fun e hq => ?_) (fun e hb => ?_) (fun e => (hg e).2.2.2.1) (fun e hd => ?_) fun _ => .inl ?_
  · rw [(hg e).2.1, hq]
  · rw [(hg e).2.2.1, hb]
  · rw [(hg e).2.2.2.2.1, hd]
  · rw [(hg _).2.2.2.2.2]
    exact List.Subset.refl _

theorem modifyOperation (h : Vigil i a w) (j o : Nat) (g : Operation → Operation) :
    Vigil i a (w.modifyEngine j (·.modifyOperation o g)) :=
  h.aside j fun _ => ⟨rfl, rfl, rfl, rfl, rfl, rfl⟩

theorem relinquish (h : Vigil i a w) (j o : Nat) : Vigil i a (w.relinquish j o) :=
  relinquish_upholds (h.modifyOperation j o _) h

theorem report (h : Vigil i a w) (j : Nat) (x : Failure) : Vigil i a (w.report j x) := by
  have hcalm := calm_report w i j x
  refine h.next (Local.report w j x).size (fun hw => hcalm.wake.trans hw) fun hd => .inr (hd.calm hcalm)

theorem begin (h : Vigil i a w) (j : Nat) (x : NodeRef) (output : String) (l : Option Listener)
    (values : List (String × Value)) : Vigil i a (w.begin j x output l values) := by
  by_cases hj : j = i
  · subst hj
    cases hopen : (w.engine j).isDisposed with
    | true =>
      rw [World.begin, if_pos hopen]
      exact h
    | false =>
      refine h.next (Local.begin w j x output l values).size ?_ fun hd => ?_
      · exact Engine.trend_awake.begin (Engine.trend_awake.refl (w.engine j)) j x output l values
      · exact (notified_begin h.inside hopen x output l values).imp hd.awake fun hc => hd.calm hc.1
  · exact h.of_local (Local.begin w j x output l values) hj

theorem post (h : Vigil i a w) (j : Nat) (p : Post) : Vigil i a (w.post j p) := by
  by_cases hj : j = i
  · subst hj
    have hposted := engine_modifyEngine_self h.inside fun e => { e with inbox := e.inbox ++ [p] }.notify
    refine h.next (by simp [World.post]) ?_ fun hd => .inl (hd.awake ?_)
    · exact Engine.trend_awake.posted (Engine.trend_awake.refl (w.engine j)) j p
    · rw [Engine.Notified, World.post, hposted]
      rfl
  · exact h.of_engine (by simp [World.post]) (engine_modifyEngine_of_ne hj w _)

theorem complete_of_ne (h : Vigil i a w) (hj : j ≠ i) (o : Nat) (output : Option String) : Vigil i a (w.complete j o output) := by
  refine complete_upholds (P := Vigil i a) ?_ ?_ ?_ ?_ ?_ h
  · exact fun v hv => hv.of_engine (by simp) (engine_modifyEngine_of_ne hj v _)
  · exact fun v x hv => hv.of_engines (engines_chooseOutput v x output)
  · exact fun v e hv => hv.report j e
  · exact fun v x name hv => hv.begin j x name none []
  · exact fun v e hv => hv.of_engines (engines_tell v j e)

/-- Who completes an operation of the engine notifies, unless the output is refused. -/
theorem complete (h : Vigil i a w) (j : Nat) {o : Nat} (output : Option String)
    (ho : ((w.engine j).operation o).isAbandoned = false) : Vigil i a (w.complete j o output) := by
  by_cases hj : j = i
  · subst hj
    refine h.next (Onward.complete w j o output).size ?_ fun hd => ?_
    · exact Engine.trend_awake.complete (Engine.trend_awake.refl (w.engine j)) j o output
    · have hstruck := engine_modifyEngine_self h.inside fun e => { e with pending := e.pending.erase o }
      have hop : ((w.strike j o).engine j).operation o = (w.engine j).operation o := operation_strike w j j o o
      have hinside : j < (w.strike j o).engines.size := by simpa [World.strike] using h.inside
      rw [complete_eq, hop, ho, Bool.or_false]
      cases hopen : ((w.strike j o).engine j).isDisposed with
      | true =>
        right
        rw [if_pos rfl, World.strike, hstruck]
        rw [World.strike, hstruck] at hopen
        exact hd.keep rfl id id ⟨[], rfl⟩ id (.inr hopen)
      | false =>
        rw [if_neg Bool.false_ne_true]
        have hengines := engine_congr (engines_chooseOutput (w.strike j o) ((w.engine j).operation o).node output) j
        have hsize := congrArg Array.size (engines_chooseOutput (w.strike j o) ((w.engine j).operation o).node output)
        have hchosen := chosen_or_refused (w.strike j o) ((w.engine j).operation o).node output
        generalize (w.strike j o).chooseOutput ((w.engine j).operation o).node output = p at hengines hsize hchosen ⊢
        obtain ⟨v, e | name⟩ := p
        · right
          dsimp only at hengines hsize hchosen ⊢
          rw [engine_congr (engines_report v j e), engine_modifyEngine_self (by rw [hsize]; exact hinside), hengines, World.strike,
            hstruck]
          exact hd.refuse hchosen _
        · left
          dsimp only at hengines hsize hchosen ⊢
          have hbegun := notified_begin (w := v) (by rw [hsize]; exact hinside) (by rw [hengines, hopen])
            ((w.engine j).operation o).node name none []
          rw [World.tellEnded, engine_congr (engines_tell _ j _)]
          refine hd.awake ?_
          rcases hbegun with hn | ⟨-, hvalues⟩
          · rw [Engine.Notified, hn, hengines, World.strike, hstruck]
          · exact absurd rfl (hvalues hchosen)
  · exact h.complete_of_ne hj o output

/-- Who has been woken or dozes does so after somebody finishes an operation. -/
theorem finishOperation (h : Vigil i a w) (j o : Nat) (output : Option String) (fromOutside : Bool) :
    Vigil i a (w.finishOperation j o output fromOutside) := by
  unfold World.finishOperation
  dsimp only
  split
  · exact h
  · rename_i hopen
    have hmarked := h.modifyOperation j o fun op => { op with isFinished := true }
    split
    · exact hmarked.post j _
    · refine hmarked.complete j output ?_
      simp only [Bool.or_eq_true, not_or, Bool.not_eq_true] at hopen
      rw [engine_modifyEngine]
      split
      · rw [Engine.operation_modifyOperation]
        split
        · exact hopen.1.2
        · exact hopen.1.2
      · exact hopen.1.2

/-- Who has been woken or dozes does so after posts are taken in. -/
theorem drainInbox (h : Vigil i a w) (j : Nat) : Vigil i a (w.drainInbox j) := by
  by_cases hj : j = i
  · subst hj
    have hempty := engine_modifyEngine_self h.inside fun e => { e with inbox := [] }
    refine h.next (Onward.drainInbox w j).size ?_ fun hd => .inr ?_
    · exact Engine.trend_awake.drainInbox (Engine.trend_awake.refl (w.engine j)) j
    · rw [World.drainInbox, hd.inbox, List.foldl_nil, hempty]
      exact hd.keep rfl id (fun _ => rfl) ⟨[], rfl⟩ id (.inl (List.Subset.refl _))
  · have hemptied : Vigil i a (w.modifyEngine j fun e => { e with inbox := [] }) :=
      h.of_engine (by simp) (engine_modifyEngine_of_ne hj w _)
    refine drainInbox_upholds hemptied fun p _ v hv => ?_
    cases p with
    | complete o output => exact hv.complete_of_ne hj o output
    | begin x output l values => exact hv.begin j x output l values

section Calls

variable {cur : Nat → Option Nat}

theorem ne_of_engages (hi : cur i = none) (hj : Engages (fun c => ∀ j k input, c.role = .flow j k input → cur j = some k) j) :
    j ≠ i := by
  rintro rfl
  obtain ⟨x, f, input, hx⟩ := hj
  cases hi.symm.trans (hx j f input rfl)

/-- Whatever is done in the name of nodes while no fiber of the engine is at work keeps the vigil. -/
theorem closed (a : Engine) (hi : cur i = none) :
    Closed (fun w _ => Vigil i a w) fun c => ∀ j k input, c.role = .flow j k input → cur j = some k where
  stamp g x w _ h := h.of_engines (engines_stamp w g x)
  write h _ _ _ _ _ _ := h.of_engines rfl
  setState _ _ _ _ h := h.of_engines rfl
  setInput _ _ _ _ _ h := h.of_engines rfl
  assign h _ _ _ _ _ _ := h.of_engines rfl
  record _ _ _ _ h := h.of_engines rfl
  tell j e _ w _ h := h.of_engines (engines_tell w j e)
  hold _ _ _ h := h.of_engines rfl
  schedule _ _ _ h := h.of_engines rfl
  store _ _ _ h := h.of_engines rfl
  subscribe _ _ _ _ h := h.of_engines rfl
  unsubscribe _ _ _ h := h.of_engines rfl
  enlist _ _ _ _ _ h := h.of_engines rfl
  unlist _ _ _ h := h.of_engines rfl
  report {j} _ _ _ _ _ _ _ h := h.report j _
  begin j x output l _ values _ _ _ h := h.begin j x output l values
  commit {x j f input} hc output l _ w _ h := h.of_local (Local.commitFiber w j f x output l) (ne_of_engages hi ⟨x, f, input, hc⟩)
  stop {x j f input} hc w _ h := by
    dsimp only [World.endFiber]
    split
    · exact h
    · exact h.aside j fun _ => ⟨rfl, rfl, rfl, rfl, rfl, rfl⟩
  register h j _ x _ input := h.keep j (fun _ => rfl) (fun _ => id) (fun _ => id) (fun _ => rfl) (fun _ => id)
    fun _ => .inl (List.subset_append_left ..)
  enrol {j o _} _ _ _ h := h.modifyOperation j o _
  finish j o output _ _ h := h.finishOperation j o output false
  dismiss {w _} h j o hj _ :=
    (h.of_engine (by simp) (engine_modifyEngine_of_ne (ne_of_engages hi hj) w _)).relinquish j o
  close h j _ := h.keep j (fun _ => rfl) (fun _ => id) (fun _ => id) (fun _ => rfl) (fun _ _ => rfl) fun _ => .inr rfl
  relinquish h j _ _ o := h.relinquish j o
  release h j _ hd := h.keep j (fun _ => rfl) (fun _ => id) (fun _ => id) (fun _ => rfl) (fun _ => id)
    fun hj => .inr (hj ▸ hd (hj ▸ h.inside))
  clear h j _ _ := h.keep j (fun _ => rfl) (fun _ _ => rfl) (fun _ _ => rfl) (fun _ => rfl) (fun _ => id)
    fun _ => .inl (List.Subset.refl _)

theorem conduct (u : World) (a : Engine) (hi : cur i = none) : Conduct (Upholds fun w => InOrder u cur w ∧ Vigil i a w)
    fun c => ∀ j k input, c.role = .flow j k input → cur j = some k := by
  have hO := InOrder.conduct u cur
  exact ((InOrder.closed u cur).and (closed a hi)).conduct (fun w h => hO.nodes ⟨rfl, h.1⟩)
    (fun w h => hO.enrolled ⟨rfl, h.1⟩) (fun w h x b => hO.function ⟨rfl, h.1⟩) fun w h x b => hO.async ⟨rfl, h.1⟩

end Calls

theorem aloof (u : World) (i : Nat) (a : Engine) : Aloof i u (Vigil i a) where
  of_engine h hs he := h.of_engine hs he
  conduct hj _ := conduct u a (InOrder.onlyAt_of_ne hj.symm)
  drainInbox h j := h.drainInbox j

theorem hosted (u : World) (i : Nat) (a : Engine) :
    Hosted (fun c => ∀ j k input, c.role = .flow j k input → atRest j = some k) fun w => InOrder u atRest w ∧ Vigil i a w where
  conduct := conduct u a rfl
  push w h name nodes eventNodes settings := by
    refine ⟨(InOrder.hosted u).push w h.1 name nodes eventNodes settings, ?_, ?_⟩
    · simpa using Nat.lt_succ_of_lt h.2.inside
    · have hi : i ≠ w.engines.size := Nat.ne_of_lt h.2.inside
      simpa only [World.engine, Array.getElem?_push, if_neg hi] using h.2.engine
  observe w h j b := ⟨(InOrder.hosted u).observe w h.1 j b, h.2.aside j fun _ => ⟨rfl, rfl, rfl, rfl, rfl, rfl⟩⟩
  post w h j x output _ values hl := ⟨(InOrder.hosted u).post w h.1 j x output values hl, h.2.post j _⟩
  finish w h j o output fromOutside ho :=
    ⟨(InOrder.hosted u).finish w h.1 j o output fromOutside ho, h.2.finishOperation j o output fromOutside⟩
  drainInbox w h j := ⟨h.1.drainInbox j, h.2.drainInbox j⟩

/-- Whatever a host does keeps the vigil, as long as it leaves the flag to the run. -/
theorem deed (hu : InOrder u atRest w) (h : Vigil i a w) (hd : Deed w z)
    (hflag : (z.engine i).wake = (w.engine i).wake ∨ (z.engine i).wake = some true) : Vigil i a z := by
  refine ((hosted u i a).deed (fun _ hc j k input hrole => absurd hrole (hc j k input))
    (fun h he hd => ⟨h.1.frame he hd, h.2.of_engines he⟩) (fun j b hz => ?_) ⟨hu, h⟩ hd).2
  subst hz
  refine ⟨hu.setWake j b, by simpa using h.inside, ?_⟩
  rcases hflag with hflag | hflag
  · -- The flag is as it was, and so is all else.
    have hsame : (w.modifyEngine j fun e => { e with wake := b }).engine i = w.engine i := by
      rw [engine_modifyEngine] at hflag ⊢
      split
      · rename_i hj
        rw [if_pos hj] at hflag
        exact congrArg (fun x => { w.engine i with wake := x }) hflag
      · rfl
    rw [hsame]
    exact h.engine
  · exact .inl hflag

/-- So does an iteration: the engine has nothing to iterate on before it is woken. -/
theorem iteration (hu : InOrder u atRest w) (h : Vigil i a w) (hi : Iteration j w z) : Vigil i a z := by
  by_cases hj : j = i
  · subst hj
    rcases h.engine with hawake | hd
    · refine ⟨Nat.lt_of_lt_of_le h.inside (hu.rebase.iteration hi).size, .inl ?_⟩
      exact Engine.trend_awake.iteration (fun _ => id) hi hawake
    · exact absurd hd.queue hi.queue_ne_nil
  · exact (aloof u i a).iteration hu h hi hj

end Vigil

/-- What can be come to from a world: whatever a host does, operations that are finished as time passes, and iterations of
any engine. -/
inductive Reached (u : World) : World → Prop where
  | start : Reached u u
  | deed {w v : World} : Reached u w → Deed w v → Reached u v
  | finish {w : World} (j o : Nat) (output : Option String) (fromOutside : Bool) : Reached u w →
      Reached u (w.finishOperation j o output fromOutside)
  | iteration {w v : World} {i : Nat} : Reached u w → Iteration i w v → Reached u v

namespace Reached

variable {u v w : World}

theorem inOrder (he : u.engines = #[]) (hd : u.disposers = []) (h : Reached u w) : InOrder u atRest w := by
  induction h with
  | start => exact .start he hd
  | deed _ hd ih => exact ih.deed hd
  | finish j o output fromOutside _ ih => exact ih.finishOperation j o output fromOutside
  | iteration _ hi ih => exact ih.iteration hi

theorem run {i m : Nat} {maxSteps : Option Int} {maxSeconds : Option Double} (h : Reached u w)
    (hrun : (Play.run i maxSteps maxSeconds).runOn w = (.ok m, v)) : Reached u v :=
  upholds_run (fun _ _ h hi => h.iteration hi) (fun _ _ h => h.deed (.aside rfl rfl)) (fun w h => h.deed (.drainInbox w i)) h hrun

end Reached

/-- An asynchronous run of the engine sleeps: it drained the engine up to `v` and fell asleep, with nothing left to do but
operations under way. Since then hosts acted, operations were finished and engines had iterations, but nobody took the flag
back or away. -/
inductive Asleep (u : World) (i : Nat) (v : World) : World → Prop where
  | drained {w : World} {maxSteps : Option Int} {maxSeconds : Option Double} {m : Nat} : Reached u w →
      (run i maxSteps maxSeconds).runOn (w.modifyEngine i fun e => { e with wake := some false }) = (.ok m, v) →
      (v.engine i).queue = [] → (v.engine i).inbox = [] → (v.engine i).pending ≠ [] → Asleep u i v v
  | deed {w z : World} : Asleep u i v w → Deed w z →
      (z.engine i).wake = (w.engine i).wake ∨ (z.engine i).wake = some true → Asleep u i v z
  | finish {w : World} (j o : Nat) (output : Option String) (fromOutside : Bool) : Asleep u i v w →
      Asleep u i v (w.finishOperation j o output fromOutside)
  | iteration {w z : World} {j : Nat} : Asleep u i v w → Iteration j w z → Asleep u i v z

namespace Asleep

variable {i : Nat} {u v w : World}

theorem reached (h : Asleep u i v w) : Reached u w := by
  induction h with
  | drained hw hrun => exact (hw.deed (.wake _ i (some false))).run hrun
  | deed _ hd _ ih => exact ih.deed hd
  | finish j o output fromOutside _ ih => exact ih.finish j o output fromOutside
  | iteration _ hi ih => exact ih.iteration hi

theorem pending_ne_nil (h : Asleep u i v w) : (v.engine i).pending ≠ [] := by
  induction h with
  | drained _ _ _ _ hpending => exact hpending
  | deed _ _ _ ih => exact ih
  | finish _ _ _ _ _ ih => exact ih
  | iteration _ _ ih => exact ih

theorem timely (u : World) (i : Nat) (v : World) : Timely (Asleep u i v) where
  aside h _ he hd := h.deed (.aside he hd) (.inl (by rw [engine_congr he]))
  finish _ h j o output fromOutside := h.finish j o output fromOutside

/-- The flag is there as long as the run drains the engine. -/
theorem isSome_wake_of_run {m : Nat} {maxSteps : Option Int} {maxSeconds : Option Double} (hw : (w.engine i).wake.isSome = true)
    (hrun : (run i maxSteps maxSeconds).runOn w = (.ok m, v)) : (v.engine i).wake.isSome = true := by
  refine upholds_run (P := fun z => (z.engine i).wake.isSome = true) ?_ ?_ ?_ hw hrun
  · exact fun w z h hi => Engine.trend_flagged.iteration (fun _ => id) hi h
  · exact fun _ _ h => h
  · exact fun w h => Engine.trend_flagged.drainInbox (Engine.trend_flagged.refl (w.engine i)) i h

/-- A loop that was put to sleep has been woken since, or dozes. -/
theorem vigil (he : u.engines = #[]) (hd : u.disposers = []) (h : Asleep u i v w) : Vigil i (v.engine i) w := by
  induction h with
  | @drained w maxSteps maxSeconds m hw hrun hqueue hinbox hpending =>
    have hinside : i < v.engines.size := by
      apply Decidable.byContradiction
      intro hi
      simp [engine, hi] at hpending
      exact hpending rfl
    have hflag : (v.engine i).wake.isSome = true := by
      have hsize := ((obeys_run (Onward.drained (w.modifyEngine i fun e => { e with wake := some false }) i) maxSteps
        maxSeconds).upholds (.refl _)).size
      rw [hrun] at hsize
      refine isSome_wake_of_run ?_ hrun
      rw [engine_modifyEngine_self (by simpa [hsize] using hinside)]
      rfl
    refine ⟨hinside, ?_⟩
    obtain ⟨b, hb⟩ := Option.isSome_iff_exists.1 hflag
    cases b with
    | true => exact .inl hb
    | false => exact .inr ⟨hb, hqueue, hinbox, [], rfl, .inr (.inl (List.Subset.refl _))⟩
  | deed h hz hflag ih => exact ih.deed (h.reached.inOrder he hd) hz hflag
  | finish j o output fromOutside _ ih => exact ih.finishOperation j o output fromOutside
  | iteration h hi ih => exact ih.iteration (h.reached.inOrder he hd) hi

/-- Waiting leaves a run asleep. -/
theorem awaitWake (h : Asleep u i v w) (fuel : Nat) (waiting : Waiting) :
    Asleep u i v ((Play.awaitWake i fuel waiting).runOn w).2 :=
  ((timely u i v).obeys_awaitWake i fuel waiting).upholds h

end Asleep

namespace Reached

variable {i : Nat} {u w z : World}

/-- A run that waited in vain is asleep. -/
theorem asleep_of_loopWithin {maxSteps : Int} {maxSeconds : Option Double} {fuel total n : Nat} {waiting : Waiting}
    (hw : Reached u w) (h : (loopWithin i maxSteps maxSeconds fuel total waiting).runOn w = (.ok (n, false), z)) :
    ∃ v, Asleep u i v z := by
  induction fuel generalizing total waiting w with
  | zero => cases h
  | succ fuel ih =>
    rw [loopWithin, runOn_bind, runOn_modify] at h
    dsimp only at h
    rw [runOn_bind] at h
    generalize hrun : (Play.run i (some (maxSteps - total)) maxSeconds).runOn
      (w.modifyEngine i fun e => { e with wake := some false }) = p at h
    obtain ⟨_ | m, v⟩ := p
    · cases h
    · have hv := (hw.deed (.wake w i (some false))).run hrun
      dsimp only at h
      rw [runOn_get] at h
      split at h
      · cases h
      · split at h
        · exact ih hv h
        · split at h
          · cases h
          · rename_i hwork hpending
            simp only [Bool.or_eq_true, Bool.not_eq_true', not_or, Bool.not_eq_false, List.isEmpty_iff] at hwork hpending
            have hslept : Asleep u i v v := .drained hw hrun hwork.1 hwork.2 hpending
            rw [runOn_get, runOn_bind] at h
            have hwaited := hslept.awaitWake (patience v waiting) waiting
            generalize (Play.awaitWake i (patience v waiting) waiting).runOn v = q at h hwaited
            obtain ⟨_ | _ | later, z'⟩ := q
            · cases h
            · cases h
              exact ⟨v, hwaited⟩
            · exact ih hwaited.reached h

end Reached

/-- A run never sleeps with nothing to wait for, unless it missed the end of what it waited for. While it is asleep it has
been woken, or there is nothing to do and every operation that was under way when it fell asleep still is, unless the engine
was disposed of since or the output of a completion was refused. -/
theorem Asleep.woken_or_waits {u v w : World} {i : Nat} (he : u.engines = #[]) (hd : u.disposers = []) (h : Asleep u i v w) :
    (w.engine i).wake = some true ∨
      (w.engine i).wake = some false ∧ (w.engine i).queue = [] ∧ (w.engine i).inbox = [] ∧
        ∃ es, (w.engine i).failures = es ++ (v.engine i).failures ∧
          ((w.engine i).isDisposed = true ∨ ((v.engine i).pending ⊆ (w.engine i).pending ∧ (w.engine i).pending ≠ []) ∨
            ∃ x ∈ es, x.refusesOutput = true) := by
  refine (h.vigil he hd).engine.imp_right fun hdoze => ⟨hdoze.wake, hdoze.queue, hdoze.inbox, ?_⟩
  obtain ⟨es, hes, hcause⟩ := hdoze.since
  refine ⟨es, hes, hcause.imp_right (Or.imp_left fun hsub => ⟨hsub, fun hnone => ?_⟩)⟩
  rw [hnone] at hsub
  exact h.pending_ne_nil (List.subset_nil.1 hsub)

namespace Missed

def wire : Wire := ⟨⟨"go", "exec", "wait", "exec"⟩, 0⟩

/-- An event whose path leads to a node that starts an operation. -/
def graph : Graph where
  arena := #[
    { id := "go", definition := { typeName := "Go", behaviour := .event none }
      outputs := [{ name := "exec", valueType := ValueType.flowName, wires := [wire] }] },
    { id := "wait", definition := { typeName := "Wait", behaviour := .async (some (.script [])) }
      inputs := [{ name := "exec", valueType := ValueType.flowName, wires := [wire] }]
      outputs := [{ name := "done", valueType := ValueType.flowName }] }]
  ids := ⟨[("go", 0), ("wait", 1)]⟩
  wires := [wire]
  ends := #[some ⟨⟨0, 0⟩, ⟨1, 0⟩⟩]

def bare : World := { graphs := #[graph] }

/-- The event happens, and the engine is drained until its run falls asleep. -/
def begun : World := ((makeEngine "main" [⟨0, 0⟩, ⟨0, 1⟩] {}).runOn bare).2.begin 0 ⟨0, 0⟩ "exec" none []

def drained : Except Failure Nat × World :=
  (run 0 (some 5)).runOn (begun.modifyEngine 0 fun e => { e with wake := some false })

def asleep : World := drained.2

/-- The operation is completed at an output that the node does not have. -/
def refused : World := asleep.finishOperation 0 0 (some "bogus") false

/-- The engine is disposed of instead. -/
def disposed : World := ((dispose 0).runOn asleep).2

theorem asleep_asleep : Asleep bare 0 asleep asleep := by
  have hbegun : Reached bare begun := (Reached.start.deed (.makeEngine ..)).deed (.begin _ 0 ⟨0, 0⟩ "exec" [] (by simp))
  have hrun : drained = (.ok 1, asleep) := by
    have hone : drained.1.toOption = some 1 := by decide +kernel
    refine Prod.ext ?_ rfl
    generalize drained.1 = out at hone ⊢
    cases out with
    | error e => cases hone
    | ok n =>
      cases hone
      rfl
  exact .drained hbegun hrun (by decide +kernel) (by decide +kernel) (by decide +kernel)

end Missed

open Missed in
/-- As it falls asleep the run waits for the operation; an event that happens meanwhile wakes it. -/
theorem Asleep.woken_or_waits_missed : (asleep.engine 0).wake = some false ∧ (asleep.engine 0).pending ≠ [] ∧
    ((asleep.begin 0 ⟨0, 0⟩ "exec" none []).engine 0).wake = some true := by
  have hunset : (asleep.engine 0).wake = some false := by decide +kernel
  refine ⟨hunset, ?_, ?_⟩
  · rcases asleep_asleep.woken_or_waits rfl rfl with hwoken | ⟨-, -, -, es, hes, hcause⟩
    · cases hunset.symm.trans hwoken
    · obtain rfl : es = [] := List.append_left_eq_self.1 hes.symm
      rcases hcause with hclosed | ⟨-, hpending⟩ | ⟨x, hx, -⟩
      · cases (show (asleep.engine 0).isDisposed = false by decide +kernel).symm.trans hclosed
      · exact hpending
      · cases hx
  · have hbegun : Asleep bare 0 asleep (asleep.begin 0 ⟨0, 0⟩ "exec" none []) := by
      refine asleep_asleep.deed (.begin _ 0 ⟨0, 0⟩ "exec" [] (by simp)) (.inr (by decide +kernel))
    rcases hbegun.woken_or_waits rfl rfl with hwoken | ⟨-, hqueue, -⟩
    · exact hwoken
    · cases (show ((asleep.begin 0 ⟨0, 0⟩ "exec" none []).engine 0).queue = [1] by decide +kernel).symm.trans hqueue

open Missed in
/-- A run sleeps on with nothing to wait for, once an output is refused and once the engine is disposed of. -/
theorem Asleep.waits_for_nothing : Asleep bare 0 asleep refused ∧ (refused.engine 0).wake = some false ∧
    (refused.engine 0).isIdle = true ∧ Asleep bare 0 asleep disposed ∧ (disposed.engine 0).wake = some false ∧
    (disposed.engine 0).isIdle = true :=
  ⟨asleep_asleep.finish 0 0 (some "bogus") false, by decide +kernel, by decide +kernel,
    asleep_asleep.deed (.dispose asleep 0) (.inl (by decide +kernel)), by decide +kernel, by decide +kernel⟩

end FlowGraph
