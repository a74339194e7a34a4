import FlowGraph.Proofs.ContextCalls

/-!
Every behaviour keeps to a `Conduct`: in related worlds a call has the same outcome and leads to related
worlds. The lemmas follow the definitions of the engine, from what a context may do to the call of a node or
of a listener.
-/
namespace FlowGraph

open Play

/-- Runs the node that a fiber has come to, once its data inputs are resolved. -/
def Play.visit (i f : Nat) (r : NodeRef) (input : String) : Play Unit := do
  match ((← get).node r).definition.behaviour with
  | .flow b => runFlow i f r input b
  | .async b => startOperation i r input b
  | other => throw ((← get).nodeFailure r (.notTriggerable other.kind))

theorem Play.reach_eq (i f : Nat) (r : NodeRef) (input : String) :
    reach i f r input = (do modify (·.tellStarted i r); resolve i r; visit i f r input) := rfl

namespace Play

/-- What an event node registered is taken off the list, and undone. -/
theorem runOn_disposeNode (dispose : Nat → Play Unit) (x : NodeRef) (w : World) : (disposeNode dispose x).runOn w =
    (undoAll dispose ((w.disposers.filter (·.1 = x)).map (·.2)).reverse >>= fun es => match es with
      | [] => pure ()
      | e :: _ => get >>= fun w => throw (w.nodeFailure x (.disposal e)) : Play Unit).runOn
        { w with disposers := w.disposers.filter (·.1 ≠ x) } := rfl

/-- An operation is entered into the lists, and its node is called. -/
theorem runOn_startOperation (i : Nat) (x : NodeRef) (input : String) (b : Option AsyncBehaviour) (w : World) :
    (startOperation i x input b).runOn w =
      (outcome (invoke x .startAsync (b.map fun b => b.run ⟨x, .async i (w.engine i).operations.size⟩)) >>= fun out =>
        match out with
        | .ok _ => pure ()
        | .error e => do
          modify (·.modifyEngine i fun e => { e with pending := e.pending.erase (w.engine i).operations.size })
          abandon dispose i (w.engine i).operations.size
          throw e : Play Unit).runOn (w.modifyEngine i fun e => { e with
            operations := e.operations.push { node := x, input := input }
            pending := e.pending ++ [(w.engine i).operations.size] }) := by
  rw [startOperation, runOn_get, runOn_bind]
  rfl

end Play

variable {R : World → World → Prop} {A : Context → Prop}

namespace Play

section Undoing

variable {dispose : Nat → Play Unit} (hn : ∀ j, Yields (fun _ => True) (fun _ => False) (dispose j) fun _ => True)

include hn

/-- To undo something goes wrong only as actions do. -/
theorem yields_undo (d : Disposer) : Yields (fun _ => True) (fun e => e.isUttered = true) (undo dispose d) fun _ => True := by
  cases d with
  | unsubscribe s => exact .of_modify fun _ _ => trivial
  | cancelTimer t => exact .of_modify fun _ _ => trivial
  | script c actions =>
    exact c.utters_isUttered.performAll (closed_true _).toManner.bearing_of_all trivial
      (fun j => (hn j).mono (fun _ => False.elim) fun _ h => h) actions

theorem yields_undoAll (ds : List Disposer) :
    Yields (fun _ => True) (fun _ => False) (undoAll dispose ds) fun es => ∀ e ∈ es, e.isUttered = true := by
  induction ds with
  | nil => exact .of_pure fun _ he => by cases he
  | cons d ds ih =>
    refine (yields_undo hn d).outcome_bind (fun _ _ => ih) fun e he => ih.bind fun es hes => .of_pure ?_
    exact List.forall_mem_cons.2 ⟨he, hes⟩

/-- An event node that is disposed of fails only where something that it registered went wrong. -/
theorem yields_disposeNode (x : NodeRef) : Yields (fun _ => True)
    (fun e => ∃ id typeName cause, cause.isUttered = true ∧ e = .node id typeName (.disposal cause)) (disposeNode dispose x)
    fun _ => True := by
  intro w _
  rw [runOn_disposeNode]
  refine Yields.bind (P := fun _ => True) ((yields_undoAll hn _).mono (fun _ => False.elim) fun _ h => h) ?_ _ trivial
  intro es hes
  cases es with
  | nil => exact .of_pure trivial
  | cons e es => exact .look fun _ _ => .of_throw ⟨_, _, e, hes e List.mem_cons_self, rfl⟩

theorem yields_abandon (j o : Nat) : Yields (fun _ => True) (fun _ => False) (abandon dispose j o) fun _ => True := by
  refine .look fun w _ => ?_
  have hrest : Yields (fun _ => True) (fun _ => False) (do
      modify (·.modifyEngine j (·.modifyOperation o fun op => { op with isAbandoned := true, disposers := [] }))
      let _ ← undoAll dispose ((w.engine j).operation o).disposers.reverse : Play Unit) fun _ => True :=
    (Yields.of_modify fun _ _ => trivial).bind fun _ _ => (yields_undoAll hn _).bind fun _ _ => .of_pure trivial
  dsimp only
  split
  · exact .of_pure trivial
  · exact hrest

end Undoing

/-- Engines are disposed of without failure. -/
theorem yields_disposeWithin (fuel j : Nat) :
    Yields (fun _ => True) (fun _ => False) (disposeWithin fuel j) fun _ => True := by
  induction fuel generalizing j with
  | zero => exact .of_pure trivial
  | succ fuel ih =>
    refine .look fun w _ => ?_
    have hnodes : Yields (fun _ => True) (fun _ => False) (disposeNodes (disposeWithin fuel) j (w.engine j).eventNodes)
        fun _ => True := by
      refine Yields.mono (E := fun _ => False) (Yields.of_forM (S := fun _ => True) fun x _ => ?_) (fun _ he => he) fun _ _ => trivial
      refine (yields_disposeNode ih x).outcome_bind (fun _ _ => .of_pure trivial) fun _ _ => .of_modify fun _ _ => trivial
    have hrest : Yields (fun _ => True) (fun _ => False) (do
        modify (·.modifyEngine j fun e => { e with isDisposed := true })
        disposeNodes (disposeWithin fuel) j (w.engine j).eventNodes
        let pending := ((← get).engine j).pending
        modify (·.modifyEngine j fun e => { e with pending := [] })
        pending.forM (abandon (disposeWithin fuel) j)
        modify (·.modifyEngine j fun e => { e with queue := [], inbox := [] }) : Play Unit) fun _ => True :=
      (Yields.of_modify fun _ _ => trivial).bind fun _ _ => hnodes.bind fun _ _ => .look fun v _ =>
        (Yields.of_modify fun _ _ => trivial).bind fun _ _ => (Yields.of_forM fun o _ => yields_abandon ih j o).bind fun _ _ =>
        .of_modify fun _ _ => trivial
    dsimp only
    split
    · exact .of_pure trivial
    · exact hrest

end Play

section Bearings

variable (hC : Bearing R A)

include hC

section Disposal

variable {dispose : Nat → Play Unit}

namespace Play

theorem obeys_undo (hd : ∀ j, Obeys R (dispose j)) {d : Disposer} (hw : d.Within A) :
    Obeys R (undo dispose d) := by
  cases d with
  | unsubscribe s => exact .of_modify fun _ _ h => hC.unsubscribe s h
  | cancelTimer t =>
    refine .of_modify fun w r h => ?_
    rw [(hC.seen h).scheduler]
    exact hC.schedule _ h
  | script c actions => exact Action.obeys_performAll hC hd hw actions

theorem obeys_undoAll (hd : ∀ j, Obeys R (dispose j)) {ds : List Disposer} (hw : ∀ d ∈ ds, d.Within A) :
    Obeys R (undoAll dispose ds) := by
  induction ds with
  | nil => exact .of_pure _
  | cons d ds ih =>
    have hrest := ih fun d hd => hw d (List.mem_cons_of_mem _ hd)
    refine (obeys_undo hC hd (hw d List.mem_cons_self)).of_outcome.bind fun o => ?_
    cases o with
    | ok _ => exact hrest
    | error e => exact hrest.bind fun _ => .of_pure _

/-- An event node is disposed of, if disposing keeps to the relation. -/
theorem obeys_disposeNode (hd : ∀ j, Obeys R (dispose j)) (x : NodeRef) : Obeys R (disposeNode dispose x) := by
  intro w r h
  have hw : ∀ d ∈ ((r.disposers.filter (·.1 = x)).map (·.2)).reverse, d.Within A := by
    intro d hd
    rw [List.mem_reverse, ← (hC.seen h).disposers] at hd
    obtain ⟨p, hp, rfl⟩ := List.mem_map.1 hd
    exact hC.nodes h p (List.mem_filter.1 hp).1
  have hunlisted := hC.unlist x h
  rw [runOn_disposeNode, runOn_disposeNode, (hC.seen h).disposers]
  simp only [(hC.seen h).disposers] at hunlisted
  refine Agrees.bind (obeys_undoAll hC hd hw) (fun es => ?_) _ _ hunlisted
  cases es with
  | nil => exact .of_pure _
  | cons e es => exact .look fun w r h => by rw [(hC.seen h).nodeFailure]; exact .of_throw _

theorem enrolled_operation {w r : World} (h : R w r) (j o : Nat) :
    ∀ d ∈ ((w.engine j).operation o).disposers, d.Within A := by
  unfold Engine.operation
  cases ho : (w.engine j).operations[o]? with
  | none =>
    intro d hd
    cases hd
  | some op => exact hC.enrolled h j op (Array.mem_of_getElem? ho)

omit hC in
theorem runOn_abandon (dispose : Nat → Play Unit) (j o : Nat) (w : World) : (abandon dispose j o).runOn w =
    if ((w.engine j).operation o).isSettled then (.ok (), w)
    else (undoAll dispose ((w.engine j).operation o).disposers.reverse >>= fun _ => pure ()).runOn
      (w.relinquish j o) := by
  have hsettled (op : Operation) : (op.isFinished || op.isAbandoned) = op.isSettled := rfl
  rw [abandon, runOn_get]
  simp only [hsettled, World.relinquish]
  split
  · rfl
  · rw [runOn_bind, runOn_modify]

theorem keeps_abandon (hd : ∀ j, Obeys R (dispose j)) {j o : Nat} {w r : World}
    (hop : (w.engine j).operation o = (r.engine j).operation o)
    (hw : ∀ d ∈ ((w.engine j).operation o).disposers, d.Within A) (h : R (w.relinquish j o) (r.relinquish j o)) :
    ((abandon dispose j o).runOn w).1 = ((abandon dispose j o).runOn r).1 ∧
      R ((abandon dispose j o).runOn w).2 ((abandon dispose j o).runOn r).2 := by
  rw [runOn_abandon, runOn_abandon, ← hop]
  split
  · rename_i hsettled
    rw [World.relinquish, World.relinquish, ← hop, if_pos hsettled, if_pos hsettled] at h
    exact ⟨rfl, h⟩
  · have hundo := obeys_undoAll hC hd fun d hd => hw d (List.mem_reverse.1 hd)
    exact (hundo.bind fun _ => Agrees.of_pure ()) _ _ h

theorem obeys_disposeNodes (hd : ∀ j, Obeys R (dispose j))
    (hn : ∀ j, Yields (fun _ => True) (fun _ => False) (dispose j) fun _ => True)
    {j : Nat} (hr : ∀ id typeName cause, cause.isUttered = true → Stable R (·.report j (.node id typeName (.disposal cause))))
    (xs : List NodeRef) : Obeys R (disposeNodes dispose j xs) := by
  refine .of_forM fun x _ => (obeys_disposeNode hC hd x).outcome_bind (fun w => ((yields_disposeNode hn x) w trivial).2.2)
    (fun _ => .of_pure _) ?_
  rintro _ ⟨id, typeName, cause, hcause, rfl⟩
  exact .of_modify fun w r h => hr id typeName cause hcause h

/-- One level of the disposal of an engine, where the relation outlasts each step of it. -/
theorem obeys_disposeLevel {fuel : Nat}
    (hd : ∀ {S : World → World → Prop}, Closed S A → ∀ j, Obeys (fun w r => R w r ∧ S w r) (disposeWithin fuel j)) {j : Nat}
    (hE : Endures R j) : Obeys R (disposeWithin (fuel + 1) j) := by
  intro w r h
  rw [disposeWithin, runOn_get, runOn_get]
  simp only [← (hC.seen h).isDisposed, ← (hC.seen h).eventNodes]
  split
  · exact ⟨rfl, h⟩
  · rename_i hopen
    have hused : Opened R j := ⟨w, r, h, by simpa using hopen⟩
    have hclosed := hE.close h (by simpa using hopen)
    rw [runOn_bind, runOn_modify, runOn_bind, runOn_modify]
    generalize hu : w.modifyEngine j (fun e => { e with isDisposed := true }) = u at hclosed ⊢
    -- From here on the engine stays disposed, which is why its queue may be emptied.
    have hN := hC.and (Onward.closed u A).toManner
    have hdN := fun k => hd (Onward.closed u A) k
    have hdisposed {v : World} (hv : Onward u v) (hj : j < v.engines.size) : (v.engine j).isDisposed = true := by
      refine hv.isDisposed j ?_
      rw [hv.size, ← hu, World.size_modifyEngine] at hj
      rw [← hu, World.engine_modifyEngine_self hj]
    have hrest : Obeys (fun v s => R v s ∧ Onward u v) (do
        disposeNodes (disposeWithin fuel) j (w.engine j).eventNodes
        let pending := ((← get).engine j).pending
        modify (·.modifyEngine j fun e => { e with pending := [] })
        pending.forM (abandon (disposeWithin fuel) j)
        modify (·.modifyEngine j fun e => { e with queue := [], inbox := [] }) : Play Unit) := by
      refine (obeys_disposeNodes hN hdN (yields_disposeWithin fuel) ?_ _).bind fun _ => .look fun v s hv => ?_
      · exact fun id t x hx v s hv => ⟨hC.report (.inl hused) id t x hx hv.1, hv.2.trans (.of_local (World.Local.report v j _))⟩
      rw [(hN.seen hv).pending]
      refine (Agrees.of_modify (R := fun v s => R v s ∧ Onward u v) fun v s hv =>
        ⟨hE.release hv.1 hused (hdisposed hv.2), hv.2.trans (.release v j)⟩).bind fun _ => ?_
      refine (Agrees.of_forM fun o _ v s hv => ?_).bind fun _ => ?_
      · refine keeps_abandon hN hdN ((hN.seen hv).operation j o) (enrolled_operation hN hv j o) ?_
        exact ⟨hE.relinquish hv.1 hused (hdisposed hv.2) o, hv.2.trans (.relinquish v j o)⟩
      · exact .of_modify fun v s hv => ⟨hE.clear hv.1 hused (hdisposed hv.2), hv.2.trans (.clear v j)⟩
    obtain ⟨heq, hv, -⟩ := hrest _ _ ⟨hclosed, Onward.refl _⟩
    exact ⟨heq, hv⟩

end Play

end Disposal

end Bearings

/-- A bearing that outlasts every step of a disposal is a conduct. -/
theorem Bearing.conduct (hB : Bearing R A) (hC : Closed R A) : Conduct R A where
  toBearing := hB
  disposal {S} hS fuel j := by
    have hall (fuel : Nat) {R : World → World → Prop} (hB : Bearing R A) (hC : Closed R A) (j : Nat) :
        Obeys R (disposeWithin fuel j) := by
      induction fuel generalizing R j with
      | zero => exact .of_pure _
      | succ fuel ih =>
        exact obeys_disposeLevel hB (fun hS j => ih (hB.and hS.toManner) (hC.and hS) j) (hC.endures j)
    exact hall fuel (hB.and hS.toManner) (hC.and hS) j

/-- A bearing that outlasts the disposal of one engine, and every step of the disposal of any other, is a conduct. -/
theorem Bearing.conduct_of_ne {i : Nat} (hB : Bearing R A) (hE : ∀ {j}, j ≠ i → Endures R j)
    (hi : ∀ {S : World → World → Prop}, Closed S A → ∀ fuel, Obeys (fun w r => R w r ∧ S w r) (disposeWithin (fuel + 1) i)) :
    Conduct R A where
  toBearing := hB
  disposal {S} hS fuel j := by
    induction fuel generalizing S j with
    | zero => exact .of_pure _
    | succ fuel ih =>
      by_cases hj : j = i
      · rw [hj]
        exact hi hS fuel
      · exact obeys_disposeLevel (hB.and hS.toManner) (fun hT k => (ih (hS.and hT) k).congr fun _ _ => and_assoc)
          ((hE hj).and (hS.endures j))

/-- A property of worlds that outlasts what contexts of the kind do is a conduct. -/
theorem Closed.conduct {P : World → Prop} (h : Closed (fun w _ => P w) A)
    (hnodes : ∀ w, P w → ∀ p ∈ w.disposers, p.2.Within A)
    (henrolled : ∀ w, P w → ∀ j, ∀ op ∈ (w.engine j).operations, ∀ d ∈ op.disposers, d.Within A)
    (hfunction : ∀ w, P w → ∀ x b, (w.node x).definition.behaviour = .function b → A ⟨x, .function⟩)
    (hasync : ∀ w, P w → ∀ x b, (w.node x).definition.behaviour = .async b → ∀ j o, A ⟨x, .async j o⟩) :
    Conduct (Upholds P) A :=
  (h.toManner.bearing hnodes henrolled hfunction hasync).conduct ((closed_eq A).and h)

theorem Closed.conduct_of_all {P : World → Prop} (h : Closed (fun w _ => P w) fun _ => True) : Conduct (Upholds P) fun _ => True :=
  h.toManner.bearing_of_all.conduct ((closed_eq _).and h)

variable (hC : Conduct R A)

include hC

namespace Play

theorem obeys_disposeWithin (fuel j : Nat) : Obeys R (disposeWithin fuel j) :=
  (hC.disposal (closed_true A) fuel j).congr fun _ _ => (and_iff_left trivial).symm

theorem obeys_dispose (j : Nat) : Obeys R (Play.dispose j) :=
  .look fun w r h => by
    rw [(hC.seen h).size]
    exact obeys_disposeWithin hC _ j

/-- The nodes of an engine that the relation covers are disposed of, and what fails there is reported. -/
theorem obeys_disposeEvents {j : Nat} (hj : Engaged R A j) (fuel : Nat) (xs : List NodeRef) :
    Obeys R (disposeNodes (disposeWithin fuel) j xs) :=
  obeys_disposeNodes hC.toBearing (obeys_disposeWithin hC fuel) (yields_disposeWithin fuel) (hC.report hj) xs

theorem obeys_script {c : Context} (hc : A c) (actions : List Action) : Obeys R (script c actions) :=
  Action.obeys_performAll hC.toBearing (obeys_dispose hC) hc actions

end Play

/-- Function nodes write their outputs and nothing else, each by the operator that it stands for. -/
theorem FunctionBehaviour.obeys_run {c : Context} (hc : A c) (b : FunctionBehaviour) : Obeys R (b.run c) := by
  have hwrite := Context.obeys_write hC.toBearing hc
  cases b with
  | unary input output op =>
    exact (c.obeys_read hC.toBearing input).bind fun _ => (Agrees.of_fault _).bind fun _ => hwrite output _
  | binary first second output op =>
    exact (c.obeys_read hC.toBearing first).bind fun _ => (c.obeys_read hC.toBearing second).bind fun _ =>
      (Agrees.of_fault _).bind fun _ => hwrite output _
  | ternary first second third output op =>
    exact (c.obeys_read hC.toBearing first).bind fun _ => (c.obeys_read hC.toBearing second).bind fun _ =>
      (c.obeys_read hC.toBearing third).bind fun _ => (Agrees.of_fault _).bind fun _ => hwrite output _
  | constant output v => exact hwrite output v
  | makeVector d =>
    exact (Agrees.of_mapM fun _ _ => c.obeys_read hC.toBearing _).bind fun _ =>
      (Agrees.of_fault _).bind fun _ => hwrite "result" _
  | breakVector d =>
    exact (c.obeys_read hC.toBearing "vector").bind fun _ => .of_forM fun axis _ =>
      (Agrees.of_fault _).bind fun _ => hwrite axis _
  | getVariable =>
    exact (c.obeys_setting hC.toBearing _).bind fun _ => (c.obeys_variableNamed hC.toBearing _).bind fun _ =>
      (Agrees.of_except _).bind fun _ => hwrite "value" _
  | now =>
    refine (c.obeys_service hC.toBearing _).bind fun _ => .look fun w r h => ?_
    rw [(hC.seen h).scheduler]
    exact (Agrees.of_fault _).bind fun _ => hwrite "seconds" _
  | getState typeName =>
    refine .look fun w r h => ?_
    rw [(hC.seen h).registryOf]
    refine (Agrees.of_integrity _).bind fun t => (c.obeys_service hC.toBearing _).bind fun _ =>
      (c.obeys_setting hC.toBearing _).bind fun path => .look fun w r h => ?_
    rw [(hC.seen h).store]
    exact (Agrees.of_fault _).bind fun _ => (Agrees.of_fault _).bind fun _ => hwrite "value" _
  | script actions => exact obeys_script hC hc actions

namespace Play

theorem obeys_invoke (x : NodeRef) (stage : Stage) {call : Option (Play Unit)}
    (hcall : ∀ y, call = some y → Obeys R y) : Obeys R (invoke x stage call) := by
  cases call with
  | none => exact .look fun w r h => by rw [(hC.seen h).nodeFailure]; exact .of_throw _
  | some y =>
    refine (hcall y rfl).of_outcome.bind fun o => ?_
    cases o with
    | ok _ => exact .of_pure _
    | error e =>
      simp only
      split
      · exact .of_throw _
      · exact .look fun w r h => by rw [(hC.seen h).nodeFailure]; exact .of_throw _

/-- Where a node may be without the behaviour that is called. -/
theorem obeys_invoke_map {β : Type} (x : NodeRef) (stage : Stage) (b : Option β) {run : β → Play Unit}
    (hrun : ∀ b, Obeys R (run b)) : Obeys R (invoke x stage (b.map run)) := by
  refine obeys_invoke hC x stage fun y hy => ?_
  obtain ⟨b, -, rfl⟩ := Option.map_eq_some_iff.1 hy
  exact hrun b

theorem obeys_compute (x : NodeRef) : Obeys R (compute x) := by
  refine .look fun w r h => ?_
  rw [← (hC.seen h).node]
  split
  · rename_i b hb
    exact obeys_invoke_map hC x _ b fun b => b.obeys_run hC (hC.function h hb)
  · exact .look fun w r h => by rw [(hC.seen h).node]; exact .of_throw _

theorem obeys_tellStarted (j : Nat) (x : NodeRef) : Obeys R (modify (·.tellStarted j x)) :=
  .of_modify fun w r h => by
    unfold World.tellStarted
    rw [(hC.seen h).node]
    exact hC.tell j _ (fun _ => rfl) h

theorem obeys_tellEnded (j : Nat) (x : NodeRef) : Obeys R (modify (·.tellEnded j x)) :=
  .of_modify fun w r h => by
    unfold World.tellEnded
    rw [(hC.seen h).node]
    exact hC.tell j _ (fun _ => rfl) h

theorem obeys_fillInput (j : Nat) (x : NodeRef) (place : Nat) (s : Socket) : Obeys R (fillInput j x place s) := by
  unfold fillInput
  split
  · refine .look fun w r h => ?_
    rw [(hC.seen h).registryOf]
    refine (Agrees.of_integrity _).bind fun t => (Context.obeys_stamp hC.toBearing _ _).bind fun v => ?_
    refine (Agrees.of_modify fun _ _ h => hC.setInput x place v h).bind fun _ => .look fun w r h => ?_
    rw [(hC.seen h).node]
    exact .of_modify fun _ _ h => hC.tell j _ (fun _ => rfl) h
  · exact .of_pure _

theorem obeys_pullAcross (x : NodeRef) (place : Nat) (s : Socket) (source : End) :
    Obeys R (pullAcross x place s source) := by
  refine .look fun w r h => ?_
  rw [(hC.seen h).carried]
  exact (Agrees.of_except _).bind fun _ => (Context.obeys_stamp hC.toBearing _ _).bind fun _ =>
    .of_modify fun _ _ h => hC.setInput x place _ h

section Resolution

variable {resolve : List String → NodeRef → Play Unit}

/-- A pull keeps to the relation if the pulls behind it do. -/
theorem obeys_supply (hr : ∀ visiting x, Obeys R (resolve visiting x)) (j : Nat) (visiting : List String)
    (x supplier : NodeRef) : Obeys R (supply j resolve visiting x supplier) := by
  refine .look fun w r h => ?_
  rw [(hC.seen h).node]
  generalize r.node supplier = u
  simp only
  split
  · have hcompute := (hr (u.id :: visiting) supplier).bind fun _ => (obeys_tellStarted hC j supplier).bind fun _ =>
      (obeys_compute hC supplier).bind fun _ => obeys_tellEnded hC j supplier
    split
    · exact .look fun w r h => by
        rw [(hC.seen h).nodeFailure]
        exact (Agrees.of_throw _).bind fun _ => hcompute
    · exact hcompute
  · exact .of_pure _

theorem obeys_resolveInput (hr : ∀ visiting x, Obeys R (resolve visiting x)) (j : Nat) (visiting : List String)
    (x : NodeRef) (place : Nat) : Obeys R (resolveInput j resolve visiting x place) := by
  refine .look fun w r h => ?_
  rw [(hC.seen h).node, (hC.seen h).graph]
  simp only
  split
  · exact obeys_fillInput hC j x place _
  · exact (obeys_supply hC hr j visiting x _).bind fun _ => obeys_pullAcross hC x place _ _

end Resolution

theorem obeys_resolveWithin (j : Nat) (fuel : Nat) (visiting : List String) (x : NodeRef) :
    Obeys R (resolveWithin j fuel visiting x) := by
  induction fuel generalizing visiting x with
  | zero => exact .of_pure _
  | succ fuel ih =>
    refine .look fun w r h => ?_
    rw [(hC.seen h).node]
    exact .of_forM fun place _ => obeys_resolveInput hC ih j visiting x place

theorem obeys_resolve (j : Nat) (x : NodeRef) : Obeys R (resolve j x) :=
  .look fun w r h => by
    rw [(hC.seen h).graph, (hC.seen h).node]
    exact obeys_resolveWithin hC j _ _ x

end Play

namespace Context

theorem obeys_memory (c : Context) (key : String) : Obeys R (c.memory key) := by
  refine (c.obeys_self hC.toBearing).bind fun n => ?_
  split
  · split
    · exact .of_pure _
    · exact .of_throw _
  · exact .of_throw _

theorem obeys_remember {c : Context} (hc : A c) (key : String) (v : Value) : Obeys R (c.remember key v) := by
  refine (c.obeys_self hC.toBearing).bind fun n => ?_
  split
  · exact obeys_setState hC.toBearing hc _
  · exact .of_throw _

theorem obeys_fireInOrder {c : Context} (hc : A c) (names : List String) : Obeys R (c.fireInOrder names) := by
  match names with
  | [] => exact .of_throw _
  | [name] => exact obeys_commit hC.toBearing hc name (by simp)
  | name :: name' :: rest =>
    refine obeys_commit hC.toBearing hc name ?_
    rintro x ⟨⟩
    rfl

theorem obeys_round {c : Context} (hc : A c) (index last : Value) : Obeys R (c.round index last) := by
  refine (Agrees.of_fault _).bind fun isOver => ?_
  split
  · exact obeys_commit hC.toBearing hc "completed" (by simp)
  · refine (obeys_write hC.toBearing hc "index" index).bind fun _ => obeys_commit hC.toBearing hc "loop_body" ?_
    rintro x ⟨⟩
    rfl

end Context

/-- Only a script does more than to subscribe. -/
theorem EventBehaviour.obeys_run {c : Context} {b : EventBehaviour} (hc : ∀ actions, b = .script actions → A c) :
    Obeys R (b.run c) := by
  cases b with
  | start => exact (c.obeys_service hC.toBearing _).bind fun _ => c.obeys_subscribe hC.toBearing _
  | update => exact (c.obeys_service hC.toBearing _).bind fun _ => c.obeys_subscribe hC.toBearing _
  | ending => exact (c.obeys_service hC.toBearing _).bind fun _ => c.obeys_subscribe hC.toBearing _
  | customEvent =>
    exact (c.obeys_setting hC.toBearing _).bind fun _ => (c.obeys_eventNamed hC.toBearing _).bind fun _ =>
      c.obeys_subscribe hC.toBearing _
  | variableChanged =>
    exact (c.obeys_setting hC.toBearing _).bind fun _ => (c.obeys_variableNamed hC.toBearing _).bind fun _ =>
      c.obeys_subscribe hC.toBearing _
  | stateChanged =>
    exact (c.obeys_service hC.toBearing _).bind fun _ => (c.obeys_setting hC.toBearing _).bind fun _ =>
      (Agrees.of_fault _).bind fun _ =>
      c.obeys_subscribe hC.toBearing _
  | script actions => exact obeys_script hC (hc actions rfl) actions

/-- Flow behaviours keep to the relation, case by case. -/
theorem FlowBehaviour.obeys_run {c : Context} (hc : A c) (b : FlowBehaviour) : Obeys R (b.run c) := by
  have hcommit (output : String) : Obeys R (c.commit output) := Context.obeys_commit hC.toBearing hc output (by simp)
  have hwrite := Context.obeys_write hC.toBearing hc
  have hremember := Context.obeys_remember hC hc
  have hstop := Context.obeys_stop hC.toBearing hc
  cases b with
  | branch => exact (c.obeys_read hC.toBearing "condition").bind fun _ => hcommit _
  | sequence => exact (c.obeys_self hC.toBearing).bind fun _ => Context.obeys_fireInOrder hC hc _
  | forLoop =>
    exact (c.obeys_read hC.toBearing "first_index").bind fun _ => (c.obeys_read hC.toBearing "last_index").bind fun _ =>
      Context.obeys_round hC hc _ _
  | doOnce =>
    refine (c.obeys_inputName hC.toBearing).bind fun _ => ?_
    split
    · exact (hremember "closed" _).bind fun _ => hstop
    · refine (c.obeys_memory hC "closed").bind fun v => ?_
      have hrest (closed : Bool) : Obeys R
          (c.remember "closed" (.bool true) >>= fun _ => if closed then c.stop else c.commit "completed") := by
        refine (hremember "closed" _).bind fun _ => ?_
        split
        · exact hstop
        · exact hcommit _
      split
      · exact (c.obeys_setting hC.toBearing _).bind fun v => hrest v.truth
      · exact hrest _
  | flipFlop =>
    exact (c.obeys_memory hC "is_a").bind fun _ => (hremember "is_a" _).bind fun _ =>
      (hwrite "is_A" _).bind fun _ => hcommit _
  | gate =>
    have hrest (isOpen : Bool) : Obeys R
        (do let input ← c.inputName
            let isOpen := gateAfter isOpen input
            c.remember "open" (.bool isOpen)
            if input = "enter" && isOpen then c.commit "exit" else c.stop) := by
      refine (c.obeys_inputName hC.toBearing).bind fun _ => (hremember "open" _).bind fun _ => ?_
      split
      · exact hcommit _
      · exact hstop
    refine (c.obeys_memory hC "open").bind fun v => ?_
    split
    · exact (c.obeys_setting hC.toBearing _).bind fun v => hrest _
    · exact hrest _
  | counter =>
    refine (c.obeys_inputName hC.toBearing).bind fun _ => ?_
    split
    · exact (hremember "count" _).bind fun _ => (hwrite "count" _).bind fun _ => hstop
    · exact (c.obeys_memory hC "count").bind fun _ => (Agrees.of_fault _).bind fun _ =>
        (hremember "count" _).bind fun _ => (hwrite "count" _).bind fun _ => hcommit _
  | setVariable =>
    exact (c.obeys_setting hC.toBearing _).bind fun _ => (c.obeys_variableNamed hC.toBearing _).bind fun x =>
      (c.obeys_read hC.toBearing "value").bind fun v => (World.obeys_assign hC.toBearing _ x v).bind fun _ =>
      (c.obeys_variableNamed hC.toBearing _).bind fun _ => (Agrees.of_except _).bind fun _ =>
      (hwrite "value" _).bind fun _ => hcommit _
  | callEvent =>
    exact (c.obeys_setting hC.toBearing _).bind fun _ => (c.obeys_eventNamed hC.toBearing _).bind fun e =>
      (Agrees.of_mapM fun p _ => (c.obeys_read hC.toBearing p.name).bind fun _ => .of_pure _).bind fun values =>
      (Agrees.of_modify fun _ _ h => World.obeys_emit hC.toBearing _ _ h).bind fun _ => hcommit _
  | log =>
    refine (c.obeys_read hC.toBearing "severity").bind fun severity => ?_
    have hrest : Obeys R
        (do let _ ← c.service "logger"
            let text ← c.read "text"
            modify (·.record (.logged severity text))
            c.commit "exec_out") :=
      (c.obeys_service hC.toBearing _).bind fun _ => (c.obeys_read hC.toBearing "text").bind fun text =>
        (Agrees.of_modify fun _ _ h => hC.record (.logged severity text) rfl h).bind fun _ => hcommit _
    split
    · exact (Agrees.of_fault _).bind fun _ => (Agrees.of_throw _).bind fun _ => hrest
    · exact hrest
  | setState =>
    exact (c.obeys_service hC.toBearing _).bind fun _ => (c.obeys_setting hC.toBearing _).bind fun path =>
      (c.obeys_read hC.toBearing "value").bind fun v => (World.obeys_putState hC.toBearing path v).bind fun _ => hcommit _
  | script actions => exact obeys_script hC hc actions

/-- Async behaviours keep to the relation: a delay sets a timer. -/
theorem AsyncBehaviour.obeys_run {c : Context} (hc : A c) (b : AsyncBehaviour) : Obeys R (b.run c) := by
  cases b with
  | delay =>
    refine (c.obeys_read hC.toBearing _).bind fun v => (Agrees.of_fault _).bind fun duration =>
      (c.obeys_service hC.toBearing _).bind fun _ => ?_
    split
    · rename_i j o _
      refine .look fun w r h => ?_
      rw [(hC.seen h).clock, (hC.seen h).isLooping, (hC.seen h).readClock]
      have hstart := (Agrees.of_fault (r.readClock.callLater duration (j, o))).bind fun p =>
        (Agrees.of_modify fun _ _ h => hC.schedule p.1 h).bind fun _ =>
          c.obeys_onDispose hC.toBearing (d := .cancelTimer p.2) fun _ => trivial
      split
      · exact (Agrees.of_throw _).bind fun _ => hstart
      · exact hstart
    · exact .of_throw _
  | script actions => exact obeys_script hC hc actions

theorem Listener.obeys_run {l : Listener} (hl : l.Within A) : Obeys R l.run := by
  cases l with
  | nextOutput c names => exact Context.obeys_fireInOrder hC (hl c rfl) names
  | nextRound c index last =>
    exact (Agrees.of_fault _).bind fun _ => Context.obeys_round hC (hl c rfl) _ last
  | script c actions => exact obeys_script hC (hl c rfl) actions
  | host label refusal =>
    refine (Agrees.of_modify fun _ _ h => hC.record (.completed label) rfl h).bind fun _ => ?_
    split
    · exact .of_throw _
    · exact .of_pure _

namespace Play

/-- An operation starts in the same way in related worlds, if its node can be called in either. -/
theorem keeps_startOperation {j : Nat} (hj : Engages A j) {w r : World} (h : R w r) {x : NodeRef} {b : Option AsyncBehaviour}
    (hb : (w.node x).definition.behaviour = .async b) (input : String) :
    ((startOperation j x input b).runOn w).1 = ((startOperation j x input b).runOn r).1 ∧
      R ((startOperation j x input b).runOn w).2 ((startOperation j x input b).runOn r).2 := by
  have hregistered := hC.register h (.inr hj) x ⟨b, hb⟩ input
  have hx := hC.async h hb j
  rw [runOn_startOperation, runOn_startOperation, ← (hC.seen h).operations]
  have hlt (hj : j < w.engines.size) : (w.engine j).operations.size < ((w.modifyEngine j fun e => { e with
      operations := e.operations.push { node := x, input := input }
      pending := e.pending ++ [(w.engine j).operations.size] }).engine j).operations.size := by
    rw [World.engine_modifyEngine_self hj]
    simp
  generalize hu : w.modifyEngine j (fun e => { e with
    operations := e.operations.push { node := x, input := input }
    pending := e.pending ++ [(w.engine j).operations.size] }) = u at hregistered hlt ⊢
  generalize (w.engine j).operations.size = o at hregistered hlt ⊢
  -- The operation does not vanish while it is started, so that it may be taken off the list.
  have hN := hC.and (Onward.closed u A)
  have hthere {v : World} (hv : Onward u v) (hj : j < v.engines.size) : o < (v.engine j).operations.size := by
    rw [hv.size, ← hu, World.size_modifyEngine] at hj
    exact Nat.lt_of_lt_of_le (hlt hj) (hv.operations j)
  have hinvoked := obeys_invoke_map hN x .startAsync b fun b => b.obeys_run hN (hx o)
  refine And.imp_right And.left (hinvoked.of_outcome.bind (fun out => ?_) _ _ ⟨hregistered, Onward.refl _⟩)
  cases out with
  | ok _ => exact .of_pure _
  | error e =>
    intro v s hv
    have hrun (v : World) : (do
        modify (·.modifyEngine j fun e => { e with pending := e.pending.erase o })
        abandon dispose j o
        throw e : Play Unit).runOn v = (do
          abandon dispose j o
          throw e : Play Unit).runOn (v.strike j o) := by
      rw [runOn_bind, runOn_modify]
      rfl
    simp only [hrun]
    refine Agrees.bind_at (R := fun v s => R v s ∧ Onward u v) ?_ fun _ => .of_throw _
    refine keeps_abandon hN.toBearing (obeys_dispose hN) ?_ ?_ (hN.dismiss hv hj (hthere hv.2))
    · rw [World.operation_strike, World.operation_strike, (hN.seen hv).operation]
    · rw [World.operation_strike]
      exact enrolled_operation hN.toBearing hv j o

theorem obeys_runFlow {i f : Nat} {x : NodeRef} {input : String} (hx : A ⟨x, .flow i f input⟩)
    (b : Option FlowBehaviour) : Obeys R (runFlow i f x input b) := by
  refine (obeys_invoke_map hC x _ b fun b => b.obeys_run hC hx).bind fun _ => .look fun w r h => ?_
  simp only [hC.committed h hx, (hC.seen h).node, (hC.seen h).nodeFailure]
  split
  · exact (Agrees.of_throw _).bind fun _ => obeys_tellEnded hC i x
  · exact obeys_tellEnded hC i x

/-- Only a flow node is called in the context of the fiber that reaches it. -/
theorem obeys_visit_of_flow {i f : Nat} {x : NodeRef} {input : String} (hi : Engages A i)
    (hx : ∀ w r, R w r → ∀ b, (w.node x).definition.behaviour = .flow b → A ⟨x, .flow i f input⟩) :
    Obeys R (visit i f x input) := by
  intro w r h
  rw [visit, runOn_get, runOn_get]
  simp only [← (hC.seen h).node]
  split
  · rename_i b hb
    exact obeys_runFlow hC (hx w r h b hb) b w r h
  · rename_i b hb
    exact keeps_startOperation hC hi h hb input
  · refine Agrees.look (R := R) (fun w r h => ?_) w r h
    rw [(hC.seen h).nodeFailure]
    exact .of_throw _

theorem obeys_reach {i f : Nat} {x : NodeRef} {input : String} (hx : A ⟨x, .flow i f input⟩) :
    Obeys R (reach i f x input) :=
  (obeys_tellStarted hC i x).bind fun _ => (obeys_resolve hC i x).bind fun _ =>
    obeys_visit_of_flow hC ⟨x, f, input, hx⟩ fun _ _ _ _ _ => hx

theorem obeys_answer (node : Option NodeRef) {l : Listener} (hl : l.Within A) : Obeys R (answer node l) := by
  refine (l.obeys_run hC hl).of_outcome.bind fun o => ?_
  cases o with
  | ok _ => exact .of_pure _
  | error e =>
    cases node with
    | none => exact .of_throw _
    | some x =>
      simp only
      split
      · exact .of_throw _
      · exact .look fun w r h => by rw [(hC.seen h).nodeFailure]; exact .of_throw _

/-- The event nodes of a new engine subscribe. -/
theorem obeys_subscribeAll {j : Nat}
    (hA : ∀ w r, R w r → ∀ x actions, (w.node x).definition.behaviour = .event (some (.script actions)) →
      A ⟨x, .event j⟩) (ready xs : List NodeRef) : Obeys R (subscribeAll j ready xs) := by
  induction xs generalizing ready with
  | nil => exact .of_pure _
  | cons x xs ih =>
    refine .look fun w r h => ?_
    rw [← (hC.seen h).node]
    refine (obeys_invoke hC x _ ?_).of_outcome.bind fun o => ?_
    · intro y hy
      split at hy
      · rename_i b hb
        obtain ⟨b, rfl, rfl⟩ := Option.map_eq_some_iff.1 hy
        refine EventBehaviour.obeys_run hC ?_
        rintro actions rfl
        exact hA w r h x actions hb
      · cases hy
    · cases o with
      | ok _ => exact ih _
      | error e =>
        exact (Agrees.of_forM fun x _ => obeys_disposeNode hC.toBearing (obeys_dispose hC) x).bind fun _ => .of_throw _

end Play

end FlowGraph
