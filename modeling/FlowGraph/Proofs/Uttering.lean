import FlowGraph.Proofs.Calls

/-!
How calls into behaviours go wrong. Whatever a behaviour does, what it fails with is a failure of no node, or something
that it blames its own node for.
-/
namespace FlowGraph

open Play

theorem Variable.not_isNode_coerce {name : String} {t : ValueType} {v : Value} {e : Failure}
    (h : Variable.coerce name t v = .error e) : e.isNode = false := by
  unfold coerce at h
  split at h
  · cases h
  · split at h
    · split at h
      · cases h
        rfl
      · cases h
        rfl
    · cases h
      rfl

theorem not_isNode_lifted {α : Type} {x : Except Fault α} {e : Failure} (h : Except.lifted x = .error e) : e.isNode = false := by
  cases x with
  | ok a => cases h
  | error f =>
    cases h
    rfl

theorem Variable.not_isNode_put {x : Variable} {v : Value} {e : Failure} (h : x.put v = .error e) : e.isNode = false := by
  rcases bind_eq_error.1 h with h | ⟨same, -, h⟩
  · exact not_isNode_lifted h
  · split at h
    · cases h
    · rcases bind_eq_error.1 h with h | ⟨told, -, h⟩
      · exact not_isNode_lifted (map_eq_error.1 h)
      · cases h

/-- A value that a variable does not take is no failure of a node. -/
theorem Graph.not_isNode_assign {g : Graph} {x : Variable} {v : Value} {e : Failure} (h : g.assign x v = .error e) :
    e.isNode = false := by
  rcases bind_eq_error.1 h with h | ⟨w, -, h⟩
  · exact Variable.not_isNode_coerce h
  · rcases bind_eq_error.1 h with h | ⟨y, -, h⟩
    · exact Variable.not_isNode_put h
    · cases h

section Behaviours

variable {P : World → Prop} {E : Failure → Prop} {A : Context → Prop} {c : Context}

theorem Play.yields_dispose (hC : Conduct (Upholds P) A) (j : Nat) : Yields P E (dispose j) fun _ => True := by
  refine .of_obeys (obeys_dispose hC j) fun w _ e he => ?_
  rw [Play.dispose, runOn_get] at he
  exact ((yields_disposeWithin (w.engines.size + 1) j w trivial).2.2 e he).elim

namespace Context.Utters

variable (h : c.Utters P E)

include h

theorem memory (key : String) : Yields P E (c.memory key) fun _ => True := by
  refine .look fun w _ => ?_
  split
  · split
    · exact .of_pure trivial
    · exact .of_throw (h.fault _)
  · exact .of_throw (h.fault _)

variable (hC : Conduct (Upholds P) A) (hc : A c)

include hC hc

theorem script (actions : List Action) : Yields P E (Play.script c actions) fun _ => True :=
  h.performAll hC.toBearing hc (yields_dispose hC) actions

theorem remember (key : String) (v : Value) : Yields P E (c.remember key v) fun _ => True := by
  refine .look fun w _ => ?_
  split
  · exact Context.yields_setState hC.toBearing hc _
  · exact .of_throw (h.fault _)

theorem fireInOrder (names : List String) : Yields P E (c.fireInOrder names) fun _ => True := by
  unfold Context.fireInOrder
  split
  · exact .of_throw (h.fault _)
  · exact h.commit hC.toBearing hc _ (by simp)
  · refine h.commit hC.toBearing hc _ ?_
    rintro x ⟨⟩
    rfl

theorem round (index last : Value) : Yields P E (c.round index last) fun _ => True := by
  refine h.ofFault.bind fun isOver _ => ?_
  split
  · exact h.commit hC.toBearing hc _ (by simp)
  · refine (h.write hC.toBearing hc _ _).bind fun _ _ => h.commit hC.toBearing hc _ ?_
    rintro x ⟨⟩
    rfl

end Context.Utters

variable (h : c.Utters P E) (hC : Conduct (Upholds P) A) (hc : A c)

include h hC hc

theorem EventBehaviour.yields_run (b : EventBehaviour) : Yields P E (b.run c) fun _ => True := by
  cases b with
  | start | update | ending => exact (h.service _).bind fun _ _ => h.subscribe hC.toBearing _
  | customEvent =>
    exact (h.setting _).bind fun _ _ => (h.eventNamed _).bind fun _ _ => h.subscribe hC.toBearing _
  | variableChanged =>
    exact (h.setting _).bind fun _ _ => (h.variableNamed _).bind fun _ _ => h.subscribe hC.toBearing _
  | stateChanged =>
    exact (h.service _).bind fun _ _ => (h.setting _).bind fun _ _ => h.ofFault.bind fun _ _ => h.subscribe hC.toBearing _
  | script actions => exact h.script hC hc actions

/-- Function nodes fail in their own name only. -/
theorem FunctionBehaviour.yields_run (b : FunctionBehaviour) : Yields P E (b.run c) fun _ => True := by
  have hwrite := h.write hC.toBearing hc
  cases b with
  | unary input output op => exact (h.read input).bind fun _ _ => h.ofFault.bind fun _ _ => hwrite output _
  | binary first second output op =>
    exact (h.read first).bind fun _ _ => (h.read second).bind fun _ _ => h.ofFault.bind fun _ _ => hwrite output _
  | ternary first second third output op =>
    exact (h.read first).bind fun _ _ => (h.read second).bind fun _ _ => (h.read third).bind fun _ _ =>
      h.ofFault.bind fun _ _ => hwrite output _
  | constant output v => exact hwrite output v
  | makeVector d =>
    exact (Yields.of_mapM fun axis _ => h.read axis).bind fun _ _ => h.ofFault.bind fun _ _ => hwrite _ _
  | breakVector d =>
    exact (h.read "vector").bind fun v _ =>
      (Yields.of_forM (S := fun _ => True) fun axis _ => h.ofFault.bind fun _ _ => hwrite axis _).mono (fun _ he => he)
        fun _ _ => trivial
  | getVariable =>
    exact (h.setting _).bind fun _ _ => (h.variableNamed _).bind fun x _ => (h.get x).bind fun _ _ => hwrite _ _
  | now => exact (h.service _).bind fun _ _ => .look fun _ _ => h.ofFault.bind fun _ _ => hwrite _ _
  | getState typeName =>
    refine .look fun w _ => Yields.bind (Q := fun _ => True) ?_ fun t _ => (h.service _).bind fun _ _ =>
      (h.setting _).bind fun path _ => .look fun _ _ => h.ofFault.bind fun v _ => h.ofFault.bind fun v _ => hwrite _ _
    exact .of_integrity (fun _ _ => trivial) fun e _ => h.raw _ rfl
  | script actions => exact h.script hC hc actions

/-- Flow nodes fail in their own name only. -/
theorem FlowBehaviour.yields_run (b : FlowBehaviour) : Yields P E (b.run c) fun _ => True := by
  have hwrite := h.write hC.toBearing hc
  have hcommit (output : String) : Yields P E (c.commit output) fun _ => True := h.commit hC.toBearing hc output (by simp)
  have hstop := h.stop hC.toBearing hc
  have hremember := h.remember hC hc
  cases b with
  | branch => exact (h.read _).bind fun _ _ => hcommit _
  | sequence => exact .look fun _ _ => h.fireInOrder hC hc _
  | forLoop => exact (h.read _).bind fun _ _ => (h.read _).bind fun _ _ => h.round hC hc _ _
  | doOnce =>
    refine h.inputName.bind fun input _ => ?_
    split
    · exact (hremember _ _).bind fun _ _ => hstop
    · refine (h.memory "closed").bind fun v _ => ?_
      have hrest (closed : Bool) : Yields P E
          (c.remember "closed" (.bool true) >>= fun _ => if closed then c.stop else c.commit "completed") fun _ => True := by
        refine (hremember _ _).bind fun _ _ => ?_
        split
        · exact hstop
        · exact hcommit _
      split
      · exact (h.setting _).bind fun v _ => hrest v.truth
      · exact hrest _
  | flipFlop =>
    exact (h.memory _).bind fun _ _ => (hremember _ _).bind fun _ _ => (hwrite _ _).bind fun _ _ => hcommit _
  | gate =>
    have hrest (isOpen : Bool) : Yields P E
        (do let input ← c.inputName
            let isOpen := gateAfter isOpen input
            c.remember "open" (.bool isOpen)
            if input = "enter" && isOpen then c.commit "exit" else c.stop) fun _ => True := by
      refine h.inputName.bind fun _ _ => (hremember _ _).bind fun _ _ => ?_
      split
      · exact hcommit _
      · exact hstop
    refine (h.memory "open").bind fun v _ => ?_
    split
    · exact (h.setting _).bind fun v _ => hrest _
    · exact hrest _
  | counter =>
    refine h.inputName.bind fun input _ => ?_
    split
    · exact (hremember _ _).bind fun _ _ => (hwrite _ _).bind fun _ _ => hstop
    · exact (h.memory _).bind fun _ _ => h.ofFault.bind fun _ _ => (hremember _ _).bind fun _ _ => (hwrite _ _).bind fun _ _ =>
        hcommit _
  | setVariable =>
    refine (h.setting _).bind fun name _ => (h.variableNamed name).bind fun x _ => (h.read "value").bind fun v _ => ?_
    refine Yields.bind (Q := fun _ => True) (.of_obeys (World.obeys_assign hC.toBearing c.node.graph x v) fun w hw e he => ?_)
      fun _ _ => (h.variableNamed name).bind fun x _ => (h.get x).bind fun v _ => (hwrite "value" v).bind fun _ _ => hcommit _
    change (w.assign c.node.graph x v).1 = .error e at he
    unfold World.assign at he
    split at he
    · rename_i hrefused
      cases he
      exact h.raw _ (Graph.not_isNode_assign hrefused)
    · cases he
  | callEvent =>
    exact (h.setting _).bind fun _ _ => (h.eventNamed _).bind fun e _ =>
      (Yields.of_mapM (S := fun _ _ => True) fun p _ => (h.read p.name).bind fun _ _ => .of_pure trivial).bind fun values _ =>
      (Yields.of_modify fun w hw => (World.obeys_emit hC.toBearing _ _ (⟨rfl, hw⟩ : Upholds P w w)).2).bind fun _ _ => hcommit _
  | log =>
    refine (h.read "severity").bind fun severity _ => ?_
    have hrest : Yields P E
        (do let _ ← c.service "logger"
            let text ← c.read "text"
            modify (·.record (.logged severity text))
            c.commit "exec_out") fun _ => True :=
      (h.service _).bind fun _ _ => (h.read "text").bind fun text _ =>
        (Yields.of_modify fun w hw => (hC.record (.logged severity text) rfl (⟨rfl, hw⟩ : Upholds P w w)).2).bind
          fun _ _ => hcommit _
    split
    · exact h.ofFault.bind fun _ _ => Yields.bind (Q := fun _ => True) (.of_throw (h.fault _)) fun _ _ => hrest
    · exact hrest
  | setState =>
    refine (h.service _).bind fun _ _ => (h.setting _).bind fun path _ => (h.read "value").bind fun v _ => ?_
    refine Yields.bind (Q := fun _ => True) (.of_obeys (World.obeys_putState hC.toBearing path v) fun w hw e he => ?_)
      fun _ _ => hcommit _
    change (w.putState path v).1 = .error e at he
    unfold World.putState at he
    split at he
    · cases he
      exact h.fault _
    · dsimp only at he
      split at he
      · cases he
      · split at he
        · cases he
          exact h.fault _
        · cases he
  | script actions => exact h.script hC hc actions

/-- Async nodes fail in their own name only. -/
theorem AsyncBehaviour.yields_run (b : AsyncBehaviour) : Yields P E (b.run c) fun _ => True := by
  cases b with
  | delay =>
    refine (h.read _).bind fun v _ => h.ofFault.bind fun duration _ => (h.service _).bind fun _ _ => ?_
    split
    · rename_i i o hrole
      refine .look fun w _ => ?_
      have hrest : Yields P E (do
          let p ← ofFault (w.readClock.callLater duration (i, o))
          modify fun w => { w with scheduler := p.1 }
          c.onDispose (.cancelTimer p.2) : Play Unit) fun _ => True :=
        h.ofFault.bind fun p _ => (Yields.of_modify fun w hw => (hC.schedule p.1 (⟨rfl, hw⟩ : Upholds P w w)).2).bind
          fun _ _ => h.onDispose hC.toBearing fun _ => trivial
      dsimp only
      split
      · exact Yields.bind (Q := fun _ => True) (.of_throw (h.fault _)) fun _ _ => hrest
      · exact hrest
    · exact h.lacks _
  | script actions => exact h.script hC hc actions

omit h hc

/-- A listener goes wrong as what it speaks for does. -/
theorem Listener.yields_run {l : Listener} (hraw : ∀ e, e.isNode = false → E e)
    (h : ∀ c, l.context? = some c → c.Utters P E) (hl : l.Within A) : Yields P E l.run fun _ => True := by
  cases l with
  | nextOutput c names => exact (h c rfl).fireInOrder hC (hl c rfl) names
  | nextRound c index last => exact (h c rfl).ofFault.bind fun _ _ => (h c rfl).round hC (hl c rfl) _ last
  | script c actions => exact (h c rfl).script hC (hl c rfl) actions
  | host label refusal =>
    refine (Yields.of_modify fun w hw => (hC.record (.completed label) rfl (⟨rfl, hw⟩ : Upholds P w w)).2).bind fun _ _ => ?_
    split
    · exact .of_throw (hraw _ rfl)
    · exact .of_pure trivial

end Behaviours

end FlowGraph
