import FlowGraph.Proofs.CheckedGraphs
import FlowGraph.Proofs.Keeping
import FlowGraph.Proofs.Pulling

/-!
Serving a contract. What a behaviour reads, looks up and remembers stays within the contract, and what it makes of that
may go to its outputs: a contract for which this holds of every kind of behaviour is one that all calls of a run keep to.
-/
namespace FlowGraph

open World Play

/-- What the behaviour makes of values that it takes may be given. -/
def FunctionBehaviour.Suits (takes gives : String → Value → Prop) : FunctionBehaviour → Prop
  | unary a output op => ∀ v r, takes a v → op.apply v = .ok r → gives output r
  | binary a b output op => ∀ v w r, takes a v → takes b w → op.apply v w = .ok r → gives output r
  | ternary a b c output op => ∀ v w x r, takes a v → takes b w → takes c x → op.apply v w x = .ok r → gives output r
  | constant output v => gives output v
  | makeVector d => ∀ cs r, List.Forall₂ takes d.axes cs → d.vector cs = .ok r → gives "result" r
  | breakVector d => ∀ v r, ∀ axis ∈ d.axes, takes "vector" v → v.coordinate axis = .ok r → gives axis r
  | getVariable => True
  | now => ∀ s r, Value.toFloat s = .ok r → gives "seconds" r
  | getState _ => ∀ v, gives "value" v
  | script _ => False

/-- A new timer comes to those that are there. -/
theorem Scheduler.mem_timers_callLater {κ : Type} {s : Scheduler κ} {delay : Value} {callback : κ} {p : Scheduler κ × Nat}
    (h : s.callLater delay callback = .ok p) {t : Timer κ} (ht : t ∈ p.1.timers) : t.callback = callback ∨ t ∈ s.timers := by
  obtain ⟨_, -, h⟩ := bind_eq_ok.1 h
  obtain ⟨due, -, h⟩ := bind_eq_ok.1 h
  cases h
  have hinsert (new : Timer κ) (ts : List (Timer κ)) (ht : t ∈ insert new ts) : t = new ∨ t ∈ ts := by
    induction ts with
    | nil => exact .inl (List.mem_singleton.1 ht)
    | cons u us ih =>
      unfold insert at ht
      split at ht
      · exact List.mem_cons.1 ht
      · rcases List.mem_cons.1 ht with rfl | ht
        · exact .inr List.mem_cons_self
        · exact (ih ht).imp_right (List.mem_cons_of_mem u)
  exact (hinsert _ _ ht).imp_left (congrArg Timer.callback)

theorem World.timers_readClock (w : World) : w.readClock.timers = w.scheduler.timers := by
  unfold readClock
  split <;> rfl

namespace Contract

def settingKeys : List String := [variableKey, eventKey, "start_closed", "path"]

def memoryKeys : List String := ["closed", "is_a", "open", "count"]

section Looking

variable {C : Contract} {b : World} {c : Context} {E : Failure → Prop}

theorem yields_self : Yields (C.Kept b) E c.self fun n => ∃ w, C.holds w ∧ n = w.node c.node :=
  .look fun w h => .of_pure ⟨w, h.holds, rfl⟩

/-- Settings do not change. -/
theorem yields_setting {configuration : Configuration}
    (hsame : ∀ w, C.holds w → (w.node c.node).configuration = configuration) {key : String} (hkey : E (.fault (.missing key))) :
    Yields (C.Kept b) E (c.setting key) fun v => configuration.get? key = some v := by
  refine Yields.bind yields_self ?_
  rintro n ⟨w, hw, rfl⟩
  rw [hsame w hw]
  split
  · rename_i v hv
    exact .of_pure hv
  · exact .of_throw hkey

end Looking

/-- The values that behaviours come by and make are within the contract. -/
structure Served (C : Contract) : Prop extends C.Lawful where
  fills : ∀ {w x}, C.holds w → C.uses x → ∀ b i place,
    C.Does b (fillInput i x place (((w.node x).inputs[place]?).getD default)) fun _ => True
  sources : ∀ {w x place ends}, C.holds w → C.uses x →
    (((w.node x).inputs[place]?).getD default).wires.head?.bind (w.graph x.graph).endsOf = some ends →
    C.uses ⟨x.graph, ends.source.node⟩ ∧
      ∀ b, C.Does b (pullAcross x place (((w.node x).inputs[place]?).getD default) ends.source) fun _ => True
  /-- Meeting a node again is admitted, or does not happen. -/
  spares : ∀ {w x}, C.holds w → C.uses x → ∀ i e, ((resolve i x).runOn w).1 = .error e → e.IsCycle → C.admits e
  unscripted : ∀ {x}, C.uses x → (C.behaviour x).isScript = false
  reads : ∀ {c : Context}, C.uses c.node → ∀ {name}, name ∈ (C.behaviour c.node).reads → ∀ b,
    C.Does b (c.read name) (C.takes c.node name)
  assigned : ∀ {c : Context} {y}, C.uses c.node → C.behaviour c.node = .flow (some .setVariable) → C.knows c.node y → ∀ b,
    C.Does b (c.read "value") (C.takes c.node "value")
  parameter : ∀ {c : Context} {e p}, C.uses c.node → C.behaviour c.node = .flow (some .callEvent) → C.calls c.node e →
    p ∈ e.parameters → ∀ b, C.Does b (c.read p.name) (C.takes c.node p.name)
  setting : ∀ {c : Context}, C.uses c.node → ∀ {key}, key ∈ settingKeys → ∀ b,
    C.Does b (c.setting key) (C.sets c.node key)
  memory : ∀ {c : Context}, C.uses c.node → ∀ {key}, key ∈ memoryKeys → ∀ b,
    C.Does b (c.memory key) (C.keeps c.node key)
  remember : ∀ {c : Context} {key v}, C.uses c.node → C.keeps c.node key v → ∀ b,
    C.Does b (c.remember key v) fun _ => True
  service : ∀ (c : Context) name b, C.Does b (c.service name) fun _ => True
  storeless : ∀ {s : Store} {path f}, s.get path = .error f → C.admits (.fault f)
  typeless : ∀ name, C.admits (.integrity (.unknownValueType name))
  variableNamed : ∀ {c : Context} {v}, C.uses c.node → C.sets c.node variableKey v → ∀ b,
    C.Does b (c.variableNamed v) (C.knows c.node)
  eventNamed : ∀ {c : Context} {v}, C.uses c.node → C.sets c.node eventKey v → ∀ b,
    C.Does b (c.eventNamed v) (C.calls c.node)
  known : ∀ {x y}, C.knows x y → ∃ w name, C.holds w ∧ (w.graph x.graph).vars.get? name = some y
  /-- The value of a variable may go to the output that stands for it. -/
  valued : ∀ {x y v}, C.uses x →
    C.behaviour x = .flow (some .setVariable) ∨ C.behaviour x = .function (some .getVariable) →
    C.knows x y → y.get = .ok v → C.gives x "value" v
  called : ∀ {x e} {values : List (String × Value)}, C.uses x → C.behaviour x = .flow (some .callEvent) → C.calls x e →
    List.Forall₂ (fun p q => q.1 = p.name ∧ C.takes x p.name q.2) e.parameters values →
    C.Tells (.eventTrigger x.graph e.serial) (.triggered (e.payload values))
  computes : ∀ {x y}, C.uses x → C.behaviour x = .function (some y) → y.Suits (C.takes x) (C.gives x)
  flips : ∀ {x}, C.uses x → C.behaviour x = .flow (some .flipFlop) → ∀ b, C.gives x "is_A" (.bool b)
  marks : ∀ {x key}, key ∈ ["closed", "is_a", "open"] → ∀ b, C.keeps x key (.bool b)
  counts : ∀ {x}, C.uses x → C.behaviour x = .flow (some .counter) → C.keeps x "count" (.int 0) ∧
    ∀ n, C.keeps x "count" n → C.gives x "count" n ∧ ∀ m, n.add (.int 1) = .ok m → C.keeps x "count" m
  loops : ∀ {c : Context} {i l}, C.uses c.node → C.behaviour c.node = .flow (some .forLoop) →
    C.takes c.node "first_index" i → C.takes c.node "last_index" l → C.heeds (.nextRound c i l)
  rounds : ∀ {c i l}, C.heeds (.nextRound c i l) → C.uses c.node ∧ C.gives c.node "index" i ∧
    ∀ k, i.add (.int 1) = .ok k → C.heeds (.nextRound c k l)
  sequences : ∀ {c names}, C.heeds (.nextOutput c names) ↔ C.uses c.node
  unheeded : ∀ {c actions}, ¬ C.heeds (.script c actions)
  hears : ∀ {x}, C.uses x → match C.behaviour x with
    | .event (some .start) => C.hears .start x
    | .event (some .update) => C.hears .tick x
    | .event (some .ending) => C.hears .ending x
    | .event (some .customEvent) => ∀ e, C.calls x e → C.hears (.eventTrigger x.graph e.serial) x
    | .event (some .variableChanged) => ∀ y, C.knows x y → C.hears (.variableChange x.graph y.serial) x
    | .event (some .stateChanged) => ∀ path, C.hears (.stateChange path) x
    | _ => True
  suspends : ∀ {x y}, C.uses x → C.behaviour x = .async y → C.waits x

namespace Served

variable {C : Contract} (hC : C.Served) {b : World}

include hC

section Behaviours

variable {c : Context}

/-- What is computed may be written, if the computation misses no name. -/
theorem does_result {α : Type} {x : Except Fault Value} {output : String} (hx : Plain x)
    (hgives : ∀ v, x = .ok v → C.gives c.node output v) {k : Value → Play α} {Q : α → Prop}
    (hk : ∀ v, C.gives c.node output v → C.Does b (k v) Q) : C.Does b (ofFault x >>= k) Q :=
  (Yields.of_fault (Q := fun v => C.gives c.node output v) hgives fun f hf => hC.plain (hx f hf)).bind hk

theorem does_get (x : Variable) : C.Does b (Play.ofExcept x.get) fun v => x.get = .ok v := by
  refine .of_except (fun v hv => hv) fun e he => ?_
  unfold Variable.get at he
  cases hclone : x.valueType.clone x.value with
  | ok v =>
    rw [hclone] at he
    cases he
  | error f =>
    rw [hclone] at he
    cases he
    exact hC.plain (ValueType.plain_clone _ _ f hclone)

theorem does_assign {y : Variable} (hy : C.knows c.node y) (v : Value) :
    C.Does b (Play.change (·.assign c.node.graph y v)) fun _ => True := by
  obtain ⟨u, name, hu, hname⟩ := hC.known hy
  exact .of_change (fun w h => (h.assign hC.toLawful hu hname v).1) fun w h => (h.assign hC.toLawful hu hname v).2

theorem does_inputName : C.Does b c.inputName fun _ => True := by
  unfold Context.inputName
  split
  · exact .of_pure trivial
  · exact .look fun _ _ => .of_pure trivial
  · exact does_lacks hC.toLawful c _

variable (hc : C.uses c.node)

include hc

/-- Function nodes read, compute and write what the contract has for them. -/
theorem does_function {y : FunctionBehaviour} (hy : C.behaviour c.node = .function (some y)) :
    C.Does b (y.run c) fun _ => True := by
  have hsuits := hC.computes hc hy
  have hreads : ∀ {b : World} {name}, name ∈ (C.behaviour c.node).reads → C.Does b (c.read name) (C.takes c.node name) :=
    fun hname => hC.reads hc hname _
  have hwrite {b : World} {output : String} {v : Value} (hv : C.gives c.node output v) :
      C.Does b (c.write output v) fun _ => True := does_write hC.toLawful hv
  rw [hy] at hreads
  cases y with
  | unary a output op =>
    refine (hreads (by simp [Behaviour.reads])).bind fun v hv => ?_
    exact does_result hC (op.plain_apply v) (hsuits v · hv) fun _ => hwrite
  | binary a a' output op =>
    refine (hreads (by simp [Behaviour.reads])).bind fun v hv => (hreads (by simp [Behaviour.reads])).bind fun v' hv' => ?_
    exact does_result hC (op.plain_apply v v') (hsuits v v' · hv hv') fun _ => hwrite
  | ternary a a' a'' output op =>
    refine (hreads (by simp [Behaviour.reads])).bind fun v hv => (hreads (by simp [Behaviour.reads])).bind fun v' hv' =>
      (hreads (by simp [Behaviour.reads])).bind fun v'' hv'' => ?_
    exact does_result hC (op.plain_apply v v' v'') (hsuits v v' v'' · hv hv' hv'') fun _ => hwrite
  | constant output v => exact hwrite hsuits
  | makeVector d =>
    refine Yields.bind (Yields.of_mapM fun axis haxis => hreads (by simpa [Behaviour.reads] using haxis)) fun cs hcs => ?_
    exact does_result hC (Value.plain_vector d cs) (hsuits cs · hcs) fun _ => hwrite
  | breakVector d =>
    refine (hreads (by simp [Behaviour.reads])).bind fun v hv => ?_
    refine Does.drop (Yields.of_forM (S := fun _ => True) fun axis haxis => ?_)
    exact does_result hC (Value.plain_coordinate v axis) (hsuits v · axis haxis hv) fun _ => hwrite
  | getVariable =>
    refine (hC.setting hc (by simp [settingKeys]) b).bind fun name hname => (hC.variableNamed hc hname b).bind fun y hy' => ?_
    exact (does_get hC y).bind fun v hv => hwrite (hC.valued hc (.inr hy) hy' hv)
  | now =>
    refine (hC.service c _ b).bind fun _ _ => Does.look fun w h => ?_
    exact does_result hC (Value.plain_toFloat _) (hsuits _) fun _ => hwrite
  | getState typeName =>
    refine Does.look fun w h => ?_
    have htype : C.Does w (Play.ofIntegrity ((w.registryOf c.node).valueType typeName)) fun _ => True := by
      refine .of_integrity (fun _ _ => trivial) fun e he => ?_
      unfold Registry.valueType at he
      split at he
      · cases he
      · cases he
        exact hC.typeless _
    refine htype.bind fun t _ => (hC.service c _ w).bind fun _ _ => (hC.setting hc (by simp [settingKeys]) w).bind
      fun path _ => Does.look fun w h => ?_
    refine Yields.bind (Q := fun _ => True) (.of_fault (fun _ _ => trivial) fun f hf => hC.storeless hf) fun v _ => ?_
    exact does_result hC (ValueType.plain_clone t v) (fun v _ => hsuits v) fun _ => hwrite
  | script actions => exact hsuits.elim

theorem does_fireInOrder (names : List String) : C.Does b (c.fireInOrder names) fun _ => True := by
  match names with
  | [] => exact Does.throw_plain hC.toLawful rfl
  | [name] => exact does_commit hC.toLawful hc name (by simp)
  | name :: name' :: rest =>
    refine does_commit hC.toLawful hc name ?_
    rintro y ⟨⟩
    exact hC.sequences.2 hc

theorem does_round {i l : Value} (hi : C.heeds (.nextRound c i l)) : C.Does b (c.round i l) fun _ => True := by
  refine (Does.of_plain hC.toLawful (Value.plain_order _ _ _)).bind fun isOver _ => ?_
  cases isOver with
  | true => exact does_commit hC.toLawful hc "completed" (by simp)
  | false =>
    refine (does_write hC.toLawful (hC.rounds hi).2.1).bind fun _ _ => does_commit hC.toLawful hc "loop_body" ?_
    rintro y ⟨⟩
    exact hi

/-- Flow nodes do what the contract permits, behaviour by behaviour. -/
theorem does_flow {y : FlowBehaviour} (hy : C.behaviour c.node = .flow (some y)) : C.Does b (y.run c) fun _ => True := by
  have hreads : ∀ {b : World} {name}, name ∈ (C.behaviour c.node).reads → C.Does b (c.read name) (C.takes c.node name) :=
    fun hname => hC.reads hc hname _
  have hwrite {b : World} {output : String} {v : Value} (hv : C.gives c.node output v) :
      C.Does b (c.write output v) fun _ => True := does_write hC.toLawful hv
  have hcommit {b : World} (output : String) : C.Does b (c.commit output) fun _ => True :=
    does_commit hC.toLawful hc output (by simp)
  have hstop {b : World} : C.Does b c.stop fun _ => True := does_stop hC.toLawful c
  have hmemory {b : World} {key : String} (hkey : key ∈ memoryKeys) : C.Does b (c.memory key) (C.keeps c.node key) :=
    hC.memory hc hkey b
  have hremember {b : World} {key : String} {v : Value} (hv : C.keeps c.node key v) :
      C.Does b (c.remember key v) fun _ => True := hC.remember hc hv b
  have hmark {b : World} {key : String} (hkey : key ∈ ["closed", "is_a", "open"]) (isSet : Bool) :
      C.Does b (c.remember key (.bool isSet)) fun _ => True := hremember (hC.marks hkey isSet)
  have hsetting {b : World} {key : String} (hkey : key ∈ settingKeys) : C.Does b (c.setting key) (C.sets c.node key) :=
    hC.setting hc hkey b
  rw [hy] at hreads
  cases y with
  | branch => exact (hreads (by simp [Behaviour.reads])).bind fun v _ => hcommit _
  | sequence => exact Does.look fun w _ => does_fireInOrder hC hc _
  | forLoop =>
    refine (hreads (by simp [Behaviour.reads])).bind fun i hi => (hreads (by simp [Behaviour.reads])).bind fun l hl => ?_
    exact does_round hC hc (hC.loops hc hy hi hl)
  | doOnce =>
    refine (does_inputName hC).bind fun _ _ => ?_
    split
    · exact (hmark (by simp) _).bind fun _ _ => hstop
    · refine (hmemory (by simp [memoryKeys])).bind fun v _ => ?_
      have hrest (closed : Bool) : C.Does b
          (c.remember "closed" (.bool true) >>= fun _ => if closed then c.stop else c.commit "completed") fun _ => True := by
        refine (hmark (by simp) true).bind fun _ _ => ?_
        split
        · exact hstop
        · exact hcommit _
      split
      · exact (hsetting (by simp [settingKeys])).bind fun v _ => hrest v.truth
      · exact hrest _
  | flipFlop =>
    exact (hmemory (by simp [memoryKeys])).bind fun _ _ => (hmark (by simp) _).bind fun _ _ =>
      (hwrite (hC.flips hc hy _)).bind fun _ _ => hcommit _
  | gate =>
    have hrest (isOpen : Bool) : C.Does b
        (do let input ← c.inputName
            let isOpen := gateAfter isOpen input
            c.remember "open" (.bool isOpen)
            if input = "enter" && isOpen then c.commit "exit" else c.stop) fun _ => True := by
      refine (does_inputName hC).bind fun _ _ => (hmark (by simp) _).bind fun _ _ => ?_
      split
      · exact hcommit _
      · exact hstop
    refine (hmemory (by simp [memoryKeys])).bind fun v _ => ?_
    split
    · exact (hsetting (by simp [settingKeys])).bind fun v _ => hrest _
    · exact hrest _
  | counter =>
    obtain ⟨hzero, hnext⟩ := hC.counts hc hy
    refine (does_inputName hC).bind fun _ _ => ?_
    split
    · exact (hremember hzero).bind fun _ _ => (hwrite (hnext _ hzero).1).bind fun _ _ => hstop
    · refine (hmemory (by simp [memoryKeys])).bind fun n hn => ?_
      refine Yields.bind (Q := C.keeps c.node "count") (.of_fault (hnext n hn).2 fun f hf =>
        hC.plain (Value.plain_add _ _ f hf)) fun m hm => ?_
      exact (hremember hm).bind fun _ _ => (hwrite (hnext m hm).1).bind fun _ _ => hcommit _
  | setVariable =>
    refine (hsetting (by simp [settingKeys])).bind fun name hname => (hC.variableNamed hc hname b).bind fun x hx => ?_
    refine (hC.assigned hc hy hx b).bind fun v _ => (does_assign hC hx v).bind fun _ _ => ?_
    refine (hC.variableNamed hc hname b).bind fun x hx => (does_get hC x).bind fun v hv => ?_
    exact (hwrite (hC.valued hc (.inl hy) hx hv)).bind fun _ _ => hcommit _
  | callEvent =>
    refine (hsetting (by simp [settingKeys])).bind fun name hname => (hC.eventNamed hc hname b).bind fun e he => ?_
    refine Yields.bind (Yields.of_mapM (S := fun p q => q.1 = p.name ∧ C.takes c.node p.name q.2) fun p hp => ?_)
      fun values hvalues => ?_
    · exact (hC.parameter hc hy he hp b).bind fun v hv => .of_pure ⟨rfl, hv⟩
    · exact Yields.bind (Does.of_kept fun w h => h.emit hC.toLawful (hC.called hc hy he hvalues)) fun _ _ => hcommit _
  | log =>
    refine (hreads (by simp [Behaviour.reads])).bind fun severity _ => ?_
    have hrest : C.Does b
        (do let _ ← c.service "logger"
            let text ← c.read "text"
            modify (·.record (.logged severity text))
            c.commit "exec_out") fun _ => True := by
      refine (hC.service c _ b).bind fun _ _ => (hreads (by simp [Behaviour.reads])).bind fun text _ => ?_
      refine Yields.bind (Does.of_kept fun w h => h.record hC.toLawful ?_) fun _ _ => hcommit _
      rintro _ _ _ ⟨⟩
    split
    · exact (Does.of_plain hC.toLawful (Value.plain_display _)).bind fun _ _ =>
        Yields.bind (Q := fun _ => True) (Does.throw_plain hC.toLawful rfl) fun _ _ => hrest
    · exact hrest
  | setState =>
    refine (hC.service c _ b).bind fun _ _ => (hsetting (by simp [settingKeys])).bind fun path _ => ?_
    refine (hreads (by simp [Behaviour.reads])).bind fun v _ => ?_
    refine Yields.bind (Q := fun _ => True) (.of_change (fun w h => ?_) fun w h => ?_) fun _ _ => hcommit _
    · exact (h.putState hC.toLawful path v).1
    · exact (h.putState hC.toLawful path v).2
  | script actions => cases (congrArg Behaviour.isScript hy).symm.trans (hC.unscripted hc)

/-- Event nodes subscribe to what they may hear. -/
theorem does_event {y : EventBehaviour} (hy : C.behaviour c.node = .event (some y)) : C.Does b (y.run c) fun _ => True := by
  have hhears := hC.hears hc
  rw [hy] at hhears
  have hsetting {b : World} {key : String} (hkey : key ∈ settingKeys) : C.Does b (c.setting key) (C.sets c.node key) :=
    hC.setting hc hkey b
  have hsubscribe {b : World} {t : Topic} (ht : C.hears t c.node) : C.Does b (c.subscribe t) fun _ => True :=
    does_subscribe hC.toLawful ht
  cases y with
  | start => exact (hC.service c _ b).bind fun _ _ => hsubscribe hhears
  | update => exact (hC.service c _ b).bind fun _ _ => hsubscribe hhears
  | ending => exact (hC.service c _ b).bind fun _ _ => hsubscribe hhears
  | customEvent =>
    refine (hsetting (by simp [settingKeys])).bind fun name hname => (hC.eventNamed hc hname b).bind fun e he => ?_
    exact hsubscribe (hhears e he)
  | variableChanged =>
    refine (hsetting (by simp [settingKeys])).bind fun name hname => (hC.variableNamed hc hname b).bind fun x hx => ?_
    exact hsubscribe (hhears x hx)
  | stateChanged =>
    refine (hC.service c _ b).bind fun _ _ => (hsetting (by simp [settingKeys])).bind fun path _ => ?_
    exact (Does.of_plain hC.toLawful (Value.plain_hashed path)).bind fun _ _ => hsubscribe (hhears path)
  | script actions => cases (congrArg Behaviour.isScript hy).symm.trans (hC.unscripted hc)

/-- Async nodes use the operation that they were started for, which is there. -/
theorem does_async {y : AsyncBehaviour} (hy : C.behaviour c.node = .async (some y)) {i o : Nat} (hrole : c.role = .async i o)
    (ho : o < (b.engine i).operations.size) : C.Does b (y.run c) fun _ => True := by
  cases y with
  | delay =>
    refine (hC.reads hc (by simp [hy, Behaviour.reads]) b).bind fun v _ => ?_
    refine (Does.of_plain hC.toLawful (Value.plain_larger _ v)).bind fun duration _ => (hC.service c _ b).bind fun _ _ => ?_
    rw [hrole]
    refine Does.look fun w h => ?_
    have hset : C.Does w (ofFault (w.readClock.callLater duration (i, o))) fun p =>
        w.readClock.callLater duration (i, o) = .ok p :=
      .of_fault (fun _ hp => hp) fun f hf => hC.plain (Scheduler.plain_callLater _ _ _ f hf)
    have hrest : C.Does w (do
        let p ← ofFault (w.readClock.callLater duration (i, o))
        modify fun w => { w with scheduler := p.1 }
        c.onDispose (.cancelTimer p.2) : Play Unit) fun _ => True := by
      refine hset.bind fun p hp => Yields.bind (Does.of_kept fun v hv => ?_) fun _ _ => does_onDispose hC.toLawful rfl
      refine hv.withScheduler hC.toLawful fun t ht => ?_
      rcases Scheduler.mem_timers_callLater hp ht with hcallback | ht
      · rw [hcallback]
        exact Nat.lt_of_lt_of_le ho ((h.later.trans hv.later).operations i)
      · exact Nat.lt_of_lt_of_le (h.timers t (World.timers_readClock w ▸ ht)) (hv.later.operations _)
    dsimp only
    split
    · exact Yields.bind (Q := fun _ => True) (Does.throw_plain hC.toLawful rfl) fun _ _ => hrest
    · exact hrest
  | script actions => cases (congrArg Behaviour.isScript hy).symm.trans (hC.unscripted hc)

end Behaviours

/-- A listener goes on with its loop, or does what it was given to do. -/
theorem does_listener {l : Listener} (hl : C.heeds l) : C.Does b l.run fun _ => True := by
  cases l with
  | nextOutput c names => exact does_fireInOrder hC (hC.sequences.1 hl) names
  | nextRound c index last =>
    refine Yields.bind (Q := fun k => C.heeds (.nextRound c k last)) (.of_fault (hC.rounds hl).2.2 fun f hf =>
      hC.plain (Value.plain_add _ _ f hf)) fun k hk => ?_
    exact does_round hC (hC.rounds hl).1 hk
  | script c actions => exact (hC.unheeded hl).elim
  | host label refusal =>
    refine Yields.bind (Does.of_kept fun w h => h.record hC.toLawful ?_) fun _ _ => ?_
    · rintro _ _ _ ⟨⟩
    · split
      · exact Does.throw_plain hC.toLawful rfl
      · exact .of_pure trivial

section Resolving

variable {i : Nat} {x : NodeRef}

theorem does_compute (hx : C.uses x) (hkind : (C.behaviour x).kind = .function) : C.Does b (compute x) fun _ => True := by
  refine Does.look fun w h => ?_
  rw [hC.behaviour h.holds hx]
  cases hy : C.behaviour x with
  | function y =>
    refine does_invoke hC.toLawful (fun z hz => ?_) fun hnone w => hC.missing hx ?_ w _
    · obtain ⟨a, rfl, rfl⟩ := Option.map_eq_some_iff.1 hz
      exact does_function hC hx hy
    · rw [hy, Option.map_eq_none_iff.1 hnone]
      rfl
  | event y | flow y | async y =>
    rw [hy] at hkind
    cases hkind

/-- Resolving keeps the contract, unless it meets a node again. The induction is on the fuel. -/
theorem yields_resolveWithin (fuel : Nat) (visiting : List String) (hx : C.uses x) :
    Yields (C.Kept b) (fun e => e.IsCycle ∨ C.admits e) (resolveWithin i fuel visiting x) fun _ => True := by
  induction fuel generalizing b visiting x with
  | zero => exact .of_pure trivial
  | succ fuel ih =>
    have hdoes {b : World} {y : Play Unit} (hy : C.Does b y fun _ => True) :
        Yields (C.Kept b) (fun e => e.IsCycle ∨ C.admits e) y fun _ => True := hy.mono (fun _ he => .inr he) fun _ h => h
    refine Does.look fun w h => (Yields.of_forM (S := fun _ => True) fun place _ => ?_).mono (fun _ he => he) fun _ _ => trivial
    refine Does.look fun v hv => ?_
    dsimp only
    split
    · exact hdoes (hC.fills hv.holds hx v i place)
    · rename_i ends hends
      obtain ⟨hsource, hpull⟩ := hC.sources hv.holds hx hends
      refine Yields.bind (Q := fun _ => True) (Does.look fun u hu => ?_) fun _ _ => hdoes (hpull v)
      have hkind : (u.node ⟨x.graph, ends.source.node⟩).kind = (C.behaviour ⟨x.graph, ends.source.node⟩).kind :=
        congrArg Behaviour.kind (hC.behaviour hu.holds hsource)
      dsimp only
      rw [hkind]
      split
      · rename_i hfunction
        have hrest : Yields (C.Kept u) (fun e => e.IsCycle ∨ C.admits e) (do
            resolveWithin i fuel ((u.node ⟨x.graph, ends.source.node⟩).id :: visiting) ⟨x.graph, ends.source.node⟩
            modify (·.tellStarted i ⟨x.graph, ends.source.node⟩)
            compute ⟨x.graph, ends.source.node⟩
            modify (·.tellEnded i ⟨x.graph, ends.source.node⟩) : Play Unit) fun _ => True := by
          refine (ih _ hsource).bind fun _ _ => hdoes ?_
          refine Yields.bind (Does.of_kept fun w h => h.tellStarted hC.toLawful i _) fun _ _ => ?_
          exact (does_compute hC hsource hfunction).bind fun _ _ => Does.of_kept fun w h => h.tellEnded hC.toLawful i _
        split
        · exact Does.look fun w _ => Yields.bind (Q := fun _ => False) (.of_throw (Or.inl ⟨_, _, _, rfl⟩)) fun _ h => h.elim
        · exact hrest
      · exact .of_pure trivial

theorem does_resolve (hx : C.uses x) : C.Does b (resolve i x) fun _ => True := by
  intro w h
  have hyields : Yields (C.Kept b) (fun e => e.IsCycle ∨ C.admits e) (resolve i x) fun _ => True :=
    Does.look fun _ _ => yields_resolveWithin hC _ _ hx
  obtain ⟨hkept, -, herror⟩ := hyields w h
  exact ⟨hkept, fun _ _ => trivial, fun e he => (herror e he).elim (hC.spares h.holds hx i e he) id⟩

end Resolving

/-- Where the values that behaviours come by and make are within a contract, all calls of a run keep to it. -/
theorem observed : C.Observed where
  toLawful := hC.toLawful
  resolves := fun hx _ _ => does_resolve hC hx
  event := fun hx hy _ _ => does_event hC hx hy
  flow := fun hx hy _ _ _ _ => does_flow hC hx hy
  async := fun hx hy _ _ _ ho => does_async hC hx hy rfl ho
  listens := fun hl _ => does_listener hC hl
  suspends := hC.suspends

end Served

end Contract

end FlowGraph
