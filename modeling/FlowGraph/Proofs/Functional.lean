import FlowGraph.Proofs.Reference

/-!
The function nodes of the catalogue compute: what they write is a function of what their data inputs hold, of their
configuration, the variables of the graph and the services of the host.
-/
namespace FlowGraph

open World Play

/-- What a function node has written so far, and the label of the next NaN. -/
structure Results where
  labels : Nat
  outputs : Nat → Option Value := fun _ => none

def World.writable? (w : World) (x : NodeRef) (output : String) : Option Nat :=
  (Node.place? output (w.node x).outputs).filter (w.isDataOutput x)

namespace FunctionBehaviour

variable (u : World) (x : NodeRef) (values : List Value)

def value (input : String) : StateT Results Option Value :=
  StateT.lift ((Node.place? input (u.node x).inputs).bind fun p => ((dataPlaces (u.node x)).zip values).lookup p)

def put (output : String) (v : Value) : StateT Results Option Unit := fun s =>
  (u.writable? x output).map fun p =>
    ((), { labels := (v.kept s.labels).2
           outputs := fun q => if q = p then some (v.kept s.labels).1 else s.outputs q })

def setting (key : String) : StateT Results Option Value := StateT.lift ((u.node x).configuration.get? key)

/-- What the behaviour makes of the values at the data inputs of the node. Scripts are left out: they may do anything
to the graph. -/
def denote : FunctionBehaviour → StateT Results Option Unit
  | unary input output op => do
    let a ← value u x values input
    put u x output (← StateT.lift (op.apply a).toOption)
  | binary first second output op => do
    let a ← value u x values first
    let b ← value u x values second
    put u x output (← StateT.lift (op.apply a b).toOption)
  | ternary first second third output op => do
    let a ← value u x values first
    let b ← value u x values second
    let c ← value u x values third
    put u x output (← StateT.lift (op.apply a b c).toOption)
  | constant output v => put u x output v
  | makeVector d => do
    let cs ← d.axes.mapM (value u x values)
    put u x "result" (← StateT.lift (d.vector cs).toOption)
  | breakVector d => do
    let v ← value u x values "vector"
    d.axes.forM fun axis => do put u x axis (← StateT.lift (v.coordinate axis).toOption)
  | getVariable => do
    let name ← setting u x variableKey
    let y ← StateT.lift ((u.graph x.graph).variableOf name).toOption.join
    put u x "value" (← StateT.lift y.get.toOption)
  | now => do
    let _ ← StateT.lift ((u.registryOf x).service "scheduler").toOption
    put u x "seconds" (← StateT.lift u.scheduler.now.toFloat.toOption)
  | getState typeName => do
    let t ← StateT.lift ((u.registryOf x).valueType typeName).toOption
    let _ ← StateT.lift ((u.registryOf x).service "state").toOption
    let path ← setting u x "path"
    let v ← StateT.lift (u.store.get path).toOption
    put u x "value" (← StateT.lift (t.clone v).toOption)
  | script _ => StateT.lift none

/-- The names of the outputs that the behaviour writes. -/
def outputs : FunctionBehaviour → List String
  | unary _ output _ | binary _ _ output _ | ternary _ _ _ output _ | constant output _ => [output]
  | makeVector _ => ["result"]
  | breakVector d => d.axes
  | getVariable | getState _ => ["value"]
  | now => ["seconds"]
  | script _ => []

def isScript : FunctionBehaviour → Bool
  | script _ => true
  | _ => false

end FunctionBehaviour

/-- What a function node makes of the values at its data inputs. -/
def World.meaning (u : World) (x : NodeRef) : Meaning := fun values n =>
  match (u.node x).definition.behaviour with
  | .function (some b) => ((b.denote u x values).run { labels := n }).map fun r =>
    (fun p => (r.2.outputs p).getD .none, r.2.labels)
  | _ => none

/-- The node runs no script, and what it runs as a function node writes every data output. -/
def World.isFunctional (u : World) (x : NodeRef) : Bool :=
  match (u.node x).definition.behaviour with
  | .function (some b) => !b.isScript && (List.range (u.node x).outputs.length).all fun p =>
    !u.isDataOutput x p || b.outputs.any fun name => u.writable? x name == some p
  | _ => true

/-- What a functional behaviour is: no script, and the writer of all data outputs of its node. -/
theorem World.isFunctional_spec {u : World} {x : NodeRef} (hu : u.isFunctional x = true) {b : FunctionBehaviour}
    (hb : (u.node x).definition.behaviour = .function (some b)) : b.isScript = false ∧
      ∀ p, u.isDataOutput x p = true → ∃ name ∈ b.outputs, u.writable? x name = some p := by
  simp only [World.isFunctional, hb, Bool.and_eq_true, Bool.not_eq_true', List.all_eq_true, List.mem_range, Bool.or_eq_true,
    List.any_eq_true, beq_iff_eq] at hu
  refine ⟨hu.1, fun p hp => ?_⟩
  have hlt : p < (u.node x).outputs.length := by
    by_contra hout
    rw [isDataOutput, List.getElem?_eq_none (Nat.le_of_not_lt hout)] at hp
    cases hp
  rcases hu.2 p hlt with hno | hwritten
  · rw [hp] at hno
    cases hno
  · exact hwritten

/-- The world is around `u`, the inputs of the node hold the values and what was written is there. -/
structure Computing (u : World) (j k : Nat) (values : List Value) (w : World) (s : Results) : Prop where
  around : Around j u w
  inputs : w.inputValues ⟨j, k⟩ = values
  labels : w.labels j = s.labels
  outputs : ∀ p v, s.outputs p = some v → w.outputValue ⟨j, k⟩ p = v

section Computing

variable {u : World} {j k : Nat} {values : List Value}

theorem lookup_zip_map {α : Type} (f : Nat → α) (ps : List Nat) (p : Nat) :
    (ps.zip (ps.map f)).lookup p = if p ∈ ps then some (f p) else none := by
  induction ps with
  | nil => rfl
  | cons q ps ih =>
    rw [List.map_cons, List.zip_cons_cons, List.lookup_cons, ih]
    by_cases hpq : p = q
    · simp [hpq]
    · simp [hpq, beq_eq_false_iff_ne.2 hpq]

theorem mem_dataPlaces {n : Node} {p : Nat} {s : Socket} (hs : n.inputs[p]? = some s) :
    p ∈ dataPlaces n ↔ s.isFlow = false := by
  constructor
  · intro hp
    obtain ⟨t, ht, hflow⟩ := socket_of_dataPlaces hp
    rw [hs] at ht
    cases ht
    exact hflow
  · intro hflow
    refine List.mem_map.2 ⟨(s, p), List.mem_filter.2 ⟨?_, by simp [hflow]⟩, rfl⟩
    exact List.mk_mem_zipIdx_iff_getElem?.2 hs

/-- Names lead to the same places whatever the sockets hold. -/
theorem World.Around.input_place {w : World} (h : Around j u w) (k : Nat) (name : String) :
    Node.place? name (w.node ⟨j, k⟩).inputs = Node.place? name (u.node ⟨j, k⟩).inputs := by
  have hinputs : (w.node ⟨j, k⟩).inputs.map Socket.hollow = (u.node ⟨j, k⟩).inputs.map Socket.hollow :=
    (congrArg Node.inputs (h.node_emptied k) :)
  have hnames := congrArg (List.map Socket.name) hinputs
  rw [List.map_map, List.map_map] at hnames
  exact Node.place?_congr hnames name

theorem World.Around.output_place {w : World} (h : Around j u w) (k : Nat) (name : String) :
    Node.place? name (w.node ⟨j, k⟩).outputs = Node.place? name (u.node ⟨j, k⟩).outputs := by
  have houtputs : (w.node ⟨j, k⟩).outputs.map Socket.hollow = (u.node ⟨j, k⟩).outputs.map Socket.hollow :=
    (congrArg Node.outputs (h.node_emptied k) :)
  have hnames := congrArg (List.map Socket.name) houtputs
  rw [List.map_map, List.map_map] at hnames
  exact Node.place?_congr hnames name

/-- Reading an input follows the values that were resolved for the node. -/
theorem follows_read (input : String) : Follows (Computing u j k values) ((⟨⟨j, k⟩, .function⟩ : Context).read input)
    (FunctionBehaviour.value u ⟨j, k⟩ values input) fun a b w s => a = b ∧ Computing u j k values w s := by
  rintro w s ⟨haround, rfl, hlabels, houtputs⟩
  have hrun : ((⟨⟨j, k⟩, .function⟩ : Context).read input).runOn w =
      (Except.lifted ((w.node ⟨j, k⟩).read input), w) := rfl
  rw [hrun, FunctionBehaviour.value, inputValues, haround.dataPlaces, ← haround.input_place]
  simp only [Node.read, Node.input?, Node.find?_eq_place?]
  cases hplace : Node.place? input (w.node ⟨j, k⟩).inputs with
  | none => exact ⟨fun _ => ⟨_, rfl⟩, fun b s' hb => by cases hb⟩
  | some p =>
    obtain ⟨t, ht, -⟩ := Node.getElem?_of_place? hplace
    simp only [Option.bind_some, ht, lookup_zip_map, ← haround.dataPlaces, mem_dataPlaces ht]
    cases hflow : t.isFlow with
    | true => exact ⟨fun _ => ⟨_, rfl⟩, fun b s' hb => by cases hb⟩
    | false =>
      refine ⟨(fun hm => by cases hm), fun b s' hb => ⟨t.value, rfl, ?_, ?_⟩⟩
      · cases hb
        simp [inputValue, ht]
      · cases hb
        exact ⟨haround, rfl, hlabels, houtputs⟩

/-- Replacing a node by what becomes of it is changing it. -/
theorem modifyNode_const (w : World) (x : NodeRef) (f : Node → Node) :
    (w.modifyNode x fun _ => f (w.node x)) = w.modifyNode x f := by
  have hgraphs : w.graphs.modify x.graph (·.modifyNode x.serial fun _ => f (w.node x)) =
      w.graphs.modify x.graph (·.modifyNode x.serial f) := by
    apply Array.ext_getElem?
    intro l
    simp only [Array.getElem?_modify]
    split
    · rename_i hl
      subst hl
      cases hg : w.graphs[x.graph]? with
      | none => rfl
      | some g =>
        have hgraph : w.graph x.graph = g := by simp [World.graph, hg]
        simp only [Option.map_some, Graph.modifyNode, Option.some.injEq, Graph.mk.injEq, true_and, and_true]
        apply Array.ext_getElem?
        intro m
        simp only [Array.getElem?_modify]
        split
        · rename_i hm
          subst hm
          cases hn : g.arena[x.serial]? with
          | none => rfl
          | some n => simp [World.node, Graph.nodeAt?, hgraph, hn]
        · rfl
    · rfl
  simp only [World.modifyNode, modifyGraph, hgraphs]

theorem isDataOutput_eq {w : World} {x : NodeRef} {p : Nat} {t : Socket} (ht : (w.node x).outputs[p]? = some t) :
    w.isDataOutput x p = !t.isFlow := by
  simp [isDataOutput, ht]

/-- Writing sets the value, as it is kept, of an output for data, and fails if there is none. -/
theorem write_cases (w : World) (j k : Nat) (output : String) (v : Value) :
    (w.writable? ⟨j, k⟩ output = none ∧
      ∃ e, ((⟨⟨j, k⟩, .function⟩ : Context).write output v).runOn w = (.error e, (w.stamp j v).2)) ∨
    ∃ p, w.writable? ⟨j, k⟩ output = some p ∧ p < (w.node ⟨j, k⟩).outputs.length ∧
      ((⟨⟨j, k⟩, .function⟩ : Context).write output v).runOn w =
        (.ok (), (w.stamp j v).2.modifyNode ⟨j, k⟩ (·.setOutput p (w.stamp j v).1)) := by
  rw [Context.runOn_write]
  simp only [node_stamp, Node.write, Node.output?, Node.find?_eq_place?, writable?]
  cases hplace : Node.place? output (w.node ⟨j, k⟩).outputs with
  | none => exact .inl ⟨rfl, _, rfl⟩
  | some p =>
    obtain ⟨t, ht, -⟩ := Node.getElem?_of_place? hplace
    simp only [Option.bind_some, ht, Option.filter_some, isDataOutput_eq ht]
    cases t.isFlow with
    | true => exact .inl ⟨rfl, _, rfl⟩
    | false =>
      have hset := modifyNode_const (w.stamp j v).2 ⟨j, k⟩ (·.setOutput p (w.stamp j v).1)
      rw [node_stamp] at hset
      exact .inr ⟨p, rfl, (List.getElem?_eq_some_iff.1 ht).1, congrArg (Prod.mk _) hset⟩

theorem World.Around.writable? {w : World} (h : Around j u w) (k : Nat) (output : String) :
    w.writable? ⟨j, k⟩ output = u.writable? ⟨j, k⟩ output := by
  rw [World.writable?, World.writable?, h.output_place,
    show w.isDataOutput ⟨j, k⟩ = u.isDataOutput ⟨j, k⟩ from funext (h.isDataOutput k)]

/-- Writing an output follows what is put down in the reference. -/
theorem follows_write (output : String) (v : Value) :
    Follows (Computing u j k values) ((⟨⟨j, k⟩, .function⟩ : Context).write output v)
      (FunctionBehaviour.put u ⟨j, k⟩ output v) fun _ _ w s => Computing u j k values w s := by
  rintro w s ⟨haround, rfl, hlabels, houtputs⟩
  have hput : (FunctionBehaviour.put u ⟨j, k⟩ output v).run s = (u.writable? ⟨j, k⟩ output).map fun p =>
      ((), { labels := (v.kept s.labels).2
             outputs := fun q => if q = p then some (v.kept s.labels).1 else s.outputs q }) := rfl
  rw [hput, ← haround.writable?]
  rcases write_cases w j k output v with ⟨hnone, e, hrun⟩ | ⟨p, hp, hlt, hrun⟩
  · rw [hnone, hrun]
    exact ⟨fun _ => ⟨e, rfl⟩, fun b s' hb => by cases hb⟩
  · rw [hp, hrun]
    refine ⟨(fun hm => by cases hm), fun b s' hb => ⟨(), rfl, ?_⟩⟩
    cases hb
    have hj : j < w.graphs.size := by
      by_contra hout
      have hnone : w.graph j = default := by simp [World.graph, Nat.le_of_not_lt hout]
      have hnode : w.node ⟨j, k⟩ = default := by
        simp only [World.node, Graph.nodeAt?, hnone]
        show ((#[] : Array Node)[k]?).getD default = default
        simp
      rw [hnode] at hlt
      cases hlt
    have hset : Around j (w.stamp j v).2 ((w.stamp j v).2.modifyNode ⟨j, k⟩ (·.setOutput p (w.stamp j v).1)) :=
      .modifyNode _ k fun n => Node.emptied_setOutput n p _
    rw [← node_stamp w j v] at hlt
    refine ⟨(haround.trans (.stamp w v)).trans hset, ?_, ?_, ?_⟩
    · rw [inputValues, inputValues, hset.dataPlaces, node_stamp]
      simp
    · rw [labels_modifyNode, labels_stamp hj, hlabels]
    · intro q r hr
      rw [outputValue_setOutput hlt, outputValue_stamp, stamp_eq_kept, hlabels]
      by_cases hqp : q = p
      · simpa [hqp] using hr
      · simp only [hqp, if_false] at hr
        simp only [hqp, and_false, if_false]
        exact houtputs q r hr

end Computing

namespace Follows

variable {σ α β γ : Type} {pre : World → σ → Prop} {mid : World → σ → Prop}
  {post : β → γ → World → σ → Prop}

/-- Where both come to the same value, what follows may use it. -/
theorem bind_eq {x : Play α} {m : StateT σ Option α} {k : α → Play β} {l : α → StateT σ Option γ}
    (hx : Follows pre x m fun a b w s => a = b ∧ mid w s) (hk : ∀ a, Follows mid (k a) (l a) post) :
    Follows pre (x >>= k) (m >>= l) post :=
  hx.bind fun a _ w s h => h.1 ▸ hk a w s h.2

theorem of_fault (x : Except Fault α) : Follows pre (ofFault x) (StateT.lift x.toOption) fun a b w s => a = b ∧ pre w s := by
  intro w s h
  cases x with
  | error e => exact ⟨fun _ => ⟨_, rfl⟩, fun b s' hb => by cases hb⟩
  | ok a => exact ⟨(fun hm => by cases hm), fun b s' hb => by cases hb; exact ⟨a, rfl, rfl, h⟩⟩

theorem of_except (x : Except Failure α) :
    Follows pre (Play.ofExcept x) (StateT.lift x.toOption) fun a b w s => a = b ∧ pre w s := by
  intro w s h
  cases x with
  | error e => exact ⟨fun _ => ⟨_, rfl⟩, fun b s' hb => by cases hb⟩
  | ok a => exact ⟨(fun hm => by cases hm), fun b s' hb => by cases hb; exact ⟨a, rfl, rfl, h⟩⟩

theorem of_integrity (x : Except IntegrityError α) :
    Follows pre (ofIntegrity x) (StateT.lift x.toOption) fun a b w s => a = b ∧ pre w s := by
  intro w s h
  cases x with
  | error e => exact ⟨fun _ => ⟨_, rfl⟩, fun b s' hb => by cases hb⟩
  | ok a => exact ⟨(fun hm => by cases hm), fun b s' hb => by cases hb; exact ⟨a, rfl, rfl, h⟩⟩

theorem of_pure (a : α) : Follows pre (pure a) (pure a : StateT σ Option α) fun a b w s => a = b ∧ pre w s :=
  fun _ _ h => ⟨(fun hm => by cases hm), fun b s' hb => by cases hb; exact ⟨a, rfl, rfl, h⟩⟩

theorem of_mapM {ι : Type} {f : ι → Play α} {g : ι → StateT σ Option α} {is : List ι}
    (hf : ∀ i ∈ is, Follows pre (f i) (g i) fun a b w s => a = b ∧ pre w s) :
    Follows pre (is.mapM f) (is.mapM g) fun a b w s => a = b ∧ pre w s := by
  induction is with
  | nil => exact .of_pure []
  | cons i is ih =>
    rw [List.mapM_cons, List.mapM_cons]
    refine (hf i List.mem_cons_self).bind_eq fun a => ?_
    exact (ih fun l hl => hf l (List.mem_cons_of_mem i hl)).bind_eq fun as => .of_pure (a :: as)

theorem of_forM {ι : Type} {f : ι → Play PUnit} {g : ι → StateT σ Option PUnit} {is : List ι}
    (hf : ∀ i ∈ is, Follows pre (f i) (g i) fun _ _ => pre) : Follows pre (is.forM f) (is.forM g) fun _ _ => pre := by
  induction is with
  | nil => exact fun w s h => ⟨(fun hm => by cases hm), fun b s' hb => by cases hb; exact ⟨_, rfl, h⟩⟩
  | cons i is ih => exact (hf i List.mem_cons_self).bind fun _ _ => ih fun l hl => hf l (List.mem_cons_of_mem i hl)

/-- A look at the world, as far as the evaluation knows what is seen. -/
theorem look {k : World → Play β} {m : StateT σ Option γ}
    (hk : ∀ w s, pre w s → Follows pre (k w) m post) : Follows pre (get >>= k) m post :=
  fun w s h => hk w s h w s h

end Follows

section Behaviours

variable {u : World} {j k : Nat} {values : List Value}

theorem runOn_setting (c : Context) (key : String) (w : World) : (c.setting key).runOn w =
    (match (w.node c.node).configuration.get? key with
      | some v => pure v
      | none => throw (.fault (.missing key)) : Play Value).runOn w := rfl

theorem runOn_variableNamed (c : Context) (name : Value) (w : World) : (c.variableNamed name).runOn w =
    (ofFault ((w.graph c.node.graph).variableOf name) >>= fun x => match x with
      | some x => pure x
      | none => ofFault name.display >>= fun text => throw (.fault (.missing ("Variable not declared: " ++ text))) :
        Play Variable).runOn w := rfl

theorem follows_setting (key : String) :
    Follows (Computing u j k values) ((⟨⟨j, k⟩, .function⟩ : Context).setting key)
      (FunctionBehaviour.setting u ⟨j, k⟩ key) fun a b w s => a = b ∧ Computing u j k values w s := by
  intro w s h
  have hsame : (w.node ⟨j, k⟩).configuration = (u.node ⟨j, k⟩).configuration :=
    (congrArg Node.configuration (h.around.node_emptied k) :)
  rw [runOn_setting, hsame, FunctionBehaviour.setting]
  cases (u.node ⟨j, k⟩).configuration.get? key with
  | none => exact ⟨fun _ => ⟨_, rfl⟩, fun b s' hb => by cases hb⟩
  | some v => exact ⟨(fun hm => by cases hm), fun b s' hb => by cases hb; exact ⟨v, rfl, rfl, h⟩⟩

/-- The variable that a name stands for is the one in the declarations. -/
theorem follows_variableNamed (name : Value) :
    Follows (Computing u j k values) ((⟨⟨j, k⟩, .function⟩ : Context).variableNamed name)
      (StateT.lift ((u.graph j).variableOf name).toOption.join) fun a b w s => a = b ∧ Computing u j k values w s := by
  intro w s h
  have hsame : (w.graph j).variableOf name = (u.graph j).variableOf name := by
    have hvars : (w.graph j).vars = (u.graph j).vars := (congrArg Graph.vars h.around.graph_emptied :)
    rw [Graph.variableOf, Graph.variableOf, hvars]
  rw [runOn_variableNamed, hsame]
  cases (u.graph j).variableOf name with
  | error e => exact ⟨fun _ => ⟨_, rfl⟩, fun b s' hb => by cases hb⟩
  | ok y =>
    cases y with
    | none =>
      refine ⟨fun _ => ?_, fun b s' hb => by cases hb⟩
      cases hd : name.display with
      | error e => exact ⟨.fault e, rfl⟩
      | ok t => exact ⟨_, rfl⟩
    | some y => exact ⟨(fun hm => by cases hm), fun b s' hb => by cases hb; exact ⟨y, rfl, rfl, h⟩⟩

theorem follows_service (name : String) :
    Follows (Computing u j k values) ((⟨⟨j, k⟩, .function⟩ : Context).service name)
      (StateT.lift ((u.registryOf ⟨j, k⟩).service name).toOption) fun a b w s => a = b ∧ Computing u j k values w s := by
  refine .look fun w s h => ?_
  rw [h.around.registry]
  exact .of_fault _

/-- What the behaviour does to the world is what it denotes. -/
theorem FunctionBehaviour.follows_run {b : FunctionBehaviour} (hb : b.isScript = false) :
    Follows (Computing u j k values) (b.run ⟨⟨j, k⟩, .function⟩) (b.denote u ⟨j, k⟩ values)
      fun _ _ => Computing u j k values := by
  cases b with
  | unary input output op =>
    exact (follows_read input).bind_eq fun a => (Follows.of_fault _).bind_eq fun v => follows_write output v
  | binary first second output op =>
    exact (follows_read first).bind_eq fun _ => (follows_read second).bind_eq fun _ =>
      (Follows.of_fault _).bind_eq fun v => follows_write output v
  | ternary first second third output op =>
    exact (follows_read first).bind_eq fun a => (follows_read second).bind_eq fun b => (follows_read third).bind_eq fun c =>
      (Follows.of_fault _).bind_eq fun v => follows_write output v
  | constant output v => exact follows_write output v
  | makeVector d =>
    exact (Follows.of_mapM fun input _ => follows_read input).bind_eq fun cs =>
      (Follows.of_fault _).bind_eq fun v => follows_write "result" v
  | breakVector d =>
    exact (follows_read "vector").bind_eq fun v => .of_forM fun axis _ =>
      (Follows.of_fault _).bind_eq fun c => follows_write axis c
  | getVariable =>
    exact (follows_setting variableKey).bind_eq fun name => (follows_variableNamed name).bind_eq fun y =>
      (Follows.of_except _).bind_eq fun v => follows_write "value" v
  | now =>
    refine (follows_service "scheduler").bind_eq fun _ => .look fun w s h => ?_
    have hscheduler : w.scheduler = u.scheduler := (congrArg World.scheduler h.around :)
    rw [hscheduler]
    exact (Follows.of_fault _).bind_eq fun v => follows_write "seconds" v
  | getState typeName =>
    refine .look fun w s h => ?_
    rw [h.around.registry]
    refine (Follows.of_integrity _).bind_eq fun t => (follows_service "state").bind_eq fun _ =>
      (follows_setting "path").bind_eq fun path => .look fun w s h => ?_
    have hstore : w.store = u.store := (congrArg World.store h.around :)
    rw [hstore]
    exact (Follows.of_fault _).bind_eq fun v => (Follows.of_fault _).bind_eq fun v => follows_write "value" v
  | script actions => cases hb

end Behaviours

/-- Labels are used up only, and what was written stays written. -/
def Advances {α : Type} (m : StateT Results Option α) : Prop := ∀ s a s', m.run s = some (a, s') →
  s.labels ≤ s'.labels ∧ ∀ p, (s.outputs p).isSome = true → (s'.outputs p).isSome = true

/-- In the end something was written at the place. -/
def Writes {α : Type} (p : Nat) (m : StateT Results Option α) : Prop := ∀ s a s', m.run s = some (a, s') →
  (s'.outputs p).isSome = true

namespace Advances

variable {α β : Type} {m : StateT Results Option α}

theorem of_pure (a : α) : Advances (pure a : StateT Results Option α) := by
  intro s b s' h
  cases h
  exact ⟨Nat.le_refl _, fun _ h => h⟩

theorem of_lift (o : Option α) : Advances (StateT.lift o : StateT Results Option α) := by
  intro s b s' h
  cases o with
  | none => cases h
  | some a =>
    cases h
    exact ⟨Nat.le_refl _, fun _ h => h⟩

theorem bind {f : α → StateT Results Option β} (hm : Advances m) (hf : ∀ a, Advances (f a)) : Advances (m >>= f) := by
  intro s b s' h
  obtain ⟨a, t, ha, hb⟩ := run_bind_eq_some.1 h
  obtain ⟨hle, hkept⟩ := hm s a t ha
  obtain ⟨hle', hkept'⟩ := hf a t b s' hb
  exact ⟨hle.trans hle', fun p hp => hkept' p (hkept p hp)⟩

theorem of_mapM {ι : Type} {f : ι → StateT Results Option α} {is : List ι} (hf : ∀ i, Advances (f i)) :
    Advances (is.mapM f) := by
  induction is with
  | nil => exact .of_pure []
  | cons i is ih =>
    rw [List.mapM_cons]
    exact (hf i).bind fun a => ih.bind fun as => .of_pure (a :: as)

theorem of_forM {ι : Type} {f : ι → StateT Results Option PUnit} {is : List ι} (hf : ∀ i, Advances (f i)) :
    Advances (is.forM f) := by
  induction is with
  | nil => exact .of_pure _
  | cons i is ih => exact (hf i).bind fun _ => ih

end Advances

namespace Writes

variable {α β : Type} {m : StateT Results Option α} {p : Nat}

theorem of_bind {f : α → StateT Results Option β} (hf : ∀ a, Writes p (f a)) : Writes p (m >>= f) := by
  intro s b s' h
  obtain ⟨a, t, -, hb⟩ := run_bind_eq_some.1 h
  exact hf a t b s' hb

theorem bind {f : α → StateT Results Option β} (hm : Writes p m) (hf : ∀ a, Advances (f a)) : Writes p (m >>= f) := by
  intro s b s' h
  obtain ⟨a, t, ha, hb⟩ := run_bind_eq_some.1 h
  exact (hf a t b s' hb).2 p (hm s a t ha)

theorem of_forM {ι : Type} {f : ι → StateT Results Option PUnit} {is : List ι} {i : ι} (hi : i ∈ is) (hf : ∀ i, Advances (f i))
    (hw : Writes p (f i)) : Writes p (is.forM f) := by
  induction is with
  | nil => cases hi
  | cons l is ih =>
    rcases List.mem_cons.1 hi with rfl | hi
    · exact Writes.bind hw fun _ => .of_forM hf
    · exact Writes.of_bind fun _ => ih hi

end Writes

namespace FunctionBehaviour

variable {u : World} {x : NodeRef} {values : List Value}

theorem put_eq_some {output : String} {v : Value} {s s' : Results} {a : Unit}
    (h : (put u x output v).run s = some (a, s')) : ∃ p, u.writable? x output = some p ∧
      s' = { labels := (v.kept s.labels).2
             outputs := fun q => if q = p then some (v.kept s.labels).1 else s.outputs q } := by
  obtain ⟨p, hp, h⟩ := Option.map_eq_some_iff.1 h
  cases h
  exact ⟨p, hp, rfl⟩

theorem advances_put (output : String) (v : Value) : Advances (put u x output v) := by
  intro s a s' h
  obtain ⟨p, -, rfl⟩ := put_eq_some h
  refine ⟨v.le_kept s.labels, fun q hq => ?_⟩
  by_cases hqp : q = p
  · simp [hqp]
  · simpa [hqp] using hq

theorem writes_put {output : String} {p : Nat} (hp : u.writable? x output = some p) (v : Value) :
    Writes p (put u x output v) := by
  intro s a s' h
  obtain ⟨q, hq, rfl⟩ := put_eq_some h
  rw [hp] at hq
  cases hq
  simp

/-- The reference never takes labels back. -/
theorem advances_denote (b : FunctionBehaviour) : Advances (b.denote u x values) := by
  have hput := @advances_put u x
  have hlift {α : Type} (o : Option α) : Advances (StateT.lift o) := .of_lift o
  cases b with
  | unary input output op => exact (hlift _).bind fun _ => (hlift _).bind fun v => hput output v
  | binary first second output op =>
    exact (hlift _).bind fun _ => (hlift _).bind fun _ => (hlift _).bind fun v => hput output v
  | ternary first second third output op =>
    exact (hlift _).bind fun _ => (hlift _).bind fun _ => (hlift _).bind fun _ => (hlift _).bind fun v => hput output v
  | constant output v => exact hput output v
  | makeVector d => exact (Advances.of_mapM fun _ => hlift _).bind fun _ => (hlift _).bind fun v => hput "result" v
  | breakVector d => exact (hlift _).bind fun _ => .of_forM fun axis => (hlift _).bind fun v => hput axis v
  | getVariable => exact (hlift _).bind fun _ => (hlift _).bind fun _ => (hlift _).bind fun v => hput "value" v
  | now => exact (hlift _).bind fun _ => (hlift _).bind fun v => hput "seconds" v
  | getState typeName =>
    exact (hlift _).bind fun _ => (hlift _).bind fun _ => (hlift _).bind fun _ => (hlift _).bind fun _ =>
      (hlift _).bind fun v => hput "value" v
  | script actions => exact hlift none

/-- The reference writes each output that its behaviour names. -/
theorem writes_denote {b : FunctionBehaviour} {output : String} (hb : output ∈ b.outputs) {p : Nat}
    (hp : u.writable? x output = some p) : Writes p (b.denote u x values) := by
  have hput := writes_put hp
  cases b with
  | breakVector d =>
    refine .of_bind fun v => .of_forM hb (fun axis => ?_) (.of_bind fun c => hput c)
    exact (Advances.of_lift _).bind fun c => advances_put axis c
  | script actions => cases hb
  | unary _ _ _ =>
    cases List.mem_singleton.1 hb
    exact .of_bind fun _ => .of_bind fun v => hput v
  | binary _ _ _ _ =>
    cases List.mem_singleton.1 hb
    exact .of_bind fun _ => .of_bind fun _ => .of_bind fun v => hput v
  | ternary _ _ _ _ _ =>
    cases List.mem_singleton.1 hb
    exact .of_bind fun _ => .of_bind fun _ => .of_bind fun _ => .of_bind fun v => hput v
  | constant _ v =>
    cases List.mem_singleton.1 hb
    exact hput v
  | makeVector _ =>
    cases List.mem_singleton.1 hb
    exact .of_bind fun _ => .of_bind fun v => hput v
  | getVariable =>
    cases List.mem_singleton.1 hb
    exact .of_bind fun _ => .of_bind fun _ => .of_bind fun v => hput v
  | now =>
    cases List.mem_singleton.1 hb
    exact .of_bind fun _ => .of_bind fun v => hput v
  | getState _ =>
    cases List.mem_singleton.1 hb
    exact .of_bind fun _ => .of_bind fun _ => .of_bind fun _ => .of_bind fun _ => .of_bind fun v => hput v

end FunctionBehaviour

section Frame

variable {u v : World} {j k : Nat}

/-- Data outputs of the node were written, and nothing else was done. -/
structure Worked (u : World) (j k : Nat) (v w : World) : Prop where
  touches : Touches j (fun _ _ => False) (fun l p => l = k ∧ u.isDataOutput ⟨j, k⟩ p = true) v w
  reports : w.reports = v.reports

/-- A node that writes its own outputs leaves all other nodes alone. -/
theorem worked_write (hv : Around j u v) (output : String) (value : Value) :
    Obeys (Upholds (Worked u j k v)) ((⟨⟨j, k⟩, .function⟩ : Context).write output value) := by
  rintro w _ ⟨rfl, h⟩
  refine ⟨rfl, rfl, ?_⟩
  have hstamp := h.touches.stamp value
  rcases write_cases w j k output value with ⟨-, e, hrun⟩ | ⟨p, hp, hlt, hrun⟩
  · rw [hrun]
    exact ⟨hstamp, (reports_stamp ..).trans h.reports⟩
  · rw [hrun]
    refine ⟨⟨hstamp.around.trans (.modifyNode _ k fun n => Node.emptied_setOutput n p _), ?_, ?_⟩,
      (reports_stamp ..).trans h.reports⟩
    · exact fun l q hno => (inputValue_setOutput ..).trans (hstamp.inputs l q hno)
    · intro l q hno
      rw [← node_stamp w j value] at hlt
      rw [outputValue_setOutput hlt, if_neg, hstamp.outputs l q hno]
      rintro ⟨hl, rfl⟩
      cases hl
      rw [(hv.trans h.touches.around).writable?] at hp
      exact hno ⟨rfl, (Option.filter_eq_some_iff.1 hp).2⟩

/-- So does its whole behaviour. -/
theorem FunctionBehaviour.worked_run (hv : Around j u v) {b : FunctionBehaviour} (hb : b.isScript = false) :
    Obeys (Upholds (Worked u j k v)) (b.run ⟨⟨j, k⟩, .function⟩) := by
  have hwrite := worked_write (k := k) hv
  have hread (input : String) : Obeys (Upholds (Worked u j k v)) ((⟨⟨j, k⟩, .function⟩ : Context).read input) :=
    .look fun w r h => by rw [h.1]; exact .of_fault _
  have hsetting (key : String) : Obeys (Upholds (Worked u j k v)) ((⟨⟨j, k⟩, .function⟩ : Context).setting key) := by
    refine .look fun w r h => ?_
    rw [h.1]
    simp only
    split
    · exact .of_pure _
    · exact .of_throw _
  have hservice (name : String) : Obeys (Upholds (Worked u j k v)) ((⟨⟨j, k⟩, .function⟩ : Context).service name) :=
    .look fun w r h => by rw [h.1]; exact .of_fault _
  cases b with
  | unary input output op =>
    exact (hread input).bind fun _ => (Agrees.of_fault _).bind fun _ => hwrite output _
  | binary first second output op =>
    exact (hread first).bind fun _ => (hread second).bind fun _ => (Agrees.of_fault _).bind fun _ => hwrite output _
  | ternary first second third output op =>
    exact (hread first).bind fun _ => (hread second).bind fun _ => (hread third).bind fun _ =>
      (Agrees.of_fault _).bind fun _ => hwrite output _
  | constant output v => exact hwrite output v
  | makeVector d =>
    exact (Agrees.of_mapM fun _ _ => hread _).bind fun _ => (Agrees.of_fault _).bind fun _ => hwrite "result" _
  | breakVector d =>
    exact (hread "vector").bind fun _ => .of_forM fun axis _ => (Agrees.of_fault _).bind fun _ => hwrite axis _
  | getVariable =>
    refine (hsetting _).bind fun name => Agrees.bind (.look fun w r h => ?_) fun _ => (Agrees.of_except _).bind fun _ =>
      hwrite "value" _
    rw [h.1]
    refine (Agrees.of_fault _).bind fun x => ?_
    split
    · exact .of_pure _
    · exact (Agrees.of_fault _).bind fun _ => .of_throw _
  | now =>
    refine (hservice _).bind fun _ => .look fun w r h => ?_
    rw [h.1]
    exact (Agrees.of_fault _).bind fun _ => hwrite "seconds" _
  | getState typeName =>
    refine .look fun w r h => ?_
    rw [h.1]
    refine (Agrees.of_integrity _).bind fun t => (hservice _).bind fun _ => (hsetting _).bind fun path =>
      .look fun w r h => ?_
    rw [h.1]
    exact (Agrees.of_fault _).bind fun _ => (Agrees.of_fault _).bind fun _ => hwrite "value" _
  | script actions => cases hb

end Frame

/-- Computing is running the behaviour; a failure is the node's. -/
theorem compute_cases {w : World} {x : NodeRef} {b : FunctionBehaviour}
    (hb : (w.node x).definition.behaviour = .function (some b)) :
    ((compute x).runOn w).2 = ((b.run ⟨x, .function⟩).runOn w).2 ∧
      (((b.run ⟨x, .function⟩).runOn w).1 = .ok () → ((compute x).runOn w).1 = .ok ()) ∧
      ∀ e, ((b.run ⟨x, .function⟩).runOn w).1 = .error e → ∃ e', ((compute x).runOn w).1 = .error e' := by
  rw [compute, runOn_get]
  simp only [hb, Option.map_some, invoke, runOn_bind, runOn_outcome]
  generalize (b.run ⟨x, .function⟩).runOn w = p
  obtain ⟨out, v⟩ := p
  cases out with
  | ok _ => exact ⟨rfl, fun _ => rfl, fun e he => by cases he⟩
  | error e =>
    simp only
    split
    · exact ⟨rfl, (fun h => by cases h), fun _ _ => ⟨e, rfl⟩⟩
    · exact ⟨rfl, (fun h => by cases h), fun _ _ => ⟨_, rfl⟩⟩

theorem compute_fails {w : World} {x : NodeRef} (h : ∀ b, (w.node x).definition.behaviour ≠ .function (some b)) :
    ∃ e, (compute x).runOn w = (.error e, w) := by
  rw [compute, runOn_get]
  split
  · rename_i b hb
    cases b with
    | none => exact ⟨_, rfl⟩
    | some b => exact absurd hb (h b)
  · exact ⟨_, rfl⟩

/-- A function node that runs no script and writes every data output computes what its behaviour denotes. -/
theorem computes_meaning {u : World} {j k : Nat} (hu : u.isFunctional ⟨j, k⟩ = true) : Computes u j k (u.meaning ⟨j, k⟩) := by
  by_cases hb : ∃ b, (u.node ⟨j, k⟩).definition.behaviour = .function (some b)
  · obtain ⟨b, hb⟩ := hb
    obtain ⟨hscript, hwritten⟩ := isFunctional_spec hu hb
    have hbehaviour {w : World} (hw : Around j u w) : (w.node ⟨j, k⟩).definition.behaviour = .function (some b) := by
      have hdefinition : (w.node ⟨j, k⟩).definition = (u.node ⟨j, k⟩).definition :=
        (congrArg Node.definition (hw.node_emptied k) :)
      rw [hdefinition, hb]
    have hmeaning (values : List Value) (n : Nat) : u.meaning ⟨j, k⟩ values n =
        ((b.denote u ⟨j, k⟩ values).run { labels := n }).map fun r => (fun p => (r.2.outputs p).getD .none, r.2.labels) := by
      rw [World.meaning, hb]
    have hfollows {w : World} (hw : Around j u w) :=
      FunctionBehaviour.follows_run (j := j) (k := k) hscript w { labels := w.labels j } ⟨hw, rfl, rfl, fun p v hv => by cases hv⟩
    have hworked {w : World} (hw : Around j u w) : Worked u j k w ((compute ⟨j, k⟩).runOn w).2 := by
      rw [(compute_cases (hbehaviour hw)).1]
      exact (FunctionBehaviour.worked_run hw hscript).upholds ⟨.refl w, rfl⟩
    refine ⟨?_, ?_, fun w hw => (hworked hw).touches, fun w hw => (hworked hw).reports, ?_⟩
    · intro w hw hnone
      rw [hmeaning, Option.map_eq_none_iff] at hnone
      obtain ⟨e, he⟩ := (hfollows hw).1 hnone
      exact (compute_cases (hbehaviour hw)).2.2 e he
    · intro w hw outputs n hsome
      rw [hmeaning] at hsome
      obtain ⟨⟨_, s⟩, hs, hout⟩ := Option.map_eq_some_iff.1 hsome
      cases hout
      obtain ⟨_, hok, hpost⟩ := (hfollows hw).2 _ s hs
      obtain ⟨hsame, hok', -⟩ := compute_cases (hbehaviour hw)
      refine ⟨hok' hok, ?_, ?_⟩
      · rw [hsame]
        exact hpost.labels
      · intro p hp
        obtain ⟨name, hname, hplace⟩ := hwritten p hp
        obtain ⟨v, hv⟩ := Option.isSome_iff_exists.1 (FunctionBehaviour.writes_denote hname hplace _ _ _ hs)
        rw [hsame, hpost.outputs p v hv]
        show v = (s.outputs p).getD .none
        rw [hv, Option.getD_some]
    · intro values n outputs n' hsome
      rw [hmeaning] at hsome
      obtain ⟨⟨_, s⟩, hs, hout⟩ := Option.map_eq_some_iff.1 hsome
      cases hout
      exact (b.advances_denote _ _ _ hs).1
  · have hnone (values : List Value) (n : Nat) : u.meaning ⟨j, k⟩ values n = none := by
      unfold World.meaning
      split
      · rename_i b hb'
        exact absurd ⟨b, hb'⟩ hb
      · rfl
    have hfails (w : World) (hw : Around j u w) : ∃ e, (compute ⟨j, k⟩).runOn w = (.error e, w) := by
      have hdefinition : (w.node ⟨j, k⟩).definition = (u.node ⟨j, k⟩).definition :=
        (congrArg Node.definition (hw.node_emptied k) :)
      exact compute_fails fun b hb' => hb ⟨b, by rw [← hdefinition, hb']⟩
    refine ⟨fun w hw _ => ?_, fun w hw outputs n h => ?_, fun w hw => ?_, fun w hw => ?_, fun values n outputs n' h => ?_⟩
    · obtain ⟨e, he⟩ := hfails w hw
      exact ⟨e, congrArg Prod.fst he⟩
    · rw [hnone] at h
      cases h
    · obtain ⟨e, he⟩ := hfails w hw
      rw [he]
      exact .refl w
    · obtain ⟨e, he⟩ := hfails w hw
      rw [he]
    · rw [hnone] at h
      cases h

namespace Graph

open Relation

/-- Whatever was done to a graph that was empty at first: where nodes above do not draw on each other in a round, and
each function node fails or computes a function of what its inputs hold, resolving inputs is evaluating them. -/
theorem resolves_of_edits (name : String) (r : Registry) (replace : Bool) (labels : Nat) (es : List Edit)
    {g : Graph} (hg : g = edits { name := name, registry := r, replaceLinks := replace, labels := labels } es)
    (u : World) (i j : Nat) (hu : Shaped j g u) (a : String) (k : Nat) (hk : g.serial? a = some k)
    (hacyclic : ∀ c, ReflTransGen g.Draws a c → ¬ TransGen g.Draws c c) (F : Nat → Meaning)
    (hF : ∀ m, g.Above a m → Computes u j m (F m)) : Resolves g u i j a k F := by
  subst hg
  exact ((Indexed.of_empty (g := { name := name, registry := r, replaceLinks := replace, labels := labels }) rfl rfl).edits
    es).resolves hu hk hacyclic hF

/-- A text in capitals goes to both inputs of a node that joins texts, and what that one makes goes to a message. The
severity of the message has no literal. -/
def diamond : Graph := edits { registry := Catalogue.defaults } [
  .add "StringUpper" (some "upper") [] noPosition,
  .add "StringConcat" (some "join") [] noPosition,
  .add "Log" (some "log") [] noPosition,
  .connect ⟨"upper", "result", "join", "a"⟩ none,
  .connect ⟨"upper", "result", "join", "b"⟩ none,
  .connect ⟨"join", "result", "log", "text"⟩ none,
  .setLiteral "upper" "text" (.str "ab"),
  .setLiteral "log" "severity" .none]

/-- A node that is drawn on from two sides resolves as the reference says. -/
theorem diamond_resolves : Resolves diamond { graphs := #[diamond] } 0 0 "log" 2
      (fun m => World.meaning { graphs := #[diamond] } ⟨0, m⟩) ∧
    ((Reference.evaluate { graphs := #[diamond] } 0 (fun m => World.meaning { graphs := #[diamond] } ⟨0, m⟩) 2).run
      (World.ledger { graphs := #[diamond] } 0)).map (fun r => (r.1, r.2.reports)) =
        some ([.str "ABAB", .str ""], [(2, 2)]) := by
  have hmade : diamond.cycles = [] ∧ diamond.arena.size = 3 ∧ diamond.serial? "log" = some 2 ∧
      ∀ m < 3, World.isFunctional { graphs := #[diamond] } ⟨0, m⟩ = true := by
    rw [diamond, Catalogue.defaults_eq_written]
    decide +kernel
  obtain ⟨hcycles, hsize, hlog, hall⟩ := hmade
  have hindexed : Indexed diamond := (Indexed.of_empty rfl rfl).edits _
  have hacyclic : ∀ a, ¬ TransGen diamond.Draws a a := hindexed.cyclesAgree.noticed.1 hcycles
  have hshape (g : Graph) : Shaped 0 g { graphs := #[g] } := rfl
  have hF : ∀ m, diamond.Above "log" m → Computes { graphs := #[diamond] } 0 m
      (World.meaning { graphs := #[diamond] } ⟨0, m⟩) := by
    rintro m ⟨b, -, hb⟩
    obtain ⟨n, hn, -⟩ := hindexed.placed hb
    have hm : m < diamond.arena.size := (Array.getElem?_eq_some_iff.1 hn).1
    exact computes_meaning (hall m (hsize ▸ hm))
  refine ⟨resolves_of_edits "Untitled Graph" Catalogue.defaults true labelRange _ rfl _ 0 0 (hshape _) "log" 2 hlog
    (fun c _ => hacyclic c) _ hF, ?_⟩
  rw [diamond, Catalogue.defaults_eq_written]
  decide +kernel

end Graph

end FlowGraph
