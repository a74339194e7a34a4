import FlowGraph.Proofs.Rounds

/-!
Loops. A node that loops relays its fiber along the body, once for each index, which it shows meanwhile, and then along what
follows the loop.
-/
namespace FlowGraph

open World Play

/-- A fiber that comes to a node that loops: the input by which it has come to the node, the first and the last index, and the
listeners that the fiber had before. -/
structure Loop where
  engine : Nat
  fiber : Nat
  node : NodeRef
  input : String
  first : Int
  last : Int
  below : List (Option NodeRef × Listener)

namespace Loop

def context (L : Loop) : Context := ⟨L.node, .flow L.engine L.fiber L.input⟩

def count (L : Loop) : Nat := (L.last - L.first + 1).toNat

def listener (L : Loop) (index : Int) : Listener := .nextRound L.context (.int index) (.int L.last)

/-- A path for each index, and one for what follows the loop. -/
def relay (L : Loop) : Relay where
  engine := L.engine
  fiber := L.fiber
  node := L.node
  input := L.input
  last := L.count
  writes k := if k < L.count then some ("index", .int (L.first + k)) else none
  output k := if k < L.count then "loop_body" else "completed"
  listener k := L.listener (L.first + k)
  below := L.below

end Loop

/-- The node loops, and has the outputs that go with that. -/
structure World.Loops (w : World) (x : NodeRef) : Prop where
  behaviour : (w.node x).definition.behaviour = .flow (some .forLoop)
  outputs : (w.node x).outputs.map (fun s => (s.name, s.isFlow)) = [("loop_body", true), ("index", false), ("completed", true)]

namespace World.Loops

variable {u w : World} {x : NodeRef}

theorem outlined (h : u.Loops x) (hw : Outlined u w) : w.Loops x := by
  refine ⟨by rw [hw.definition, h.behaviour], ?_⟩
  have houtputs : (w.node x).outputs.map Socket.hollow = (u.node x).outputs.map Socket.hollow :=
    (congrArg Node.outputs (hw.node x) :)
  have hsame := congrArg (List.map fun s => (s.name, s.isFlow)) houtputs
  rw [List.map_map, List.map_map] at hsame
  exact Eq.trans hsame h.outputs

theorem exists_outputs (h : w.Loops x) : ∃ a b c, (w.node x).outputs = [a, b, c] ∧ (a.name = "loop_body" ∧ a.isFlow = true) ∧
    (b.name = "index" ∧ b.isFlow = false) ∧ c.name = "completed" ∧ c.isFlow = true := by
  have hmap := h.outputs
  generalize (w.node x).outputs = ss at hmap
  rcases ss with _ | ⟨a, _ | ⟨b, _ | ⟨c, _ | ⟨d, ss⟩⟩⟩⟩
  all_goals simp only [List.map_nil, List.map_cons, List.cons.injEq, Prod.mk.injEq, reduceCtorEq, and_false] at hmap
  exact ⟨a, b, c, rfl, hmap.1, hmap.2.1, hmap.2.2.1⟩

theorem isFlowOutput_body (h : w.Loops x) : (w.node x).isFlowOutput "loop_body" = true := by
  obtain ⟨a, b, c, houtputs, ⟨ha, haflow⟩, -⟩ := h.exists_outputs
  simp [Node.isFlowOutput, Node.output?, houtputs, ha, haflow]

theorem isFlowOutput_completed (h : w.Loops x) : (w.node x).isFlowOutput "completed" = true := by
  obtain ⟨a, b, c, houtputs, ⟨ha, -⟩, ⟨hb, -⟩, hc, hcflow⟩ := h.exists_outputs
  simp [Node.isFlowOutput, Node.output?, houtputs, ha, hb, hc, hcflow]

theorem isFlowOutput_exec (h : w.Loops x) : (w.node x).isFlowOutput "exec" = false := by
  obtain ⟨a, b, c, houtputs, ⟨ha, -⟩, ⟨hb, -⟩, hc, -⟩ := h.exists_outputs
  simp [Node.isFlowOutput, Node.output?, houtputs, ha, hb, hc]

theorem hasIndex (h : w.Loops x) : ((w.node x).output? "index").any (!·.isFlow) = true := by
  obtain ⟨a, b, c, houtputs, ⟨ha, -⟩, ⟨hb, hbflow⟩, -⟩ := h.exists_outputs
  simp [Node.output?, houtputs, ha, hb, hbflow]

theorem works {L : Loop} (h : w.Loops L.node) : L.relay.Works w where
  flow := ⟨_, h.behaviour⟩
  silent := h.isFlowOutput_exec
  sends k _ := by
    show (w.node L.node).isFlowOutput (if k < L.count then "loop_body" else "completed") = true
    split
    · exact h.isFlowOutput_body
    · exact h.isFlowOutput_completed
  shows k _ p hp := by
    simp only [Loop.relay, Option.ite_none_right_eq_some, Option.some.injEq] at hp
    rw [← hp.2]
    exact h.hasIndex

end World.Loops

theorem Value.order_gt_int (a b : Int) : Value.order .gt (.int a) (.int b) = .ok (decide (b < a)) := by
  have hcompare : (compare a b).isGT = decide (b < a) := by
    rw [Bool.eq_iff_iff, decide_eq_true_iff, Ordering.isGT_iff_eq_gt]
    exact Int.compare_eq_gt
  rw [← hcompare]
  simp only [Value.order, Value.orderLeaf, Value.number?, Number.compare, Option.any_some, Relation.holds]

theorem Value.add_int (a b : Int) : (Value.int a).add (.int b) = .ok (.int (a + b)) := rfl

namespace Loop

/-- A round begins, or the loop is through; nothing is in the way of either. -/
theorem runOn_round {L : Loop} {k : Nat} {w : World} (hx : L.relay.Works w) (hk : k ≤ L.count)
    (hopen : ((w.engine L.engine).fiber L.fiber).committed = false) :
    (L.context.round (.int (L.first + k)) (.int L.last)).runOn w = (.ok (), L.relay.go k w) := by
  have hcommitted := Relay.commitFiber_written hx hk hopen
  have hcommit (output : String) (l : Option Listener) (v : World) :
      (L.context.commit output l).runOn v = v.commitFiber L.engine L.fiber L.node output l := rfl
  have horder : (ofFault (Value.order .gt (.int (L.first + k)) (.int L.last))).runOn w =
      (.ok (decide (L.last < L.first + k)), w) := by
    rw [Value.order_gt_int]
    rfl
  rw [Context.round, runOn_bind, horder]
  rcases Nat.lt_or_eq_of_le hk with hlt | rfl
  · have hle : ¬ L.last < L.first + k := by
      rw [count] at hlt
      omega
    have hwrites : L.relay.writes k = some ("index", .int (L.first + k)) := if_pos hlt
    have houtput : L.relay.output k = "loop_body" := if_pos hlt
    have hlistener : L.relay.listener? k = some (L.listener (L.first + k)) := if_pos hlt
    obtain ⟨m, hm, -⟩ := hx.exists_write hk hwrites
    have hstamp : w.stamp L.node.graph (.int (L.first + k)) = (.int (L.first + k), w) := rfl
    have hwritten : L.relay.written k w = w.modifyNode L.node fun _ => m := by
      simp only [Relay.written, hwrites]
      rw [hm]
      rfl
    have hwrite : (L.context.write "index" (.int (L.first + k))).runOn w = (.ok (), L.relay.written k w) := by
      rw [Context.runOn_write, hwritten]
      simp only [context, hstamp]
      rw [show (w.node L.node).write "index" (.int (L.first + k)) = .ok m from hm]
    rw [houtput, hlistener] at hcommitted
    simp only [hle, decide_false, Bool.false_eq_true, if_false]
    rw [runOn_bind, hwrite]
    exact hcommitted
  · have hlt : L.last < L.first + L.count := by
      rw [count]
      omega
    have hwritten : L.relay.written L.count w = w := by
      have hwrites : L.relay.writes L.count = none := if_neg (Nat.lt_irrefl _)
      simp only [Relay.written, hwrites]
    have houtput : L.relay.output L.count = "completed" := if_neg (Nat.lt_irrefl _)
    have hlistener : L.relay.listener? L.count = none := if_neg (Nat.lt_irrefl _)
    rw [houtput, hlistener, hwritten] at hcommitted
    simp only [hlt, decide_true, if_true]
    exact hcommitted

theorem hands (L : Loop) : L.relay.Hands where
  context _ _ := rfl
  answers k hk w hx hopen := by
    have hadd : (ofFault ((Value.int (L.first + k)).add (.int 1))).runOn w = (.ok (.int (L.first + (k + 1 : Nat))), w) := by
      rw [Value.add_int, Int.natCast_add, ← Int.add_assoc]
      rfl
    show (L.listener (L.first + k)).run.runOn w = _
    rw [listener, Listener.run, runOn_bind, hadd]
    exact runOn_round hx hk hopen

/-- Where the indices are these, the first round begins, or the loop is through at once. -/
theorem begins {L : Loop} {w : World} (hx : w.Loops L.node) (hfirst : (w.node L.node).read "first_index" = .ok (.int L.first))
    (hlast : (w.node L.node).read "last_index" = .ok (.int L.last)) : L.relay.Begins w := by
  intro hworks hopen
  have hread (name : String) : (L.context.read name).runOn w = (Except.lifted ((w.node L.node).read name), w) := rfl
  have hround := runOn_round hworks (Nat.zero_le _) hopen
  rw [Int.natCast_zero, Int.add_zero] at hround
  refine ⟨.forLoop, hx.behaviour, ?_⟩
  show ((FlowBehaviour.forLoop).run L.context).runOn w = _
  rw [FlowBehaviour.run, runOn_bind, hread, hfirst]
  dsimp only [Except.lifted]
  rw [runOn_bind, hread, hlast]
  exact hround

end Loop

/-- What is written does not depend on the inputs. -/
theorem Node.write_inputs (n : Node) (inputs : List Socket) (name : String) (v : Value) :
    ({ n with inputs := inputs } : Node).write name v = (n.write name v).map fun m => { m with inputs := inputs } := by
  simp only [write, output?]
  split
  · split <;> rfl
  · rfl

namespace World

/-- The node has other inputs. -/
def feed (w : World) (x : NodeRef) (inputs : List Socket) : World := w.modifyNode x fun n => { n with inputs := inputs }

variable {w : World} {x : NodeRef} {inputs : List Socket}

theorem modifyNode_modifyNode (w : World) (x : NodeRef) (f g : Node → Node) :
    (w.modifyNode x f).modifyNode x g = w.modifyNode x fun n => g (f n) := by
  simp only [modifyNode, modifyGraph, Graph.modifyNode, Engine.modify_modify]

theorem node_feed (w : World) (x : NodeRef) (inputs : List Socket) :
    (w.feed x inputs).node x =
      if ((w.graph x.graph).nodeAt? x.serial).isSome then { w.node x with inputs := inputs } else w.node x := by
  rw [feed, node_modifyNode]
  simp only [true_and]

theorem write_feed (w : World) (x : NodeRef) (inputs : List Socket) (name : String) (v : Value) :
    ((w.feed x inputs).node x).write name v = ((w.node x).write name v).map fun n => { n with inputs := inputs } := by
  rw [node_feed]
  split
  · exact Node.write_inputs ..
  · rename_i hnone
    have hdefault : w.node x = default := by
      simp only [Option.not_isSome_iff_eq_none] at hnone
      simp [World.node, hnone]
    rw [hdefault]
    rfl

/-- Nor does it depend on them whether a commit is refused, and what it does. -/
theorem commitFiber_feed (w : World) (i f : Nat) (x : NodeRef) (output : String) (l : Option Listener) (inputs : List Socket) :
    (w.feed x inputs).commitFiber i f x output l =
      ((w.commitFiber i f x output l).1, (w.commitFiber i f x output l).2.feed x inputs) := by
  have hnode : ((w.feed x inputs).node x).outputs = (w.node x).outputs ∧ ((w.feed x inputs).node x).id = (w.node x).id ∧
      ((w.feed x inputs).node x).definition = (w.node x).definition := by
    rw [node_feed]
    split <;> exact ⟨rfl, rfl, rfl⟩
  have hrefusal : (w.feed x inputs).commitRefusal? i f x output = w.commitRefusal? i f x output := by
    simp only [commitRefusal?, nodeFailure, Node.isFlowOutput, Node.output?, Node.typeName, hnode.1, hnode.2.1, hnode.2.2]
    rfl
  have hwires : (w.feed x inputs).wiresAt x output = w.wiresAt x output := by
    rw [wiresAt, wiresAt, Node.output?, Node.output?, hnode.1]
  rw [commitFiber, commitFiber, hrefusal, hwires]
  split <;> rfl

end World

namespace Loop

/-- A round does not look at the inputs of the node. -/
theorem runOn_round_feed (L : Loop) (k : Int) (w : World) (inputs : List Socket) :
    (L.context.round (.int k) (.int L.last)).runOn (w.feed L.node inputs) =
      (((L.context.round (.int k) (.int L.last)).runOn w).1,
        ((L.context.round (.int k) (.int L.last)).runOn w).2.feed L.node inputs) := by
  have horder (w : World) : (ofFault (Value.order .gt (.int k) (.int L.last))).runOn w = (.ok (decide (L.last < k)), w) := by
    rw [Value.order_gt_int]
    rfl
  have hcommit (output : String) (l : Option Listener) (v : World) :
      (L.context.commit output l).runOn v = v.commitFiber L.engine L.fiber L.node output l := rfl
  rw [Context.round, runOn_bind, horder, runOn_bind, horder]
  by_cases hk : L.last < k
  · simp only [hk, decide_true, if_true]
    exact w.commitFiber_feed ..
  · simp only [hk, decide_false, Bool.false_eq_true, if_false]
    have hstamp (w : World) : w.stamp L.node.graph (.int k) = (.int k, w) := rfl
    simp only [runOn_bind, Context.runOn_write, context, hstamp, w.write_feed]
    cases (w.node L.node).write "index" (.int k) with
    | error e => rfl
    | ok m =>
      dsimp only [Except.map]
      have hswap : ((w.feed L.node inputs).modifyNode L.node fun _ => { m with inputs := inputs }) =
          (w.modifyNode L.node fun _ => m).feed L.node inputs := by
        rw [feed, feed, modifyNode_modifyNode, modifyNode_modifyNode]
      rw [hswap]
      exact commitFiber_feed ..

/-- So the inputs are read when the loop is triggered, and not when a listener begins the next round. -/
theorem runOn_listener_feed (L : Loop) (k : Int) (w : World) (inputs : List Socket) :
    (L.listener k).run.runOn (w.feed L.node inputs) =
      (((L.listener k).run.runOn w).1, ((L.listener k).run.runOn w).2.feed L.node inputs) := by
  have hadd (w : World) : (ofFault ((Value.int k).add (.int 1))).runOn w = (.ok (.int (k + 1)), w) := rfl
  rw [listener, Listener.run, runOn_bind, hadd, runOn_bind, hadd]
  exact L.runOn_round_feed (k + 1) w inputs

end Loop

/-- Wherever a fiber comes to a node that loops, and the paths behind the node come back from each round and from what
follows, without a trigger of the node: the body is run for each index from the first to the last, in order, then the node
goes on; and this takes one step for the trigger, one for each round, and those of the paths. The inputs of the node are read
at the trigger only. What is reached on the way arises as well, so that loops within the body obey the same law. -/
theorem Loop.runs_rounds {L : Loop} {route : Route} {others : List Nat} {u w : World} (hu : u.Arises w) (hx : u.Loops L.node)
    (hinbox : (w.engine L.engine).inbox = []) (hcomes : L.relay.Comes route others w)
    (hfirst : ((L.relay.reached others w).node L.node).read "first_index" = .ok (.int L.first))
    (hlast : ((L.relay.reached others w).node L.node).read "last_index" = .ok (.int L.last))
    (hpaths : ∀ k v, L.relay.SetsOut (L.relay.triggered others w) k v →
      ∃ body z, Outing L.engine L.fiber (L.relay.stack k) L.node v body z) :
    (turn L.engine L.fiber).runOn (unqueued L.engine others w) = (.ok (), L.relay.triggered others w) ∧
    (∃ bodies v tail z, bodies.length = (L.last - L.first + 1).toNat ∧
      L.relay.Rounds ((L.relay.reached others w).engine L.engine).fibers.size u 0 (L.relay.triggered others w) bodies v ∧
      L.relay.Through u v tail z ∧ Takes L.engine w (.trigger route :: (L.relay.acts 0 bodies ++ tail)) z ∧
      (Act.trigger route :: (L.relay.acts 0 bodies ++ tail)).length =
        1 + bodies.length + (bodies.map List.length).sum + tail.length) ∧
    (∀ k v inputs, (L.listener k).run.runOn (v.feed L.node inputs) =
      (((L.listener k).run.runOn v).1, ((L.listener k).run.runOn v).2.feed L.node inputs)) ∧
    ∀ p, Relation.ReflTransGen (Iteration L.engine) w p → u.Arises p := by
  have hbound := hu.bound hx.behaviour
  have hreached := (hcomes.bound (hx.outlined hbound.outlined).works hbound.rebase).outlined.trans hbound.outlined
  obtain ⟨hturn, bodies, v, tail, z, hcount, hrounds, hthrough, htakes⟩ :=
    Relay.runs_through L.hands hu hx.works hinbox hcomes (begins (hx.outlined hreached) hfirst hlast) hpaths
  refine ⟨hturn, ⟨bodies, v, tail, z, hcount, hrounds, hthrough, htakes, ?_⟩, fun k v inputs => L.runOn_listener_feed k v inputs,
    fun p hp => ?_⟩
  · rw [List.length_cons, List.length_append, Relay.length_acts]
    omega
  · induction hp with
    | refl => exact hu
    | tail _ hi ih => exact ih.iteration hi

namespace Forked

def start : Wire := ⟨⟨"go", "exec", "loop", "exec"⟩, 0⟩
def left : Wire := ⟨⟨"loop", "loop_body", "left", "exec"⟩, 1⟩
def right : Wire := ⟨⟨"loop", "loop_body", "right", "exec"⟩, 2⟩

/-- An event with a loop behind it, whose body splits. -/
def graph : Graph where
  arena := #[
    { id := "go", definition := { typeName := "Go", behaviour := .event none }
      outputs := [{ name := "exec", valueType := ValueType.flowName, wires := [start] }] },
    { id := "loop", definition := { typeName := "ForLoop", behaviour := .flow (some .forLoop) }
      inputs := [{ name := "exec", valueType := ValueType.flowName, wires := [start] },
        { name := "first_index", valueType := "integer", value := .int 1 },
        { name := "last_index", valueType := "integer", value := .int 2 }]
      outputs := [{ name := "loop_body", valueType := ValueType.flowName, wires := [left, right] },
        { name := "index", valueType := "integer" }, { name := "completed", valueType := ValueType.flowName }] },
    { id := "left", definition := { typeName := "Left", behaviour := .flow (some (.script [])) }
      inputs := [{ name := "exec", valueType := ValueType.flowName, wires := [left] }] },
    { id := "right", definition := { typeName := "Right", behaviour := .flow (some (.script [])) }
      inputs := [{ name := "exec", valueType := ValueType.flowName, wires := [right] }] }]
  ids := ⟨[("go", 0), ("loop", 1), ("left", 2), ("right", 3)]⟩
  wires := [start, left, right]
  ends := #[some ⟨⟨0, 0⟩, ⟨1, 0⟩⟩, some ⟨⟨1, 0⟩, ⟨2, 0⟩⟩, some ⟨⟨1, 0⟩, ⟨3, 0⟩⟩]

def bare : World := { graphs := #[graph] }

def begun : World := ((makeEngine "main" [⟨0, 0⟩, ⟨0, 1⟩, ⟨0, 2⟩, ⟨0, 3⟩] {}).runOn bare).2.begin 0 ⟨0, 0⟩ "exec" none []

def loop : Loop := ⟨0, 0, ⟨0, 1⟩, "exec", 1, 2, []⟩

/-- A part of the body has its turn. -/
def part (f : Nat) (others : List Nat) (w : World) : World := turnEnd 0 f ((step 0 f).runOn (atWork 0 f others w))

/-- Both parts of the body have their turns. -/
def body (f : Nat) (w : World) : World := part (f + 1) [] (part f [f + 1] w)

def first : World := loop.relay.triggered [] begun
def second : World := loop.relay.resumed 1 [] (body 1 first)
def third : World := loop.relay.resumed 2 [] (body 3 second)

/-- The part at the head of the queue has its turn. -/
theorem leg {f : Nat} {others : List Nat} {w : World} {route : Route} (hq : (w.engine 0).queue = f :: others)
    (hready : ((w.engine 0).fiber f).isReady = true) (hnext : ((w.engine 0).fiber f).next = some route)
    (haway : ((w.graph route.graph).endsOf route.wire).all
      (fun ends => decide ((⟨route.graph, ends.target.node⟩ : NodeRef) ≠ ⟨0, 1⟩)) = true)
    (hstep : (match (step 0 f).runOn (atWork 0 f others w) with
      | (.ok _, _) => true
      | (.error e, r) => decide (f ≠ 0) && e.isNode && !((r.engine 0).fiber f).committed) = true) :
    Leg 0 0 ⟨0, 1⟩ w [.trigger route] (part f others w) := .of_step hq hready hnext haway hstep

theorem not_back {w : World} {ls : List (Option NodeRef × Listener)} (hf : ((w.engine 0).fiber 0).finished = false)
    (hq : (w.engine 0).queue.head? ≠ some 0) : ¬ w.Back 0 0 ls := by
  rintro (hfinished | ⟨hhead, -⟩)
  · rw [hf] at hfinished
    cases hfinished
  · exact hq hhead

theorem outing {f : Nat} {ls : List (Option NodeRef × Listener)} {w : World} {a b : Act} (hq : (w.engine 0).queue = [f, f + 1])
    (hleft : Leg 0 0 ⟨0, 1⟩ w [a] (part f [f + 1] w)) (hright : Leg 0 0 ⟨0, 1⟩ (part f [f + 1] w) [b] (body f w)) (hf : 0 < f)
    (hwaits : ((part f [f + 1] w).engine 0).queue = [f + 1]) (hunfinished : ((w.engine 0).fiber 0).finished = false)
    (hunfinished' : (((part f [f + 1] w).engine 0).fiber 0).finished = false) (hback : (body f w).Back 0 0 ls)
    (hopen : ((body f w).engine 0).isDisposed = false) : Outing 0 0 ls ⟨0, 1⟩ w [a, b] (body f w) := by
  have hearlier {v : World} (hv : Onward v (body f w)) : (v.engine 0).isDisposed = false :=
    Bool.eq_false_iff.2 fun hd => by simp [hv.isDisposed 0 hd] at hopen
  refine .leg (not_back hunfinished ?_) (hearlier (hleft.onward.trans hright.onward)) hleft <|
    .leg (not_back hunfinished' ?_) (hearlier hright.onward) hright <| .back hback hopen
  · simp [hq]
    omega
  · simp [hwaits]

set_option maxRecDepth 30000 in
theorem outing_first : Outing 0 0 (loop.relay.stack 0) ⟨0, 1⟩ first [.trigger ⟨0, left⟩, .trigger ⟨0, right⟩] (body 1 first) := by
  refine outing ?_ (leg ?_ ?_ ?_ ?_ ?_) (leg ?_ ?_ ?_ ?_ ?_) ?_ ?_ ?_ ?_
    (.inr ⟨?_, ?_, rfl⟩) ?_ <;> decide +kernel

set_option maxRecDepth 30000 in
theorem outing_second : Outing 0 0 (loop.relay.stack 1) ⟨0, 1⟩ second [.trigger ⟨0, left⟩, .trigger ⟨0, right⟩] (body 3 second) := by
  refine outing (f := 3) ?_ (leg (f := 3) ?_ ?_ ?_ ?_ ?_) (leg (f := 4) ?_ ?_ ?_ ?_ ?_) ?_ ?_ ?_ ?_
    (.inr ⟨?_, ?_, rfl⟩) ?_ <;> decide +kernel

theorem outing_third : Outing 0 0 (loop.relay.stack 2) ⟨0, 1⟩ third [] third := .back (.inl (by decide +kernel)) (by decide +kernel)

/-- There are these three points from which the fiber sets out. -/
theorem setsOut {k : Nat} {v : World} (h : loop.relay.SetsOut first k v) :
    k = 0 ∧ v = first ∨ k = 1 ∧ v = second ∨ k = 2 ∧ v = third := by
  induction h with
  | first => exact .inl ⟨rfl, rfl⟩
  | @next k v z _ others _ hk hout hq ih =>
    rcases ih with ⟨rfl, hv⟩ | ⟨rfl, hv⟩ | ⟨rfl, hv⟩
    · rw [hv] at hout
      have hz := (outing_first.unique hout).2
      rw [← hz] at hq ⊢
      have hqueue : ((body 1 first).engine 0).queue = [0] := by decide +kernel
      cases hqueue.symm.trans hq
      exact .inr (.inl ⟨rfl, rfl⟩)
    · rw [hv] at hout
      have hz := (outing_second.unique hout).2
      rw [← hz] at hq ⊢
      have hqueue : ((body 3 second).engine 0).queue = [0] := by decide +kernel
      cases hqueue.symm.trans hq
      exact .inr (.inr ⟨rfl, rfl⟩)
    · exact absurd hk (by decide)

theorem arises : bare.Arises begun :=
  ((World.Arises.bare rfl rfl).makeEngine "main" [⟨0, 0⟩, ⟨0, 1⟩, ⟨0, 2⟩, ⟨0, 3⟩] {}).begin 0 ⟨0, 0⟩ "exec" [] (by simp)

theorem comes : loop.relay.Comes ⟨0, start⟩ [] begun where
  queue := by decide +kernel
  isReady := by decide +kernel
  next := by decide +kernel
  ends := ⟨⟨⟨0, 0⟩, ⟨1, 0⟩⟩, rfl, rfl⟩
  input := rfl
  listeners := rfl
  written := rfl
  resolved := rfl

end Forked

open Forked in
/-- A body that splits is run twice, and both parts are over before it is run again. -/
theorem Loop.runs_rounds_twice : ∃ bodies v, bodies.length = 2 ∧ loop.relay.Rounds 1 bare 0 Forked.first bodies v := by
  obtain ⟨-, ⟨bodies, v, _, _, hcount, hrounds, -⟩, -, -⟩ :=
    Loop.runs_rounds arises ⟨rfl, rfl⟩ (by decide +kernel) comes rfl rfl fun k v h => by
      rcases setsOut h with h | h | h
      all_goals rw [h.1, h.2]
      · exact ⟨_, _, outing_first⟩
      · exact ⟨_, _, outing_second⟩
      · exact ⟨_, _, outing_third⟩
  have hsize : ((loop.relay.reached [] begun).engine 0).fibers.size = 1 := by decide +kernel
  refine ⟨bodies, v, hcount, ?_⟩
  rw [← hsize]
  exact hrounds

end FlowGraph
