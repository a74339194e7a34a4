import FlowGraph.Proofs.Functional
import FlowGraph.Proofs.History
import FlowGraph.Proofs.Loops
import FlowGraph.Proofs.Visits
import Mathlib.Data.List.DropRight

/-!
Nodes that remember how they were visited. What such a node does about a visit depends on the inputs of the visits so far, and on
nothing else; its state says no more than that, and is left undecided until the first visit.
-/
namespace FlowGraph

open World Play

/-- What a node does about a visit: the state that it is left in, what it shows at a data output, and the output at which the
fiber goes on. If there is none, the path of the fiber ends at the node. -/
structure Reply where
  state : Value
  shows : Option (String × Value)
  sends : Option String

/-- The node with the state set, and with what it shows at the data output. -/
def Node.reply (n : Node) (a : Reply) : Node :=
  let m := { n with state := a.state }
  match a.shows with
  | none => m
  | some (name, v) => (m.write name v).toOption.getD m

/-- The fiber goes on at the output of the node, or ends its path there. -/
def Engine.leave (e : Engine) (f : Nat) (x : NodeRef) (wires : String → List Wire) : Option String → Engine
  | some output => e.commit f x none (wires output)
  | none => e.modifyFiber f fun y => { y with committed := true }

def World.reply (w : World) (i f : Nat) (x : NodeRef) (a : Reply) : World :=
  (w.modifyNode x (·.reply a)).modifyEngine i (·.leave f x (w.wiresAt x) a.sends)

/-- A node that remembers: what it runs, its outputs by name and whether fibers go on there, its setting, its state after visits at
these inputs, and what it shows and where it sends the fiber if there is one more visit after those. -/
structure Gadget where
  behaviour : FlowBehaviour
  outputs : List (String × Bool)
  setting : Option Value := none
  state : List String → Value
  shows : List String → String → Option (String × Value) := fun _ _ => none
  sends : List String → String → Option String

namespace Gadget

def reply (G : Gadget) (ins : List String) (input : String) : Reply where
  state := G.state (ins ++ [input])
  shows := G.shows ins input
  sends := G.sends ins input

/-- The node runs the behaviour, no data flows into it, and it has the outputs and the setting that go with it. -/
structure Works (G : Gadget) (w : World) (x : NodeRef) : Prop where
  behaviour : (w.node x).definition.behaviour = .flow (some G.behaviour)
  outputs : (w.node x).outputs.map (fun s => (s.name, s.isFlow)) = G.outputs
  inputs : dataPlaces (w.node x) = []
  setting : ∀ v ∈ G.setting, (w.node x).configuration.get? "start_closed" = some v

/-- What is shown and where fibers are sent agrees with the outputs, and the behaviour does what is said. -/
structure Lawful (G : Gadget) : Prop where
  shows : ∀ ins input p, G.shows ins input = some p → (G.outputs.find? (·.1 = p.1)).any (!·.2) = true
  runs : ∀ w x i f ins input, G.Works w x → (w.node x).state = G.state ins → ((w.engine i).fiber f).committed = false →
    (G.behaviour.run ⟨x, .flow i f input⟩).runOn w = (.ok (), w.reply i f x (G.reply ins input))

end Gadget

section Means

variable {n : Node} {w : World} {i f : Nat} {x : NodeRef} {s key : String} {v old : Value}

/-- Whether there is an output of a name, and whether fibers go on there. -/
theorem Node.output?_any (outputs : List (String × Bool)) (h : n.outputs.map (fun s => (s.name, s.isFlow)) = outputs) (name : String)
    (p : Bool → Bool) : (n.output? name).any (fun s => p s.isFlow) = (outputs.find? (·.1 = name)).any fun q => p q.2 := by
  rw [← h, List.find?_map, Option.any_map]
  rfl

/-- A node that takes part in flow is there. -/
theorem World.isThere_of_flow {b : Option FlowBehaviour} (h : (w.node x).definition.behaviour = .flow b) : w.IsThere x := by
  rw [IsThere, Option.isSome_iff_ne_none]
  intro hnone
  rw [World.node, hnone] at h
  cases h

theorem World.node_setState (h : w.IsThere x) (v : Value) :
    (w.modifyNode x fun n => { n with state := v }).node x = { w.node x with state := v } := by
  rw [node_modifyNode, if_pos ⟨rfl, h⟩]

namespace Context

theorem runOn_memory (h : (w.node x).state = .dict [(key, v)]) :
    (Context.memory ⟨x, .flow i f s⟩ key).runOn w = (.ok v, w) := by
  have hself : (Context.self ⟨x, .flow i f s⟩).runOn w = (.ok (w.node x), w) := rfl
  rw [memory, runOn_bind, hself]
  simp only [h, List.lookup_cons_self]
  rfl

theorem runOn_remember (h : (w.node x).state = .dict [(key, old)]) (v : Value) :
    (Context.remember ⟨x, .flow i f s⟩ key v).runOn w =
      (.ok (), w.modifyNode x fun n => { n with state := .dict [(key, v)] }) := by
  have hself : (Context.self ⟨x, .flow i f s⟩).runOn w = (.ok (w.node x), w) := rfl
  have hset : (Table.set ⟨[(key, old)]⟩ key v).entries = [(key, v)] := by simp [Table.set, Table.setEntries]
  rw [remember, runOn_bind, hself]
  simp only [h, hset]
  rfl

theorem runOn_setting (h : (w.node x).configuration.get? key = some v) :
    (Context.setting ⟨x, .flow i f s⟩ key).runOn w = (.ok v, w) := by
  have hself : (Context.self ⟨x, .flow i f s⟩).runOn w = (.ok (w.node x), w) := rfl
  rw [setting, runOn_bind, hself]
  simp only [h]
  rfl

/-- What is undecided is read off the setting. -/
theorem runOn_undecided {isNew : Bool} {b : Bool} (h : (w.node x).state = .dict [(key, if isNew then .none else .bool b)])
    (hset : (w.node x).configuration.get? "start_closed" = some v) (g : Bool → Bool) (k : Bool → Play Unit) :
    (Context.memory ⟨x, .flow i f s⟩ key >>= fun m => match m with
      | .none => do
        let start ← Context.setting ⟨x, .flow i f s⟩ "start_closed"
        let b ← pure (g start.truth)
        k b
      | m => do
        let b ← pure m.truth
        k b).runOn w = (k (if isNew then g v.truth else b)).runOn w := by
  rw [runOn_bind, runOn_memory h]
  cases isNew with
  | true =>
    show (Context.setting ⟨x, .flow i f s⟩ "start_closed" >>= fun start => k (g start.truth)).runOn w = _
    rw [runOn_bind, runOn_setting hset]
    rfl
  | false => rfl

/-- Goes on at the output, or ends the path here. -/
def leave (c : Context) : Option String → Play Unit
  | some output => c.commit output
  | none => c.stop

/-- Nothing is refused to a fiber that has come to the node. -/
theorem runOn_leave {v : World} {out : Option String} (hv : Outlined w v) (hopen : ((v.engine i).fiber f).committed = false)
    (hflow : ∀ output, out = some output → (w.node x).isFlowOutput output = true) :
    (Context.leave ⟨x, .flow i f s⟩ out).runOn v = (.ok (), v.modifyEngine i (·.leave f x (w.wiresAt x) out)) := by
  cases out with
  | none =>
    have hstop : (Context.stop ⟨x, .flow i f s⟩).runOn v = v.endFiber i f x := rfl
    rw [leave, hstop, endFiber, if_neg (by simp [hopen])]
    rfl
  | some output =>
    have hcommit : (Context.commit ⟨x, .flow i f s⟩ output).runOn v = v.commitFiber i f x output none := rfl
    rw [leave, hcommit, commitFiber_eq none hopen (by rw [hv.isFlowOutput, hflow output rfl]), hv.wiresAt]
    rfl

/-- The state is set, and the fiber goes on or ends its path. -/
theorem runOn_settle {out : Option String} (h : (w.node x).state = .dict [(key, old)]) (v : Value)
    (hopen : ((w.engine i).fiber f).committed = false)
    (hflow : ∀ output, out = some output → (w.node x).isFlowOutput output = true) :
    (do Context.remember ⟨x, .flow i f s⟩ key v; Context.leave ⟨x, .flow i f s⟩ out).runOn w =
      (.ok (), w.reply i f x ⟨.dict [(key, v)], none, out⟩) := by
  have hset : Outlined w (w.modifyNode x fun n => { n with state := .dict [(key, v)] }) :=
    (show Outlined w w from rfl).modifyNode x rfl
  rw [runOn_bind, runOn_remember h]
  exact runOn_leave hset hopen hflow

/-- The state is set, an output shows a value, and the fiber goes on or ends its path. -/
theorem runOn_show {out : Option String} {name : String} (hthere : w.IsThere x)
    (h : (w.node x).state = .dict [(key, old)]) (v q : Value) (hdata : ((w.node x).output? name).any (!·.isFlow) = true)
    (hplain : q.hasFresh = false) (hopen : ((w.engine i).fiber f).committed = false)
    (hflow : ∀ output, out = some output → (w.node x).isFlowOutput output = true) :
    (do
      Context.remember ⟨x, .flow i f s⟩ key v
      Context.write ⟨x, .flow i f s⟩ name q
      Context.leave ⟨x, .flow i f s⟩ out).runOn w = (.ok (), w.reply i f x ⟨.dict [(key, v)], some (name, q), out⟩) := by
  have hset := w.node_setState hthere (.dict [(key, v)])
  have hremembered : Outlined w (w.modifyNode x fun n => { n with state := .dict [(key, v)] }) :=
    (show Outlined w w from rfl).modifyNode x rfl
  obtain ⟨m, hm, -⟩ := Node.exists_write (n := { w.node x with state := .dict [(key, v)] }) hdata q
  have hreply : (w.node x).reply ⟨.dict [(key, v)], some (name, q), out⟩ = m := by
    simp only [Node.reply, hm, Except.toOption, Option.getD_some]
  have hnode : ((w.modifyNode x fun n => { n with state := .dict [(key, v)] }).modifyNode x fun _ => m) =
      w.modifyNode x (·.reply ⟨.dict [(key, v)], some (name, q), out⟩) := by
    rw [modifyNode_modifyNode, ← modifyNode_const w x (·.reply _), hreply]
  have hstamp (w : World) : w.stamp x.graph q = (q, w) := by rw [World.stamp, hplain, if_neg Bool.false_ne_true]
  rw [runOn_bind, runOn_remember h]
  dsimp only
  rw [runOn_bind, runOn_write]
  simp only [hstamp, hset, hm]
  have hwritten := hremembered.modifyNode x (f := fun _ => m) (by rw [hset]; exact Node.outline_write hm)
  rw [hnode] at hwritten ⊢
  exact runOn_leave hwritten hopen hflow

end Context

end Means

namespace Gadget

def sinceReset (ins : List String) : List String := ins.rtakeWhile (· ≠ "reset")

/-- Lets the first fiber pass after each reset, and before the first one unless it starts closed. -/
def doOnce (closed : Value) : Gadget where
  behaviour := .doOnce
  outputs := [("completed", true)]
  setting := some closed
  state ins := .dict [("closed", if ins.isEmpty then .none else .bool (sinceReset ins ≠ []))]
  sends ins input :=
    if input ≠ "reset" ∧ sinceReset ins = [] ∧ ("reset" ∈ ins ∨ closed.truth = false) then some "completed" else none

/-- Sends fibers along two paths by turns, and shows which one it is. -/
def flipFlop : Gadget where
  behaviour := .flipFlop
  outputs := [("A", true), ("B", true), ("is_A", false)]
  state ins := .dict [("is_a", .bool (ins.length % 2 = 1))]
  shows ins _ := some ("is_A", .bool ((ins.length + 1) % 2 = 1))
  sends ins _ := some (if (ins.length + 1) % 2 = 1 then "A" else "B")

/-- What a gate was told last: to be open, or not to be. -/
def told (ins : List String) : Option Bool := (ins.filter fun s => s = "open" ∨ s = "close").getLast?.map fun s => s = "open"

def toggles (ins : List String) : Nat := (ins.rtakeWhile fun s => s ≠ "open" ∧ s ≠ "close").count "toggle"

/-- Whether a gate is open: what it was told last, or at the start, turned over by each toggle since. -/
def isOpen (start : Bool) (ins : List String) : Bool := (told ins).getD start ^^ toggles ins % 2 == 1

/-- Lets fibers pass while it is open. -/
def gate (closed : Value) : Gadget where
  behaviour := .gate
  outputs := [("exit", true)]
  setting := some closed
  state ins := .dict [("open", if ins.isEmpty then .none else .bool (isOpen (!closed.truth) ins))]
  sends ins input := if input = "enter" ∧ isOpen (!closed.truth) ins = true then some "exit" else none

/-- Counts the fibers that pass. -/
def counter : Gadget where
  behaviour := .counter
  outputs := [("exec_out", true), ("count", false)]
  state ins := .dict [("count", .int (sinceReset ins).length)]
  shows ins input := some ("count", .int (sinceReset (ins ++ [input])).length)
  sends _ input := if input = "reset" then none else some "exec_out"

theorem sinceReset_concat (ins : List String) (input : String) :
    sinceReset (ins ++ [input]) = if input = "reset" then [] else sinceReset ins ++ [input] := by
  rw [sinceReset, List.rtakeWhile_concat]
  by_cases h : input = "reset" <;> simp [h, sinceReset]

/-- What is not new and has seen nothing since the last reset has been reset. -/
theorem reset_mem {ins : List String} (hne : ins ≠ []) (h : sinceReset ins = []) : "reset" ∈ ins := by
  have hlast := List.rtakeWhile_eq_nil_iff.1 h hne
  simp only [ne_eq, decide_not, Bool.not_eq_true, Bool.not_eq_false', decide_eq_true_eq] at hlast
  rw [← hlast]
  exact List.getLast_mem hne

theorem isOpen_nil (start : Bool) : isOpen start [] = start := by simp [isOpen, told, toggles]

/-- One more visit opens or closes the gate, turns it over, or leaves it as it is. -/
theorem isOpen_concat (start : Bool) (ins : List String) (input : String) :
    isOpen start (ins ++ [input]) = gateAfter (isOpen start ins) input := by
  by_cases hopen : input = "open"
  · simp [hopen, isOpen, told, toggles, gateAfter]
  by_cases hclose : input = "close"
  · simp [hclose, isOpen, told, toggles, gateAfter]
  have htold : told (ins ++ [input]) = told ins := by simp [told, hopen, hclose]
  by_cases htoggle : input = "toggle"
  · have htoggles : toggles (ins ++ [input]) = toggles ins + 1 := by simp [toggles, htoggle]
    rw [isOpen, isOpen, htold, htoggles, htoggle, gateAfter]
    rcases Nat.mod_two_eq_zero_or_one (toggles ins) with heven | hodd
    · simp [Nat.add_mod, heven]
    · simp [Nat.add_mod, hodd]
  · have htoggles : toggles (ins ++ [input]) = toggles ins := by
      simp [toggles, hopen, hclose, List.count_cons_of_ne htoggle]
    rw [isOpen, isOpen, htold, htoggles]
    simp [gateAfter]

variable {w : World} {i f : Nat} {x : NodeRef} {input : String} {ins : List String}

theorem isFlowOutput {G : Gadget} (hx : G.Works w x) (output : String) :
    (w.node x).isFlowOutput output = (G.outputs.find? (·.1 = output)).any (·.2) :=
  Node.output?_any G.outputs hx.outputs output id

/-- Whether a fiber may pass is the same thing said by the state, or by the setting while the state is undecided. -/
theorem sends_doOnce (closed : Value) (h : input ≠ "reset") : (doOnce closed).sends ins input =
    if (if ins.isEmpty then closed.truth else decide (sinceReset ins ≠ [])) = true then none else some "completed" := by
  by_cases hnew : ins = []
  · cases hclosed : closed.truth <;> simp [doOnce, h, hnew, sinceReset, hclosed]
  · by_cases hsince : sinceReset ins = []
    · simp [doOnce, h, hnew, hsince, reset_mem hnew hsince]
    · simp [doOnce, h, hnew, hsince]

/-- The node that lets one visit pass does so by what it keeps in its state. -/
theorem lawful_doOnce (closed : Value) : (doOnce closed).Lawful where
  shows _ _ _ h := by cases h
  runs w x i f ins input hx hs hopen := by
    have hinput : (Context.inputName ⟨x, .flow i f input⟩).runOn w = (.ok input, w) := rfl
    have hflow (output : String) (ho : (doOnce closed).sends ins input = some output) :
        (w.node x).isFlowOutput output = true := by
      simp only [doOnce, Option.ite_none_right_eq_some, Option.some.injEq] at ho
      rw [isFlowOutput hx, ← ho.2]
      rfl
    have hsettle := Context.runOn_settle (s := input) hs (.bool (decide (input ≠ "reset"))) hopen hflow
    have hreply : (doOnce closed).reply ins input =
        ⟨.dict [("closed", .bool (decide (input ≠ "reset")))], none, (doOnce closed).sends ins input⟩ := by
      by_cases hreset : input = "reset" <;> simp [reply, doOnce, sinceReset_concat, hreset]
    rw [hreply]
    show (FlowBehaviour.run _ .doOnce).runOn w = _
    rw [FlowBehaviour.run, runOn_bind, hinput]
    dsimp only
    by_cases hreset : input = "reset"
    · have hsends : (doOnce closed).sends ins input = none := by simp [doOnce, hreset]
      rw [hsends, decide_eq_false (by simp [hreset])] at hsettle ⊢
      rw [if_pos hreset]
      exact hsettle
    · rw [sends_doOnce closed hreset, decide_eq_true hreset] at hsettle ⊢
      rw [if_neg hreset]
      have hleave (isClosed : Bool) :
          (do
            Context.remember ⟨x, .flow i f input⟩ "closed" (.bool true)
            if isClosed then Context.stop ⟨x, .flow i f input⟩ else Context.commit ⟨x, .flow i f input⟩ "completed").runOn w =
          (do
            Context.remember ⟨x, .flow i f input⟩ "closed" (.bool true)
            Context.leave ⟨x, .flow i f input⟩ (if isClosed then none else some "completed")).runOn w := by
        cases isClosed <;> rfl
      exact (Context.runOn_undecided hs (hx.setting closed rfl) id _).trans ((hleave _).trans hsettle)

/-- The node with two sides goes out at them in turn. -/
theorem lawful_flipFlop : flipFlop.Lawful where
  shows ins input p h := by
    cases h
    rfl
  runs w x i f ins input hx hs hopen := by
    have hmemory := Context.runOn_memory (i := i) (f := f) (s := input) hs
    have hflip : (!decide (ins.length % 2 = 1)) = decide ((ins.length + 1) % 2 = 1) := by
      rw [Bool.eq_iff_iff]
      simp only [Bool.not_eq_true', decide_eq_false_iff_not, decide_eq_true_iff]
      omega
    have hstate : flipFlop.state (ins ++ [input]) = .dict [("is_a", .bool (decide ((ins.length + 1) % 2 = 1)))] := by
      simp [flipFlop]
    have hdata : ((w.node x).output? "is_A").any (!·.isFlow) = true := Node.output?_any flipFlop.outputs hx.outputs "is_A" (!·)
    have hflow (output : String) (ho : flipFlop.sends ins input = some output) : (w.node x).isFlowOutput output = true := by
      rw [isFlowOutput hx]
      simp only [flipFlop, Option.some.injEq] at ho
      rw [← ho]
      split <;> rfl
    have hshow := Context.runOn_show (s := input) (isThere_of_flow hx.behaviour) hs (.bool (decide ((ins.length + 1) % 2 = 1)))
      (.bool (decide ((ins.length + 1) % 2 = 1))) hdata rfl hopen hflow
    have hsends : flipFlop.sends ins input = some (if decide ((ins.length + 1) % 2 = 1) = true then "A" else "B") := by
      simp [flipFlop]
    rw [reply, hstate]
    refine Eq.trans ?_ hshow
    show (FlowBehaviour.run _ .flipFlop).runOn w = _
    rw [FlowBehaviour.run, runOn_bind, hmemory, hsends]
    dsimp only [Value.truth]
    rw [hflip]
    rfl

/-- A gate lets pass while it is open. -/
theorem lawful_gate (closed : Value) : (gate closed).Lawful where
  shows _ _ _ h := by cases h
  runs w x i f ins input hx hs hopen := by
    have hflow (output : String) (ho : (gate closed).sends ins input = some output) : (w.node x).isFlowOutput output = true := by
      simp only [gate, Option.ite_none_right_eq_some, Option.some.injEq] at ho
      rw [isFlowOutput hx, ← ho.2]
      rfl
    have hnow : (if ins.isEmpty then !closed.truth else isOpen (!closed.truth) ins) = isOpen (!closed.truth) ins := by
      by_cases hnew : ins = []
      · simp [hnew, isOpen_nil]
      · simp [hnew]
    have hstate : (gate closed).state (ins ++ [input]) =
        .dict [("open", .bool (gateAfter (isOpen (!closed.truth) ins) input))] := by
      simp [gate, isOpen_concat]
    have hsends : (gate closed).sends ins input =
        if (decide (input = "enter") && gateAfter (isOpen (!closed.truth) ins) input) = true then some "exit" else none := by
      by_cases henter : input = "enter" <;> simp [gate, henter, gateAfter]
    have hleave (isNow : Bool) :
        (do
          Context.remember ⟨x, .flow i f input⟩ "open" (.bool (gateAfter isNow input))
          if decide (input = "enter") && gateAfter isNow input then Context.commit ⟨x, .flow i f input⟩ "exit"
            else Context.stop ⟨x, .flow i f input⟩).runOn w =
        (do
          Context.remember ⟨x, .flow i f input⟩ "open" (.bool (gateAfter isNow input))
          Context.leave ⟨x, .flow i f input⟩
            (if decide (input = "enter") && gateAfter isNow input then some "exit" else none)).runOn w := by
      cases decide (input = "enter") && gateAfter isNow input <;> rfl
    have hsettle := Context.runOn_settle (s := input) hs (.bool (gateAfter (isOpen (!closed.truth) ins) input)) hopen hflow
    rw [reply, hstate]
    rw [hsends] at hsettle ⊢
    refine (Context.runOn_undecided hs (hx.setting closed rfl) (!·) _).trans ?_
    rw [hnow]
    exact (hleave _).trans hsettle

/-- A counter shows how many visits came since the last reset. -/
theorem lawful_counter : counter.Lawful where
  shows ins input p h := by
    cases h
    rfl
  runs w x i f ins input hx hs hopen := by
    have hinput : (Context.inputName ⟨x, .flow i f input⟩).runOn w = (.ok input, w) := rfl
    have hmemory := Context.runOn_memory (i := i) (f := f) (s := input) hs
    have hadd : (ofFault ((Value.int (sinceReset ins).length).add (.int 1))).runOn w =
        (.ok (.int ((sinceReset ins).length + 1)), w) := rfl
    have hdata : ((w.node x).output? "count").any (!·.isFlow) = true := Node.output?_any counter.outputs hx.outputs "count" (!·)
    have hflow (output : String) (ho : counter.sends ins input = some output) : (w.node x).isFlowOutput output = true := by
      simp only [counter, Option.ite_none_left_eq_some, Option.some.injEq] at ho
      rw [isFlowOutput hx, ← ho.2]
      rfl
    have hshow := Context.runOn_show (s := input) (isThere_of_flow hx.behaviour) hs (.int (sinceReset (ins ++ [input])).length)
      (.int (sinceReset (ins ++ [input])).length) hdata rfl hopen hflow
    refine Eq.trans ?_ hshow
    show (FlowBehaviour.run _ .counter).runOn w = _
    rw [FlowBehaviour.run, runOn_bind, hinput]
    dsimp only
    by_cases hreset : input = "reset"
    · have hsends : counter.sends ins input = none := if_pos hreset
      rw [if_pos hreset, hsends, sinceReset_concat, if_pos hreset]
      rfl
    · have hsends : counter.sends ins input = some "exec_out" := if_neg hreset
      rw [if_neg hreset, hsends, sinceReset_concat, if_neg hreset, runOn_bind, hmemory]
      dsimp only
      rw [runOn_bind, hadd, List.length_append, Int.natCast_add]
      rfl

end Gadget

namespace Node

variable {n : Node} {a : Reply}

/-- Either nothing but the state is set, or an output is written besides. -/
theorem reply_cases (n : Node) (a : Reply) : n.reply a = { n with state := a.state } ∨
    ∃ name v, ({ n with state := a.state } : Node).write name v = .ok (n.reply a) := by
  unfold reply
  dsimp only
  split
  · exact .inl rfl
  · rename_i name v _
    cases hm : ({ n with state := a.state } : Node).write name v with
    | error e => exact .inl rfl
    | ok m => exact .inr ⟨name, v, hm⟩

theorem state_reply (n : Node) (a : Reply) : (n.reply a).state = a.state := by
  rcases n.reply_cases a with h | ⟨_, _, h⟩
  · rw [h]
  · exact state_write h

theorem outline_reply (n : Node) (a : Reply) : (n.reply a).outline = n.outline := by
  rcases n.reply_cases a with h | ⟨_, _, h⟩
  · rw [h]
    rfl
  · exact (outline_write h).trans rfl

theorem error_reply (n : Node) (a : Reply) : (n.reply a).error = n.error := by
  rcases n.reply_cases a with h | ⟨_, _, h⟩
  · rw [h]
  · exact (error_write h).trans rfl

/-- What is shown is found there. -/
theorem shows_reply {p : String × Value} (ha : a.shows = some p) (hdata : (n.output? p.1).any (!·.isFlow) = true) :
    (n.reply a).Shows [p] := by
  obtain ⟨m, hm, hshows⟩ := Node.exists_write (n := { n with state := a.state }) hdata p.2
  have hreply : n.reply a = m := by
    simp only [reply, ha, hm, Except.toOption, Option.getD_some]
  rw [hreply]
  exact hshows

end Node

theorem Engine.committed_leave {e : Engine} {f : Nat} (hf : f < e.fibers.size) (x : NodeRef) (wires : String → List Wire)
    (out : Option String) : ((e.leave f x wires out).fiber f).committed = true := by
  cases out with
  | none => rw [leave, fiber_modifyFiber, if_pos ⟨rfl, hf⟩]
  | some output => rw [leave, fiber_commit hf, if_pos hf, if_pos rfl, onto_committed]

theorem Engine.card_leave (e : Engine) (f : Nat) (x : NodeRef) (wires : String → List Wire) (out : Option String) :
    (e.leave f x wires out).card = e.card ∧ (e.leave f x wires out).failures = e.failures := by
  cases out with
  | none => exact ⟨rfl, rfl⟩
  | some output => exact e.card_commit f x none (wires output)

namespace World

variable {u w : World} {i f : Nat} {x : NodeRef} {a : Reply} {s : Value}

theorem node_reply (h : w.IsThere x) (i f : Nat) (a : Reply) : (w.reply i f x a).node x = (w.node x).reply a := by
  have hnode : (w.reply i f x a).node x = (w.modifyNode x (·.reply a)).node x := rfl
  rw [hnode, node_modifyNode, if_pos ⟨rfl, h⟩]

theorem engine_reply (hi : i < w.engines.size) (f : Nat) (x : NodeRef) (a : Reply) :
    (w.reply i f x a).engine i = (w.engine i).leave f x (w.wiresAt x) a.sends :=
  engine_modifyEngine_self (w := w.modifyNode x (·.reply a)) hi _

theorem reported_reply (w : World) (i f : Nat) (x : NodeRef) (a : Reply) : Reported [] w (w.reply i f x a) := by
  have hnode : Reported [] w (w.modifyNode x (·.reply a)) :=
    .modifyNode w x (Node.outline_reply _ a) (Node.error_reply _ a)
  refine hnode.next (.modifyEngine _ i ?_ ?_)
  · exact fun e => (e.card_leave f x _ a.sends).1
  · exact fun e => (e.card_leave f x _ a.sends).2

/-- The node answers without a listener, so that nothing is kept in its name, and is left in the state of the reply. -/
theorem minds_reply (h : Minds u (onlyAt i f) x s w) (hthere : w.IsThere x) (a : Reply) :
    Minds u (onlyAt i f) x a.state (w.reply i f x a) := by
  have hset : Minds u (onlyAt i f) x a.state (w.modifyNode x (·.reply a)) := by
    refine ⟨h.toRetained.frame rfl rfl, h.outlined.modifyNode x (Node.outline_reply _ a), ?_⟩
    rw [node_modifyNode, if_pos ⟨rfl, hthere⟩, Node.state_reply]
  rw [reply]
  generalize w.modifyNode x (·.reply a) = v at hset ⊢
  cases a.sends with
  | none =>
    refine hset.alter ?_ ?_ ?_
    · exact fun _ => ⟨.inr rfl, rfl, rfl, rfl, rfl, rfl, rfl⟩
    · exact fun _ => id
    · exact fun hb => ⟨hb.parent, hb.next, hb.listeners, hb.steps, hb.finished⟩
  | some output =>
    refine ⟨hset.toRetained.of_order ?_ fun hw => ?_, hset.outlined.frame rfl, hset.state⟩
    · refine hset.toInOrder.modifyEngine (fun _ _ => rfl) hset.there ?_
      rw [InOrder.onlyAt_self]
      exact (InOrder.atWork hset.toInOrder).commit x (by simp) _
    · have hcurrent := (hset.engine i).current.trans (InOrder.onlyAt_self i f)
      exact hw.commit ((hset.engine i).accounted.current_lt hcurrent) x (by simp) _

end World

namespace Gadget

variable {G : Gadget} {u w v : World} {i f : Nat} {others : List Nat} {x : NodeRef} {input : String} {ins : List String}

theorem Works.outlined (h : G.Works u x) (hw : Outlined u w) : G.Works w x := by
  refine ⟨by rw [hw.definition, h.behaviour], ?_, (hw.dataPlaces x).trans h.inputs, fun v hv => ?_⟩
  · have houtputs : (w.node x).outputs.map Socket.hollow = (u.node x).outputs.map Socket.hollow :=
      (congrArg Node.outputs (hw.node x) :)
    have hsame := congrArg (List.map fun s => (s.name, s.isFlow)) houtputs
    rw [List.map_map, List.map_map] at hsame
    exact Eq.trans hsame h.outputs
  · have hconfiguration : (w.node x).configuration = (u.node x).configuration := (congrArg Node.configuration (hw.node x) :)
    rw [hconfiguration, h.setting v hv]

/-- A fiber that comes to the node finds the state that goes with the visits so far, and the node answers accordingly. -/
theorem Lawful.visit (hG : G.Lawful) (hx : G.Works u x) (h : Minds u atRest x (G.state ins) w) (hv : w.Visits i f others x input) :
    (step i f).runOn (atWork i f others w) =
      (.ok (), ((arrived i f others x w).reply i f x (G.reply ins input)).tellEnded i x) := by
  have harrived := hv.minds h
  have hworks := hx.outlined harrived.outlined
  have hrun := hG.runs _ x i f ins input hworks harrived.state (hv.committed h)
  have hcurrent := (harrived.engine i).current.trans (InOrder.onlyAt_self i f)
  rw [hv.runOn_step h hx.inputs]
  refine runOn_visit_flow hworks.behaviour hrun ?_
  rw [engine_reply harrived.there, Engine.committed_leave ((harrived.engine i).accounted.current_lt hcurrent)]

/-- So it is left in the state that goes with one more visit. -/
theorem Lawful.minds (hG : G.Lawful) (hx : G.Works u x) (h : Minds u atRest x (G.state ins) w) (hv : w.Visits i f others x input)
    (hi : Iteration i w v) : Minds u atRest x (G.state (ins ++ [input])) v := by
  have harrived := hv.minds h
  have hthere := isThere_of_flow (hx.outlined harrived.outlined).behaviour
  have hended : Minds u (onlyAt i f) x (G.state (ins ++ [input]))
      (((arrived i f others x w).reply i f x (G.reply ins input)).tellEnded i x) := by
    rw [tellEnded]
    exact (minds_reply harrived hthere (G.reply ins input)).tell ..
  have hstep := hG.visit hx h hv
  generalize ((arrived i f others x w).reply i f x (G.reply ins input)).tellEnded i x = r at hended hstep
  cases hi with
  | pop hq hidle =>
    cases hq.symm.trans hv.queue
    rw [hv.isReady] at hidle
    cases hidle
  | turn hq _ ht =>
    cases hq.symm.trans hv.queue
    cases (turn_ok hstep).symm.trans ht
    exact hended.closeTurn

end Gadget

/-- The fiber comes to the node and nothing goes wrong; it goes on at the output, or if there is none its path ends. -/
structure World.Leaves (w : World) (i f : Nat) (others : List Nat) (x : NodeRef) (out : Option String) (r : World) : Prop where
  step : (Play.step i f).runOn (atWork i f others w) = (.ok (), r)
  quiet : Reported [] (atWork i f others w) r
  engine : r.engine i = ((arrived i f others x w).engine i).leave f x (w.wiresAt x) out

/-- The node is one of those that take part in flow, and is as it was made: its settings have values, its sockets are those of its
definition, and its state is where it starts. -/
structure Node.New (scope : Scope) (n : Node) : Prop where
  catalogued : n.definition ∈ Catalogue.flowNodes
  configured : n.configuration.keys = n.definition.defaultConfiguration.keys
  expanded : Graph.Expands scope n
  state : n.state = n.definition.initialState

/-- A node of the catalogue is new when it is made. -/
theorem Node.new_of_makeNode {g : Graph} {d : Definition} {id : String} {overrides : List (String × Value)} {position : Value}
    {n : Node} (hd : d ∈ Catalogue.flowNodes) (h : g.makeNode d id overrides position = .ok n) : n.New g.scope := by
  obtain ⟨place, c, inputs, outputs, -, hc, -, -, hn⟩ := Graph.makeNode_eq_ok h
  refine ⟨by rw [hn]; exact hd, ?_, Graph.expands_of_makeNode h, by rw [hn]⟩
  rw [hn]
  exact Graph.mergeConfiguration_keys hc

namespace Gadget

/-- The node that remembers what a behaviour has it remember, with its setting. -/
def of (closed : Value) : FlowBehaviour → Option Gadget
  | .doOnce => some (doOnce closed)
  | .flipFlop => some flipFlop
  | .gate => some (gate closed)
  | .counter => some counter
  | _ => none

/-- A definition of a node that remembers: its sockets are fixed, and data only flows out of it, if at all. -/
structure Of (G : Gadget) (d : Definition) : Prop where
  inputs : ∃ specs, d.inputs = .fixed specs ∧ specs.all (·.isFlow) = true
  outputs : ∃ specs, d.outputs = .fixed specs ∧ specs.map (fun s => (s.name, s.isFlow)) = G.outputs
  setting : G.setting.isSome = true → "start_closed" ∈ d.defaultConfiguration.keys
  start : d.initialState = G.state []

theorem of_catalogue {d : Definition} (hd : d ∈ Catalogue.flowNodes) {b : FlowBehaviour} (hb : d.behaviour = .flow (some b))
    {closed : Value} {G : Gadget} (hG : of closed b = some G) : G.Of d := by
  simp only [Catalogue.flowNodes, List.mem_cons, List.not_mem_nil, or_false] at hd
  rcases hd with rfl | rfl | rfl | rfl | rfl | rfl | rfl
  all_goals cases hb
  all_goals cases hG
  · exact ⟨⟨_, rfl, rfl⟩, ⟨_, rfl, rfl⟩, fun _ => List.mem_cons_self, rfl⟩
  · exact ⟨⟨_, rfl, rfl⟩, ⟨_, rfl, rfl⟩, (by rintro ⟨⟩), rfl⟩
  · exact ⟨⟨_, rfl, rfl⟩, ⟨_, rfl, rfl⟩, fun _ => List.mem_cons_self, rfl⟩
  · exact ⟨⟨_, rfl, rfl⟩, ⟨_, rfl, rfl⟩, (by rintro ⟨⟩), rfl⟩

/-- A node as it was made from a definition of a node that remembers is one. -/
theorem Of.works {G : Gadget} {u : World} {x : NodeRef} {scope : Scope} (hG : G.Of (u.node x).definition)
    (hn : Graph.Expands scope (u.node x)) (hb : (u.node x).definition.behaviour = .flow (some G.behaviour))
    (hset : ∀ v ∈ G.setting, (u.node x).configuration.get? "start_closed" = some v) : G.Works u x := by
  obtain ⟨ins, hins, hflow⟩ := hG.inputs
  obtain ⟨outs, houts, hnames⟩ := hG.outputs
  have hin := hn .input
  have hout := hn .output
  simp only [Side.source, hins, houts, SocketSource.expand, Except.map, Except.ok.injEq] at hin hout
  refine ⟨hb, ?_, ?_, hset⟩
  · have hpairs := congrArg (List.map fun p : String × String => (p.1, p.2 == ValueType.flowName)) hout
    rw [List.map_map, List.map_map] at hpairs
    exact hpairs.symm.trans hnames
  · have hall : (u.node x).inputs.all (·.isFlow) = true := by
      have htypes := congrArg (List.all · fun p : String × String => p.2 == ValueType.flowName) hin
      simp only [List.all_map] at htypes
      exact htypes.symm.trans hflow
    refine List.eq_nil_iff_forall_not_mem.2 fun p hp => ?_
    obtain ⟨s, hs, hdata⟩ := socket_of_dataPlaces hp
    rw [List.all_eq_true.1 hall s (List.mem_of_getElem? hs)] at hdata
    cases hdata

/-- The nodes that remember, each with its own law. -/
theorem lawful_of {closed : Value} {b : FlowBehaviour} {G : Gadget} (hG : of closed b = some G) : G.Lawful ∧ G.behaviour = b := by
  cases b with
  | doOnce =>
    cases hG
    exact ⟨lawful_doOnce closed, rfl⟩
  | flipFlop =>
    cases hG
    exact ⟨lawful_flipFlop, rfl⟩
  | gate =>
    cases hG
    exact ⟨lawful_gate closed, rfl⟩
  | counter =>
    cases hG
    exact ⟨lawful_counter, rfl⟩
  | _ => cases hG

end Gadget

/-- A node that remembers answers each visit according to the visits before. -/
theorem World.Visited.answered {u w : World} {x : NodeRef} {ins : List String} {scope : Scope} {b : FlowBehaviour} {c : Value}
    {G : Gadget} (h : u.Visited x ins w) (hn : (u.node x).New scope) (hb : (u.node x).definition.behaviour = .flow (some b))
    (hG : Gadget.of c b = some G) (hset : ∀ v ∈ G.setting, (u.node x).configuration.get? "start_closed" = some v)
    {i f : Nat} {others : List Nat} {input : String} (hv : w.Visits i f others x input) :
    ∃ r, w.Leaves i f others x (G.sends ins input) r ∧ (r.node x).Shows (G.shows ins input).toList := by
  obtain ⟨hlawful, rfl⟩ := Gadget.lawful_of hG
  have hof := Gadget.of_catalogue hn.catalogued hb hG
  have hworks := hof.works hn.expanded hb hset
  have hminds : Minds u atRest x (G.state ins) w :=
    h.minds hb (hn.state.trans hof.start) fun h hv hi => hlawful.minds hworks h hv hi
  have harrived := hv.minds hminds
  have hthere := isThere_of_flow (hworks.outlined harrived.outlined).behaviour
  have hquiet := (Visits.reported i f others x w).next (reported_reply _ i f x (G.reply ins input))
  refine ⟨_, ⟨hlawful.visit hworks hminds hv, ?_, ?_⟩, ?_⟩
  · rw [tellEnded]
    exact hquiet.next (.tell _ i fun _ => rfl)
  · have hwires : (arrived i f others x w).wiresAt x = w.wiresAt x := by
      funext output
      rw [harrived.outlined.wiresAt, hminds.outlined.wiresAt]
    rw [tellEnded, engine_congr (engines_tell ..), engine_reply harrived.there, hwires]
    rfl
  · rw [tellEnded, node_tell, node_reply hthere]
    cases hshows : G.shows ins input with
    | none => exact fun _ hp => absurd hp List.not_mem_nil
    | some p =>
      refine Node.shows_reply hshows ?_
      rw [Node.output?_any G.outputs (hworks.outlined harrived.outlined).outputs p.1 (!·)]
      exact hlawful.shows ins input p hshows

/-- Whenever a fiber comes to a node that remembers, nothing goes wrong, and what the node does is determined by the visits before
and by where the node starts. One that lets through once lets the fiber go on at the first visit since the last reset, or since the
beginning if it does not start closed. A gate lets a fiber pass that enters while it is open. A switch sends odd and even visits
different ways, and shows which one it is. A counter shows how many visits there were since the last reset. In all other cases the
path of the fiber ends. -/
theorem World.Visited.remembers {u w : World} {x : NodeRef} {ins : List String} {scope : Scope} (h : u.Visited x ins w)
    (hn : (u.node x).New scope) {i f : Nat} {others : List Nat} {input : String} (hv : w.Visits i f others x input) :
    ((u.node x).definition.behaviour = .flow (some .doOnce) →
      ∃ closed r, (u.node x).configuration.get? "start_closed" = some closed ∧ w.Leaves i f others x
        (if input ≠ "reset" ∧ Gadget.sinceReset ins = [] ∧ ("reset" ∈ ins ∨ closed.truth = false) then some "completed" else none) r) ∧
    ((u.node x).definition.behaviour = .flow (some .gate) →
      ∃ closed r, (u.node x).configuration.get? "start_closed" = some closed ∧ w.Leaves i f others x
        (if input = "enter" ∧ Gadget.isOpen (!closed.truth) ins = true then some "exit" else none) r) ∧
    ((u.node x).definition.behaviour = .flow (some .flipFlop) →
      ∃ r, w.Leaves i f others x (some (if (ins.length + 1) % 2 = 1 then "A" else "B")) r ∧
        (r.node x).Shows [("is_A", .bool ((ins.length + 1) % 2 = 1))]) ∧
    ((u.node x).definition.behaviour = .flow (some .counter) →
      ∃ r, w.Leaves i f others x (if input = "reset" then none else some "exec_out") r ∧
        (r.node x).Shows [("count", .int (Gadget.sinceReset (ins ++ [input])).length)]) := by
  have hclosed {b : FlowBehaviour} (hb : (u.node x).definition.behaviour = .flow (some b)) {G : Value → Gadget}
      (hG : ∀ closed, Gadget.of closed b = some (G closed)) (hset : ∀ closed, (G closed).setting = some closed) :
      ∃ closed, (u.node x).configuration.get? "start_closed" = some closed := by
    have hkey := (Gadget.of_catalogue hn.catalogued hb (hG .none)).setting (by rw [hset]; rfl)
    rw [← hn.configured] at hkey
    exact Option.ne_none_iff_exists'.1 fun hnone => (Table.get?_eq_none_iff _ _).1 hnone hkey
  have hsetting {closed : Value} (hget : (u.node x).configuration.get? "start_closed" = some closed) :
      ∀ v ∈ some closed, (u.node x).configuration.get? "start_closed" = some v := by
    rintro v ⟨⟩
    exact hget
  refine ⟨fun hb => ?_, fun hb => ?_, fun hb => ?_, fun hb => ?_⟩
  · obtain ⟨closed, hget⟩ := hclosed hb (G := Gadget.doOnce) (fun _ => rfl) fun _ => rfl
    obtain ⟨r, hleaves, -⟩ := h.answered hn hb (c := closed) rfl (hsetting hget) hv
    exact ⟨closed, r, hget, hleaves⟩
  · obtain ⟨closed, hget⟩ := hclosed hb (G := Gadget.gate) (fun _ => rfl) fun _ => rfl
    obtain ⟨r, hleaves, -⟩ := h.answered hn hb (c := closed) rfl (hsetting hget) hv
    exact ⟨closed, r, hget, hleaves⟩
  · exact h.answered hn hb (c := .none) rfl (by rintro _ ⟨⟩) hv
  · exact h.answered hn hb (c := .none) rfl (by rintro _ ⟨⟩) hv

namespace Passing

def wire : Wire := ⟨⟨"go", "exec", "once", "exec"⟩, 0⟩

/-- An event with a node behind it that lets through once. -/
def graph : Graph where
  arena := #[
    { id := "go", definition := { typeName := "Go", behaviour := .event none }
      outputs := [{ name := "exec", valueType := ValueType.flowName, wires := [wire] }] },
    { id := "once", definition := Catalogue.flowNodes[3], configuration := ⟨[("start_closed", .bool false)]⟩
      state := .dict [("closed", .none)]
      inputs := [{ name := "exec", valueType := ValueType.flowName, wires := [wire] },
        { name := "reset", valueType := ValueType.flowName }]
      outputs := [{ name := "completed", valueType := ValueType.flowName }] }]
  ids := ⟨[("go", 0), ("once", 1)]⟩
  wires := [wire]
  ends := #[some ⟨⟨0, 0⟩, ⟨1, 0⟩⟩]

def bare : World := { graphs := #[graph] }

def begun : World := ((makeEngine "main" [⟨0, 0⟩, ⟨0, 1⟩] {}).runOn bare).2.begin 0 ⟨0, 0⟩ "exec" none []

/-- The first fiber has come to the node, and another path has begun. -/
def again : World := ((turn 0 0).runOn (unqueued 0 [] begun)).2.begin 0 ⟨0, 0⟩ "exec" none []

theorem visits_begun : begun.Visits 0 0 [] ⟨0, 1⟩ "exec" where
  queue := by decide +kernel
  isReady := by decide +kernel
  written := rfl
  ends := ⟨⟨0, wire⟩, ⟨⟨0, 0⟩, ⟨1, 0⟩⟩, by decide +kernel, rfl, rfl, rfl⟩

theorem visits_again : again.Visits 0 1 [] ⟨0, 1⟩ "exec" where
  queue := by decide +kernel
  isReady := by decide +kernel
  written := rfl
  ends := ⟨⟨0, wire⟩, ⟨⟨0, 0⟩, ⟨1, 0⟩⟩, by decide +kernel, rfl, rfl, rfl⟩

theorem visited_begun : bare.Visited ⟨0, 1⟩ [] begun :=
  ((World.Visited.bare rfl rfl).move (.makeEngine "main" [⟨0, 0⟩, ⟨0, 1⟩] {})).move (.begin 0 ⟨0, 0⟩ "exec" [] (by simp))

theorem visited_again : bare.Visited ⟨0, 1⟩ ["exec"] again :=
  (visited_begun.visit (@Iteration.turn 0 begun _ 0 [] (by decide +kernel) (by decide +kernel) rfl) visits_begun).move
    (.begin 0 ⟨0, 0⟩ "exec" [] (by simp))

theorem new : (bare.node ⟨0, 1⟩).New (bare.graph 0).scope where
  catalogued := List.getElem_mem _
  configured := rfl
  expanded side := by cases side <;> rfl
  state := rfl

end Passing

open Passing in
/-- The first fiber is let through, the second is not. -/
theorem World.Visited.remembers_twice : (∃ r, begun.Leaves 0 0 [] ⟨0, 1⟩ (some "completed") r) ∧
    ∃ r, again.Leaves 0 1 [] ⟨0, 1⟩ none r := by
  obtain ⟨closed, r, hclosed, hleaves⟩ := (World.Visited.remembers visited_begun new visits_begun).1 rfl
  obtain ⟨closed', r', hclosed', hleaves'⟩ := (World.Visited.remembers visited_again new visits_again).1 rfl
  cases hclosed
  cases hclosed'
  exact ⟨⟨r, hleaves⟩, ⟨r', hleaves'⟩⟩

end FlowGraph
