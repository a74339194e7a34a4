import FlowGraph.Proofs.Loops

/-!
Sequences. A node that fires its outputs in order relays its fiber along the paths behind them: the next output is committed
when everything is over that the one before has set off, whether it is linked or not and whatever fails on the way, unless the
fiber itself fails.
-/
namespace FlowGraph

open World Play

/-- A fiber that comes to a node that fires so many outputs in order: the input by which it has come to the node, and the
listeners that the fiber had before. -/
structure Sequence where
  engine : Nat
  fiber : Nat
  node : NodeRef
  input : String
  count : Nat
  below : List (Option NodeRef × Listener)

namespace Sequence

def context (S : Sequence) : Context := ⟨S.node, .flow S.engine S.fiber S.input⟩

def name (k : Nat) : String := "then_" ++ toString k

theorem name_ne_exec (k : Nat) : name k ≠ "exec" := by
  intro h
  have hlist := congrArg String.toList h
  rw [name, String.toList_append] at hlist
  cases hlist

def names (S : Sequence) (k : Nat) : List String := (List.range' k (S.count - k)).map name

/-- A path for each output. -/
def relay (S : Sequence) : Relay where
  engine := S.engine
  fiber := S.fiber
  node := S.node
  input := S.input
  last := S.count - 1
  writes _ := none
  output := name
  listener k := .nextOutput S.context (S.names (k + 1))
  below := S.below

end Sequence

/-- The node fires its outputs in order, and has so many. -/
structure World.Sequences (w : World) (x : NodeRef) (n : Nat) : Prop where
  behaviour : (w.node x).definition.behaviour = .flow (some .sequence)
  outputs : (w.node x).outputs.map (fun s => (s.name, s.isFlow)) = (List.range n).map fun k => (Sequence.name k, true)
  positive : 0 < n

namespace World.Sequences

variable {u w : World} {x : NodeRef} {n : Nat}

theorem outlined (h : u.Sequences x n) (hw : Outlined u w) : w.Sequences x n := by
  refine ⟨by rw [hw.definition, h.behaviour], ?_, h.positive⟩
  have houtputs : (w.node x).outputs.map Socket.hollow = (u.node x).outputs.map Socket.hollow :=
    (congrArg Node.outputs (hw.node x) :)
  have hsame := congrArg (List.map fun s => (s.name, s.isFlow)) houtputs
  rw [List.map_map, List.map_map] at hsame
  exact Eq.trans hsame h.outputs

theorem isFlowOutput_eq (h : w.Sequences x n) (output : String) :
    (w.node x).isFlowOutput output = decide (∃ k < n, Sequence.name k = output) := by
  have hfind := congrArg (fun l => (List.find? (·.1 = output) l).any (·.2)) h.outputs
  simp only [List.find?_map, Option.any_map] at hfind
  refine Eq.trans hfind ?_
  rw [Bool.eq_iff_iff, decide_eq_true_iff]
  simp

theorem flowOutputs (h : w.Sequences x n) : (w.node x).flowOutputs.map (·.name) = (List.range n).map Sequence.name := by
  have hflow := congrArg (fun l => (List.filter (·.2) l).map (·.1)) h.outputs
  simp only [List.filter_map, List.map_map] at hflow
  rw [show ((fun p : String × Bool => p.2) ∘ fun k => (Sequence.name k, true)) = fun _ => true from rfl, List.filter_true] at hflow
  exact hflow

/-- A sequence has all that a relay of its outputs needs. -/
theorem works {S : Sequence} (h : w.Sequences S.node S.count) : S.relay.Works w where
  flow := ⟨_, h.behaviour⟩
  silent := by
    show (w.node S.node).isFlowOutput "exec" = false
    rw [h.isFlowOutput_eq, decide_eq_false_iff_not]
    rintro ⟨k, -, hk⟩
    exact Sequence.name_ne_exec k hk
  sends k hk := by
    have hpositive := h.positive
    have hlt : k < S.count := by
      have hle : k ≤ S.count - 1 := hk
      omega
    show (w.node S.node).isFlowOutput (Sequence.name k) = true
    rw [h.isFlowOutput_eq]
    exact decide_eq_true ⟨k, hlt, rfl⟩
  shows _ _ _ hp := by cases hp

end World.Sequences

namespace Sequence

theorem names_of_lt {S : Sequence} {k : Nat} (h : k < S.count) : S.names k = name k :: S.names (k + 1) := by
  obtain ⟨m, hm⟩ : ∃ m, S.count - k = m + 1 := ⟨S.count - k - 1, by omega⟩
  rw [names, names, hm, List.range'_succ, List.map_cons, show S.count - (k + 1) = m by omega]

/-- The next output is fired, and a listener is left for those after it. -/
theorem runOn_fireInOrder {S : Sequence} {k : Nat} {w : World} (hx : S.relay.Works w) (hk : k < S.count)
    (hopen : ((w.engine S.engine).fiber S.fiber).committed = false) :
    (S.context.fireInOrder (S.names k)).runOn w = (.ok (), S.relay.go k w) := by
  have hcommitted := Relay.commitFiber_written hx (Nat.le_sub_one_of_lt hk) hopen
  have hcommit (output : String) (l : Option Listener) :
      (S.context.commit output l).runOn w = w.commitFiber S.engine S.fiber S.node output l := rfl
  have hwritten : S.relay.written k w = w := rfl
  rw [hwritten] at hcommitted
  rw [names_of_lt hk]
  by_cases hlast : k + 1 < S.count
  · have hlistener : S.relay.listener? k = some (.nextOutput S.context (S.names (k + 1))) :=
      if_pos (Nat.lt_sub_of_add_lt hlast)
    rw [names_of_lt hlast, Context.fireInOrder, hcommit, ← names_of_lt hlast, ← hlistener]
    · exact hcommitted
    · exact List.cons_ne_nil _ _
  · have hlistener : S.relay.listener? k = none := by
      refine if_neg ?_
      show ¬ k < S.count - 1
      omega
    have hnone : S.names (k + 1) = [] := by rw [names, show S.count - (k + 1) = 0 by omega, List.range'_zero, List.map_nil]
    rw [hnone, Context.fireInOrder, hcommit, ← hlistener]
    exact hcommitted

theorem hands (S : Sequence) : S.relay.Hands where
  context _ _ := rfl
  answers k hk w hx hopen := by
    have hlt : k + 1 < S.count := by
      have hk' : k < S.count - 1 := hk
      omega
    exact runOn_fireInOrder hx hlt hopen

theorem begins {S : Sequence} {w : World} (hx : w.Sequences S.node S.count) : S.relay.Begins w := by
  intro hworks hopen
  refine ⟨.sequence, hx.behaviour, ?_⟩
  have hnames : (w.node S.node).flowOutputs.map (·.name) = S.names 0 := by
    rw [hx.flowOutputs, names, Nat.sub_zero, List.range_eq_range']
  have hrun : ((FlowBehaviour.sequence).run S.context).runOn w =
      (S.context.fireInOrder ((w.node S.node).flowOutputs.map (·.name))).runOn w := rfl
  rw [hnames] at hrun
  exact hrun.trans (runOn_fireInOrder hworks hx.positive hopen)

/-- Wherever a fiber comes to a node that fires its outputs in order, and it comes back from each path behind the node or
fails on it, without a trigger of the node: the outputs are committed one after the other, each when all is over that the one
before has set off, until the last one; or the fiber fails, and none of the later ones is ever committed. -/
theorem fires_in_order {S : Sequence} {route : Route} {others : List Nat} {u w : World} (hu : u.Arises w)
    (hx : u.Sequences S.node S.count) (hinbox : (w.engine S.engine).inbox = []) (hcomes : S.relay.Comes route others w)
    (hpaths : ∀ k v, S.relay.SetsOut (S.relay.triggered others w) k v →
      (∃ body z, Outing S.engine S.fiber (S.relay.stack k) S.node v body z) ∨
        ∃ body z, Wreck S.engine S.fiber (S.relay.stack k) S.node v body z) :
    (turn S.engine S.fiber).runOn (unqueued S.engine others w) = (.ok (), S.relay.triggered others w) ∧
    ∃ bodies v, S.relay.Rounds ((S.relay.reached others w).engine S.engine).fibers.size u 0 (S.relay.triggered others w) bodies v ∧
      S.relay.SetsOut (S.relay.triggered others w) bodies.length v ∧ ∃ tail z, (bodies.length + 1 = S.count ∧ S.relay.Through u v tail z ∨
        bodies.length < S.count ∧ S.relay.Broken u bodies.length v tail z) ∧
        Takes S.engine w (.trigger route :: (S.relay.acts 0 bodies ++ tail)) z := by
  have hbound := hu.bound hx.behaviour
  have hreached := (hcomes.bound (hx.outlined hbound.outlined).works hbound.rebase).outlined.trans hbound.outlined
  obtain ⟨hturn, bodies, v, hrounds, houts, tail, z, hend, htakes⟩ :=
    Relay.runs S.hands hu hx.works hinbox hcomes (begins (hx.outlined hreached)) hpaths
  have hpositive := hx.positive
  have hlast : S.relay.last = S.count - 1 := rfl
  refine ⟨hturn, bodies, v, hrounds, houts, tail, z, ?_, htakes⟩
  rcases hend with ⟨hlength, hthrough⟩ | ⟨hle, hbroken⟩
  · exact .inl ⟨by omega, hthrough⟩
  · exact .inr ⟨by omega, hbroken⟩

end Sequence

namespace Rowed

open Forked (part body)

def start : Wire := ⟨⟨"go", "exec", "row", "exec"⟩, 0⟩
def left : Wire := ⟨⟨"row", "then_0", "left", "exec"⟩, 1⟩
def right : Wire := ⟨⟨"row", "then_0", "right", "exec"⟩, 2⟩

/-- An event with a sequence behind it. The path behind the first output splits, and a part of it fails; the second output is
not linked. -/
def graph : Graph where
  arena := #[
    { id := "go", definition := { typeName := "Go", behaviour := .event none }
      outputs := [{ name := "exec", valueType := ValueType.flowName, wires := [start] }] },
    { id := "row", definition := { typeName := "Sequence", behaviour := .flow (some .sequence) }
      inputs := [{ name := "exec", valueType := ValueType.flowName, wires := [start] }]
      outputs := [{ name := "then_0", valueType := ValueType.flowName, wires := [left, right] },
        { name := "then_1", valueType := ValueType.flowName }] },
    { id := "left", definition := { typeName := "Left", behaviour := .flow (some (.script [.nodeError "out of order"])) }
      inputs := [{ name := "exec", valueType := ValueType.flowName, wires := [left] }] },
    { id := "right", definition := { typeName := "Right", behaviour := .flow (some (.script [])) }
      inputs := [{ name := "exec", valueType := ValueType.flowName, wires := [right] }] }]
  ids := ⟨[("go", 0), ("row", 1), ("left", 2), ("right", 3)]⟩
  wires := [start, left, right]
  ends := #[some ⟨⟨0, 0⟩, ⟨1, 0⟩⟩, some ⟨⟨1, 0⟩, ⟨2, 0⟩⟩, some ⟨⟨1, 0⟩, ⟨3, 0⟩⟩]

def bare : World := { graphs := #[graph] }

def begun : World := ((makeEngine "main" [⟨0, 0⟩, ⟨0, 1⟩, ⟨0, 2⟩, ⟨0, 3⟩] {}).runOn bare).2.begin 0 ⟨0, 0⟩ "exec" none []

def sequence : Sequence := ⟨0, 0, ⟨0, 1⟩, "exec", 2, []⟩

def first : World := sequence.relay.triggered [] begun
def second : World := sequence.relay.resumed 1 [] (body 1 first)

set_option maxRecDepth 30000 in
theorem outing_first :
    Outing 0 0 (sequence.relay.stack 0) ⟨0, 1⟩ first [.trigger ⟨0, left⟩, .trigger ⟨0, right⟩] (body 1 first) := by
  refine Forked.outing ?_ (Forked.leg ?_ ?_ ?_ ?_ ?_) (Forked.leg ?_ ?_ ?_ ?_ ?_) ?_ ?_ ?_ ?_ (.inr ⟨?_, ?_, rfl⟩) ?_ <;>
    decide +kernel

theorem outing_second : Outing 0 0 (sequence.relay.stack 1) ⟨0, 1⟩ second [] second :=
  .back (.inl (by decide +kernel)) (by decide +kernel)

/-- There are these two points from which the fiber sets out. -/
theorem setsOut {k : Nat} {v : World} (h : sequence.relay.SetsOut first k v) : k = 0 ∧ v = first ∨ k = 1 ∧ v = second := by
  induction h with
  | first => exact .inl ⟨rfl, rfl⟩
  | @next k v z _ others _ hk hout hq ih =>
    rcases ih with ⟨rfl, hv⟩ | ⟨rfl, hv⟩
    · rw [hv] at hout
      have hz := (outing_first.unique hout).2
      rw [← hz] at hq ⊢
      have hqueue : ((body 1 first).engine 0).queue = [0] := by decide +kernel
      cases hqueue.symm.trans hq
      exact .inr ⟨rfl, rfl⟩
    · exact absurd hk (by decide)

theorem arises : bare.Arises begun :=
  ((World.Arises.bare rfl rfl).makeEngine "main" [⟨0, 0⟩, ⟨0, 1⟩, ⟨0, 2⟩, ⟨0, 3⟩] {}).begin 0 ⟨0, 0⟩ "exec" [] (by simp)

theorem comes : sequence.relay.Comes ⟨0, start⟩ [] begun where
  queue := by decide +kernel
  isReady := by decide +kernel
  next := by decide +kernel
  ends := ⟨⟨⟨0, 0⟩, ⟨1, 0⟩⟩, rfl, rfl⟩
  input := rfl
  listeners := rfl
  written := rfl
  resolved := rfl

end Rowed

open Rowed in
/-- A part of the first path fails, and yet the second output is fired when the other part is over. -/
theorem Sequence.fires_in_order_both : ∃ bodies v tail z, bodies.length = 1 ∧
    sequence.relay.Rounds 1 bare 0 first bodies v ∧ sequence.relay.Through bare v tail z := by
  have hpaths {k : Nat} {v : World} (h : sequence.relay.SetsOut first k v) :
      ∃ body z, Outing 0 0 (sequence.relay.stack k) ⟨0, 1⟩ v body z := by
    rcases setsOut h with h | h
    all_goals rw [h.1, h.2]
    · exact ⟨_, _, outing_first⟩
    · exact ⟨_, _, outing_second⟩
  obtain ⟨-, bodies, v, hrounds, houts, tail, z, hend, -⟩ :=
    Sequence.fires_in_order arises ⟨rfl, rfl, by decide⟩ (by decide +kernel) comes fun _ _ h => .inl (hpaths h)
  obtain ⟨_, _, hpath⟩ := hpaths houts
  obtain ⟨hlength, hthrough⟩ := hend.resolve_right fun hbroken => hpath.not_wreck hbroken.2.path
  have hsize : ((sequence.relay.reached [] begun).engine 0).fibers.size = 1 := by decide +kernel
  refine ⟨bodies, v, tail, z, Nat.succ.inj hlength, ?_, hthrough⟩
  rw [← hsize]
  exact hrounds

end FlowGraph
