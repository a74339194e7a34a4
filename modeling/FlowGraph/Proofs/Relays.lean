import FlowGraph.Proofs.Bound
import FlowGraph.Proofs.PathReturn

/-!
Relays. A node that sends its fiber along several paths commits for the first of them with a listener that commits for the
next one, and so on; with the last path it leaves no listener. So each path begins when the one before is over, whatever the
paths do, as long as the fiber comes back from them.
-/
namespace FlowGraph

open World Play

namespace Engine

variable {e : Engine} {n f k : Nat}

/-- Where no fiber has come in yet the fiber has no kin. -/
theorem Kin.eq_self (h : e.Kin n f k) (hn : e.fibers.size ≤ n) : k = f := by
  cases h with
  | self => rfl
  | child hk hp _ =>
    rw [fiber_out (Nat.le_trans hn hk)] at hp
    cases hp

/-- A fiber at work that does not wait has the house to itself. -/
theorem Household.found (h : e.Accounted) (hc : e.current = some f) (hpending : (e.fiber f).pending = 0)
    (hwritten : (e.fiber f).isWritten = true) (hbegun : ¬ (e.fiber f).Blank) : Household e.fibers.size f e where
  old := h.current_lt hc
  size := Nat.le_refl _
  parent k := (h.tallied k).parent
  queue := by
    refine ⟨[], e.queue, rfl, fun k hk => absurd hk List.not_mem_nil, fun k hk => ⟨h.lt_size hk, fun hkin => ?_⟩⟩
    rw [hkin.eq_self (Nat.le_refl _)] at hk
    exact h.current_not_mem hc hk
  written k hk := by
    rw [hk.eq_self (Nat.le_refl _)]
    exact hwritten
  unburdened k hk _ := by
    rw [hk.eq_self (Nat.le_refl _)]
    exact hpending
  settled k _ hp := by
    refine Accounted.finished_of_openKids ?_ hp
    rw [← (h.tallied f).pending, hpending]
  begun := hbegun

end Engine

/-- A fiber that is sent along paths `0` to `last`: the node that sends it and the input by which the fiber has come to it,
what the node writes before each path and the output where the path begins, the listener that is left to begin the next one,
and the listeners that the fiber had before. -/
structure Relay where
  engine : Nat
  fiber : Nat
  node : NodeRef
  input : String
  last : Nat
  writes : Nat → Option (String × Value)
  output : Nat → String
  listener : Nat → Listener
  below : List (Option NodeRef × Listener)

namespace Relay

def context (R : Relay) : Context := ⟨R.node, .flow R.engine R.fiber R.input⟩

/-- What is left to begin the path after this one, if there is one. -/
def listener? (R : Relay) (k : Nat) : Option Listener := if k < R.last then some (R.listener k) else none

/-- The listeners that the fiber has while it is on its way. -/
def stack (R : Relay) (k : Nat) : List (Option NodeRef × Listener) :=
  if k < R.last then (some R.node, R.listener k) :: R.below else R.below

/-- What goes with the path is written. -/
def written (R : Relay) (k : Nat) (w : World) : World :=
  match R.writes k with
  | none => w
  | some (name, v) => match (w.node R.node).write name v with
    | .ok n => w.modifyNode R.node fun _ => n
    | .error _ => w

/-- The path begins: the fiber commits to the wires behind the output, if there are any. -/
def go (R : Relay) (k : Nat) (w : World) : World :=
  (R.written k w).modifyEngine R.engine
    (·.commit R.fiber R.node (R.listener? k) ((R.written k w).wiresAt R.node (R.output k)))

/-- The world in which the node is about to be run. -/
def reached (R : Relay) (others : List Nat) (w : World) : World :=
  ((approach R.engine R.fiber R.node).runOn ((atWork R.engine R.fiber others w).applyEntry R.engine R.fiber).2).2

/-- The world after the turn in which the node is triggered. -/
def triggered (R : Relay) (others : List Nat) (w : World) : World :=
  closeTurn R.engine R.fiber ((R.go 0 (R.reached others w)).tellEnded R.engine R.node)

/-- The world after the turn in which a listener begins the path. -/
def resumed (R : Relay) (k : Nat) (others : List Nat) (w : World) : World :=
  closeTurn R.engine R.fiber
    (R.go k (heed R.engine R.fiber R.below ((atWork R.engine R.fiber others w).applyEntry R.engine R.fiber).2))

/-- The node has the outputs for all paths. -/
structure Works (R : Relay) (w : World) : Prop where
  flow : ∃ b, (w.node R.node).definition.behaviour = .flow b
  silent : (w.node R.node).isFlowOutput "exec" = false
  sends : ∀ k, k ≤ R.last → (w.node R.node).isFlowOutput (R.output k) = true
  shows : ∀ k, k ≤ R.last → ∀ p, R.writes k = some p → ((w.node R.node).output? p.1).any (!·.isFlow) = true

/-- Each listener speaks for the node, and begins the next path. -/
structure Hands (R : Relay) : Prop where
  context : ∀ k, k < R.last → (R.listener k).context? = some R.context
  answers : ∀ k, k < R.last → ∀ w, R.Works w → ((w.engine R.engine).fiber R.fiber).committed = false →
    (R.listener k).run.runOn w = (.ok (), R.go (k + 1) w)

/-- The place of the relay among the fibers of the engine, of which there were `n` before. -/
abbrev seat (R : Relay) (n : Nat) : Seat := ⟨R.engine, R.fiber, R.node, n⟩

end Relay

/-- A data output can be written, and shows then what was written. -/
theorem Node.exists_write {n : Node} {name : String} (h : (n.output? name).any (!·.isFlow) = true) (v : Value) :
    ∃ m, n.write name v = .ok m ∧ m.Shows [(name, v)] := by
  cases hm : n.write name v with
  | error e =>
    cases hs : n.output? name with
    | none => simp [hs] at h
    | some s => simp [hs, Node.not_accepts_of_write hm hs] at h
  | ok m =>
    refine ⟨m, rfl, fun q hq => ?_⟩
    obtain ⟨s, -, -, hout⟩ := Node.output?_write hm
    rw [List.mem_singleton.1 hq, hout, if_pos rfl]
    rfl

/-- Nothing is refused to a fiber that has not committed, at an output for execution. -/
theorem World.commitFiber_eq {w : World} {i f : Nat} {x : NodeRef} {output : String} (l : Option Listener)
    (hopen : ((w.engine i).fiber f).committed = false) (hflow : (w.node x).isFlowOutput output = true) :
    w.commitFiber i f x output l = (.ok (), w.modifyEngine i (·.commit f x l (w.wiresAt x output))) := by
  have hnone : w.commitRefusal? i f x output = none := by
    rw [commitRefusal?, hopen, if_neg Bool.false_ne_true, if_pos hflow]
  simp only [commitFiber, hnone]

namespace Along

variable {s : Seat} {u v w : World} {ls : List (Option NodeRef × Listener)} {outs : List Socket}

/-- The node itself writes an output. -/
theorem writeOwn {p : Option Nat} (h : Along s u ls outs p w) {output : String} {v : Value} {n : Node}
    (hn : (w.node s.node).write output v = .ok n) : Along s u ls n.outputs p (w.modifyNode s.node fun _ => n) where
  toRetained := h.toRetained.frame rfl rfl
  outlined := h.outlined.modifyNode _ (Node.outline_write hn)
  steady := h.steady.frame rfl rfl
  stacked := h.stacked
  outputs := congrArg Node.outputs (node_write hn)

/-- The node itself commits for the fiber that it serves, and leaves a listener if it likes. -/
theorem commitOwn (hs : s.Taken u) (h : Along s u ls outs (some s.fiber) w)
    (hopen : ((w.engine s.engine).fiber s.fiber).committed = false) {output : String}
    (hflow : (w.node s.node).isFlowOutput output = true) (input : String) {l : Option Listener}
    (hcontext : ∀ z, l = some z → z.context? = some ⟨s.node, .flow s.engine s.fiber input⟩) :
    Along s u (((w.engine s.engine).fiber s.fiber).commit s.node l).listeners outs (some s.fiber)
      (w.commitFiber s.engine s.fiber s.node output l).2 := by
  have hkind : Context.Serves s.Elder (working s.engine (some s.fiber)) ⟨s.node, .flow s.engine s.fiber input⟩ :=
    ⟨fun _ => ⟨_, _, _, rfl, fun _ => hs.old⟩, InOrder.admitted s.node s.engine s.fiber input⟩
  have hR := (Retained.closed u (working s.engine (some s.fiber)) s.Elder).commit hkind output hcontext (r := w) h.toRetained
  have hS := (closed_steady (Engine.AtHome.growing s.size s.fiber (some s.fiber))
    (A := (· = ⟨s.node, .flow s.engine s.fiber input⟩)) ?_).commit rfl output hcontext (r := w) h.steady
  · refine ⟨hR, h.outlined.commitFiber s.engine s.fiber s.node output l, hS, ?_, ?_⟩
    · rw [commitFiber_eq l hopen hflow, engine_modifyEngine_self h.steady.inside, Engine.fiber_commit (h.inside hs),
        if_pos (h.inside hs), if_pos rfl]
      exact ⟨(Engine.onto_finished ..).trans h.stacked.unfinished, [], Engine.onto_listeners ..,
        fun _ hx => absurd hx List.not_mem_nil⟩
    · rw [commitFiber_eq l hopen hflow]
      exact h.outputs
  · rintro c rfl j k name ⟨⟩
    exact ⟨rfl, Engine.AtHome.working ..⟩

end Along

namespace Relay

variable {R : Relay} {k n : Nat} {u v w : World} {outs : List Socket}

theorem listener?_eq_some {l : Listener} (h : R.listener? k = some l) : k < R.last ∧ l = R.listener k := by
  unfold listener? at h
  split at h
  · cases h
    exact ⟨‹_›, rfl⟩
  · cases h

theorem stack_of_lt (h : k < R.last) : R.stack k = (some R.node, R.listener k) :: R.below := if_pos h

theorem stack_last : R.stack R.last = R.below := if_neg (Nat.lt_irrefl _)

/-- What is left behind stands above what the fiber had before. -/
theorem commit_listeners (x : Fiber) (hx : x.listeners = R.below) (k : Nat) :
    (x.commit R.node (R.listener? k)).listeners = R.stack k := by
  unfold listener? stack
  split
  · exact congrArg _ hx
  · exact hx

namespace Works

theorem outlined (h : R.Works u) (hw : Outlined u w) : R.Works w := by
  refine ⟨by rw [hw.definition]; exact h.flow, by rw [hw.isFlowOutput]; exact h.silent, fun k hk => ?_, fun k hk p hp => ?_⟩
  · rw [hw.isFlowOutput]
    exact h.sends k hk
  · have houtputs : (w.node R.node).outputs.map Socket.hollow = (u.node R.node).outputs.map Socket.hollow :=
      (congrArg Node.outputs (hw.node R.node) :)
    have hfind := congrArg (List.find? (·.name = p.1)) houtputs
    rw [List.find?_map, List.find?_map] at hfind
    have hdata := congrArg (Option.any (!·.isFlow)) hfind
    rw [Option.any_map, Option.any_map] at hdata
    exact hdata.trans (h.shows k hk p hp)

/-- What goes with a path can be written, and is shown then. -/
theorem exists_write (h : R.Works w) (hk : k ≤ R.last) {p : String × Value} (hp : R.writes k = some p) :
    ∃ m, (w.node R.node).write p.1 p.2 = .ok m ∧ m.Shows [p] :=
  Node.exists_write (h.shows k hk p hp) p.2

end Works

theorem engine_written (R : Relay) (k : Nat) (w : World) (j : Nat) : (R.written k w).engine j = w.engine j := by
  unfold written
  split
  · rfl
  · split <;> rfl

theorem engines_written (R : Relay) (k : Nat) (w : World) : (R.written k w).engines = w.engines := by
  unfold written
  split
  · rfl
  · split <;> rfl

theorem works_written (hx : R.Works w) (k : Nat) : R.Works (R.written k w) := by
  have hself : Outlined w w := rfl
  unfold written
  split
  · exact hx
  · split
    · rename_i hm
      exact hx.outlined (hself.modifyNode R.node (Node.outline_write hm))
    · exact hx

/-- Nothing is in the way of a path. -/
theorem commitFiber_written (hx : R.Works w) (hk : k ≤ R.last)
    (hopen : ((w.engine R.engine).fiber R.fiber).committed = false) :
    (R.written k w).commitFiber R.engine R.fiber R.node (R.output k) (R.listener? k) = (.ok (), R.go k w) := by
  exact commitFiber_eq (R.listener? k) (by rw [engine_written]; exact hopen) ((works_written hx k).sends k hk)

theorem committed_go (hinside : R.engine < w.engines.size) (hold : R.fiber < (w.engine R.engine).fibers.size) (k : Nat) :
    (((R.go k w).engine R.engine).fiber R.fiber).committed = true := by
  rw [go, engine_modifyEngine_self (by rw [engines_written]; exact hinside), engine_written, Engine.fiber_commit hold,
    if_pos hold, if_pos rfl, Engine.onto_committed]

/-- From where a path begins it is above what that leaves to the fiber. -/
theorem along_go (hR : R.Hands) (hs : (R.seat n).Taken u) (h : Along (R.seat n) u R.below outs (some R.fiber) w)
    (hx : R.Works w) (hk : k ≤ R.last) (hl : ((w.engine R.engine).fiber R.fiber).listeners = R.below)
    (hopen : ((w.engine R.engine).fiber R.fiber).committed = false) :
    ∃ outs', Along (R.seat n) u (R.stack k) outs' (some R.fiber) (R.go k w) ∧
      ∀ m : Node, m.outputs = outs' → m.Shows (R.writes k).toList := by
  obtain ⟨outs', hwritten, hshows⟩ : ∃ outs', Along (R.seat n) u R.below outs' (some R.fiber) (R.written k w) ∧
      ∀ m : Node, m.outputs = outs' → m.Shows (R.writes k).toList := by
    cases hp : R.writes k with
    | none =>
      have hsame : R.written k w = w := by simp only [written, hp]
      rw [hsame]
      exact ⟨outs, h, fun _ _ _ hq => absurd hq List.not_mem_nil⟩
    | some p =>
      obtain ⟨m, hm, hshows⟩ := hx.exists_write hk hp
      have hsame : R.written k w = w.modifyNode R.node fun _ => m := by simp only [written, hp, hm]
      rw [hsame]
      exact ⟨m.outputs, h.writeOwn hm, fun _ hy => hshows.congr hy⟩
  have hgone := hwritten.commitOwn hs (by rw [engine_written]; exact hopen) ((works_written hx k).sends k hk) R.input
    (l := R.listener? k) fun l hl => by
      obtain ⟨hlt, rfl⟩ := listener?_eq_some hl
      exact hR.context k hlt
  have hstack : (((R.written k w).engine R.engine).fiber R.fiber |>.commit R.node (R.listener? k)).listeners = R.stack k := by
    rw [engine_written]
    exact commit_listeners _ hl k
  rw [hstack, commitFiber_written hx hk hopen] at hgone
  exact ⟨outs', hgone, hshows⟩

theorem onward_go (R : Relay) (k : Nat) (w : World) : Onward w (R.go k w) := by
  refine (Onward.of_engines (R.engines_written k w)).trans (.of_local (Local.modifyEngine _ R.engine fun e => ?_))
  rw [Engine.commit_frame]
  rfl

end Relay

end FlowGraph
