import FlowGraph.Catalogue.Core
import FlowGraph.Proofs.Counting
import FlowGraph.Proofs.Rollback
import FlowGraph.Proofs.Routing
import FlowGraph.Proofs.Sparing
import FlowGraph.Proofs.Vetting

/-!
What the checks of a registry rule out. Main statement: where all definitions list their sockets and the checks of the registry
find nothing, no graph that is edited over it is refused a node for the type of a value, no two sockets on a side of a node share
a name, and however the graphs are edited and run, whatever the behaviours do, nothing ever goes wrong for a behaviour or an
output that is missing, for a node that no path may come to, or for a value that is not carried over a link.
-/
namespace FlowGraph

open World Play Relation

namespace Graph

variable {r : Registry} {g h : Graph}

/-- Links do not depend on what changes when a graph runs. -/
theorem sameLinks_of_outline (hgh : h.outline = g.outline) : SameLinks g h := by
  refine ⟨(congrArg Graph.ids hgh :), (congrArg Graph.registry hgh :), (congrArg Graph.wires hgh :), (congrArg Graph.ends hgh :), ?_⟩
  intro k
  have hframe (n : Node) : n.outline.frame = n.frame := by
    have hsockets (ss : List Socket) : (ss.map Socket.hollow).map Socket.frame = ss.map Socket.frame := by
      rw [List.map_map]
      rfl
    simp only [Node.outline, Node.frame, hsockets]
  have hat := congrArg (Option.map Node.frame) (congrArg (Graph.nodeAt? · k) hgh)
  simpa only [nodeAt?_outline, Option.map_map, Function.comp_def, hframe] using hat

/-- Nor do definitions and sockets. -/
theorem follows_of_outline {n m : Node} (h : m.outline = n.outline) : m.Follows n := by
  have hsockets (side : Side) (n : Node) :
      (side.sockets n).map Socket.outline = (side.sockets n.outline).map Socket.outline := by
    cases side with
    | input => simp [Side.sockets, Node.outline, Function.comp_def, Socket.outline, Socket.hollow]
    | output => simp [Side.sockets, Node.outline, Function.comp_def, Socket.outline, Socket.hollow]
  exact ⟨(congrArg Node.origin h :), fun side => by rw [hsockets side m, h, ← hsockets side n]⟩

/-- A vetted graph stays so when it runs. -/
theorem Vetted.outlined (hg : Vetted r g) (hgh : h.outline = g.outline) : Vetted r h := by
  have hs := sameLinks_of_outline hgh
  refine ⟨hs.registry.trans hg.registry, fun {k m} hm => ?_, hg.indexed.congr hs, ?_⟩
  · have hat := congrArg (Graph.nodeAt? · k) hgh
    simp only [nodeAt?_outline, hm, Option.map_some] at hat
    obtain ⟨n, hn, hsame⟩ := Option.map_eq_some_iff.1 hat.symm
    have hfollows := follows_of_outline hsame.symm
    obtain ⟨hdefinition, hnode⟩ := hg.nodes hn
    have hsame : m.definition = n.definition := congrArg (·.2.1) hfollows.origin
    exact ⟨hsame ▸ hdefinition, hnode.follow hfollows⟩
  · have hthins := Thins.of_sameLinks hs
    refine ⟨fun {w e} he => ?_, fun hws w hw => ?_⟩
    · obtain ⟨s, t, hsource, htarget, hfit⟩ := hg.laid.fits (hthins.endsOf w ▸ he)
      exact ⟨s, t, hs.symm.typeAt? hsource, hs.symm.typeAt? htarget, hs.registry ▸ hfit⟩
    · obtain ⟨vs, hvs, hless⟩ := hthins.wires hws
      rw [hthins.endsOf]
      exact hg.laid.listed hvs w (hless hw)

/-- A socket by its type. -/
theorem socket_of_typeAt? {side : Side} {e : End} {t : String} (h : g.typeAt? side e = some t) :
    ∃ n s, g.nodeAt? e.node = some n ∧ (side.sockets n)[e.socket]? = some s ∧ s.valueType = t := by
  obtain ⟨s, hat, rfl⟩ := Option.map_eq_some_iff.1 h
  obtain ⟨n, hn, hs⟩ := Option.bind_eq_some_iff.1 hat
  exact ⟨n, s, hn, hs, rfl⟩

end Graph

section Reasons

variable {reason : NodeReason} (id typeName : String)

/-- A behaviour that is there is not blamed for anything that is ruled out. -/
theorem not_isForestalled_of_ofCall {stage : Stage} (h : reason.ofCall stage false = true) :
    (Failure.node id typeName reason).isForestalled = false := by
  cases reason with
  | noBehaviour s => simp [NodeReason.ofCall] at h
  | notTriggerable | noFlowOutput | unconvertible => cases h
  | _ => rfl

/-- A visit of a flow or async node with a behaviour meets nothing that could be forestalled. -/
theorem not_isForestalled_of_ofVisit {b : Behaviour} (hb : b.isMissing = false) (hkind : b.kind = .flow ∨ b.kind = .async)
    (h : reason.ofVisit b = true) : (Failure.node id typeName reason).isForestalled = false := by
  cases b with
  | event | function => rcases hkind with hkind | hkind <;> cases hkind
  | flow b =>
    have hnone : b.isNone = false := hb
    have hcall : reason = .notCommitted ∨ reason.ofCall .triggered b.isNone = true := by
      cases reason with
      | notCommitted => exact .inl rfl
      | _ => exact .inr h
    rcases hcall with rfl | hcall
    · rfl
    · exact not_isForestalled_of_ofCall id typeName (hnone ▸ hcall)
  | async b =>
    have hnone : b.isNone = false := hb
    have hcall : reason.ofCall .startAsync b.isNone = true := h
    exact not_isForestalled_of_ofCall id typeName (hnone ▸ hcall)

end Reasons

/-- A node that takes part in a path at an input is one that a path may come to. -/
theorem Node.Vetted.triggerable {r : Registry} {n : Node} (h : n.Vetted r) {s : Socket} (hs : s ∈ n.inputs)
    (hflow : s.isFlow = true) : n.kind = .flow ∨ n.kind = .async := by
  have hsome : n.inputs.countP (·.isFlow) ≠ 0 := Nat.ne_of_gt (List.countP_pos_iff.2 ⟨s, hs, hflow⟩)
  have hadmitted := h.admitted
  cases hkind : n.kind with
  | flow => exact .inl rfl
  | async => exact .inr rfl
  | event | function =>
    rw [hkind] at hadmitted
    exact absurd hadmitted.1 hsome

namespace World

/-- The route leads along a wire that was laid, and to a node that a path may come to. -/
def Arrives (w : World) (route : Route) : Prop := ∃ e, (w.graph route.graph).endsOf route.wire = some e ∧
  ((w.node ⟨route.graph, e.target.node⟩).kind = .flow ∨ (w.node ⟨route.graph, e.target.node⟩).kind = .async)

def Vetted (r : Registry) (w : World) : Prop := ∀ g ∈ w.graphs, g.Vetted r

theorem Outlined.arrives {u w : World} (h : Outlined u w) : w.Arrives = u.Arrives := by
  funext route
  simp only [Arrives, h.endsOf, h.kind]

namespace Vetted

variable {r : Registry} {u w : World}

theorem outlined (h : u.Vetted r) (hw : Outlined u w) : w.Vetted r := by
  intro g hg
  obtain ⟨k, hk⟩ := Array.mem_iff_getElem?.1 hg
  have hsame : w.outline[k]? = u.outline[k]? := by rw [hw]
  simp only [outline, Array.getElem?_map, hk, Option.map_some] at hsame
  obtain ⟨g', hg', heq⟩ := Option.map_eq_some_iff.1 hsame.symm
  exact (h g' (Array.mem_of_getElem? hg')).outlined heq.symm

/-- What is read of a node is that of a node in a vetted graph, or nothing. -/
theorem node_cases (h : w.Vetted r) (x : NodeRef) : w.node x = default ∨
    (w.graph x.graph).Vetted r ∧ (w.graph x.graph).nodeAt? x.serial = some (w.node x) := by
  cases hn : (w.graph x.graph).nodeAt? x.serial with
  | none =>
    rw [World.node, hn]
    exact .inl rfl
  | some n =>
    rw [World.node, hn]
    refine .inr ⟨?_, rfl⟩
    unfold World.graph at hn ⊢
    cases hg : w.graphs[x.graph]? with
    | none =>
      rw [hg] at hn
      simp [Graph.nodeAt?, show (default : Graph).arena = #[] from rfl] at hn
    | some g => exact h g (Array.mem_of_getElem? hg)

/-- A node of any kind but the first is there. -/
theorem of_kind (h : w.Vetted r) {x : NodeRef} (hx : (w.node x).kind ≠ .event) :
    (w.node x).Vetted r := by
  rcases h.node_cases x with hnone | ⟨hg, hn⟩
  · rw [hnone] at hx
    exact absurd rfl hx
  · exact (hg.nodes hn).2

theorem typed (h : w.Vetted r) : w.Typed := by
  intro x s hs _
  rcases h.node_cases x with hnone | ⟨hg, hn⟩
  · rw [hnone] at hs
    exact absurd hs List.not_mem_nil
  · rw [World.registryOf, hg.registry]
    exact Registry.valueType_of_hasValueType ((hg.nodes hn).2.typed .input s hs)

/-- Wires behind flow outputs lead to nodes that a path may come to. -/
theorem paved (h : w.Vetted r) : w.Paved w.Arrives := by
  intro x output hflow wire hwire
  unfold Node.isFlowOutput at hflow
  unfold wiresAt at hwire
  rcases h.node_cases x with hnone | ⟨hg, hn⟩
  · rw [hnone] at hflow
    cases hflow
  · cases ho : (w.node x).output? output with
    | none =>
      rw [ho] at hflow
      cases hflow
    | some s =>
      rw [ho] at hflow hwire
      obtain ⟨p, hp⟩ := List.getElem?_of_mem (List.mem_of_find?_eq_some ho)
      have hat : (w.graph x.graph).socketAt? .output ⟨x.serial, p⟩ = some s := by simp [Graph.socketAt?, hn, Side.sockets, hp]
      have hwires : (w.graph x.graph).wiresAt? .output ⟨x.serial, p⟩ = some s.wires := by rw [Graph.wiresAt?, hat]; rfl
      obtain ⟨e, he, hend⟩ := hg.laid.listed hwires wire hwire
      obtain ⟨a, b, ha, hb, hfit⟩ := hg.laid.fits he
      have hsource : e.source = ⟨x.serial, p⟩ := hend
      have htype : a = s.valueType := by
        rw [hsource] at ha
        exact Option.some.inj (ha.symm.trans (congrArg (Option.map Socket.valueType) hat))
      obtain rfl : b = ValueType.flowName := by
        have hname : s.valueType = ValueType.flowName := eq_of_beq hflow
        rw [htype, hname, Registry.canConnect, if_pos (.inl rfl)] at hfit
        exact (eq_of_beq hfit).symm
      obtain ⟨m, t, hm, ht, htarget⟩ := Graph.socket_of_typeAt? hb
      refine ⟨e, he, ?_⟩
      rw [World.node, hm]
      exact (hg.nodes hm).2.triggerable (List.mem_of_getElem? ht) (beq_iff_eq.2 htarget)

/-- Pulls through vetted nodes meet nothing that could be forestalled. -/
theorem not_isForestalled_pull (h : w.Vetted r) {x : NodeRef} {e : Failure} (he : w.PullFails x e) :
    e.isForestalled = false := by
  cases he with
  | cycle => rfl
  | @exec y reason hy hreason =>
    have hkind : (w.node y).kind = .function := by
      cases hy with
      | single hlast =>
        obtain ⟨-, -, -, -, -, hkind⟩ := hlast
        exact hkind
      | tail _ hlast =>
        obtain ⟨-, -, -, -, -, hkind⟩ := hlast
        exact hkind
    rw [(h.of_kind (by rw [hkind]; exact Kind.noConfusion)).present] at hreason
    exact not_isForestalled_of_ofCall _ _ hreason
  | @unconvertible y p s o e v cause _ hs hflow hpulls ho hconvert =>
    rcases h.node_cases y with hnone | ⟨hg, hn⟩
    · rw [hnone] at hs
      cases hs
    · have hat : (w.graph y.graph).socketAt? .input ⟨y.serial, p⟩ = some s := by simp [Graph.socketAt?, hn, Side.sockets, hs]
      have hwires : (w.graph y.graph).wiresAt? .input ⟨y.serial, p⟩ = some s.wires := by rw [Graph.wiresAt?, hat]; rfl
      have hhead : s.wires.head?.bind (w.graph y.graph).endsOf = some e := by
        rw [Graph.pulls, hn, Option.getD_some, hs, Option.getD_some] at hpulls
        exact hpulls
      obtain ⟨wire, hwire, he⟩ := Option.bind_eq_some_iff.1 hhead
      obtain ⟨e', he', hend⟩ := hg.laid.listed hwires wire (List.mem_of_head? hwire)
      cases he.symm.trans he'
      obtain ⟨a, b, ha, hb, hfit⟩ := hg.laid.fits he
      have htarget : e.target = ⟨y.serial, p⟩ := hend
      obtain rfl : b = s.valueType := by
        rw [htarget] at hb
        exact Option.some.inj (hb.symm.trans (congrArg (Option.map Socket.valueType) hat))
      obtain ⟨m, t, hm, ht, rfl⟩ := Graph.socket_of_typeAt? ha
      have hsource : o = t := by
        rw [ho, Graph.outputAt?, hm]
        exact congrArg (·.getD default) ht
      rw [hsource, World.registryOf, hg.registry] at hconvert
      rw [hg.registry] at hfit
      obtain ⟨f, rfl⟩ := Registry.not_isForestalled_convert hfit ((hg.nodes hn).2.typed .input s (List.mem_of_getElem? hs)) hconvert
      rfl

/-- No step goes wrong in a way that is ruled out. -/
theorem not_isForestalled_step (h : w.Vetted r) {i f : Nat} (hroutes : ((w.engine i).fiber f).Routed w.Arrives) {e : Failure}
    (he : w.StepFails i f e) : e.isForestalled = false := by
  cases he with
  | payload | lost | listener => rfl
  | pull _ _ hpull => exact h.not_isForestalled_pull hpull
  | visit hnext hends hx hreason =>
    obtain ⟨ends', hends', hkind⟩ := hroutes _ hnext
    cases hends.symm.trans hends'
    rw [← hx] at hkind
    refine not_isForestalled_of_ofVisit _ _ (h.of_kind ?_).present hkind hreason
    rcases hkind with hkind | hkind
    all_goals rw [hkind]; exact Kind.noConfusion
  | own _ _ _ hown => exact not_isForestalled_of_ofCall _ _ (NodeReason.ofCall_of_isOwn hown .triggered false)

/-- What is left are failures of other kinds, where operations are of nodes that have an output to go on at. -/
theorem tolerated (h : w.Vetted r) :
    Failure.Tolerated (fun x => (w.node x).flowOutputs ≠ []) (·.isForestalled = false) w where
  started x b hb hnone := by
    have hkind : (w.node x).kind = .async := congrArg Behaviour.kind hb
    have hadmitted := (h.of_kind (by rw [hkind]; exact Kind.noConfusion)).admitted
    rw [hkind] at hadmitted
    refine hadmitted.2 (List.countP_eq_zero.2 fun s hs => ?_)
    exact List.filter_eq_nil_iff.1 hnone s hs
  disposal _ _ _ _ := rfl
  refused _ _ := rfl
  payload _ _ := rfl
  endless _ hx hnone := absurd hnone hx

end Vetted

/-- What may happen between two points: an engine goes on, a host does something that leaves the graphs alone, or edits a graph
by an operation on registered types. -/
inductive Happens : World → World → Prop where
  | deed {w v : World} : Deed w v → Outlined w v → Happens w v
  | iteration {i : Nat} {w v : World} : Iteration i w v → Happens w v
  | edit {w : World} {k : Nat} {e : Edit} {g : Graph} : e.isRegistered = true → (w.graph k).attempt e = .ok g →
      Happens w (w.modifyGraph k fun _ => g)

theorem modifyGraph_congr {w : World} {k : Nat} {f g : Graph → Graph} (h : f (w.graph k) = g (w.graph k)) :
    w.modifyGraph k f = w.modifyGraph k g := by
  unfold World.modifyGraph
  congr 1
  refine Array.ext_getElem? fun j => ?_
  rw [Array.getElem?_modify, Array.getElem?_modify]
  split
  · rename_i hj
    subst hj
    cases hw : w.graphs[k]? with
    | none => rfl
    | some x => simpa [World.graph, hw] using h
  · rfl

theorem modifyGraph_self (w : World) (k : Nat) : w.modifyGraph k (fun g => g) = w := by
  unfold World.modifyGraph
  congr 1
  refine Array.ext_getElem? fun j => ?_
  rw [Array.getElem?_modify]
  split
  · exact Option.map_id_apply
  · rfl

theorem modifyGraph_modifyGraph (w : World) (k : Nat) (f g : Graph → Graph) :
    (w.modifyGraph k f).modifyGraph k g = w.modifyGraph k fun x => g (f x) := by
  unfold World.modifyGraph
  congr 1
  refine Array.ext_getElem? fun j => ?_
  simp only [Array.getElem?_modify]
  split
  · exact Option.map_map ..
  · rfl

/-- A graph may have a whole history of such operations. -/
theorem happens_edits (w : World) (k : Nat) {es : List Edit} (hes : ∀ e ∈ es, e.isRegistered = true) :
    ReflTransGen Happens w (w.modifyGraph k (·.edits es)) := by
  induction es generalizing w with
  | nil =>
    rw [show w.modifyGraph k (·.edits []) = w from modifyGraph_self w k]
  | cons e es ih =>
    have hone : ReflTransGen Happens w (w.modifyGraph k (·.edit e)) := by
      cases ha : (w.graph k).attempt e with
      | ok g =>
        have hedit : w.modifyGraph k (·.edit e) = w.modifyGraph k fun _ => g :=
          modifyGraph_congr (by simp [Graph.edit, ha, Except.toOption])
        rw [hedit]
        exact .single (.edit (hes e List.mem_cons_self) ha)
      | error f =>
        have hedit : w.modifyGraph k (·.edit e) = w.modifyGraph k fun g => g :=
          modifyGraph_congr (by simp [Graph.edit, ha, Except.toOption])
        rw [hedit, modifyGraph_self]
    have hrest := ih (w.modifyGraph k (·.edit e)) fun e he => hes e (List.mem_cons_of_mem _ he)
    rw [modifyGraph_modifyGraph] at hrest
    exact hone.trans hrest

/-- Graphs and engines at a point that a host came to from `u`, all that went wrong so far included. -/
structure Secure (r : Registry) (u w : World) : Prop where
  inOrder : InOrder u atRest w
  vetted : w.Vetted r
  routed : ∀ j, (w.engine j).Routed w.Arrives
  failures : ∀ j, ∀ e ∈ (w.engine j).failures, e.isForestalled = false
  manned : ∀ j, (w.engine j).Manned fun x => (w.node x).flowOutputs ≠ []

end World

theorem Engine.Manned.mono {K L : NodeRef → Prop} (hK : ∀ x, K x → L x) {e : Engine} (h : e.Manned K) : e.Manned L :=
  ⟨fun op hop => hK _ (h.operations op hop), fun o output ho => hK _ (h.posts o output ho)⟩

theorem Engine.Routed.mono {G H : Route → Prop} (hG : ∀ x, G x → H x) {e : Engine} (h : e.Routed G) : e.Routed H :=
  fun f hf route hr => hG route (h f hf route hr)

/-- A node that follows another goes on where that does. -/
theorem Node.Follows.flowOutputs_ne_nil {n m : Node} (h : m.Follows n) (hn : n.flowOutputs ≠ []) : m.flowOutputs ≠ [] := by
  have hflow (n : Node) : n.flowOutputs.map Socket.outline = (n.outputs.map Socket.outline).filter (·.2 == ValueType.flowName) := by
    rw [Node.flowOutputs, List.filter_map]
    rfl
  have hsame : m.flowOutputs.map Socket.outline = n.flowOutputs.map Socket.outline := by
    rw [hflow, hflow]
    exact congrArg (List.filter _) (h.outlines .output)
  intro hnone
  rw [hnone] at hsame
  exact hn (List.map_eq_nil_iff.1 hsame.symm)

namespace World

/-- An operation on a graph takes no node away, and makes none into another. -/
theorem follows_edit {r : Registry} {w : World} (hw : w.Vetted r) {k : Nat} {e : Edit} {g : Graph}
    (ha : (w.graph k).attempt e = .ok g) {x : NodeRef} (hx : w.node x ≠ default) :
    ((w.modifyGraph k fun _ => g).node x).Follows (w.node x) := by
  obtain ⟨hg, hn⟩ := (hw.node_cases x).resolve_left hx
  rw [World.node, graph_modifyGraph]
  split
  · rename_i hk
    obtain ⟨m, hm, hfollows⟩ := (Graph.Step.attempt (hk.1 ▸ hg.indexed) ha).kept (hk.1 ▸ hn)
    rw [hm]
    exact hfollows
  · exact .refl _

theorem Outlined.makeEngine (name : String) (nodes : List NodeRef) (settings : RuntimeSettings) (w : World) :
    Outlined w ((Play.makeEngine name nodes settings).runOn w).2 :=
  upholds_makeEngine (conduct_outlined w) rfl (fun _ h _ => h.frame rfl) fun _ _ _ _ _ _ => trivial

namespace Secure

variable {r : Registry} {u w v : World} {i : Nat}

/-- Before there are engines, over graphs that are still empty. -/
theorem start (he : u.engines = #[]) (hd : u.disposers = [])
    (hg : ∀ g ∈ u.graphs, ∃ name replace labels, g = { name := name, registry := r, replaceLinks := replace, labels := labels }) :
    Secure r u u := by
  have hnone (j : Nat) : u.engine j = {} := by
    simp [World.engine, he]
    rfl
  refine ⟨.start he hd, fun g hmem => ?_, fun j => ?_, fun j => ?_, fun j => ?_⟩
  · obtain ⟨name, replace, labels, rfl⟩ := hg g hmem
    exact .of_empty name r replace labels
  · rw [hnone]
    exact .empty
  · rw [hnone]
    exact fun e he => absurd he List.not_mem_nil
  · rw [hnone]
    exact ⟨fun op hop => absurd hop (Array.not_mem_empty op), fun _ _ ho => absurd ho List.not_mem_nil⟩

theorem self (h : Secure r u w) : Routed w.Arrives w w ∧
    Spared (fun x => (w.node x).flowOutputs ≠ []) (·.isForestalled = false) w w :=
  ⟨⟨rfl, h.routed⟩, rfl, h.failures, h.manned⟩

theorem next (h : Secure r u w) (ho : InOrder u atRest v) (hr : Routed w.Arrives w v)
    (hs : Spared (fun x => (w.node x).flowOutputs ≠ []) (·.isForestalled = false) w v) : Secure r u v := by
  refine ⟨ho, h.vetted.outlined hr.outlined, fun j => ?_, hs.failures, fun j => (hs.manned j).mono fun x hx => ?_⟩
  · rw [hr.outlined.arrives]
    exact hr.engines j
  · exact fun hnone => hx ((Outlined.flowOutputs_eq_nil hs.outlined x).1 hnone)

theorem deed (h : Secure r u w) (hd : Deed w v) (ho : Outlined w v) : Secure r u v := by
  obtain ⟨hr, hs⟩ := h.self
  refine h.next (h.inOrder.deed hd) ((Routed.lasting h.vetted.paved).deed (fun hr he _ => hr.frame ho he) hr hd)
    ((Spared.lasting h.vetted.tolerated).deed (fun hs he _ => ⟨ho, fun j => ?_, fun j => ?_⟩) hs hd)
  · rw [engine_congr he]
    exact hs.failures j
  · rw [engine_congr he]
    exact hs.manned j

theorem iteration (h : Secure r u w) (hi : Iteration i w v) : Secure r u v := by
  obtain ⟨hr, hs⟩ := h.self
  refine h.next (h.inOrder.iteration hi) ((Routed.lasting h.vetted.paved).iteration hr (fun _ _ => trivial) hi)
    ((Spared.lasting h.vetted.tolerated).iteration hs (fun {f others e} hq he => ?_) hi)
  have htaken : Routed w.Arrives w (atWork i f others w) := by
    have hpopped : Routed w.Arrives w (w.modifyEngine i fun e => { e with queue := others }) := hr.arrange i fun _ => rfl
    exact hpopped.arrange i fun _ => rfl
  have hvetted : (atWork i f others w).Vetted r := h.vetted
  refine hvetted.not_isForestalled_step ?_ ((h.inOrder.take hq).stepFails_step hvetted.typed he)
  rw [htaken.outlined.arrives]
  exact (htaken.engines i).fiber f

/-- Edits with registered definitions keep a world secure. -/
theorem edit (h : Secure r u w) (hr : r.Vetted) {k : Nat} {e : Edit} (he : e.isRegistered = true) {g : Graph}
    (ha : (w.graph k).attempt e = .ok g) : Secure r u (w.modifyGraph k fun _ => g) := by
  have hfollows {x : NodeRef} (hx : w.node x ≠ default) := follows_edit h.vetted ha hx
  have hgraph (j : Nat) : (w.modifyGraph k fun _ => g).graph j = if k = j ∧ k < w.graphs.size then g else w.graph j :=
    graph_modifyGraph ..
  refine ⟨h.inOrder.frame rfl rfl, ?_, fun j => (h.routed j).mono ?_, h.failures, fun j => (h.manned j).mono fun x hx => ?_⟩
  · intro g' hg'
    obtain ⟨j, hj⟩ := Array.mem_iff_getElem?.1 hg'
    simp only [World.modifyGraph, Array.getElem?_modify] at hj
    split at hj
    · rename_i hk
      obtain ⟨g₀, hg₀, rfl⟩ := Option.map_eq_some_iff.1 hj
      have hvetted : (w.graph k).Vetted r := by
        rw [World.graph, hk, hg₀]
        exact h.vetted g₀ (Array.mem_of_getElem? hg₀)
      exact hvetted.attempt hr he ha
    · exact h.vetted g' (Array.mem_of_getElem? hj)
  · rintro route ⟨ends, hends, hkind⟩
    have hthere : w.node ⟨route.graph, ends.target.node⟩ ≠ default := by
      intro hnone
      rw [hnone] at hkind
      rcases hkind with hkind | hkind <;> cases hkind
    have hsame : ((w.modifyGraph k fun _ => g).node ⟨route.graph, ends.target.node⟩).kind =
        (w.node ⟨route.graph, ends.target.node⟩).kind := congrArg (·.2.1.kind) (hfollows hthere).origin
    refine ⟨ends, ?_, hsame ▸ hkind⟩
    rw [hgraph]
    split
    · rename_i hk
      obtain ⟨hg, -⟩ := (h.vetted.node_cases _).resolve_left hthere
      rw [← hk.1] at hends hg
      exact Graph.endsOf_attempt hg.indexed ha hends
    · exact hends
  · refine (hfollows fun hnone => ?_).flowOutputs_ne_nil hx
    rw [hnone] at hx
    exact hx rfl

theorem happens (h : Secure r u w) (hr : r.Vetted) (hw : ReflTransGen Happens w v) : Secure r u v := by
  induction hw with
  | refl => exact h
  | tail _ hstep ih =>
    cases hstep with
    | deed hd ho => exact ih.deed hd ho
    | iteration hi => exact ih.iteration hi
    | edit he ha => exact ih.edit hr he ha

end Secure

/-- A run with any limits comes to its end. -/
theorem Vetted.run_returns {r : Registry} {u w : World} (h : w.Vetted r) (hu : InOrder u atRest w) (i : Nat)
    (maxSteps : Option Int) (maxSeconds : Option Double) : ∃ n, ((run i maxSteps maxSeconds).runOn w).1 = .ok n := by
  have hdrains := fun n => drains_drain (n := n) (m := n) (t := 0) (Onward.inbox_drainInbox w i) (by simp)
  rw [run, runOn_bind, runOn_modify]
  dsimp only
  rw [runOn_get]
  obtain ⟨acts, hacts⟩ := hdrains (budget ((w.drainInbox i).engine i).settings maxSteps maxSeconds)
  exact hacts.returns (hu.drainInbox i) (h.typed.outlined ((show Outlined w w from rfl).drainInbox i))

/-- An event node that begins goes wrong with what its behaviour is to blame for. -/
theorem blames_initOf {u : World} {x : NodeRef} (hx : (u.node x).kind = .event) (i : Nat) : Yields (Outlined u)
    (fun e => ∃ reason : NodeReason, reason.ofCall .init (u.node x).definition.behaviour.isMissing = true ∧
      e = u.nodeFailure x reason) (initOf i x) fun _ => True := by
  refine .look fun w h => ?_
  rw [h.definition]
  have hkind : (u.node x).definition.behaviour.kind = .event := hx
  cases hb : (u.node x).definition.behaviour with
  | event b =>
    exact blames_invoke_map .init b fun b => b.yields_run (utters_spoken u ⟨x, .event i⟩) (conduct_outlined u) trivial
  | _ =>
    rw [hb] at hkind
    cases hkind

/-- Event nodes that are there have something to begin with. -/
theorem Vetted.not_isForestalled_halts {r : Registry} {u w v : World} (hu : u.Vetted r) (ho : Outlined u w) {i : Nat}
    {xs ready : List NodeRef} (hxs : ∀ x ∈ xs, u.node x ≠ default ∧ (u.node x).kind = .event) {x : NodeRef} {e : Failure}
    (h : Halts i xs w ready x e v) : e.isForestalled = false := by
  induction h with
  | @fails x _ w e v hrun =>
    obtain ⟨hthere, hkind⟩ := hxs x List.mem_cons_self
    obtain ⟨reason, hreason, rfl⟩ := (blames_initOf hkind i w ho).2.2 e (congrArg Prod.fst hrun)
    obtain ⟨hg, hn⟩ := (hu.node_cases x).resolve_left hthere
    rw [(hg.nodes hn).2.present] at hreason
    exact not_isForestalled_of_ofCall _ _ hreason
  | @begins x _ w z _ _ _ _ hrun _ ih =>
    have hbegun := outlined_initOf i x w
    rw [hrun] at hbegun
    exact ih (hbegun.trans ho) fun y hy => hxs y (List.mem_cons_of_mem x hy)

/-- Nor does an engine that is made of vetted nodes. -/
theorem Vetted.not_isForestalled_makeEngine {r : Registry} {w : World} (h : w.Vetted r) {name : String} {nodes : List NodeRef}
    (hnodes : ∀ x ∈ nodes, w.node x ≠ default) {settings : RuntimeSettings} {e : Failure}
    (he : ((Play.makeEngine name nodes settings).runOn w).1 = .error e) : e.isForestalled = false := by
  have hmake : (Play.makeEngine name nodes settings).runOn w = (do
      subscribeAll w.engines.size [] (eventsOf w nodes)
      modify (·.modifyEngine w.engines.size fun e => { e with isObserved := true })
      return w.engines.size : Play Nat).runOn (opening name nodes settings w) := rfl
  rw [hmake, runOn_bind] at he
  generalize hrun : (subscribeAll w.engines.size [] (eventsOf w nodes)).runOn (opening name nodes settings w) = p at he
  obtain ⟨_ | _, v⟩ := p
  · cases he
    obtain ⟨ready, x, e', z, hhalts, hback⟩ := halts_of_subscribeAll hrun
    rw [List.append_nil, runOn_bind] at hback
    generalize hall : (ready.forM (disposeNode Play.dispose)).runOn z = q at hback
    obtain ⟨_ | _, z'⟩ := q
    · cases hback
      obtain ⟨id, t, cause, rfl⟩ := disposal_of_disposeAll hall
      rfl
    · cases hback
      refine h.not_isForestalled_halts (w := opening name nodes settings w) rfl (fun x hx => ?_) hhalts
      obtain ⟨hmem, hkind⟩ := List.mem_filter.1 hx
      exact ⟨hnodes x hmem, of_decide_eq_true hkind⟩
  · cases he

end World

/-- What the checks of a registry are good for, where definitions list their sockets. From graphs that are still empty on, a
host edits them by registered types and runs them, in any order, and behaviours do whatever they like. At any point no graph
refuses a node for the type of a value, the names of sockets are distinct on each side of every node, no engine has had a
failure that the checks rule out and none is made in vain for one, and every run comes to its end, so that none escapes it. -/
theorem forestalled_of_vetted {r : Registry} (hr : r.Vetted) {u w : World} (he : u.engines = #[]) (hd : u.disposers = [])
    (hu : ∀ g ∈ u.graphs, ∃ name replace labels, g = { name := name, registry := r, replaceLinks := replace, labels := labels })
    (hw : ReflTransGen World.Happens u w) :
    (∀ g ∈ w.graphs, (∀ typeName id overrides position e, g.addNode typeName id overrides position = .error e →
        e.isForestalled = false) ∧
      ∀ k n, g.nodeAt? k = some n → ∀ side : Side, ((side.sockets n).map (·.name)).Nodup) ∧
    (∀ i, ∀ e ∈ (w.engine i).failures, e.isForestalled = false) ∧
    (∀ name nodes settings e, (∀ x ∈ nodes, w.node x ≠ default) → ((Play.makeEngine name nodes settings).runOn w).1 = .error e →
      e.isForestalled = false) ∧
    ∀ i maxSteps maxSeconds, ∃ n, ((run i maxSteps maxSeconds).runOn w).1 = .ok n := by
  have hsecure := (World.Secure.start he hd hu).happens hr hw
  refine ⟨fun g hg => ⟨fun _ _ _ _ _ => ?_, fun k n hn side => ?_⟩, hsecure.failures, ?_, ?_⟩
  · exact Graph.Vetted.not_isForestalled_addNode hr (hsecure.vetted g hg)
  · exact ((hsecure.vetted g hg).nodes hn).2.distinct side
  · exact fun _ _ _ _ hnodes => hsecure.vetted.not_isForestalled_makeEngine hnodes
  · exact hsecure.vetted.run_returns hsecure.inOrder

namespace Forestalled

/-- The core catalogue without the definitions whose sockets depend on something. -/
def registry : Registry := ({} : Registry).extend {
  values := Catalogue.coreValues
  nodes := Catalogue.coreNodes.filter (·.isStatic)
  conversions := Table.ofList Catalogue.coreConversions
  usualServices := [.logger, .lifecycle, .scheduler] }

theorem vetted_registry : registry.Vetted := by
  have hchecks : (∀ d ∈ registry.nodes.values, d.isStatic = true) ∧ registry.problems = .ok [] := by decide +kernel
  exact ⟨hchecks.1, hchecks.2⟩

/-- The time is logged, carried over from a number to a text. -/
def history : List Edit := [
  .add "Start" (some "start") [] Graph.noPosition,
  .add "Log" (some "log") [] Graph.noPosition,
  .add "Now" (some "now") [] Graph.noPosition,
  .connect ⟨"start", "exec", "log", "exec"⟩ false,
  .connect ⟨"now", "seconds", "log", "text"⟩ false]

def bare : World := { graphs := #[{ registry := registry }] }

def edited : World := bare.modifyGraph 0 (·.edits history)

def made : World := ((Play.makeEngine "main" [⟨0, 0⟩, ⟨0, 1⟩, ⟨0, 2⟩] {}).runOn edited).2

def begun : World := made.begin 0 ⟨0, 0⟩ "exec" none []

theorem happens_begun : ReflTransGen World.Happens bare begun := by
  have hmade : World.Happens edited made := .deed (.makeEngine ..) (Outlined.makeEngine ..)
  have hbegun : World.Happens made begun :=
    .deed (.begin _ 0 ⟨0, 0⟩ "exec" [] fun _ hl => by cases hl) ((show Outlined made made from rfl).begin 0 ⟨0, 0⟩ "exec" none [])
  exact ((happens_edits bare 0 (by decide)).tail hmade).tail hbegun

end Forestalled

open Forestalled in
theorem forestalled_of_vetted_core : (edited.graph 0).links.length = 2 ∧ (begun.engine 0).queue = [0] ∧
    (∀ i, ∀ e ∈ (begun.engine i).failures, e.isForestalled = false) ∧
    ∀ i maxSteps maxSeconds, ∃ n, ((run i maxSteps maxSeconds).runOn begun).1 = .ok n := by
  have hempty : ∀ g ∈ bare.graphs, ∃ name replace labels,
      g = { name := name, registry := registry, replaceLinks := replace, labels := labels } := by
    intro g hg
    have hone : g = { registry := registry } := by simpa [bare] using hg
    exact ⟨_, _, _, hone⟩
  obtain ⟨-, hfailures, -, hruns⟩ := forestalled_of_vetted vetted_registry rfl rfl hempty happens_begun
  have hmade : (edited.graph 0).links.length = 2 ∧ (begun.engine 0).queue = [0] := by decide +kernel
  exact ⟨hmade.1, hmade.2, hfailures, hruns⟩

end FlowGraph
