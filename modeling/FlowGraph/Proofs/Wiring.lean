import FlowGraph.Graph.Edit

/-!
Wires at sockets. An operation on wires leaves everything else as it was: the graph without its wires,
`bare`, stays the same, and the wires at a socket change by a function of the socket's place.
-/
namespace FlowGraph

namespace Side

def sockets : Side → Node → List Socket
  | output, n => n.outputs
  | input, n => n.inputs

def nodeOf : Side → Link → String
  | output, l => l.source
  | input, l => l.target

def nameOf : Side → Link → String
  | output, l => l.output
  | input, l => l.input

def endOf : Side → Ends → End
  | output, e => e.source
  | input, e => e.target

/-- Whether a wire belongs at the socket of that place. -/
def meets (side : Side) (id : String) (sockets : List Socket) (p : Nat) (w : Wire) : Bool :=
  side.nodeOf w.link = id ∧ Node.place? (side.nameOf w.link) sockets = some p

end Side

def Socket.bare (s : Socket) : Socket := { s with wires := [] }

def Node.bare (n : Node) : Node :=
  { n with inputs := n.inputs.map Socket.bare, outputs := n.outputs.map Socket.bare }

namespace Node

theorem place?_eq (name : String) (ss : List Socket) :
    place? name ss = (ss.map (·.name)).findIdx? (· = name) := by
  rw [List.findIdx?_map]
  rfl

theorem place?_congr {ss ts : List Socket} (h : ss.map (·.name) = ts.map (·.name)) (name : String) :
    place? name ss = place? name ts := by
  rw [place?_eq, place?_eq, h]

/-- The socket at the place of a name is the one that is found by the name. -/
theorem find?_eq_place? (name : String) (ss : List Socket) :
    ss.find? (·.name = name) = (place? name ss).bind (ss[·]?) :=
  List.find?_eq_bind_findIdx?_getElem?

theorem getElem?_of_place? {name : String} {ss : List Socket} {p : Nat} (h : place? name ss = some p) :
    ∃ s, ss[p]? = some s ∧ s.name = name := by
  obtain ⟨hp, hs, -⟩ := List.findIdx?_eq_some_iff_getElem.1 h
  exact ⟨ss[p], List.getElem?_eq_getElem hp, by simpa using hs⟩

/-- A value that is put at the place of a name is found by that name and by no other. -/
theorem find?_put {name : String} {ss : List Socket} {i : Nat} (hi : place? name ss = some i) (v : Value) (other : String) :
    (ss.modify i fun s => { s with value := v }).find? (·.name = other) =
      if other = name then (ss.find? (·.name = name)).map fun s => { s with value := v } else ss.find? (·.name = other) := by
  have hnames : (ss.modify i fun s => { s with value := v }).map (·.name) = ss.map (·.name) := by
    apply List.ext_getElem?
    intro j
    simp only [List.getElem?_map, List.getElem?_modify]
    cases ss[j]? with
    | none => rfl
    | some s => by_cases hj : i = j <;> simp [hj]
  rw [find?_eq_place?, place?_congr hnames]
  split
  · rename_i heq
    subst heq
    rw [find?_eq_place?, hi]
    simp
  · rename_i hne
    rw [find?_eq_place?]
    cases hj : place? other ss with
    | none => rfl
    | some j =>
      have hij : i ≠ j := by
        rintro rfl
        obtain ⟨s, hs, hname⟩ := getElem?_of_place? hi
        obtain ⟨t, ht, hother⟩ := getElem?_of_place? hj
        rw [hs] at ht
        cases ht
        exact hne (hother.symm.trans hname)
      simp [hij]

end Node

theorem Side.sockets_bare (side : Side) (n : Node) : side.sockets n.bare = (side.sockets n).map Socket.bare := by
  cases side <;> rfl

/-- Nodes that differ only in their wires have the same names on each side. -/
theorem Side.names_of_bare {n m : Node} (h : n.bare = m.bare) (side : Side) :
    (side.sockets n).map (·.name) = (side.sockets m).map (·.name) := by
  have hs : (side.sockets n).map Socket.bare = (side.sockets m).map Socket.bare := by
    rw [← side.sockets_bare, ← side.sockets_bare, h]
  simpa [Function.comp_def, Socket.bare] using congrArg (List.map (·.name)) hs

theorem Side.meets_congr {ss ts : List Socket} (h : ss.map (·.name) = ts.map (·.name)) (side : Side)
    (id : String) (p : Nat) (w : Wire) : side.meets id ss p w = side.meets id ts p w := by
  simp only [Side.meets, Node.place?_congr h]

/-- With distinct links, removing one wire of a link removes all. -/
theorem Wire.remove_eq_filter {l : Link} {ws : List Wire} (h : (ws.map (·.link)).Nodup) :
    Wire.remove l ws = ws.filter (·.link ≠ l) := by
  induction ws with
  | nil => rfl
  | cons w ws ih =>
    obtain ⟨hout, hrest⟩ := List.nodup_cons.1 h
    by_cases hw : w.link = l
    · have hkeep : ws.filter (·.link ≠ l) = ws := by
        rw [List.filter_eq_self]
        intro v hv
        have hne : v.link ≠ l := by
          intro hl
          exact hout (List.mem_map.2 ⟨v, hv, hl.trans hw.symm⟩)
        simpa using hne
      rw [List.filter_cons_of_neg (by simpa using hw), hkeep]
      simp [Wire.remove, hw]
    · have hcons : Wire.remove l (w :: ws) = w :: Wire.remove l ws := by simp [Wire.remove, hw]
      rw [hcons, ih hrest, List.filter_cons_of_pos (by simpa using hw)]

/-- What links see of a socket: not what it holds. -/
def Socket.frame (s : Socket) : String × String × List Wire := (s.name, s.valueType, s.wires)

/-- What links see of a node. -/
def Node.frame (n : Node) : String × List (String × String × List Wire) × List (String × String × List Wire) :=
  (n.id, n.inputs.map Socket.frame, n.outputs.map Socket.frame)

theorem Side.frames_of_frame {n m : Node} (h : n.frame = m.frame) (side : Side) :
    (side.sockets n).map Socket.frame = (side.sockets m).map Socket.frame := by
  simp only [Node.frame, Prod.mk.injEq] at h
  cases side with
  | output => exact h.2.2
  | input => exact h.2.1

theorem Side.names_of_frame {n m : Node} (h : n.frame = m.frame) (side : Side) :
    (side.sockets n).map (·.name) = (side.sockets m).map (·.name) := by
  simpa [Function.comp_def, Socket.frame] using congrArg (List.map (·.1)) (side.frames_of_frame h)

theorem Side.getElem?_of_frame {n m : Node} (h : n.frame = m.frame) {side : Side} {p : Nat} {s : Socket}
    (hs : (side.sockets n)[p]? = some s) : ∃ t, (side.sockets m)[p]? = some t ∧ t.frame = s.frame := by
  have hp := congrArg (·[p]?) (side.frames_of_frame h)
  simp only [List.getElem?_map, hs] at hp
  exact Option.map_eq_some_iff.1 hp.symm

theorem map_frame_modify (ss : List Socket) (p : Nat) {f : Socket → Socket} (hf : ∀ s, (f s).frame = s.frame) :
    (ss.modify p f).map Socket.frame = ss.map Socket.frame := by
  apply List.ext_getElem?
  intro i
  simp only [List.getElem?_map, List.getElem?_modify]
  split
  · cases ss[i]? <;> simp [hf]
  · simp

namespace Node

@[simp] theorem frame_setInput (n : Node) (i : Nat) (v : Value) : (n.setInput i v).frame = n.frame := by
  have hi := map_frame_modify n.inputs i (f := fun s => { s with value := v }) fun _ => rfl
  simp only [frame, setInput, hi]

@[simp] theorem frame_setOutput (n : Node) (i : Nat) (v : Value) : (n.setOutput i v).frame = n.frame := by
  have ho := map_frame_modify n.outputs i (f := fun s => { s with value := v }) fun _ => rfl
  simp only [frame, setOutput, ho]

end Node

namespace Graph

def bare (g : Graph) : Graph :=
  { g with arena := g.arena.map Node.bare, wires := [], ends := #[] }

theorem nodeAt?_bare (g : Graph) (k : Nat) : g.bare.nodeAt? k = (g.nodeAt? k).map Node.bare := by
  simp [bare, nodeAt?]

/-- The link has that end on the side: its node is in the graph, and the end is the first socket of its
name there. -/
def Leads (g : Graph) (side : Side) (l : Link) (e : End) : Prop :=
  ∃ n, g.serial? (side.nodeOf l) = some e.node ∧ g.nodeAt? e.node = some n ∧
    Node.place? (side.nameOf l) (side.sockets n) = some e.socket

/-- A link resolves to its ends just if both sides lead there. -/
theorem resolve_eq_ok_iff (g : Graph) (l : Link) (e : Ends) :
    g.resolve l = .ok e ↔ ∀ side, g.Leads side l (Side.endOf side e) := by
  constructor
  · intro h side
    simp only [resolve] at h
    split at h
    · rename_i s hs
      split at h
      · rename_i n hn
        split at h
        · rename_i t ht
          split at h
          · rename_i m hm
            split at h
            · rename_i o ho
              split at h
              · rename_i i hi
                cases h
                cases side with
                | output => exact ⟨n, hs, hn, ho⟩
                | input => exact ⟨m, ht, hm, hi⟩
              · cases h
            · cases h
          · cases h
        · cases h
      · cases h
    · cases h
  · intro h
    obtain ⟨n, hs, hn, ho⟩ := h .output
    obtain ⟨m, ht, hm, hi⟩ := h .input
    simp only [Side.nodeOf, Side.nameOf, Side.endOf, Side.sockets] at hs hn ho ht hm hi
    simp only [resolve, hs, hn, ht, hm, ho, hi]
    rfl

/-- Where a link leads does not depend on wires. -/
theorem leads_bare (g : Graph) (side : Side) (l : Link) (e : End) :
    g.bare.Leads side l e ↔ g.Leads side l e := by
  simp only [Leads, nodeAt?_bare, show g.bare.serial? = g.serial? from rfl]
  constructor
  · rintro ⟨_, hs, hb, hp⟩
    obtain ⟨n, hn, rfl⟩ := Option.map_eq_some_iff.1 hb
    refine ⟨n, hs, hn, ?_⟩
    rw [← hp, side.sockets_bare]
    exact Node.place?_congr (by simp [Function.comp_def, Socket.bare]) _
  · rintro ⟨n, hs, hn, hp⟩
    refine ⟨n.bare, hs, by simp [hn], ?_⟩
    rw [← hp, side.sockets_bare]
    exact Node.place?_congr (by simp [Function.comp_def, Socket.bare]) _

/-- The type of the socket at an end. -/
def typeAt? (g : Graph) (side : Side) (e : End) : Option String :=
  ((g.nodeAt? e.node).bind fun n => (side.sockets n)[e.socket]?).map (·.valueType)

theorem typeAt?_bare (g : Graph) (side : Side) (e : End) : g.bare.typeAt? side e = g.typeAt? side e := by
  simp only [typeAt?, nodeAt?_bare]
  cases g.nodeAt? e.node with
  | none => rfl
  | some n => simp [side.sockets_bare, Socket.bare, Function.comp_def]

/-- The link leads from one socket of the graph to another, and their types fit together. -/
structure Joins (g : Graph) (l : Link) (e : Ends) : Prop where
  leads : ∀ side, g.Leads side l (Side.endOf side e)
  fits : ∃ s t, g.typeAt? .output e.source = some s ∧ g.typeAt? .input e.target = some t ∧
    g.registry.canConnect s t = true

/-- Links join the same sockets in graphs that differ only in their wires. -/
theorem Joins.of_bare {g h : Graph} (hb : h.bare = g.bare) {l : Link} {e : Ends} (hj : g.Joins l e) :
    h.Joins l e := by
  constructor
  · intro side
    rw [← leads_bare, hb, leads_bare]
    exact hj.leads side
  · obtain ⟨s, t, hs, ht, hc⟩ := hj.fits
    refine ⟨s, t, ?_, ?_, ?_⟩
    · rw [← typeAt?_bare, hb, typeAt?_bare]
      exact hs
    · rw [← typeAt?_bare, hb, typeAt?_bare]
      exact ht
    · have hr : h.bare.registry = g.bare.registry := by rw [hb]
      exact (congrArg (Registry.canConnect · s t) hr).trans hc

/-- The graphs have the same links at the same sockets; only what sockets hold and the declarations may
differ. -/
structure SameLinks (g h : Graph) : Prop where
  ids : h.ids = g.ids
  registry : h.registry = g.registry
  wires : h.wires = g.wires
  ends : h.ends = g.ends
  nodes : ∀ k, (h.nodeAt? k).map Node.frame = (g.nodeAt? k).map Node.frame

namespace SameLinks

variable {g h i : Graph}

theorem refl (g : Graph) : SameLinks g g := ⟨rfl, rfl, rfl, rfl, fun _ => rfl⟩

theorem trans (hg : SameLinks g h) (hh : SameLinks h i) : SameLinks g i :=
  ⟨hh.ids.trans hg.ids, hh.registry.trans hg.registry, hh.wires.trans hg.wires, hh.ends.trans hg.ends,
    fun k => (hh.nodes k).trans (hg.nodes k)⟩

theorem symm (hg : SameLinks g h) : SameLinks h g :=
  ⟨hg.ids.symm, hg.registry.symm, hg.wires.symm, hg.ends.symm, fun k => (hg.nodes k).symm⟩

theorem serial? (hg : SameLinks g h) (id : String) : h.serial? id = g.serial? id :=
  congrArg (Table.get? · id) hg.ids

theorem nodeAt? (hg : SameLinks g h) {k : Nat} {m : Node} (hm : h.nodeAt? k = some m) :
    ∃ n, g.nodeAt? k = some n ∧ n.frame = m.frame := by
  have hk := hg.nodes k
  rw [hm] at hk
  exact Option.map_eq_some_iff.1 hk.symm

theorem leads (hg : SameLinks g h) {side : Side} {l : Link} {e : End} (hl : h.Leads side l e) :
    g.Leads side l e := by
  obtain ⟨m, hs, hm, hp⟩ := hl
  obtain ⟨n, hn, hf⟩ := hg.nodeAt? hm
  exact ⟨n, hg.serial? _ ▸ hs, hn, (Node.place?_congr (side.names_of_frame hf) _).trans hp⟩

theorem typeAt? (hg : SameLinks g h) {side : Side} {e : End} {t : String} (ht : h.typeAt? side e = some t) :
    g.typeAt? side e = some t := by
  obtain ⟨s, hs, rfl⟩ := Option.map_eq_some_iff.1 ht
  obtain ⟨m, hm, hp⟩ := Option.bind_eq_some_iff.1 hs
  obtain ⟨n, hn, hf⟩ := hg.nodeAt? hm
  obtain ⟨t, ht, hst⟩ := Side.getElem?_of_frame hf.symm hp
  have hty : t.valueType = s.valueType := congrArg (·.2.1) hst
  simp [Graph.typeAt?, hn, ht, hty]

theorem joins (hg : SameLinks g h) {l : Link} {e : Ends} (hj : h.Joins l e) : g.Joins l e := by
  obtain ⟨s, t, hs, ht, hc⟩ := hj.fits
  exact ⟨fun side => hg.leads (hj.leads side), s, t, hg.typeAt? hs, hg.typeAt? ht, hg.registry ▸ hc⟩

/-- What the declarations are and which labels were given does not matter to links. -/
theorem withNames (hg : SameLinks g h) (vars : Table String Variable) (events : Table String CustomEvent)
    (issued labels : Nat) :
    SameLinks g { h with vars := vars, events := events, issued := issued, labels := labels } :=
  ⟨hg.ids, hg.registry, hg.wires, hg.ends, hg.nodes⟩

theorem modifyNode {f : Node → Node} (hf : ∀ n, (f n).frame = n.frame) (g : Graph) (k : Nat) :
    SameLinks g (g.modifyNode k f) := by
  refine ⟨rfl, rfl, rfl, rfl, ?_⟩
  intro j
  simp only [Graph.nodeAt?, Graph.modifyNode, Array.getElem?_modify]
  split
  · cases g.arena[j]? <;> simp [hf]
  · rfl

end SameLinks

/-- `h` is `g` with the wires at every socket changed by a function of its place. -/
structure Rewired (g h : Graph) (F : Side → End → List Wire → List Wire) : Prop where
  bare : h.bare = g.bare
  sockets : ∀ {k : Nat} {m : Node}, h.nodeAt? k = some m → ∃ n, g.nodeAt? k = some n ∧
    ∀ side p, (Side.sockets side m)[p]? =
      ((Side.sockets side n)[p]?).map fun (s : Socket) => { s with wires := F side ⟨k, p⟩ s.wires }

theorem Rewired.refl (g : Graph) : Rewired g g fun _ _ ws => ws :=
  ⟨rfl, fun {_ m} hm => ⟨m, hm, by simp⟩⟩

theorem Rewired.trans {g h i : Graph} {F G : Side → End → List Wire → List Wire} (hF : Rewired g h F)
    (hG : Rewired h i G) : Rewired g i fun side e ws => G side e (F side e ws) := by
  refine ⟨hG.bare.trans hF.bare, ?_⟩
  intro k n hn
  obtain ⟨m, hm, hmn⟩ := hG.sockets hn
  obtain ⟨o, ho, hom⟩ := hF.sockets hm
  refine ⟨o, ho, ?_⟩
  intro side p
  rw [hmn, hom, Option.map_map]
  rfl

def modifyWires : Side → Graph → End → (List Wire → List Wire) → Graph
  | .output => modifyOutputWires
  | .input => modifyInputWires

theorem nodeAt?_modifyNode (g : Graph) (k j : Nat) (f : Node → Node) :
    (g.modifyNode k f).nodeAt? j = if k = j then (g.nodeAt? j).map f else g.nodeAt? j := by
  simp only [nodeAt?, modifyNode, Array.getElem?_modify]

theorem map_bare_modify (ss : List Socket) (p : Nat) (f : List Wire → List Wire) :
    (ss.modify p fun s => { s with wires := f s.wires }).map Socket.bare = ss.map Socket.bare := by
  apply List.ext_getElem?
  intro i
  simp only [List.getElem?_map, List.getElem?_modify]
  split
  · cases ss[i]? <;> rfl
  · cases ss[i]? <;> rfl

theorem bare_modifyNode {g : Graph} {k : Nat} {f : Node → Node} (hf : ∀ n, (f n).bare = n.bare) :
    (g.modifyNode k f).bare = g.bare := by
  have ha : (g.arena.modify k f).map Node.bare = g.arena.map Node.bare := by
    apply Array.ext_getElem?
    intro i
    simp only [Array.getElem?_map, Array.getElem?_modify]
    split
    · cases g.arena[i]? <;> simp [hf]
    · rfl
  simp only [bare, modifyNode, ha]

/-- Changing the wires at one end changes no other. -/
theorem rewired_modifyWires (g : Graph) (side : Side) (e : End) (f : List Wire → List Wire) :
    Rewired g (modifyWires side g e f) fun side' e' ws => if side' = side ∧ e' = e then f ws else ws := by
  constructor
  · cases side with
    | output => exact bare_modifyNode fun n => by simp [Node.bare, map_bare_modify]
    | input => exact bare_modifyNode fun n => by simp [Node.bare, map_bare_modify]
  · intro k m hm
    cases side with
    | output =>
      simp only [modifyWires, modifyOutputWires, nodeAt?_modifyNode] at hm
      split at hm
      · rename_i hk
        obtain ⟨n, hn, rfl⟩ := Option.map_eq_some_iff.1 hm
        refine ⟨n, hn, ?_⟩
        intro side' p
        cases side' with
        | output =>
          simp only [Side.sockets, List.getElem?_modify]
          by_cases hp : e.socket = p
          · have he : (⟨k, p⟩ : End) = e := by rw [← hk, ← hp]
            simp [hp, he]
          · have he : (⟨k, p⟩ : End) ≠ e := fun h => hp (by rw [← h])
            simp [hp, he]
        | input => simp [Side.sockets]
      · rename_i hk
        refine ⟨m, hm, ?_⟩
        intro side' p
        have he : (⟨k, p⟩ : End) ≠ e := fun h => hk (by rw [← h])
        simp [he]
    | input =>
      simp only [modifyWires, modifyInputWires, nodeAt?_modifyNode] at hm
      split at hm
      · rename_i hk
        obtain ⟨n, hn, rfl⟩ := Option.map_eq_some_iff.1 hm
        refine ⟨n, hn, ?_⟩
        intro side' p
        cases side' with
        | input =>
          simp only [Side.sockets, List.getElem?_modify]
          by_cases hp : e.socket = p
          · have he : (⟨k, p⟩ : End) = e := by rw [← hk, ← hp]
            simp [hp, he]
          · have he : (⟨k, p⟩ : End) ≠ e := fun h => hp (by rw [← h])
            simp [hp, he]
        | output => simp [Side.sockets]
      · rename_i hk
        refine ⟨m, hm, ?_⟩
        intro side' p
        have he : (⟨k, p⟩ : End) ≠ e := fun h => hk (by rw [← h])
        simp [he]

/-- The same change of the wires at both ends of a link. -/
def atEnds (e : Ends) (f : List Wire → List Wire) (side : Side) (e' : End) (ws : List Wire) : List Wire :=
  if e' = Side.endOf side e then f ws else ws

theorem rewired_bothEnds (g : Graph) (e : Ends) (f : List Wire → List Wire) :
    Rewired g (modifyWires .input (modifyWires .output g e.source f) e.target f) (atEnds e f) := by
  have h := (rewired_modifyWires g .output e.source f).trans
    (rewired_modifyWires (modifyWires .output g e.source f) .input e.target f)
  have hF : atEnds e f = fun side e' ws => if side = .input ∧ e' = e.target then
      f (if side = .output ∧ e' = e.source then f ws else ws)
      else if side = .output ∧ e' = e.source then f ws else ws := by
    funext side e' ws
    cases side with
    | output => by_cases he : e' = e.source <;> simp [atEnds, Side.endOf, he]
    | input => by_cases he : e' = e.target <;> simp [atEnds, Side.endOf, he]
  rw [hF]
  exact h

/-- Takes the first wire of a link out of its socket on one side. -/
def unplugAt (side : Side) (g : Graph) (l : Link) : Graph :=
  match g.serial? (side.nodeOf l) with
  | some k => match (g.nodeAt? k).bind fun n => Node.place? (side.nameOf l) (side.sockets n) with
    | some p => modifyWires side g ⟨k, p⟩ (Wire.remove l)
    | none => g
  | none => g

theorem unplug_eq (g : Graph) (l : Link) : g.unplug l = unplugAt .input (unplugAt .output g l) l := rfl

@[simp] theorem ends_unplugAt (side : Side) (g : Graph) (l : Link) : (unplugAt side g l).ends = g.ends := by
  unfold unplugAt
  split
  · split
    · cases side <;> rfl
    · rfl
  · rfl

@[simp] theorem ends_unplug (g : Graph) (l : Link) : (g.unplug l).ends = g.ends := by
  rw [unplug_eq, ends_unplugAt, ends_unplugAt]

theorem unplugAt_of_leads {g : Graph} {side : Side} {l : Link} {e : End} (h : g.Leads side l e) :
    unplugAt side g l = modifyWires side g e (Wire.remove l) := by
  obtain ⟨n, hs, hn, hp⟩ := h
  simp [unplugAt, hs, hn, hp]

theorem rewired_unplug {g : Graph} {l : Link} {e : Ends} (h : g.Joins l e) :
    Rewired g (g.unplug l) (atEnds e (Wire.remove l)) := by
  have ho := unplugAt_of_leads (h.leads .output)
  have hb : (modifyWires .output g e.source (Wire.remove l)).bare = g.bare :=
    (rewired_modifyWires g .output e.source _).bare
  have hi := unplugAt_of_leads ((h.of_bare hb).leads .input)
  simp only [Side.endOf] at ho hi
  rw [unplug_eq, ho, hi]
  exact rewired_bothEnds g e (Wire.remove l)

/-- The list of all wires and the table of their ends are no part of the sockets. -/
theorem Rewired.withWires {g h : Graph} {F : Side → End → List Wire → List Wire} (hF : Rewired g h F)
    (ws : List Wire) (ends : Array (Option Ends)) : Rewired g { h with wires := ws, ends := ends } F :=
  ⟨hF.bare, hF.sockets⟩

theorem rewired_plug (g : Graph) (w : Wire) (e : Ends) : Rewired g (g.plug w e) (atEnds e (· ++ [w])) := by
  have h := (rewired_bothEnds g e (· ++ [w])).withWires (g.wires ++ [w]) g.ends
  exact h

end Graph

end FlowGraph
