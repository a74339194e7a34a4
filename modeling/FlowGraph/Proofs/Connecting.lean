import FlowGraph.Proofs.Relinking

/-!
Making a link. A link is made exactly when its nodes and sockets are there, their types fit, it is new, and
its input takes one more or may give up the one it has. What is made is that link alone: it goes last, the
links that gave way are gone, and all else is as it was, so that taking it back restores the graph.
-/
namespace FlowGraph

namespace Graph

/-- The links of the graph that arrive at the input of a link. -/
def arriving (g : Graph) (l : Link) : List Link :=
  g.links.filter fun l' => l'.target = l.target ∧ l'.input = l.input

/-- The links of the graph whose place a link would take: those at its input, where that holds data. -/
def givingWay (g : Graph) (l : Link) : List Link :=
  if ((g.node? l.target).bind (·.input? l.input)).any (·.isFlow) then [] else g.arriving l

/-- The graph takes the link: its sockets are there and fit, it is not there yet, and its input is one for
execution, or free, or gives up what it has under the policy. -/
def Accepts (g : Graph) (l : Link) (replace : Option Bool) : Prop :=
  ∃ source target output input, g.node? l.source = some source ∧ g.node? l.target = some target ∧
    source.output? l.output = some output ∧ target.input? l.input = some input ∧
    g.registry.canConnect output.valueType input.valueType = true ∧ l ∉ g.links ∧
    (input.isFlow = true ∨ g.arriving l = [] ∨ replace.getD g.replaceLinks = true)

/-- The socket of a place, be its node part of the graph or not. -/
def socketAt? (g : Graph) (side : Side) (e : End) : Option Socket :=
  (g.nodeAt? e.node).bind fun n => (side.sockets n)[e.socket]?

def wiresAt? (g : Graph) (side : Side) (e : End) : Option (List Wire) := (g.socketAt? side e).map (·.wires)

/-- `h` is `g` with one link more, in the place of those that gave way. -/
structure Connected (g : Graph) (l : Link) (h : Graph) (w : Wire) : Prop where
  link : w.link = l
  leads : h.endsOf w = (g.resolve l).toOption
  links : h.links = g.links.filter (· ∉ g.givingWay l) ++ [l]
  bare : h.bare = g.bare
  source : ∀ e, g.Leads .output l e → h.wiresAt? .output e = (g.wiresAt? .output e).map (· ++ [w])
  target : ∀ e, g.Leads .input l e →
    h.wiresAt? .input e = (g.wiresAt? .input e).map fun ws => ws.filter (·.link ∉ g.givingWay l) ++ [w]
  freed : ∀ l' ∈ g.givingWay l, ∀ e, g.Leads .output l' e →
    h.wiresAt? .output e = (g.wiresAt? .output e).map (·.filter (·.link ∉ g.givingWay l))
  others : ∀ side e, (∀ l' ∈ l :: g.givingWay l, ¬ g.Leads side l' e) → h.wiresAt? side e = g.wiresAt? side e
  /-- The table of places where wires were led only grows; no wire of the graph looks its new entry up. -/
  undone : g.givingWay l = [] → h.disconnect l = ({ g with ends := g.ends.push (g.resolve l).toOption }, true)

section Rewiring

variable {g h : Graph} {F : Side → End → List Wire → List Wire}

theorem Rewired.wiresAt? (hF : Rewired g h F) (side : Side) (e : End) :
    h.wiresAt? side e = (g.wiresAt? side e).map (F side e) := by
  have hbare : h.bare.nodeAt? e.node = g.bare.nodeAt? e.node := by rw [hF.bare]
  rw [nodeAt?_bare, nodeAt?_bare] at hbare
  cases hm : h.nodeAt? e.node with
  | none =>
    rw [hm] at hbare
    have hn : g.nodeAt? e.node = none := by simpa using hbare.symm
    simp [Graph.wiresAt?, socketAt?, hm, hn]
  | some m =>
    obtain ⟨n, hn, hsockets⟩ := hF.sockets hm
    simp [Graph.wiresAt?, socketAt?, hm, hn, hsockets, Function.comp_def]

/-- A graph with the same wires at every socket is the same but for the table of their ends. -/
theorem Rewired.eq (hF : Rewired g h F) (hwires : h.wires = g.wires)
    (hsame : ∀ side e ws, g.wiresAt? side e = some ws → F side e ws = ws) : h = { g with ends := h.ends } := by
  have harena : h.arena = g.arena := by
    apply Array.ext_getElem?
    intro k
    have hbare : h.bare.nodeAt? k = g.bare.nodeAt? k := by rw [hF.bare]
    rw [nodeAt?_bare, nodeAt?_bare] at hbare
    cases hm : h.nodeAt? k with
    | none =>
      rw [hm] at hbare
      have hn : g.nodeAt? k = none := by simpa using hbare.symm
      exact Eq.trans hm hn.symm
    | some m =>
      obtain ⟨n, hn, hsockets⟩ := hF.sockets hm
      have hside (side : Side) : side.sockets m = side.sockets n := by
        apply List.ext_getElem?
        intro p
        rw [hsockets]
        cases hs : (side.sockets n)[p]? with
        | none => rfl
        | some s =>
          have hws : g.wiresAt? side ⟨k, p⟩ = some s.wires := by simp [Graph.wiresAt?, socketAt?, hn, hs]
          simp [hsame side ⟨k, p⟩ s.wires hws]
      have hmn : m.bare = n.bare := by simpa [hm, hn] using hbare
      have hinputs : m.inputs = n.inputs := hside .input
      have houtputs : m.outputs = n.outputs := hside .output
      have heq : m = n := by
        cases m
        cases n
        simp only [Node.bare, Node.mk.injEq] at hmn
        simp only at hinputs houtputs
        simp only [Node.mk.injEq]
        tauto
      exact Eq.trans hm (heq ▸ hn.symm)
  have hb := hF.bare
  cases g
  cases h
  simp only [Graph.bare, Graph.mk.injEq] at hb
  simp only at harena hwires
  simp only [Graph.mk.injEq]
  tauto

end Rewiring

section Places

variable {g : Graph} {side : Side} {l l' : Link} {e : End}

/-- A link has one end on a side. -/
theorem Leads.unique {e' : End} (h : g.Leads side l e) (h' : g.Leads side l e') : e = e' := by
  obtain ⟨n, hk, hn, hp⟩ := h
  obtain ⟨n', hk', hn', hp'⟩ := h'
  have hnode : e.node = e'.node := Option.some.inj (hk.symm.trans hk')
  rw [← hnode, hn] at hn'
  cases hn'
  have hsocket : e.socket = e'.socket := Option.some.inj (hp.symm.trans hp')
  cases e
  cases e'
  simp_all

/-- Links with one end name the same socket of the same node. -/
theorem Indexed.names_of_leads (hg : Indexed g) (h : g.Leads side l e) (h' : g.Leads side l' e) :
    side.nodeOf l' = side.nodeOf l ∧ side.nameOf l' = side.nameOf l := by
  obtain ⟨n, hk, hn, hp⟩ := h
  obtain ⟨n', hk', hn', hp'⟩ := h'
  rw [hn] at hn'
  cases hn'
  obtain ⟨s, hs, hname⟩ := Node.getElem?_of_place? hp
  obtain ⟨t, ht, hname'⟩ := Node.getElem?_of_place? hp'
  rw [hs] at ht
  cases ht
  exact ⟨hg.serial?_inj hk' hk, hname'.symm.trans hname⟩

/-- The socket at the end of a link is the one that its names find. -/
theorem Leads.find? (h : g.Leads side l e) : ∃ n s, g.node? (side.nodeOf l) = some n ∧
    (side.sockets n).find? (·.name = side.nameOf l) = some s ∧ g.socketAt? side e = some s := by
  obtain ⟨n, hk, hn, hp⟩ := h
  obtain ⟨s, hs, -⟩ := Node.getElem?_of_place? hp
  refine ⟨n, s, by simp [node?, hk, hn], ?_, by simp [socketAt?, hn, hs]⟩
  rw [Node.find?_eq_place?, hp]
  exact hs

/-- What the names of a link find is at its end. -/
theorem leads_of_find? {n : Node} {s : Socket} (hn : g.node? (side.nodeOf l) = some n)
    (hs : (side.sockets n).find? (·.name = side.nameOf l) = some s) :
    ∃ e, g.Leads side l e ∧ g.socketAt? side e = some s := by
  obtain ⟨k, hk, hn⟩ := Option.bind_eq_some_iff.1 hn
  rw [Node.find?_eq_place?] at hs
  obtain ⟨p, hp, hs⟩ := Option.bind_eq_some_iff.1 hs
  exact ⟨⟨k, p⟩, ⟨n, hk, hn, hp⟩, by simp [socketAt?, hn, hs]⟩

/-- A link joins what its names find, if the types fit. -/
theorem joins_iff (g : Graph) (l : Link) : (∃ e, g.Joins l e) ↔
    ∃ source target output input, g.node? l.source = some source ∧ g.node? l.target = some target ∧
      source.output? l.output = some output ∧ target.input? l.input = some input ∧
      g.registry.canConnect output.valueType input.valueType = true := by
  constructor
  · rintro ⟨e, hj⟩
    obtain ⟨n, output, hn, ho, hs⟩ := (hj.leads .output).find?
    obtain ⟨m, input, hm, hi, ht⟩ := (hj.leads .input).find?
    obtain ⟨a, b, ha, hb, hc⟩ := hj.fits
    have ha : some output.valueType = some a := (congrArg (Option.map Socket.valueType) hs).symm.trans ha
    have hb : some input.valueType = some b := (congrArg (Option.map Socket.valueType) ht).symm.trans hb
    cases ha
    cases hb
    exact ⟨n, m, output, input, hn, hm, ho, hi, hc⟩
  · rintro ⟨n, m, output, input, hn, hm, ho, hi, hc⟩
    obtain ⟨source, hsource, ha⟩ : ∃ e, g.Leads .output l e ∧ g.socketAt? .output e = some output := leads_of_find? hn ho
    obtain ⟨target, htarget, hb⟩ : ∃ e, g.Leads .input l e ∧ g.socketAt? .input e = some input := leads_of_find? hm hi
    refine ⟨⟨source, target⟩, ?_, output.valueType, input.valueType, congrArg (Option.map Socket.valueType) ha,
      congrArg (Option.map Socket.valueType) hb, hc⟩
    intro side
    cases side with
    | output => exact hsource
    | input => exact htarget

/-- The wires at the end of a link are those of the graph that lead there. -/
theorem Indexed.wiresAt?_of_leads (hg : Indexed g) (h : g.Leads side l e) : g.wiresAt? side e =
    some (g.wires.filter fun w => side.nodeOf w.link = side.nodeOf l ∧ side.nameOf w.link = side.nameOf l) := by
  obtain ⟨n, s, hn, hfind, hs⟩ := h.find?
  simp [wiresAt?, hs, hg.wires_find? side hn hfind]

end Places

section Cutting

variable {g : Graph}

/-- Removing links takes wires away, and only from the sockets at their ends. -/
theorem Indexed.rewired_disconnectAll (hg : Indexed g) (ls : List Link) : ∃ F, Rewired g (g.disconnectAll ls) F ∧
    (∀ side e ws, F side e ws ⊆ ws) ∧ ∀ side e, (∀ l ∈ ls, ¬ g.Leads side l e) → F side e = id := by
  induction ls generalizing g with
  | nil => exact ⟨_, Rewired.refl g, fun _ _ _ => List.Subset.refl _, fun _ _ _ => rfl⟩
  | cons l ls ih =>
    obtain ⟨F, hF, hless, hout⟩ := ih (hg.disconnect l)
    have hcut := hg.cut_disconnect l
    have hrest {side : Side} {e : End} (hnone : ∀ l' ∈ l :: ls, ¬ g.Leads side l' e) : F side e = id := by
      apply hout
      intro l' hl' hleads
      rw [← leads_bare, hcut.bare, leads_bare] at hleads
      exact hnone l' (List.mem_cons_of_mem _ hl') hleads
    by_cases hl : l ∈ g.links
    · obtain ⟨w, hw, rfl⟩ := List.mem_map.1 hl
      obtain ⟨ends, hj, -⟩ := hg.joined w hw
      have hone : Rewired g (g.disconnect w.link).1 (atEnds ends (Wire.remove w.link)) := by
        rw [Graph.disconnect, if_pos hl]
        exact (rewired_unplug hj).withWires _ (g.unplug w.link).ends
      refine ⟨_, hone.trans hF, fun side e ws => ?_, fun side e hnone => ?_⟩
      · have hend : atEnds ends (Wire.remove w.link) side e ws ⊆ ws := by
          unfold atEnds
          split
          · exact List.eraseP_sublist.subset
          · exact List.Subset.refl ws
        exact fun x hx => hend (hless side e _ hx)
      · have hne : e ≠ Side.endOf side ends := by
          rintro rfl
          exact hnone w.link List.mem_cons_self (hj.leads side)
        funext ws
        simp [atEnds, hne, hrest hnone]
    · have hsame : (g.disconnect l).1 = g := by rw [Graph.disconnect, if_neg hl]
      rw [hsame] at hF
      have hall : g.disconnectAll (l :: ls) = g.disconnectAll ls := by
        rw [disconnectAll, List.foldl_cons, hsame, disconnectAll]
      exact ⟨F, hall ▸ hF, hless, fun _ _ hnone => hrest hnone⟩

/-- At the ends of links, what was removed is missing. -/
theorem Cut.wiresAt?_of_leads (hg : Indexed g) {h : Graph} {ls : List Link} (hcut : Cut g h ls) {side : Side}
    {l : Link} {e : End} (hl : g.Leads side l e) :
    h.wiresAt? side e = (g.wiresAt? side e).map (·.filter (·.link ∉ ls)) := by
  have hl' : h.Leads side l e := by
    rw [← leads_bare, hcut.bare, leads_bare]
    exact hl
  rw [hg.wiresAt?_of_leads hl, hcut.indexed.wiresAt?_of_leads hl', hcut.wires, List.filter_comm]
  rfl

end Cutting

section Making

variable {g : Graph} {l : Link} {e : Ends} {output input : Socket}

/-- The output of a link has it exactly if the graph has. -/
theorem Indexed.mem_wires_output (hg : Indexed g) (hj : g.Joins l e) (ho : g.outputAt? e.source = some output) :
    l ∈ output.wires.map (·.link) ↔ l ∈ g.links := by
  have hwires := hg.wiresAt?_of_leads (hj.leads .output)
  have hat : g.wiresAt? .output e.source = some output.wires := congrArg (Option.map Socket.wires) ho
  rw [Side.endOf, hat, Option.some.injEq] at hwires
  rw [hwires]
  constructor
  · intro h
    obtain ⟨w, hw, hl⟩ := List.mem_map.1 h
    exact List.mem_map.2 ⟨w, (List.mem_filter.1 hw).1, hl⟩
  · intro h
    obtain ⟨w, hw, rfl⟩ := List.mem_map.1 h
    exact List.mem_map.2 ⟨w, List.mem_filter.2 ⟨hw, by simp⟩, rfl⟩

/-- What a new link displaces are the links of the graph that give way to it. -/
theorem Indexed.displaced_eq (hg : Indexed g) (hj : g.Joins l e) (hi : g.inputAt? e.target = some input) :
    displaced input = g.givingWay l ∧ (input.isFlow = true ∨ g.arriving l = [] ↔ displaced input = []) := by
  obtain ⟨m, s, hm, hfind, hs⟩ := (hj.leads .input).find?
  have hsame : s = input := Option.some.inj (hs.symm.trans hi)
  subst hsame
  have hinput : m.input? l.input = some s := hfind
  have hnode : g.node? l.target = some m := hm
  have harriving : s.wires.map (·.link) = g.arriving l := by
    rw [hg.wires_find? .input hm hfind, arriving, links, List.filter_map]
    rfl
  have hway : displaced s = g.givingWay l := by
    simp [displaced, givingWay, hnode, hinput, harriving]
  refine ⟨hway, ?_⟩
  rw [displaced, harriving]
  cases s.isFlow <;> simp

/-- The input that the checks come to is the one that the names find. -/
theorem Joins.eq_input (hj : g.Joins l e) (hi : g.inputAt? e.target = some input) {m : Node} {t : Socket}
    (hm : g.node? l.target = some m) (ht : m.input? l.input = some t) : t = input := by
  obtain ⟨n, s, hn, hs, hat⟩ := (hj.leads .input).find?
  cases hm.symm.trans hn
  cases ht.symm.trans hs
  exact Option.some.inj (hat.symm.trans hi)

/-- The other way round from `connect_eq_ok`. -/
theorem connect_of_checkLink {replace : Option Bool} {shown : String}
    (hcheck : g.checkLink l = .ok (e, output, input, shown)) (hnew : l ∉ output.wires.map (·.link))
    (hroom : displaced input = [] ∨ replace.getD g.replaceLinks = true) :
    ∃ h w, g.connect l replace = .ok (h, w) := by
  have hpass : ¬ ((!(displaced input).isEmpty && !replace.getD g.replaceLinks) = true) := by
    rcases hroom with hnone | hpolicy
    · simp [hnone]
    · simp [hpolicy]
  simp only [connect, hcheck, bind, Except.bind, if_neg hnew, if_neg hpass]
  exact ⟨_, _, rfl⟩

/-- A link is made exactly when the graph takes it. -/
theorem Indexed.connect_ok_iff (hg : Indexed g) (l : Link) (replace : Option Bool) :
    (∃ h w, g.connect l replace = .ok (h, w)) ↔ g.Accepts l replace := by
  constructor
  · rintro ⟨h, w, hc⟩
    obtain ⟨e, output, input, shown, hcheck, hnew, hroom, -, -⟩ := connect_eq_ok hc
    obtain ⟨hj, ho, hi⟩ := of_checkLink hcheck
    obtain ⟨n, m, s, t, hn, hm, hs, ht, hfit⟩ := (joins_iff g l).1 ⟨e, hj⟩
    cases hj.eq_input hi hm ht
    refine ⟨n, m, s, input, hn, hm, hs, ht, hfit, fun hl => hnew ((hg.mem_wires_output hj ho).2 hl), ?_⟩
    rw [← or_assoc, (hg.displaced_eq hj hi).2]
    exact hroom
  · rintro ⟨n, m, s, t, hn, hm, hs, ht, hfit, hnew, hroom⟩
    obtain ⟨e, hj⟩ := (joins_iff g l).2 ⟨n, m, s, t, hn, hm, hs, ht, hfit⟩
    obtain ⟨output, input, shown, hcheck, ho, hi⟩ := checkLink_ok hj
    cases hj.eq_input hi hm ht
    rw [← or_assoc, (hg.displaced_eq hj hi).2] at hroom
    exact connect_of_checkLink hcheck (fun hl => hnew ((hg.mem_wires_output hj ho).1 hl)) hroom

theorem remove_append_singleton {ws : List Wire} {w : Wire} (hw : w.link = l) (hnew : l ∉ ws.map (·.link)) :
    Wire.remove l (ws ++ [w]) = ws := by
  rw [Wire.remove, List.eraseP_append_right]
  · simp [hw]
  · intro v hv
    have hne : v.link ≠ l := fun hl => hnew (hl ▸ List.mem_map_of_mem hv)
    simpa using hne

def laid (g : Graph) (l : Link) (e : Ends) : Graph := (g.lay l (some e)).1.plug ⟨l, g.ends.size⟩ e

theorem rewired_laid (g : Graph) (l : Link) (e : Ends) :
    Rewired g (g.laid l e) (atEnds e (· ++ [⟨l, g.ends.size⟩])) :=
  let hp := rewired_plug (g.lay l (some e)).1 ⟨l, g.ends.size⟩ e
  ⟨hp.bare, hp.sockets⟩

theorem wires_laid (g : Graph) (l : Link) (e : Ends) : (g.laid l e).wires = g.wires ++ [⟨l, g.ends.size⟩] := rfl

theorem ends_laid (g : Graph) (l : Link) (e : Ends) : (g.laid l e).ends = g.ends.push (some e) := rfl

theorem links_laid (g : Graph) (l : Link) (e : Ends) : (g.laid l e).links = g.links ++ [l] := by
  simp [links, wires_laid]

theorem atEnds_self (e : Ends) (f : List Wire → List Wire) (side : Side) : atEnds e f side (Side.endOf side e) = f := by
  funext ws
  simp [atEnds]

theorem atEnds_of_ne {e : Ends} {side : Side} {e' : End} (hne : e' ≠ Side.endOf side e) (f : List Wire → List Wire) :
    atEnds e f side e' = id := by
  funext ws
  simp [atEnds, hne]

/-- At its own ends a laid wire goes last. -/
theorem wiresAt?_laid (hj : g.Joins l e) {side : Side} {e' : End} (he : g.Leads side l e') :
    (g.laid l e).wiresAt? side e' = (g.wiresAt? side e').map (· ++ [⟨l, g.ends.size⟩]) := by
  rw [(rewired_laid g l e).wiresAt?, he.unique (hj.leads side), atEnds_self]

/-- No other socket sees it. -/
theorem wiresAt?_laid_of_ne (hj : g.Joins l e) {side : Side} {e' : End} (he : ¬ g.Leads side l e') :
    (g.laid l e).wiresAt? side e' = g.wiresAt? side e' := by
  have hne : e' ≠ Side.endOf side e := fun h => he (h ▸ hj.leads side)
  rw [(rewired_laid g l e).wiresAt?, atEnds_of_ne hne, Option.map_id_fun, id]

/-- A link that is laid last and taken back leaves nothing behind but where its wire led. -/
theorem Indexed.disconnect_laid (hg : Indexed g) (hj : g.Joins l e) (hnew : l ∉ g.links) :
    (g.laid l e).disconnect l = ({ g with ends := g.ends.push (some e) }, true) := by
  have hback := (rewired_laid g l e).trans (rewired_unplug (hj.of_bare (rewired_laid g l e).bare))
  have hsame (side : Side) (e' : End) (ws : List Wire) (hws : g.wiresAt? side e' = some ws) :
      atEnds e (Wire.remove l) side e' (atEnds e (· ++ [⟨l, g.ends.size⟩]) side e' ws) = ws := by
    simp only [atEnds]
    split
    · rename_i he
      rw [he, hg.wiresAt?_of_leads (hj.leads side), Option.some.injEq] at hws
      refine remove_append_singleton rfl ?_
      intro hl
      obtain ⟨w, hw, hwl⟩ := List.mem_map.1 hl
      rw [← hws] at hw
      exact hnew (hwl ▸ List.mem_map_of_mem (List.mem_filter.1 hw).1)
    · rfl
  have hremove : Wire.remove l (g.laid l e).wires = g.wires := by
    rw [wires_laid]
    exact remove_append_singleton rfl hnew
  rw [Graph.disconnect, if_pos (by simp [links_laid])]
  refine Prod.ext ?_ rfl
  calc { (g.laid l e).unplug l with wires := Wire.remove l (g.laid l e).wires }
      = { (g.laid l e).unplug l with wires := g.wires } := by rw [hremove]
    _ = { g with ends := ((g.laid l e).unplug l).ends } := (hback.withWires g.wires _).eq rfl hsame
    _ = { g with ends := g.ends.push (some e) } := by rw [ends_unplug, ends_laid]

/-- No link that gives way leaves the output of the new one. -/
theorem Indexed.not_leads_output (hg : Indexed g) (hnew : l ∉ g.links) {l' : Link} (hl' : l' ∈ g.givingWay l) {e' : End}
    (he : g.Leads .output l e') : ¬ g.Leads .output l' e' := by
  intro he'
  obtain ⟨hsource, houtput⟩ := hg.names_of_leads he he'
  have harrives : l' ∈ g.arriving l := by
    unfold givingWay at hl'
    split at hl'
    · cases hl'
    · exact hl'
  obtain ⟨hin, hto⟩ := List.mem_filter.1 harrives
  obtain ⟨htarget, hinput⟩ : l'.target = l.target ∧ l'.input = l.input := by simpa using hto
  have hsame : l' = l := by
    cases l
    cases l'
    simp only [Side.nodeOf, Side.nameOf] at hsource houtput
    simp_all
  exact hnew (hsame ▸ hin)

/-- What a link makes of the graph. -/
theorem Indexed.connected (hg : Indexed g) {h : Graph} {replace : Option Bool} {w : Wire}
    (hc : g.connect l replace = .ok (h, w)) : Connected g l h w := by
  obtain ⟨e, output, input, shown, hcheck, hnew, -, rfl, rfl⟩ := connect_eq_ok hc
  obtain ⟨hj, ho, hi⟩ := of_checkLink hcheck
  rw [hg.mem_wires_output hj ho] at hnew
  rw [(hg.displaced_eq hj hi).1]
  have hcut := hg.cut_disconnectAll (g.givingWay l)
  obtain ⟨F, hF, -, hout⟩ := hg.rewired_disconnectAll (g.givingWay l)
  have hresolve : g.resolve l = .ok e := (resolve_eq_ok_iff g l e).2 hj.leads
  have hundone : g.givingWay l = [] → g.disconnectAll (g.givingWay l) = g := by
    intro hnone
    rw [hnone, disconnectAll, List.foldl_nil]
  change Connected g l ((g.disconnectAll (g.givingWay l)).laid l e) ⟨l, (g.disconnectAll (g.givingWay l)).ends.size⟩
  generalize g.disconnectAll (g.givingWay l) = c at hcut hF hundone
  have hleads (side : Side) (l' : Link) (e' : End) : c.Leads side l' e' ↔ g.Leads side l' e' := by
    rw [← leads_bare, hcut.bare, leads_bare]
  have hj' := hj.of_bare hcut.bare
  refine ⟨rfl, ?_, ?_, (rewired_laid c l e).bare.trans hcut.bare, ?_, ?_, ?_, ?_, ?_⟩
  · simp [endsOf, ends_laid, hresolve, Except.toOption]
  · rw [links_laid, links, hcut.wires, links, List.filter_map]
    rfl
  · intro e' he
    rw [wiresAt?_laid hj' ((hleads ..).2 he), hF.wiresAt?,
      hout .output e' fun l' hl' => hg.not_leads_output hnew hl' he, Option.map_id_fun, id]
  · intro e' he
    rw [wiresAt?_laid hj' ((hleads ..).2 he), hcut.wiresAt?_of_leads hg he, Option.map_map]
    rfl
  · intro l' hl' e' he
    rw [wiresAt?_laid_of_ne hj', hcut.wiresAt?_of_leads hg he]
    intro hown
    exact hg.not_leads_output hnew hl' ((hleads ..).1 hown) he
  · intro side e' hnone
    rw [wiresAt?_laid_of_ne hj' fun hown => hnone l List.mem_cons_self ((hleads ..).1 hown), hF.wiresAt?,
      hout side e' fun l' hl' => hnone l' (List.mem_cons_of_mem _ hl'), Option.map_id_fun, id]
  · intro hnone
    rw [hundone hnone, hresolve]
    exact hg.disconnect_laid hj hnew

end Making

/-- Whatever was done to a graph that was empty at first, a link is made exactly when the graph takes it, and
then it is the only thing that is made. -/
theorem accepts_of_edits (name : String) (r : Registry) (replaceLinks : Bool) (labels : Nat) (es : List Edit)
    (l : Link) (replace : Option Bool) :
    let g := edits { name := name, registry := r, replaceLinks := replaceLinks, labels := labels } es
    ((∃ h w, g.connect l replace = .ok (h, w)) ↔ g.Accepts l replace) ∧
      ∀ h w, g.connect l replace = .ok (h, w) → Connected g l h w := by
  have hg := Indexed.edits (Indexed.of_empty (g :=
    { name := name, registry := r, replaceLinks := replaceLinks, labels := labels }) rfl rfl) es
  exact ⟨hg.connect_ok_iff l replace, fun _ _ hc => hg.connected hc⟩

/-- Two texts in capitals, the first of which goes to an input of a node that joins texts. -/
def rivalEdits : List Edit := [
  .add "StringUpper" (some "one") [] noPosition,
  .add "StringUpper" (some "two") [] noPosition,
  .add "StringConcat" (some "join") [] noPosition,
  .connect ⟨"one", "result", "join", "a"⟩ none]

def rivals : Graph := edits { registry := Catalogue.defaults } rivalEdits

/-- The second text takes the place of the first, unless the call says that it must not. -/
theorem accepts_of_edits_rivals : rivals.Accepts ⟨"two", "result", "join", "a"⟩ none ∧
    ¬ rivals.Accepts ⟨"two", "result", "join", "a"⟩ (some false) ∧
    ∃ h w, rivals.connect ⟨"two", "result", "join", "a"⟩ none = .ok (h, w) ∧ h.links = [⟨"two", "result", "join", "a"⟩] ∧
      Connected rivals ⟨"two", "result", "join", "a"⟩ h w := by
  have hgeneral (replace : Option Bool) : ((∃ h w, rivals.connect ⟨"two", "result", "join", "a"⟩ replace = .ok (h, w)) ↔
        rivals.Accepts ⟨"two", "result", "join", "a"⟩ replace) ∧
      ∀ h w, rivals.connect ⟨"two", "result", "join", "a"⟩ replace = .ok (h, w) →
        Connected rivals ⟨"two", "result", "join", "a"⟩ h w :=
    accepts_of_edits "Untitled Graph" Catalogue.defaults true labelRange rivalEdits _ replace
  have hmade : (rivals.connect ⟨"two", "result", "join", "a"⟩ none).toOption.isSome = true ∧
      (rivals.connect ⟨"two", "result", "join", "a"⟩ (some false)).toOption.isSome = false ∧
      rivals.links = [⟨"one", "result", "join", "a"⟩] ∧
      rivals.givingWay ⟨"two", "result", "join", "a"⟩ = [⟨"one", "result", "join", "a"⟩] := by
    rw [rivals, Catalogue.defaults_eq_written]
    decide +kernel
  obtain ⟨hok, hno, hlinks, hgiving⟩ := hmade
  have htaken : ∃ h w, rivals.connect ⟨"two", "result", "join", "a"⟩ none = .ok (h, w) := by
    cases hc : rivals.connect ⟨"two", "result", "join", "a"⟩ none with
    | error f =>
      rw [hc] at hok
      cases hok
    | ok r => exact ⟨r.1, r.2, rfl⟩
  have hrefused : ¬ ∃ h w, rivals.connect ⟨"two", "result", "join", "a"⟩ (some false) = .ok (h, w) := by
    rintro ⟨h, w, hc⟩
    rw [hc] at hno
    cases hno
  refine ⟨(hgeneral none).1.1 htaken, fun h => hrefused ((hgeneral (some false)).1.2 h), ?_⟩
  obtain ⟨h, w, hc⟩ := htaken
  have hconnected := (hgeneral none).2 h w hc
  refine ⟨h, w, hc, ?_, hconnected⟩
  rw [hconnected.links, hlinks, hgiving]
  decide

end Graph

end FlowGraph
