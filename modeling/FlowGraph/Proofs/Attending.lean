import FlowGraph.Proofs.Emission
import FlowGraph.Proofs.Functional
import FlowGraph.Proofs.Rollback

/-!
How nodes come to observe a variable. When an engine is made, its event nodes begin one after the other, and one that waits for
changes of a variable subscribes then. What the others do meanwhile, short of disposing of an engine, is none of its business.
-/
namespace FlowGraph

open World Play

theorem Context.runOn_setting_of_get? {c : Context} {w : World} {key : String} {k : Value}
    (hk : (w.node c.node).configuration.get? key = some k) : (c.setting key).runOn w = (.ok k, w) := by
  rw [runOn_setting, hk]
  rfl

/-- The variable of the graph that the value names is found. -/
theorem Context.runOn_variableNamed_of_get? {c : Context} {w : World} {k : Value} {name : String} {y : Variable}
    (hkey : k.key? = .ok (some name)) (hy : (w.graph c.node.graph).vars.get? name = some y) :
    (c.variableNamed k).runOn w = (.ok y, w) := by
  have hvariable : (w.graph c.node.graph).variableOf k = .ok (some y) := by
    simp only [Graph.variableOf, hkey, bind, Except.bind, Option.bind, hy]
    rfl
  rw [runOn_variableNamed, hvariable]
  rfl

namespace World

theorem handlers_subscribe (w : World) (t : Topic) (h : Handler) (g serial : Nat) :
    (w.subscribe t h).2.handlers (.variableChange g serial) =
      w.handlers (.variableChange g serial) ++ if t = .variableChange g serial then [h] else [] := by
  simp only [handlers, subscribe, List.filter_append, List.map_append]
  congr 1
  cases t with
  | variableChange k n =>
    by_cases ht : Topic.variableChange k n = .variableChange g serial
    · rw [if_pos ht, List.filter_cons_of_pos (by simp [ht])]
      rfl
    · rw [if_neg ht, List.filter_cons_of_neg (by simp [ht])]
      rfl
  | _ => rfl

/-- No mild action disturbs anything. -/
theorem lenient_undisturbed (u : World) : Lenient (Undisturbed u) where
  stamp hw g v := hw.trans (Unheard.stamp _ g v).toUndisturbed
  node hw y f := hw.trans (.modifyNode _ y f)
  record hw e := ⟨hw.vars, hw.subscriptions, hw.size, hw.isDisposed⟩
  hold hw cs := ⟨hw.vars, hw.subscriptions, hw.size, hw.isDisposed⟩
  begin hw j y output l values := hw.trans (.begin _ j y output l values)
  commit hw j f y output l := hw.trans (Unheard.commitFiber _ j f y output l).toUndisturbed
  stop {w} hw j f y := by
    unfold endFiber
    split
    · exact hw
    · exact hw.trans (.modifyEngine _ j fun _ => rfl)
  finish {w} hw j o output := by
    refine finishOperation_upholds (P := Undisturbed u) ?_ ?_ ?_ hw
    · exact fun v hv _ _ => hv.trans (.modifyEngine _ j fun _ => rfl)
    · refine fun v hv _ => complete_upholds (P := Undisturbed u) ?_ ?_ ?_ ?_ ?_ hv
      · exact fun v hv => hv.trans (.modifyEngine _ j fun _ => rfl)
      · exact fun v x hv => hv.trans (.chooseOutput v x output)
      · exact fun v e hv => hv.trans (.report v j e)
      · exact fun v x name hv => hv.trans (.begin v j x name none [])
      · exact fun v e hv => hv.trans (.tell v j e)
    · exact fun v hv _ => hv.trans (.modifyEngine _ j fun _ => rfl)

/-- So what is left alone by whatever does not disturb anything is left alone by mild actions. -/
theorem lenient_of_undisturbed {P : World → Prop} (hP : ∀ v w, P v → Undisturbed v w → P w) : Lenient P where
  stamp {w} hw g v := hP _ _ hw ((lenient_undisturbed w).stamp (.refl w) g v)
  node {w} hw y f := hP _ _ hw ((lenient_undisturbed w).node (.refl w) y f)
  record {w} hw e := hP _ _ hw ((lenient_undisturbed w).record (.refl w) e)
  hold {w} hw cs := hP _ _ hw ((lenient_undisturbed w).hold (.refl w) cs)
  begin {w} hw j y output l values := hP _ _ hw ((lenient_undisturbed w).begin (.refl w) j y output l values)
  commit {w} hw j f y output l := hP _ _ hw ((lenient_undisturbed w).commit (.refl w) j f y output l)
  stop {w} hw j f y := hP _ _ hw ((lenient_undisturbed w).stop (.refl w) j f y)
  finish {w} hw j o output := hP _ _ hw ((lenient_undisturbed w).finish (.refl w) j o output)

/-- From `u` on to `w` no variable was touched and no engine was made or disposed of, and the handler is subscribed that often to
changes of the variable. -/
structure Subscribed (u : World) (h : Handler) (g serial n : Nat) (w : World) : Prop where
  vars : ∀ k, (w.graph k).vars = (u.graph k).vars
  size : w.engines.size = u.engines.size
  isDisposed : ∀ j, (w.engine j).isDisposed = (u.engine j).isDisposed
  times : (w.handlers (.variableChange g serial)).count h = n

namespace Subscribed

variable {u v w : World} {h : Handler} {g serial n i : Nat} {x r : NodeRef}

theorem undisturbed (hv : Subscribed u h g serial n v) (hw : Undisturbed v w) : Subscribed u h g serial n w :=
  ⟨fun k => (hw.vars k).trans (hv.vars k), hw.size.trans hv.size, fun j => (hw.isDisposed j).trans (hv.isDisposed j),
    by rw [hw.handlers, hv.times]⟩

/-- A node subscribes. -/
theorem subscribe (hw : Subscribed u h g serial n w) (t : Topic) :
    Subscribed u h g serial (n + if t = .variableChange g serial ∧ Handler.node i r = h then 1 else 0)
      ((Context.subscribe ⟨r, .event i⟩ t).runOn w).2 := by
  refine ⟨hw.vars, hw.size, hw.isDisposed, ?_⟩
  show ((w.subscribe t (.node i r)).2.handlers (.variableChange g serial)).count h = _
  rw [handlers_subscribe, List.count_append, hw.times]
  congr 1
  by_cases ht : t = .variableChange g serial
  · by_cases hr : Handler.node i r = h
    · simp [ht, hr]
    · simp [ht, hr]
  · simp [ht]

theorem leaves_subscribe (hr : r ≠ x) (t : Topic) :
    Leaves (Subscribed u (.node i x) g serial n) (Context.subscribe ⟨r, .event i⟩ t) := by
  intro w hw
  have hsame := hw.subscribe (i := i) (r := r) t
  rw [if_neg (by simp [hr])] at hsame
  exact ⟨hsame, fun _ _ => trivial, fun _ _ => trivial⟩

theorem leaves_perform {a : Action} (ha : a.isOrderly = true) :
    Leaves (Subscribed u h g serial n) (a.perform dispose ⟨r, .event i⟩) := by
  by_cases hmild : a.isMild = true
  · exact (lenient_of_undisturbed fun _ _ => undisturbed).leaves_perform dispose _ hmild
  · cases a with
    | onDispose actions => exact .of_modify fun w hw => ⟨hw.vars, hw.size, hw.isDisposed, hw.times⟩
    | dispose | look next | attempt actions next => cases ha
    | _ => exact absurd rfl hmild

/-- Other nodes begin. -/
theorem initOf_of_ne (hr : r ≠ x) (hscript : ∀ actions, (w.node r).definition.behaviour = .event (some (.script actions)) →
    ∀ a ∈ actions, a.isOrderly = true) (hw : Subscribed u (.node i x) g serial n w) :
    Subscribed u (.node i x) g serial n ((initOf i r).runOn w).2 := by
  refine leaves_initOf (fun b hb => leaves_begin (leaves_subscribe hr) fun actions hactions a ha => ?_) hw
  exact leaves_perform (hscript actions (hactions ▸ hb) a ha)

/-- The node begins, which waits for changes of the variable that its setting names. -/
theorem initOf_self {y : Variable} {k : Value} {name : String}
    (hx : (w.node x).definition.behaviour = .event (some .variableChanged))
    (hk : (w.node x).configuration.get? variableKey = some k) (hkey : k.key? = .ok (some name))
    (hy : (u.graph x.graph).vars.get? name = some y) (hw : Subscribed u (.node i x) x.graph y.serial n w) :
    Subscribed u (.node i x) x.graph y.serial (n + 1) ((initOf i x).runOn w).2 := by
  have hthere : (w.graph x.graph).vars.get? name = some y := by rw [hw.vars, hy]
  have hrun : (EventBehaviour.variableChanged.run ⟨x, .event i⟩).runOn w =
      (Context.subscribe ⟨x, .event i⟩ (.variableChange x.graph y.serial)).runOn w := by
    rw [EventBehaviour.run, runOn_bind, Context.runOn_setting_of_get? (c := ⟨x, .event i⟩) hk]
    dsimp only
    rw [runOn_bind, Context.runOn_variableNamed_of_get? (c := ⟨x, .event i⟩) hkey hthere]
  have hinit : ((initOf i x).runOn w).2 = ((Context.subscribe ⟨x, .event i⟩ (.variableChange x.graph y.serial)).runOn w).2 := by
    rw [initOf, runOn_get]
    simp only [hx, Option.map_some]
    rw [invoke, runOn_bind, runOn_outcome, hrun]
    rfl
  have hsubscribed := hw.subscribe (i := i) (r := x) (.variableChange x.graph y.serial)
  rw [if_pos ⟨rfl, rfl⟩] at hsubscribed
  rw [hinit]
  exact hsubscribed

/-- The event nodes begin one after the other. The node subscribes as often as it is among them. -/
theorem subscribeAll {y : Variable} {k : Value} {name : String} {rest ready : List NodeRef} (ho : Outlined u w)
    (hrest : Orderly rest u) (hx : (u.node x).definition.behaviour = .event (some .variableChanged))
    (hk : (u.node x).configuration.get? variableKey = some k) (hkey : k.key? = .ok (some name))
    (hy : (u.graph x.graph).vars.get? name = some y) (hok : ((Play.subscribeAll i ready rest).runOn w).1 = .ok ())
    (hw : Subscribed u (.node i x) x.graph y.serial n w) :
    Subscribed u (.node i x) x.graph y.serial (n + rest.count x) ((Play.subscribeAll i ready rest).runOn w).2 := by
  induction rest generalizing ready w n with
  | nil => exact hw
  | cons r rest ih =>
    have hbegun : Subscribed u (.node i x) x.graph y.serial (n + if r = x then 1 else 0) ((initOf i r).runOn w).2 := by
      by_cases hr : r = x
      · subst hr
        rw [if_pos rfl]
        refine hw.initOf_self (by rw [ho.definition]; exact hx) ?_ hkey hy
        rw [show (w.node r).configuration = (u.node r).configuration from (congrArg Node.configuration (ho.node r) :)]
        exact hk
      · rw [if_neg hr]
        exact hw.initOf_of_ne hr fun actions hactions => hrest r List.mem_cons_self actions (by rw [← ho.definition]; exact hactions)
    have houtlined := (outlined_initOf i r w).trans ho
    rw [subscribeAll_cons] at hok ⊢
    generalize (initOf i r).runOn w = p at hbegun houtlined hok ⊢
    obtain ⟨out, v⟩ := p
    cases out with
    | ok _ =>
      have hall := ih houtlined (fun z hz => hrest z (List.mem_cons_of_mem r hz)) hok hbegun
      rw [List.count_cons]
      simp only [beq_iff_eq]
      rwa [Nat.add_assoc, Nat.add_comm (if r = x then 1 else 0)] at hall
    | error e =>
      dsimp only at hok
      rw [runOn_bind] at hok
      split at hok
      · cases hok
      · cases hok

end Subscribed

end World

/-- A node of a new engine that waits for changes of a variable attends to it, and variables are what they were. The other event
nodes may have scripts, as long as they do not dispose of an engine when they begin. -/
theorem Observer.attends_of_makeEngine {w v : World} {label : String} {nodes : List NodeRef} {settings : RuntimeSettings} {i : Nat}
    {x : NodeRef} {y : Variable} {k : Value} {name : String}
    (hmade : (Play.makeEngine label nodes settings).runOn w = (.ok i, v)) (hnodes : Orderly nodes w)
    (hmem : nodes.count x = 1) (hx : (w.node x).definition.behaviour = .event (some .variableChanged))
    (hk : (w.node x).configuration.get? variableKey = some k) (hkey : k.key? = .ok (some name))
    (hy : (w.graph x.graph).vars.get? name = some y)
    (hnew : Handler.node w.engines.size x ∉ w.handlers (.variableChange x.graph y.serial)) :
    (Observer.node i x).Attends (.variableChange x.graph y.serial) v ∧ ∀ g, (v.graph g).vars = (w.graph g).vars := by
  have hmake : (Play.makeEngine label nodes settings).runOn w = (do
      subscribeAll w.engines.size [] (eventsOf w nodes)
      modify (·.modifyEngine w.engines.size fun e => { e with isObserved := true })
      return w.engines.size : Play Nat).runOn (opening label nodes settings w) := rfl
  have hcount : (eventsOf w nodes).count x = 1 := by
    rw [eventsOf, List.count_filter (by simp [Node.kind, Definition.kind, hx, Behaviour.kind]), hmem]
  have hstart : Subscribed (opening label nodes settings w) (.node w.engines.size x) x.graph y.serial 0
      (opening label nodes settings w) :=
    ⟨fun _ => rfl, rfl, fun _ => rfl, List.count_eq_zero_of_not_mem hnew⟩
  have hall (hok : ((subscribeAll w.engines.size [] (eventsOf w nodes)).runOn (opening label nodes settings w)).1 = .ok ()) :
      Subscribed (opening label nodes settings w) (.node w.engines.size x) x.graph y.serial (0 + (eventsOf w nodes).count x)
        ((subscribeAll w.engines.size [] (eventsOf w nodes)).runOn (opening label nodes settings w)).2 :=
    Subscribed.subscribeAll rfl (fun z hz => hnodes z (List.mem_of_mem_filter hz)) hx hk hkey hy hok hstart
  rw [hmake, runOn_bind] at hmade
  generalize (subscribeAll w.engines.size [] (eventsOf w nodes)).runOn (opening label nodes settings w) = p at hmade hall
  obtain ⟨out, r⟩ := p
  cases out with
  | error e => cases hmade
  | ok _ =>
    cases hmade
    have hr := hall rfl
    rw [hcount] at hr
    have hopen : (opening label nodes settings w).engines.size = w.engines.size + 1 := by simp [opening]
    have hface := Undisturbed.modifyEngine r w.engines.size (f := fun e => { e with isObserved := true }) fun _ => rfl
    refine ⟨⟨(congrArg (List.count _) (hface.handlers _)).trans hr.times, ?_, ?_⟩, hr.vars⟩
    · rw [hface.size, hr.size, hopen]
      exact Nat.lt_succ_self _
    · rw [hface.isDisposed, hr.isDisposed]
      simp [World.engine, opening]

end FlowGraph
