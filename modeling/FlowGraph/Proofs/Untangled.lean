import FlowGraph.Proofs.Apart

/-!
Nothing that happens gets the payloads of a node mixed: no call, no turn, no end of a fiber. What is kept to be run later
never speaks for the node, and so only the fibers that it triggered write there.
-/
namespace FlowGraph

open World Play

/-- The engines are in order, nobody acts in the name of the node, the graphs are what they were, and the payloads of the
node stay apart. The fiber `c` may be about to fail. -/
structure Untangled (u : World) (cur : Nat → Option Nat) (i : Nat) (x : NodeRef) (c : Option Nat) (w : World) : Prop
    extends Retained u cur (·.node ≠ x) w where
  outlined : Outlined u w
  apart : Apart u i x c w

namespace World

/-- The fiber that was at work makes room. It has ended if nothing is left of it. -/
def cede (w : World) (i f : Nat) : World :=
  (if ((w.engine i).fiber f).isComplete then w.modifyEngine i (·.finish f) else w).modifyEngine i
    fun e => { e with current := none }

/-- A step of the fiber at work fails: that is reported, and the fiber is stopped. -/
def fail (w : World) (i f : Nat) (e : Failure) : World :=
  (w.report i e).modifyEngine i fun e => { e with steps := e.steps + 1 }.abort f

end World

namespace InOrder

variable {u w : World} {i f : Nat}

/-- A fiber that failed has nothing left to do. -/
theorem spent_fail (h : InOrder u (onlyAt i f) w) (e : Failure) :
    (((w.fail i f e).engine i).fiber f).next = none ∧ (((w.fail i f e).engine i).fiber f).listeners = [] := by
  have hreported := h.report i e
  rw [World.fail, engine_modifyEngine_self hreported.there]
  exact Engine.idle_abort (hreported.atWork.accounted.current_lt hreported.atWork.current)

/-- A fiber that failed makes room for what other threads asked for. -/
theorem rest_fail (h : InOrder u (onlyAt i f) w) (e : Failure) :
    Play.rest (w.fail i f e) i f = ((w.fail i f e).cede i f).drainInbox i := by
  obtain ⟨hnext, hlisteners⟩ := h.spent_fail e
  simp only [Play.rest, Fiber.not_isReady_of_spent hnext hlisteners, Bool.false_eq_true, if_false]
  rfl

end InOrder

namespace Untangled

variable {u v w : World} {cur : Nat → Option Nat} {i j f : Nat} {x : NodeRef} {c : Option Nat} {b : Option EventBehaviour}

theorem aside (h : Untangled u cur i x c w) (hg : v.graphs = w.graphs) (he : v.engines = w.engines)
    (hd : v.disposers = w.disposers) : Untangled u cur i x c v :=
  ⟨h.toRetained.frame he hd, h.outlined.frame hg, h.apart.aside hg he⟩

/-- A change of what the engine does not keep to be run later. -/
theorem face (h : Untangled u cur i x c w) (j : Nat) {g : Engine → Engine} (hs : ∀ e : Engine, e.Same (g e))
    (hd : ∀ e : Engine, e.isDisposed = true → (g e).isDisposed = true) (ho : ∀ e : Engine, (g e).operations = e.operations) :
    Untangled u cur i x c (w.modifyEngine j g) :=
  ⟨h.toRetained.face j hs hd ho, h.outlined.frame rfl, h.apart.face j fun e => ⟨(hs e).fibers, (hs e).queue, (hs e).current⟩⟩

theorem tell (h : Untangled u cur i x c w) (j : Nat) (e : String → Event) : Untangled u cur i x c (w.tell j e) := by
  have hgraphs : (w.tell j e).graphs = w.graphs := by
    unfold World.tell
    split <;> rfl
  exact h.aside hgraphs (engines_tell w j e) (disposers_tell w j e)

theorem report (h : Untangled u cur i x c w) (j : Nat) (e : Failure) : Untangled u cur i x c (w.report j e) :=
  ⟨h.toRetained.report j e, h.outlined.report j e, h.apart.report j e⟩

theorem begin (h : Untangled u cur i x c w) (j : Nat) (y : NodeRef) (output : String) {l : Option Listener}
    (hl : ∀ z, l = some z → z.Within fun c => c.node ≠ x ∧ c.Free) (values : List (String × Value))
    (hy : values = [] ∨ Starts (·.node ≠ x) y output l) : Untangled u cur i x c (w.begin j y output l values) := by
  refine ⟨h.toRetained.begin j y output hl values, h.outlined.begin j y output l values, ?_⟩
  refine h.apart.begin h.toInOrder h.outlined j y output (fun z hz c hc => (hl z hz c hc).2) values ?_
  rintro rfl
  exact hy.imp_right fun hstart => hstart.resolve_right fun ⟨_, hc, hnode⟩ => hc hnode

theorem complete (h : Untangled u cur i x c w) (j o : Nat) (output : Option String) :
    Untangled u cur i x c (w.complete j o output) := by
  refine complete_upholds (P := Untangled u cur i x c) ?_ ?_ ?_ ?_ ?_ h
  · exact fun w h => h.face j (fun _ => ⟨rfl, rfl, rfl, rfl⟩) (fun _ => id) fun _ => rfl
  · intro w y h
    have hengines := engines_chooseOutput w y output
    exact ⟨h.toRetained.frame hengines (disposers_chooseOutput w y output), h.outlined.chooseOutput y output,
      h.apart.frame hengines (outputs_chooseOutput w y output x)⟩
  · exact fun w e h => h.report j e
  · exact fun w y name h => h.begin j y name (by simp) [] (.inl rfl)
  · exact fun w e h => h.tell j e

theorem post (h : Untangled u cur i x c w) (j : Nat) {p : Post} (hp : p.Within fun c => c.node ≠ x ∧ c.Free) :
    Untangled u cur i x c (w.post j p) :=
  ⟨h.toRetained.post j hp, h.outlined.frame rfl, h.apart.face j fun _ => ⟨rfl, rfl, rfl⟩⟩

theorem modifyOperation (h : Untangled u cur i x c w) (j o : Nat) {g : Operation → Operation}
    (hg : ∀ op, (∀ d ∈ op.disposers, d.Within fun c => c.node ≠ x ∧ c.Free) →
      ∀ d ∈ (g op).disposers, d.Within fun c => c.node ≠ x ∧ c.Free) :
    Untangled u cur i x c (w.modifyEngine j (·.modifyOperation o g)) :=
  ⟨h.toRetained.modifyOperation j o hg, h.outlined.frame rfl, h.apart.modifyOperation j o g⟩

theorem finishOperation (h : Untangled u cur i x c w) (j o : Nat) (output : Option String) (fromOutside : Bool) :
    Untangled u cur i x c (w.finishOperation j o output fromOutside) := by
  refine finishOperation_upholds (P := Untangled u cur i x c) ?_ ?_ ?_ h
  · exact fun w h _ _ => h.modifyOperation j o fun _ => id
  · exact fun w h _ => h.complete j o output
  · exact fun w h _ => h.post j trivial

theorem relinquish (h : Untangled u cur i x c w) (j o : Nat) : Untangled u cur i x c (w.relinquish j o) :=
  ⟨h.toRetained.relinquish j o, relinquish_upholds (h.outlined.frame rfl) h.outlined, h.apart.relinquish j o⟩

/-- What other threads asked for is taken up. -/
theorem accept (h : Untangled u cur i x c w) (j : Nat) :
    Untangled u cur i x c (w.modifyEngine j fun e => { e with inbox := [] }) :=
  ⟨h.toRetained.clearInbox j, h.outlined.frame rfl, h.apart.face j fun _ => ⟨rfl, rfl, rfl⟩⟩

/-- Whatever is done in the name of other nodes leaves the payloads of the node apart. -/
theorem closed (u : World) (cur : Nat → Option Nat) (i : Nat) (x : NodeRef) :
    Closed (fun w _ => Untangled u cur i x none w) (Context.Serves (·.node ≠ x) cur) where
  stamp g v w _ h := by
    refine ⟨(Retained.closed u cur _).stamp g v (r := w) h.toRetained, h.outlined.stamp g v, ?_⟩
    exact h.apart.frame (engines_stamp w g v) (by rw [node_stamp])
  write {w _} h _ hc _ _ _ hn := by
    refine ⟨(Retained.closed u cur _).write (r := w) h.toRetained hc hn, ?_, h.apart.modifyNode_of_ne hc.1 _⟩
    exact h.outlined.modifyNode _ (Node.outline_write hn)
  setState _ _ _ _ h := ⟨h.toRetained.frame rfl rfl, h.outlined.modifyNode _ rfl, h.apart.modifyNode _ fun _ => rfl⟩
  setInput y place v _ _ h :=
    ⟨h.toRetained.frame rfl rfl, h.outlined.modifyNode y (Node.outline_setInput _ place v), h.apart.modifyNode y fun _ => rfl⟩
  assign {w _} h _ _ _ _ _ hg := by
    obtain ⟨_, _, -, -, hchanged⟩ := Graph.assign_eq_ok hg
    refine ⟨h.toRetained.frame rfl rfl, h.outlined.modifyGraph _ (Outlined.outline_assign hg), h.apart.frame rfl ?_⟩
    rw [w.node_modifyGraph]
    rw [hchanged, Graph.arena_stamp]
  record _ _ _ _ h := h.aside rfl rfl rfl
  tell j e _ _ _ h := h.tell j e
  hold _ _ _ h := h.aside rfl rfl rfl
  schedule _ _ _ h := h.aside rfl rfl rfl
  store _ _ _ h := h.aside rfl rfl rfl
  subscribe _ _ _ _ h := h.aside rfl rfl rfl
  unsubscribe _ _ _ h := h.aside rfl rfl rfl
  enlist y _ hd w _ h :=
    ⟨(Retained.closed u cur _).enlist y hd (r := w) h.toRetained, h.outlined.frame rfl, h.apart.aside rfl rfl⟩
  unlist y w _ h := ⟨(Retained.closed u cur _).unlist y (r := w) h.toRetained, h.outlined.frame rfl, h.apart.aside rfl rfl⟩
  report _ _ _ _ _ _ _ h := h.report _ _
  begin j y output _ hl values hy _ _ h :=
    h.begin j y output (fun z hz c hc => ⟨(hl z hz c hc).1.1, (hl z hz c hc).2⟩) values
      (.inr (hy.imp_right fun ⟨c, hc, hnode⟩ => ⟨c, hc.1, hnode⟩))
  commit {y j f input} hc output l hl w _ h :=
    ⟨(Retained.closed u cur _).commit hc output hl (r := w) h.toRetained, h.outlined.commitFiber j f y output l,
      h.apart.commitFiber h.toInOrder (hc.2 j f input rfl) y output l⟩
  stop {y j f input} hc w _ h :=
    ⟨(Retained.closed u cur _).stop hc (r := w) h.toRetained, h.outlined.endFiber j f y,
      h.apart.endFiber h.toInOrder (hc.2 j f input rfl) y⟩
  register {w _} h j hj y hy input := by
    refine ⟨(Retained.closed u cur _).register (r := w) h.toRetained (hj.mono fun _ _ h => h.toRetained) y hy input, ?_, ?_⟩
    · exact h.outlined.frame rfl
    · exact h.apart.face j fun _ => ⟨rfl, rfl, rfl⟩
  enrol {j o _} hd w _ h :=
    ⟨(Retained.closed u cur _).enrol hd (r := w) h.toRetained, h.outlined.frame rfl, h.apart.modifyOperation j o _⟩
  finish j o output _ _ h := h.finishOperation j o output false
  dismiss {w _} h j o _ _ := by
    have hdrop : Untangled u cur i x none (w.strike j o) :=
      h.face j (fun _ => ⟨rfl, rfl, rfl, rfl⟩) (fun _ => id) fun _ => rfl
    exact hdrop.relinquish j o
  close h j _ := h.face j (fun _ => ⟨rfl, rfl, rfl, rfl⟩) (fun _ _ => rfl) fun _ => rfl
  relinquish h j _ _ o := h.relinquish j o
  release h j _ _ := h.face j (fun _ => ⟨rfl, rfl, rfl, rfl⟩) (fun _ => id) fun _ => rfl
  clear {w _} h j ho hd :=
    ⟨(Retained.closed u cur _).clear (r := w) h.toRetained (ho.mono fun _ _ h => h.toRetained) hd, h.outlined.frame rfl,
      h.apart.clear j⟩

/-- A node that does something else than to trigger paths is another one. -/
theorem ne_of_behaviour (h : Untangled u cur i x c w) (hx : (u.node x).definition.behaviour = .event b) {y : NodeRef}
    (hy : ∀ b, (w.node y).definition.behaviour ≠ .event b) : y ≠ x := by
  rintro rfl
  exact hy b (by rw [h.outlined.definition, hx])

section Turn

variable {others : List Nat} {out : Except Failure Unit}

/-- The head of the queue gets to work and writes what it carries. If that cannot be written, it is about to fail. -/
theorem write (h : Untangled u atRest i x none w) (hq : (w.engine i).queue = f :: others)
    (hready : ((w.engine i).fiber f).isReady = true)
    (ht : (atWork i f others w).applyEntry i f = (out, v)) :
    Untangled u (onlyAt i f) i x (if out.isOk then none else some f) v := by
  have htaken := (h.toRetained.take hq).applyEntry
  have hgraphs : Outlined u (atWork i f others w) := h.outlined.frame rfl
  have houtlined := hgraphs.applyEntry i f
  rw [ht] at htaken houtlined
  exact ⟨htaken, houtlined, h.apart.write h.toInOrder h.outlined hq hready ht⟩

theorem pop (h : Untangled u atRest i x none w) (hq : (w.engine i).queue = f :: others)
    (hidle : ((w.engine i).fiber f).isReady = false) : Untangled u atRest i x none (Play.pop i f others w) := by
  refine ⟨h.toRetained.pop hq hidle, h.outlined.frame ?_, h.apart.pop h.toInOrder hq hidle⟩
  unfold Play.pop
  split <;> rfl

/-- The fiber at work goes back to the head of the queue. -/
theorem requeue (h : Untangled u (onlyAt i f) i x none w) (hready : ((w.engine i).fiber f).isReady = true) :
    Untangled u atRest i x none (w.modifyEngine i fun e => { e with queue := f :: e.queue, current := none }) := by
  have hrested := h.toRetained.requeue hready
  exact ⟨hrested, h.outlined.frame rfl, (h.apart.requeue h.toInOrder).settle (hrested.engine i).current fun _ hk => by cases hk⟩

/-- The fiber at work makes room. If it was about to fail it is idle by now. -/
theorem cede (h : Untangled u (onlyAt i f) i x c w) (hover : ((w.engine i).fiber f).isReady = false)
    (hidle : ∀ k, c = some k → ((w.engine i).fiber k).next = none ∧ ((w.engine i).fiber k).listeners = []) :
    Untangled u atRest i x none (w.cede i f) := by
  have hrested := h.toRetained.cede hover
  unfold World.cede
  refine ⟨hrested, h.outlined.frame ?_, (h.apart.cede h.toInOrder).settle (hrested.engine i).current ?_⟩
  · split <;> rfl
  · intro k hk
    split
    · have hsame := (w.engine i).alike_finish f k
      rw [modifyEngine_modifyEngine, engine_modifyEngine_self h.there]
      obtain ⟨hnext, hlisteners⟩ := hidle k hk
      exact ⟨hsame.next.trans hnext, hsame.listeners.trans hlisteners⟩
    · rw [engine_modifyEngine_self h.there]
      exact hidle k hk

theorem count (h : Untangled u (onlyAt i f) i x none w) :
    Untangled u (onlyAt i f) i x none (w.modifyEngine i fun e => { e with steps := e.steps + 1 }) :=
  h.face i (fun _ => ⟨rfl, rfl, rfl, rfl⟩) (fun _ => id) fun _ => rfl

/-- The fiber at work fails and makes room. -/
theorem fail (h : Untangled u (onlyAt i f) i x (some f) w) (e : Failure) :
    Untangled u atRest i x none ((w.fail i f e).cede i f) := by
  have hreported := h.report i e
  have hspent := h.spent_fail e
  have hstopped : Untangled u (onlyAt i f) i x (some f) (w.fail i f e) := by
    unfold World.fail
    exact ⟨h.toRetained.fail e, hreported.outlined.frame rfl, hreported.apart.abort hreported.toInOrder⟩
  refine hstopped.cede (Fiber.not_isReady_of_spent hspent.1 hspent.2) ?_
  rintro k ⟨⟩
  exact hspent

/-- The only engine with something in its queue is the one. -/
theorem eq_of_queue (h : Untangled u cur i x c w) (hq : (w.engine j).queue = f :: others) : j = i := by
  refine h.apart.alone j (Decidable.byContradiction fun hj => ?_)
  rw [World.engine, Array.getElem?_eq_none (Nat.not_lt.1 hj)] at hq
  cases hq

end Turn

/-- What is said of the payloads counts from any point on. -/
theorem rebase (h : Untangled u cur i x none w) : Untangled w cur i x none w := by
  refine ⟨h.toRetained.rebase, rfl, h.apart.alone, ?_, .refl _⟩
  have hfits : (w.node x).Accepts = (u.node x).Accepts := funext fun vs => propext (Apart.accepts_iff h.outlined vs)
  rw [hfits, h.outlined.wiresAt]
  exact h.apart.unmixed

end Untangled

end FlowGraph
