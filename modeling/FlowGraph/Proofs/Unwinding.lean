import FlowGraph.Proofs.Rollback
import FlowGraph.Proofs.Stopping
import Mathlib.Algebra.Order.Group.Multiset

/-!
Which callbacks are run when an engine is disposed of. A callback may register others, and where engines share nodes it
may dispose of another engine in turn; all of that is written down as it happens. Main statement: whoever disposes of an
engine runs each callback of its event nodes once, whatever fails.
-/
namespace FlowGraph

abbrev Callback := NodeRef × Disposer

/-- What happens to callbacks. -/
inductive CallbackEvent where
  | registered (p : Callback)
  | ran (p : Callback)

namespace CallbackEvent

def registered? : CallbackEvent → Option Callback
  | registered p => some p
  | ran _ => none

def ran? : CallbackEvent → Option Callback
  | registered _ => none
  | ran p => some p

end CallbackEvent

section Account

variable (dispose : Nat → Play Unit) (nested : Nat → World → List CallbackEvent)

mutual
/-- What becomes of callbacks when an action is carried out; `nested` says what becomes of them when an engine is disposed
of. -/
def Action.callbackEvents (c : Context) : Action → World → List CallbackEvent
  | .onDispose actions, _ => match c.role with
    | .event _ => [.registered (c.node, .script c actions)]
    | _ => []
  | .dispose, w => match c.role with
    | .event i | .flow i _ _ | .async i _ => nested i w
    | .function => []
  | .look next, w => match c.sight.runOn w with
    | (.ok s, v) => Action.eventsOfAll c (next s) v
    | (.error _, _) => []
  | .attempt actions next, w =>
    let (out, v) := (Action.performAll dispose c actions).runOn w
    Action.eventsOfAll c actions w ++ Action.eventsOfAll c (next out) v
  | _, _ => []

def Action.eventsOfAll (c : Context) : List Action → World → List CallbackEvent
  | [], _ => []
  | a :: rest, w => Action.callbackEvents c a w ++ match (a.perform dispose c).runOn w with
    | (.ok _, v) => Action.eventsOfAll c rest v
    | (.error _, _) => []
end

def Disposer.callbackEvents (w : World) : Disposer → List CallbackEvent
  | script c actions => Action.eventsOfAll dispose nested c actions w
  | _ => []

namespace Play

/-- What becomes of callbacks when some things are undone; `told` says which of them are callbacks. -/
def eventsOfUndo (told : Disposer → List CallbackEvent) : List Disposer → World → List CallbackEvent
  | [], _ => []
  | d :: ds, w => told d ++ d.callbackEvents dispose nested w ++ eventsOfUndo told ds ((undo dispose d).runOn w).2

def eventsOfNode (x : NodeRef) (w : World) : List CallbackEvent :=
  eventsOfUndo dispose nested (fun d => [.ran (x, d)]) ((w.disposers.filter (·.1 = x)).map (·.2)).reverse
    { w with disposers := w.disposers.filter (·.1 ≠ x) }

def eventsOfNodes (i : Nat) : List NodeRef → World → List CallbackEvent
  | [], _ => []
  | x :: xs, w => eventsOfNode dispose nested x w ++ eventsOfNodes i xs ((disposeNodes dispose i [x]).runOn w).2

def eventsOfOperation (i o : Nat) (w : World) : List CallbackEvent :=
  if ((w.engine i).operation o).isSettled then []
  else eventsOfUndo dispose nested (fun _ => []) ((w.engine i).operation o).disposers.reverse (w.relinquish i o)

def eventsOfOperations (i : Nat) : List Nat → World → List CallbackEvent
  | [], _ => []
  | o :: os, w => eventsOfOperation dispose nested i o w ++ eventsOfOperations i os ((abandon dispose i o).runOn w).2

end Play

end Account

namespace Play

/-- What becomes of callbacks when an engine is disposed of. -/
def eventsWithin : Nat → Nat → World → List CallbackEvent
  | 0, _, _ => []
  | fuel + 1, i, w =>
    if (w.engine i).isDisposed then []
    else
      let v := released (disposeWithin fuel) i w
      eventsOfNodes (disposeWithin fuel) (eventsWithin fuel) i (w.engine i).eventNodes
          (w.modifyEngine i fun e => { e with isDisposed := true }) ++
        eventsOfOperations (disposeWithin fuel) (eventsWithin fuel) i (v.engine i).pending
          (v.modifyEngine i fun e => { e with pending := [] })

def eventsOfDispose (i : Nat) (w : World) : List CallbackEvent := eventsWithin (w.engines.size + 1) i w

end Play

namespace CallbackEvent

def registeredIn (es : List CallbackEvent) : Multiset Callback := es.filterMap registered?

def ranIn (es : List CallbackEvent) : Multiset Callback := es.filterMap ran?

@[simp] theorem registeredIn_append (es fs : List CallbackEvent) :
    registeredIn (es ++ fs) = registeredIn es + registeredIn fs := by
  rw [registeredIn, List.filterMap_append, ← Multiset.coe_add]
  rfl

@[simp] theorem ranIn_append (es fs : List CallbackEvent) : ranIn (es ++ fs) = ranIn es + ranIn fs := by
  rw [ranIn, List.filterMap_append, ← Multiset.coe_add]
  rfl

@[simp] theorem registeredIn_nil : registeredIn [] = 0 := rfl

@[simp] theorem ranIn_nil : ranIn [] = 0 := rfl

end CallbackEvent

open CallbackEvent

def World.callbacks (w : World) : Multiset Callback := w.disposers

theorem World.callbacks_congr {v w : World} (h : v.disposers = w.disposers) : v.callbacks = w.callbacks := by
  rw [callbacks, callbacks, h]

/-- No callback is lost and none comes from nowhere: what was registered before or is registered meanwhile is run, or is
left. -/
def Balanced (es : List CallbackEvent) (w v : World) : Prop :=
  w.callbacks + registeredIn es = ranIn es + v.callbacks

namespace Balanced

variable {es fs : List CallbackEvent} {u v w : World}

theorem of_disposers (h : v.disposers = w.disposers) : Balanced [] w v := by
  rw [Balanced, World.callbacks_congr h, registeredIn_nil, ranIn_nil, add_zero, zero_add]

theorem refl (w : World) : Balanced [] w w := of_disposers rfl

theorem congr {w' v' : World} (h : Balanced es w v) (hw : w'.disposers = w.disposers) (hv : v'.disposers = v.disposers) :
    Balanced es w' v' := by
  rw [Balanced, World.callbacks_congr hw, World.callbacks_congr hv]
  exact h

theorem trans (h : Balanced es u v) (h' : Balanced fs v w) : Balanced (es ++ fs) u w := by
  unfold Balanced at h h' ⊢
  rw [registeredIn_append, ranIn_append, ← add_assoc, h, add_assoc, h', add_assoc]

end Balanced

def callbacksOf (x : NodeRef) (ps : Multiset Callback) : Multiset Callback := ps.filter (·.1 = x)

@[simp] theorem callbacksOf_add (x : NodeRef) (ps qs : Multiset Callback) :
    callbacksOf x (ps + qs) = callbacksOf x ps + callbacksOf x qs := Multiset.filter_add ..

/-- Those callbacks of the node that are left are new. -/
def Cleared (x : NodeRef) (es : List CallbackEvent) (v : World) : Prop :=
  callbacksOf x v.callbacks ≤ callbacksOf x (registeredIn es)

/-- What else becomes of callbacks brings no old ones back. -/
theorem Cleared.trans {x : NodeRef} {es fs : List CallbackEvent} {u v : World} (h : Cleared x es u) (hb : Balanced fs u v) :
    Cleared x (es ++ fs) v := by
  have hleft : v.callbacks ≤ u.callbacks + registeredIn fs := by
    rw [hb]
    exact Multiset.le_add_left _ _
  calc callbacksOf x v.callbacks ≤ callbacksOf x (u.callbacks + registeredIn fs) := Multiset.filter_le_filter _ hleft
    _ = callbacksOf x u.callbacks + callbacksOf x (registeredIn fs) := callbacksOf_add ..
    _ ≤ callbacksOf x (registeredIn es) + callbacksOf x (registeredIn fs) := Multiset.add_le_add_right h
    _ = callbacksOf x (registeredIn (es ++ fs)) := by rw [registeredIn_append, callbacksOf_add]

theorem Cleared.mono {x : NodeRef} {es fs : List CallbackEvent} {v : World} (h : Cleared x fs v) : Cleared x (es ++ fs) v := by
  refine le_trans h ?_
  rw [registeredIn_append, callbacksOf_add]
  exact Multiset.le_add_left _ _

namespace Play

section Keeping

variable {dispose : Nat → Play Unit} {nested : Nat → World → List CallbackEvent}
  (hn : ∀ j w, Balanced (nested j w) w ((dispose j).runOn w).2)

include hn

omit hn in
/-- Actions that are balanced one by one are balanced together. -/
theorem balanced_each {c : Context} {actions : List Action}
    (h : ∀ a ∈ actions, ∀ w, Balanced (a.callbackEvents dispose nested c w) w ((a.perform dispose c).runOn w).2) (w : World) :
    Balanced (Action.eventsOfAll dispose nested c actions w) w ((Action.performAll dispose c actions).runOn w).2 := by
  induction actions generalizing w with
  | nil => exact .refl w
  | cons a rest ih =>
    have hfirst := h a List.mem_cons_self w
    rw [Action.performAll, runOn_bind, Action.eventsOfAll]
    generalize (a.perform dispose c).runOn w = p at hfirst ⊢
    obtain ⟨out, v⟩ := p
    cases out with
    | ok _ => exact hfirst.trans (ih (fun b hb => h b (List.mem_cons_of_mem a hb)) v)
    | error e =>
      rw [List.append_nil]
      exact hfirst

/-- The callbacks of an action balance, by induction on what it may lead to. -/
theorem balanced_perform (c : Context) (a : Action) (w : World) :
    Balanced (a.callbackEvents dispose nested c w) w ((a.perform dispose c).runOn w).2 := by
  induction a using Action.induct generalizing w with
  | look next ih =>
    have hlook : ((Action.look next).perform dispose c).runOn w =
        (c.sight >>= fun s => Action.performAll dispose c (next s)).runOn w := by rw [Action.perform]
    have hsame : (c.sight.runOn w).2.disposers = w.disposers := rfl
    rw [hlook, runOn_bind, Action.callbackEvents]
    generalize c.sight.runOn w = p at hsame ⊢
    obtain ⟨out, v⟩ := p
    cases out with
    | ok s => exact (balanced_each (ih s) v).congr hsame.symm rfl
    | error e => exact .of_disposers hsame
  | attempt actions next hfirst hnext =>
    have hattempt : ((Action.attempt actions next).perform dispose c).runOn w =
        (outcome (Action.performAll dispose c actions) >>= fun out => Action.performAll dispose c (next out)).runOn w := by
      rw [Action.perform]
    rw [hattempt, runOn_bind, runOn_outcome, Action.callbackEvents]
    exact (balanced_each hfirst w).trans (balanced_each (hnext _) _)
  | plain a ha =>
    by_cases hmild : a.isMild = true
    · have hnone : a.callbackEvents dispose nested c w = [] := by
        cases a <;> first | rfl | cases hmild
      rw [hnone]
      exact .of_disposers (spares_perform dispose c hmild w rfl).1
    · obtain ⟨x, role⟩ := c
      cases a with
      | onDispose actions =>
        cases role with
        | event i =>
          simp only [Balanced, Action.callbackEvents]
          exact (Multiset.coe_add _ _).trans (zero_add _).symm
        | flow i f input => exact .refl w
        | function => exact .refl w
        | async i o => exact .of_disposers rfl
      | dispose =>
        cases role with
        | event i => exact hn i w
        | flow i f input => exact hn i w
        | function => exact .refl w
        | async i o => exact hn i w
      | look next | attempt actions next => cases ha
      | _ => exact absurd rfl hmild

theorem balanced_performAll (c : Context) (actions : List Action) (w : World) :
    Balanced (Action.eventsOfAll dispose nested c actions w) w ((Action.performAll dispose c actions).runOn w).2 :=
  balanced_each (fun a _ => balanced_perform hn c a) w

theorem balanced_undo (d : Disposer) (w : World) :
    Balanced (d.callbackEvents dispose nested w) w ((undo dispose d).runOn w).2 := by
  cases d with
  | unsubscribe s => exact .of_disposers rfl
  | cancelTimer t => exact .of_disposers rfl
  | script c actions => exact balanced_performAll hn c actions w

/-- Things that are undone are run once each, and what else becomes of callbacks meanwhile is balanced. -/
theorem balanced_undoEach (told : Disposer → List CallbackEvent) (ht : ∀ d, registeredIn (told d) = 0)
    (ds : List Disposer) (w : World) :
    ∃ more, ranIn (eventsOfUndo dispose nested told ds w) = ranIn (ds.flatMap told) + more ∧
      w.callbacks + registeredIn (eventsOfUndo dispose nested told ds w) = more + (undoEach dispose ds w).callbacks := by
  induction ds generalizing w with
  | nil => exact ⟨0, rfl, by simp [eventsOfUndo, undoEach]⟩
  | cons d ds ih =>
    obtain ⟨more, hran, hrest⟩ := ih ((undo dispose d).runOn w).2
    have hfirst := balanced_undo hn d w
    refine ⟨ranIn (d.callbackEvents dispose nested w) + more, ?_, ?_⟩
    · simp only [eventsOfUndo, List.flatMap_cons, ranIn_append, hran]
      ac_rfl
    · have hcons : undoEach dispose (d :: ds) w = undoEach dispose ds ((undo dispose d).runOn w).2 := rfl
      rw [hcons, eventsOfUndo, registeredIn_append, registeredIn_append, ht, zero_add, ← add_assoc, hfirst, add_assoc,
        hrest, add_assoc]

omit hn in
/-- The callbacks of a node are run once each. -/
theorem ranIn_mine (x : NodeRef) (w : World) :
    ranIn (((w.disposers.filter (·.1 = x)).map (·.2)).reverse.flatMap fun d => [.ran (x, d)]) = callbacksOf x w.callbacks := by
  have hran (ds : List Disposer) : (ds.flatMap fun d => [CallbackEvent.ran (x, d)]).filterMap ran? = ds.map (x, ·) := by
    induction ds with
    | nil => rfl
    | cons d ds ih => exact congrArg ((x, d) :: ·) ih
  have hmine : ((w.disposers.filter (·.1 = x)).map (·.2)).map (x, ·) = w.disposers.filter (·.1 = x) := by
    rw [List.map_map]
    refine (List.map_congr_left fun p hp => ?_).trans (List.map_id _)
    have hp : p.1 = x := of_decide_eq_true (List.mem_filter.1 hp).2
    rw [← hp]
    rfl
  rw [ranIn, hran, List.map_reverse, hmine]
  exact Multiset.coe_reverse _

/-- A node that is disposed of runs its callbacks, and those that are left are new. -/
theorem balanced_disposeNode (x : NodeRef) (w : World) :
    Balanced (eventsOfNode dispose nested x w) w ((disposeNode dispose x).runOn w).2 ∧
      Cleared x (eventsOfNode dispose nested x w) ((disposeNode dispose x).runOn w).2 := by
  obtain ⟨more, hran, hrest⟩ := balanced_undoEach hn (fun d => [.ran (x, d)]) (fun _ => rfl)
    ((w.disposers.filter (·.1 = x)).map (·.2)).reverse { w with disposers := w.disposers.filter (·.1 ≠ x) }
  have hstruck : ({ w with disposers := w.disposers.filter (·.1 ≠ x) } : World).callbacks =
      w.callbacks.filter (¬ ·.1 = x) := by
    simp [World.callbacks]
  rw [ranIn_mine] at hran
  rw [hstruck] at hrest
  rw [(disposeNode_eq dispose x w).1]
  change Balanced (eventsOfNode dispose nested x w) _ _ ∧ _
  have hes : eventsOfNode dispose nested x w = eventsOfUndo dispose nested (fun d => [.ran (x, d)])
      ((w.disposers.filter (·.1 = x)).map (·.2)).reverse { w with disposers := w.disposers.filter (·.1 ≠ x) } := rfl
  rw [← hes] at hran hrest
  generalize eventsOfNode dispose nested x w = es at hran hrest ⊢
  generalize undoEach dispose _ _ = v at hrest ⊢
  constructor
  · calc w.callbacks + registeredIn es
      _ = callbacksOf x w.callbacks + (w.callbacks.filter (¬ ·.1 = x) + registeredIn es) := by
        rw [← add_assoc, callbacksOf, Multiset.filter_add_not]
      _ = ranIn es + v.callbacks := by rw [hrest, hran, add_assoc]
  · have hleft : v.callbacks ≤ w.callbacks.filter (¬ ·.1 = x) + registeredIn es := by
      rw [hrest]
      exact Multiset.le_add_left _ _
    calc callbacksOf x v.callbacks ≤ callbacksOf x (w.callbacks.filter (¬ ·.1 = x) + registeredIn es) :=
        Multiset.filter_le_filter _ hleft
      _ = callbacksOf x (registeredIn es) := by
        rw [callbacksOf_add]
        simp [callbacksOf]

omit hn in
theorem runOn_disposeNodes_cons (dispose : Nat → Play Unit) (i : Nat) (x : NodeRef) (xs : List NodeRef) (w : World) :
    (disposeNodes dispose i (x :: xs)).runOn w = (disposeNodes dispose i xs).runOn ((disposeNodes dispose i [x]).runOn w).2 := by
  have hcons : (disposeNodes dispose i (x :: xs)).runOn w =
      (disposeNodes dispose i [x] >>= fun _ => disposeNodes dispose i xs).runOn w := by
    simp only [disposeNodes, List.forM_eq_forM, List.forM_cons, List.forM_nil, bind_pure_unit]
  have hok := ok_disposeNodes dispose i [x] w
  rw [hcons, runOn_bind]
  generalize (disposeNodes dispose i [x]).runOn w = p at hok
  obtain ⟨out, v⟩ := p
  simp only at hok
  subst hok
  rfl

omit hn in
theorem disposers_disposeNodes_single (dispose : Nat → Play Unit) (i : Nat) (x : NodeRef) (w : World) :
    ((disposeNodes dispose i [x]).runOn w).2.disposers = ((disposeNode dispose x).runOn w).2.disposers := by
  rw [disposeNodes, List.forM_eq_forM, List.forM_cons, List.forM_nil, bind_pure_unit, runOn_bind, runOn_outcome]
  cases ((disposeNode dispose x).runOn w).1 with
  | ok _ => rfl
  | error e => exact World.disposers_report _ i e

/-- Nodes that are disposed of one after the other keep no callbacks. -/
theorem balanced_disposeNodes (i : Nat) (xs : List NodeRef) (w : World) :
    Balanced (eventsOfNodes dispose nested i xs w) w ((disposeNodes dispose i xs).runOn w).2 ∧
      ∀ x ∈ xs, Cleared x (eventsOfNodes dispose nested i xs w) ((disposeNodes dispose i xs).runOn w).2 := by
  induction xs generalizing w with
  | nil => exact ⟨.refl w, fun x hx => absurd hx List.not_mem_nil⟩
  | cons y xs ih =>
    have hsame : ((disposeNodes dispose i [y]).runOn w).2.callbacks = ((disposeNode dispose y).runOn w).2.callbacks :=
      World.callbacks_congr (disposers_disposeNodes_single dispose i y w)
    obtain ⟨hfirst, hcleared⟩ := balanced_disposeNode hn y w
    have hfirst : Balanced (eventsOfNode dispose nested y w) w ((disposeNodes dispose i [y]).runOn w).2 := by
      rw [Balanced, hsame]
      exact hfirst
    have hcleared : Cleared y (eventsOfNode dispose nested y w) ((disposeNodes dispose i [y]).runOn w).2 := by
      rw [Cleared, hsame]
      exact hcleared
    obtain ⟨hrest, hothers⟩ := ih ((disposeNodes dispose i [y]).runOn w).2
    rw [runOn_disposeNodes_cons, eventsOfNodes]
    refine ⟨hfirst.trans hrest, fun x hx => ?_⟩
    rcases List.mem_cons.1 hx with rfl | hx
    · exact hcleared.trans hrest
    · exact (hothers x hx).mono

/-- The callbacks of an operation that is given up balance. -/
theorem balanced_abandon (i o : Nat) (w : World) :
    Balanced (eventsOfOperation dispose nested i o w) w ((abandon dispose i o).runOn w).2 := by
  rw [runOn_abandon_each, eventsOfOperation]
  split
  · exact .refl w
  · obtain ⟨more, hran, hrest⟩ := balanced_undoEach hn (fun _ => []) (fun _ => rfl)
      ((w.engine i).operation o).disposers.reverse (w.relinquish i o)
    have hnone : ranIn (((w.engine i).operation o).disposers.reverse.flatMap fun _ => []) = 0 := by
      rw [List.flatMap_eq_nil_iff.2 fun _ _ => rfl, ranIn_nil]
    have hgiven : (w.relinquish i o).callbacks = w.callbacks :=
      World.callbacks_congr (World.relinquish_upholds (P := fun v => v.disposers = w.disposers) rfl rfl)
    rw [hnone, zero_add] at hran
    rw [hgiven, ← hran] at hrest
    exact hrest

/-- The callbacks of operations that are given up one after the other balance. -/
theorem balanced_abandonAll (i : Nat) (os : List Nat) (w : World) :
    Balanced (eventsOfOperations dispose nested i os w) w ((os.forM (abandon dispose i)).runOn w).2 := by
  induction os generalizing w with
  | nil => exact .refl w
  | cons o os ih =>
    have hfirst := balanced_abandon hn i o w
    have hok := congrArg Prod.fst (runOn_abandon_each dispose i o w)
    have hcons : ((o :: os).forM (abandon dispose i)).runOn w =
        (abandon dispose i o >>= fun _ => os.forM (abandon dispose i)).runOn w := rfl
    rw [hcons, runOn_bind, eventsOfOperations]
    generalize (abandon dispose i o).runOn w = p at hfirst hok ⊢
    obtain ⟨out, v⟩ := p
    simp only at hok
    subst hok
    exact hfirst.trans (ih v)

end Keeping

/-- What becomes of callbacks when an engine that is in use is disposed of, if that is so one level down. -/
theorem balanced_disposeLevel {fuel i : Nat} {w : World}
    (hn : ∀ j w, Balanced (eventsWithin fuel j w) w ((disposeWithin fuel j).runOn w).2) (hd : (w.engine i).isDisposed = false) :
    Balanced (eventsWithin (fuel + 1) i w) w ((disposeWithin (fuel + 1) i).runOn w).2 ∧
      ∀ x ∈ (w.engine i).eventNodes, Cleared x (eventsWithin (fuel + 1) i w) ((disposeWithin (fuel + 1) i).runOn w).2 := by
  obtain ⟨hnodes, hcleared⟩ := balanced_disposeNodes hn i (w.engine i).eventNodes
    (w.modifyEngine i fun e => { e with isDisposed := true })
  have hgiven := balanced_abandonAll hn i ((released (disposeWithin fuel) i w).engine i).pending
    ((released (disposeWithin fuel) i w).modifyEngine i fun e => { e with pending := [] })
  rw [eventsWithin, if_neg (by rw [hd]; exact Bool.false_ne_true), runOn_disposeWithin hd]
  dsimp only
  generalize hout : ((((released (disposeWithin fuel) i w).engine i).pending.forM (abandon (disposeWithin fuel) i)).runOn
    ((released (disposeWithin fuel) i w).modifyEngine i fun e => { e with pending := [] })).2 = out at hgiven ⊢
  have hrest : Balanced _ (released (disposeWithin fuel) i w) (out.modifyEngine i fun e => { e with queue := [], inbox := [] }) :=
    hgiven.congr rfl rfl
  have hreleased : Balanced _ w (released (disposeWithin fuel) i w) := hnodes.congr rfl rfl
  exact ⟨hreleased.trans hrest, fun x hx => (hcleared x hx).trans hrest⟩

theorem balanced_disposeWithin (fuel i : Nat) (w : World) :
    Balanced (eventsWithin fuel i w) w ((disposeWithin fuel i).runOn w).2 := by
  induction fuel generalizing i w with
  | zero => exact .refl w
  | succ fuel ih =>
    cases hd : (w.engine i).isDisposed with
    | true =>
      rw [disposeWithin_disposed hd, eventsWithin, if_pos hd]
      exact .refl w
    | false => exact (balanced_disposeLevel ih hd).1

theorem runOn_dispose (i : Nat) (w : World) : (dispose i).runOn w = (disposeWithin (w.engines.size + 1) i).runOn w := by
  rw [dispose, runOn_get]

end Play

/-- Each of the node's callbacks that were registered in the first world is run once on the way to the second. Of those that
are registered meanwhile, `late` ones are run once as well, and the others are left. -/
def RunOnce (x : NodeRef) (es : List CallbackEvent) (w v : World) : Prop :=
  ∃ late, callbacksOf x (ranIn es) = callbacksOf x w.callbacks + late ∧
    callbacksOf x (registeredIn es) = late + callbacksOf x v.callbacks

theorem Balanced.runOnce {x : NodeRef} {es : List CallbackEvent} {w v : World} (h : Balanced es w v) (hc : Cleared x es v) :
    RunOnce x es w v := by
  obtain ⟨late, hlate⟩ := Multiset.le_iff_exists_add.1 hc
  refine ⟨late, ?_, by rw [hlate, add_comm]⟩
  have hmine := congrArg (callbacksOf x) h
  rw [callbacksOf_add, callbacksOf_add, hlate] at hmine
  refine add_right_cancel (b := callbacksOf x v.callbacks) ?_
  rw [← hmine]
  ac_rfl

/-- Whoever disposes of an engine runs the callbacks of its event nodes, each once, whatever fails. -/
theorem Play.runOnce_dispose {i : Nat} {w : World} (hd : (w.engine i).isDisposed = false) {x : NodeRef}
    (hx : x ∈ (w.engine i).eventNodes) : RunOnce x (eventsOfDispose i w) w ((dispose i).runOn w).2 := by
  obtain ⟨hbalanced, hcleared⟩ := balanced_disposeLevel (balanced_disposeWithin w.engines.size) hd
  rw [runOn_dispose, eventsOfDispose]
  exact hbalanced.runOnce (hcleared x hx)

end FlowGraph
