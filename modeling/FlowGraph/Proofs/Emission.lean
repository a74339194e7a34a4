import FlowGraph.Proofs.Faithful
import FlowGraph.Proofs.Reporting
import FlowGraph.Proofs.Unmoved

/-!
What those who observe a variable are told. The host hears of new values under the name by which it watches the variable, and a
node that waits for changes starts a path for each. An emission tells an observer that is subscribed once, once, and changes
neither variables nor subscriptions.
-/
namespace FlowGraph

open World Play

/-- A new value that the host was told of under the name. -/
def Event.changed? (name : String) : Event → Option Value
  | .changed n v => if n = name then some v else none
  | _ => none

theorem Event.changed?_of_isFailed {e : Event} (h : e.isFailed = true) (name : String) : e.changed? name = none := by
  cases e with
  | failed => rfl
  | _ => cases h

/-- What the trigger that started the path gave to the node. A fiber into which another split was started by no trigger. -/
def Fiber.trigger? (x : NodeRef) (f : Fiber) : Option (List (String × Value)) :=
  match f.parent, f.entry with
  | none, some (y, values) => if y = x then some values else none
  | _, _ => none

/-- What the triggers at the node gave to it that have started paths, in order. -/
def Engine.triggers (e : Engine) (x : NodeRef) : List (List (String × Value)) :=
  e.fibers.toList.filterMap (Fiber.trigger? x)

namespace Fiber

variable {x y : NodeRef}

theorem trigger?_congr {f g : Fiber} (hp : g.parent = f.parent) (he : g.entry = f.entry) : g.trigger? x = f.trigger? x := by
  rw [trigger?, trigger?, hp, he]

theorem trigger?_of_ne {values : List (String × Value)} (h : y ≠ x) {entry : Option (NodeRef × List (String × Value))}
    (hentry : entry = none ∨ entry = some (y, values)) : ({ entry := entry } : Fiber).trigger? x = none := by
  rcases hentry with rfl | rfl
  · rfl
  · exact if_neg h

end Fiber

theorem filterMap_modify {α β : Type} {p : α → Option β} {g : α → α} (h : ∀ a, p (g a) = p a) (i : Nat) (l : List α) :
    (l.modify i g).filterMap p = l.filterMap p := by
  induction l generalizing i with
  | nil => simp
  | cons a l ih =>
    cases i with
    | zero => simp [List.filterMap_cons, h]
    | succ i => simp [List.filterMap_cons, ih]

namespace Engine

variable {x : NodeRef}

theorem triggers_modifyFiber (e : Engine) (f : Nat) {g : Fiber → Fiber} (hp : ∀ y, (g y).parent = y.parent)
    (he : ∀ y, (g y).entry = y.entry) : (e.modifyFiber f g).triggers x = e.triggers x := by
  rw [triggers, modifyFiber, Array.toList_modify]
  exact filterMap_modify (fun y => Fiber.trigger?_congr (hp y) (he y)) f _

/-- The fibers into which another splits were started by no trigger. -/
theorem triggers_split (e : Engine) (f : Nat) (routes : List Route) : (e.split f routes).triggers x = e.triggers x := by
  have hchildren : (e.children f routes).filterMap (Fiber.trigger? x) = [] := by
    rw [List.filterMap_eq_nil_iff]
    intro c hc
    obtain ⟨r, -, rfl⟩ := List.mem_map.1 hc
    rfl
  have hsplit := triggers_modifyFiber (x := x) { e with fibers := e.fibers ++ (e.children f routes).toArray } f
    (g := fun y => { y with isWritten := true, pending := y.pending + routes.length }) (fun _ => rfl) fun _ => rfl
  refine Eq.trans hsplit ?_
  simp [triggers, hchildren]

theorem triggers_commit (e : Engine) (f : Nat) (y : NodeRef) (l : Option Listener) (wires : List Wire) :
    (e.commit f y l wires).triggers x = e.triggers x := by
  have hcommitted := triggers_modifyFiber (x := x) e f (g := (·.commit y l)) (fun _ => rfl) fun _ => rfl
  match wires with
  | [] => exact hcommitted
  | [w] => exact (triggers_modifyFiber _ f (g := fun f => { f with next := some ⟨y.graph, w⟩ })
      (fun _ => rfl) fun _ => rfl).trans hcommitted
  | w :: w' :: ws => exact (triggers_split _ f _).trans hcommitted

end Engine

namespace World

/-- The new values that the host was told of under the name, in order. -/
def noted (w : World) (name : String) : List Value := w.journal.reverse.filterMap (Event.changed? name)

/-- What the triggers at the node of the engine gave to it that have started paths, in order. -/
def triggers (w : World) (i : Nat) (x : NodeRef) : List (List (String × Value)) := (w.engine i).triggers x

variable {w : World} {i : Nat} {x : NodeRef}

theorem noted_record (w : World) (name : String) (e : Event) :
    (w.record e).noted name = w.noted name ++ (e.changed? name).toList := by
  simp only [noted, record, List.reverse_cons, List.filterMap_append]
  cases he : e.changed? name with
  | none => simp [he]
  | some v => simp [he]

theorem triggers_modifyEngine (w : World) (i j : Nat) {g : Engine → Engine} (hg : ∀ e, (g e).triggers x = e.triggers x) :
    (w.modifyEngine j g).triggers i x = w.triggers i x := by
  rw [triggers, engine_modifyEngine]
  split
  · exact hg _
  · rfl

theorem triggers_of_engines {v : World} (h : v.engines = w.engines) : v.triggers i x = w.triggers i x :=
  congrArg (Engine.triggers · x) (engine_congr h i)

theorem triggers_report (w : World) (i j : Nat) (f : Failure) : (w.report j f).triggers i x = w.triggers i x := by
  rw [triggers_of_engines (engines_report w j f)]
  exact triggers_modifyEngine w i j fun _ => rfl

/-- Writing what a trigger carries triggers nothing. -/
theorem triggers_applyEntry (w : World) (i j f : Nat) : (w.applyEntry j f).2.triggers i x = w.triggers i x := by
  have hmarked : (w.modifyEngine j (·.modifyFiber f fun f => { f with isWritten := true })).triggers i x = w.triggers i x :=
    triggers_modifyEngine w i j fun e => e.triggers_modifyFiber f (fun _ => rfl) fun _ => rfl
  unfold applyEntry
  dsimp only
  split
  · exact hmarked
  · rename_i y values _
    have hwritten := (triggers_of_engines (i := i) (x := x) (engines_writeOutputs _ y values)).trans hmarked
    split
    · rename_i heq
      rw [heq] at hwritten
      exact hwritten
    · rename_i heq
      rw [heq] at hwritten
      exact hwritten

/-- Who is put in the queue triggers nothing yet. -/
theorem triggers_enqueue (w : World) (i j f : Nat) : (w.enqueue j f).triggers i x = w.triggers i x := by
  unfold enqueue
  dsimp only
  split
  · have happly := triggers_applyEntry (x := x) w i j f
    split
    · rename_i heq
      rw [heq] at happly
      rw [triggers_report, happly]
    · rename_i heq
      rw [heq] at happly
      exact (triggers_modifyEngine _ i j (g := Engine.notify) fun _ => rfl).trans happly
  · split
    · exact triggers_modifyEngine w i j fun _ => rfl
    · exact triggers_modifyEngine w i j fun _ => rfl

/-- The root of a new path counts, and whatever it splits into does not. -/
theorem triggers_begin (hopen : (w.engine i).isDisposed = false) (y : NodeRef) (output : String) (l : Option Listener)
    (values : List (String × Value)) : (w.begin i y output l values).triggers i x = w.triggers i x ++
      if i < w.engines.size then (({ entry := w.cargo y values } : Fiber).trigger? x).toList else [] := by
  have hrooted : (w.rooted i y values).triggers i x = w.triggers i x ++
      if i < w.engines.size then (({ entry := w.cargo y values } : Fiber).trigger? x).toList else [] := by
    rw [triggers, rooted, engine_modifyEngine, engines_stampOutputs, engine_congr (engines_stampOutputs w y.graph values)]
    by_cases hi : i < w.engines.size
    · simp only [hi, and_self, if_true, triggers, Engine.triggers, Array.toList_push, List.filterMap_append]
      cases ht : ({ entry := w.cargo y values } : Fiber).trigger? x with
      | none => simp [ht]
      | some ts => simp [ht]
    · simp [hi, triggers]
  rw [begin_eq hopen, ← hrooted]
  split
  · rw [triggers_enqueue]
    exact triggers_modifyEngine _ i i fun e => e.triggers_commit _ y l _
  · exact triggers_report _ i i _

/-- A path that starts at another node, or in another engine, does not count. -/
theorem triggers_begin_of_ne {j : Nat} {y : NodeRef} (hne : j ≠ i ∨ y ≠ x) (output : String) (l : Option Listener)
    (values : List (String × Value)) : (w.begin j y output l values).triggers i x = w.triggers i x := by
  by_cases hij : j = i
  · subst hij
    have hy := hne.resolve_left fun h => h rfl
    cases hd : (w.engine j).isDisposed with
    | true =>
      have hnothing : w.begin j y output l values = w := by rw [begin, hd, if_pos rfl]
      rw [hnothing]
    | false =>
      have hcargo : w.cargo y values = none ∨ w.cargo y values = some (y, w.payload y values) := by
        rw [cargo]
        split
        · exact .inl rfl
        · exact .inr rfl
      rw [triggers_begin hd, Fiber.trigger?_of_ne hy hcargo]
      simp
  · rw [triggers, (Local.begin w j y output l values).others i (Ne.symm hij)]
    rfl

/-- What a new path carries is the value that it is given, but for NaNs that may get labels. -/
theorem cargo_value (w : World) (x : NodeRef) (name : String) (v : Value) :
    w.cargo x [(name, v)] = some (x, [(name, (w.stamp x.graph v).1)]) := rfl

theorem stamp_of_not_hasFresh (w : World) (g : Nat) {v : Value} (h : v.hasFresh = false) : w.stamp g v = (v, w) := by
  rw [stamp, h, if_neg Bool.false_ne_true]

theorem renewed_stamp (w : World) (g : Nat) (v : Value) : (w.stamp g v).1.renewed = v.renewed := by
  unfold stamp
  split
  · exact (w.graph g).renewed_stamp v
  · rfl

/-- From `v` on to `w` no variable was touched, nobody came or went who listens, and no engine was made or disposed of. -/
structure Undisturbed (v w : World) : Prop where
  vars : ∀ g, (w.graph g).vars = (v.graph g).vars
  subscriptions : w.subscriptions = v.subscriptions
  size : w.engines.size = v.engines.size
  isDisposed : ∀ j, (w.engine j).isDisposed = (v.engine j).isDisposed

namespace Undisturbed

variable {u v : World}

theorem refl (w : World) : Undisturbed w w := ⟨fun _ => rfl, rfl, rfl, fun _ => rfl⟩

theorem trans (h : Undisturbed u v) (h' : Undisturbed v w) : Undisturbed u w :=
  ⟨fun g => (h'.vars g).trans (h.vars g), h'.subscriptions.trans h.subscriptions, h'.size.trans h.size,
    fun j => (h'.isDisposed j).trans (h.isDisposed j)⟩

theorem handlers (h : Undisturbed v w) (t : Topic) : w.handlers t = v.handlers t := by
  rw [World.handlers, World.handlers, h.subscriptions]

/-- Only graphs change, and not in their variables. -/
theorem of_graphs (hvars : ∀ g, (w.graph g).vars = (v.graph g).vars) (hs : w.subscriptions = v.subscriptions)
    (he : w.engines = v.engines) : Undisturbed v w :=
  ⟨hvars, hs, by rw [he], fun j => by rw [engine_congr he]⟩

/-- An engine changes, and is in use or disposed of as before. -/
theorem modifyEngine (w : World) (j : Nat) {f : Engine → Engine} (hf : ∀ e, (f e).isDisposed = e.isDisposed) :
    Undisturbed w (w.modifyEngine j f) := by
  refine ⟨fun _ => rfl, rfl, by simp, fun k => ?_⟩
  rw [engine_modifyEngine]
  split
  · exact hf _
  · rfl

/-- A node changes in whatever way. -/
theorem modifyNode (w : World) (x : NodeRef) (f : Node → Node) : Undisturbed w (w.modifyNode x f) := by
  refine of_graphs (fun g => ?_) rfl rfl
  rw [World.modifyNode, graph_modifyGraph]
  split <;> rfl

end Undisturbed

/-- Variables are not touched where paths start. -/
theorem detached_vars (u : World) : Detached fun w => ∀ g, (w.graph g).vars = (u.graph g).vars where
  engine hw _ _ := hw
  failed hw _ _ := hw
  stamp {w} hw k v g := by
    unfold World.stamp
    split
    · rw [graph_modifyGraph]
      split
      · rename_i hg
        obtain ⟨n, hn⟩ := (w.graph k).stamp_eq v
        rw [hn, ← hw g, hg.1]
      · exact hw g
    · exact hw g
  node {w} hw y f _ g := by
    rw [modifyNode, graph_modifyGraph]
    split
    · exact hw g
    · exact hw g

theorem detached_subscriptions (u : World) : Detached fun w => w.subscriptions = u.subscriptions where
  engine hw _ _ := hw
  failed hw _ _ := hw
  stamp {w} hw k v := by
    unfold World.stamp
    split
    · exact hw
    · exact hw
  node hw _ _ _ := hw

theorem detached_noted (name : String) (vs : List Value) : Detached fun w => w.noted name = vs where
  engine hw _ _ := hw
  failed hw e he := by
    rw [noted_record, e.changed?_of_isFailed he]
    simpa using hw
  stamp {w} hw k v := by
    unfold World.stamp
    split
    · exact hw
    · exact hw
  node hw _ _ _ := hw

theorem Undisturbed.begin (w : World) (j : Nat) (y : NodeRef) (output : String) (l : Option Listener)
    (values : List (String × Value)) : Undisturbed w (w.begin j y output l values) where
  vars := (detached_vars w).begin (fun _ => rfl) j y output l values
  subscriptions := (detached_subscriptions w).begin rfl j y output l values
  size := (Local.begin w j y output l values).size
  isDisposed := (Local.begin w j y output l values).isDisposed

theorem Undisturbed.report (w : World) (j : Nat) (e : Failure) : Undisturbed w (w.report j e) where
  vars := (detached_vars w).report (fun _ => rfl) j e
  subscriptions := (detached_subscriptions w).report rfl j e
  size := (Local.report w j e).size
  isDisposed := (Local.report w j e).isDisposed

theorem Undisturbed.tell (w : World) (j : Nat) (e : String → Event) : Undisturbed w (w.tell j e) := by
  unfold World.tell
  split
  · exact of_graphs (fun _ => rfl) rfl rfl
  · exact refl w

theorem Undisturbed.chooseOutput (w : World) (x : NodeRef) (output : Option String) : Undisturbed w (w.chooseOutput x output).1 := by
  have hforget : Undisturbed w (if output.isNone then w.modifyNode x fun n => { n with lastOutput := none } else w) := by
    split
    · exact modifyNode w x _
    · exact refl w
  unfold World.chooseOutput
  dsimp only
  generalize (if output.isNone then w.modifyNode x fun n => { n with lastOutput := none } else w) = v at hforget ⊢
  split
  · exact hforget
  · split
    · exact hforget.trans (modifyNode v x _)
    · exact hforget

/-- Whoever is told of a change may start a path, but disturbs nothing. -/
theorem Undisturbed.handle (w : World) (n : Notice) (h : Handler) : Undisturbed w (w.handle n h) := by
  cases h with
  | node j y =>
    unfold World.handle
    dsimp only
    split
    · exact .begin w j y "exec" none _
    · exact .refl w
  | watchVariable name => cases n <;> exact ⟨fun _ => rfl, rfl, rfl, fun _ => rfl⟩
  | watchEvent name => cases n <;> exact ⟨fun _ => rfl, rfl, rfl, fun _ => rfl⟩

theorem Undisturbed.foldl_handle (w : World) (n : Notice) (hs : List Handler) :
    Undisturbed w (hs.foldl (fun w h => w.handle n h) w) := by
  induction hs generalizing w with
  | nil => exact .refl w
  | cons h hs ih => exact (Undisturbed.handle w n h).trans (ih _)

theorem Undisturbed.emit (w : World) (t : Topic) (n : Notice) : Undisturbed w (w.emit t n) :=
  Undisturbed.foldl_handle w n _

end World

/-- Who observes a variable: the host, under a name, or a node that an engine uses. -/
inductive Observer where
  | host (name : String)
  | node (engine : Nat) (node : NodeRef)

namespace Observer

variable {o : Observer} {t : Topic} {u v w : World} {us vs : List Value}

/-- How the observer is subscribed. -/
def handler : Observer → Handler
  | host name => .watchVariable name
  | node i x => .node i x

/-- Observers that are nodes can start paths: the engine is there and in use. -/
def IsLive (w : World) : Observer → Prop
  | host _ => True
  | node i _ => i < w.engines.size ∧ (w.engine i).isDisposed = false

/-- The observer is subscribed once and can do something about it. -/
structure Attends (o : Observer) (t : Topic) (w : World) : Prop where
  once : (w.handlers t).count o.handler = 1
  live : o.IsLive w

/-- A trigger gives the value to its node. It is the same value up to its NaNs, which may get labels if they have none. -/
def Gives (values : List (String × Value)) (v : Value) : Prop :=
  ∃ v', values = [("value", v')] ∧ v'.renewed = v.renewed ∧ (v.hasFresh = false → v' = v)

/-- From `u` on to `w` the observer was told these values, one by one: the host heard of them, or the node started a path for each
with a trigger that gives it the value, and no others. -/
def Hears (u w : World) (vs : List Value) : Observer → Prop
  | host name => w.noted name = u.noted name ++ vs
  | node i x => ∃ ts, w.triggers i x = u.triggers i x ++ ts ∧ List.Forall₂ Gives ts vs

theorem Hears.refl (w : World) (o : Observer) : o.Hears w w [] := by
  cases o with
  | host name => exact (List.append_nil _).symm
  | node i x => exact ⟨[], (List.append_nil _).symm, .nil⟩

theorem Hears.trans (h : o.Hears u v us) (h' : o.Hears v w vs) : o.Hears u w (us ++ vs) := by
  cases o with
  | host name =>
    show w.noted name = _
    rw [show w.noted name = _ from h', show v.noted name = _ from h, List.append_assoc]
  | node i x =>
    obtain ⟨ts, hts, hgive⟩ := h
    obtain ⟨ts', hts', hgive'⟩ := h'
    exact ⟨ts ++ ts', by rw [hts', hts, List.append_assoc], List.rel_append hgive hgive'⟩

/-- What concerns neither the journal nor engines is not heard of. -/
theorem Hears.of_eq (hj : w.journal = u.journal) (he : w.engines = u.engines) (o : Observer) : o.Hears u w [] := by
  cases o with
  | host name =>
    show w.noted name = u.noted name ++ []
    rw [World.noted, World.noted, hj, List.append_nil]
  | node i x => exact ⟨[], by rw [triggers_of_engines he, List.append_nil], .nil⟩

theorem IsLive.undisturbed (h : o.IsLive v) (hw : Undisturbed v w) : o.IsLive w := by
  cases o with
  | host name => trivial
  | node i x =>
    obtain ⟨hi, hd⟩ := h
    exact ⟨by rwa [hw.size], by rwa [hw.isDisposed]⟩

theorem Attends.undisturbed (h : o.Attends t v) (hw : Undisturbed v w) : o.Attends t w :=
  ⟨by rw [hw.handlers]; exact h.once, h.live.undisturbed hw⟩

theorem handle_node (w : World) (v : Value) (i : Nat) (x : NodeRef) :
    w.handle (.changed v) (.node i x) = w.begin i x "exec" none [("value", v)] := rfl

theorem handle_watchVariable (w : World) (v : Value) (name : String) :
    w.handle (.changed v) (.watchVariable name) = w.record (.changed name v) := rfl

/-- A live observer that is told of a value hears of it, once. -/
theorem hears_handle_self (h : o.IsLive w) (v : Value) : o.Hears w (w.handle (.changed v) o.handler) [v] := by
  cases o with
  | host name =>
    rw [Hears, handler, handle_watchVariable, noted_record, Event.changed?, if_pos rfl, Option.toList_some]
  | node i x =>
    obtain ⟨hi, hopen⟩ := h
    rw [Hears, handler, handle_node, triggers_begin hopen, if_pos hi, cargo_value]
    refine ⟨[[("value", (w.stamp x.graph v).1)]], by simp [Fiber.trigger?], .cons ⟨_, rfl, w.renewed_stamp _ v, fun hf => ?_⟩ .nil⟩
    rw [w.stamp_of_not_hasFresh _ hf]

/-- Nobody hears of what another is told. -/
theorem hears_handle_of_ne {h : Handler} (hne : h ≠ o.handler) (v : Value) : o.Hears w (w.handle (.changed v) h) [] := by
  cases o with
  | host name =>
    rw [Hears, List.append_nil]
    cases h with
    | node j y =>
      rw [handle_node]
      exact (detached_noted name (w.noted name)).begin rfl j y "exec" none [("value", v)]
    | watchVariable n =>
      have hn : n ≠ name := fun hn => hne (congrArg Handler.watchVariable hn)
      rw [handle_watchVariable, noted_record, Event.changed?, if_neg hn, Option.toList_none, List.append_nil]
    | watchEvent n => rfl
  | node i x =>
    refine ⟨[], ?_, .nil⟩
    rw [List.append_nil]
    cases h with
    | node j y =>
      rw [handle_node]
      refine triggers_begin_of_ne ?_ "exec" none _
      by_contra hboth
      obtain ⟨rfl, rfl⟩ := not_or.1 hboth |>.imp not_not.1 not_not.1
      exact hne rfl
    | watchVariable n => rfl
    | watchEvent n => rfl

/-- A live observer hears of a value as often as it is told. -/
theorem hears_foldl (h : o.IsLive w) (v : Value) (hs : List Handler) :
    o.Hears w (hs.foldl (fun w h => w.handle (.changed v) h) w) (List.replicate (hs.count o.handler) v) := by
  induction hs generalizing w with
  | nil => exact .refl w o
  | cons a hs ih =>
    have hrest := ih (h.undisturbed (Undisturbed.handle w (.changed v) a))
    by_cases ha : a = o.handler
    · subst ha
      rw [List.count_cons_self, List.replicate_succ]
      exact (hears_handle_self h v).trans hrest
    · rw [List.count_cons_of_ne ha]
      exact (hears_handle_of_ne ha v).trans hrest

/-- Whoever is subscribed once hears of every new value once. -/
theorem Attends.hears_emit (h : o.Attends t w) (v : Value) : o.Hears w (w.emit t (.changed v)) [v] := by
  have hall := hears_foldl h.live v (w.handlers t)
  rw [h.once] at hall
  exact hall

end Observer

/-- From `v` on to `w` nothing happened of which any observer of a variable hears. -/
structure World.Unheard (v w : World) : Prop extends Undisturbed v w where
  hears : ∀ o : Observer, o.Hears v w []

namespace World.Unheard

variable {u v w : World}

theorem refl (w : World) : Unheard w w := ⟨.refl w, .refl w⟩

theorem trans (h : Unheard u v) (h' : Unheard v w) : Unheard u w :=
  ⟨h.toUndisturbed.trans h'.toUndisturbed, fun o => (h.hears o).trans (h'.hears o)⟩

theorem stamp (w : World) (g : Nat) (v : Value) : Unheard w (w.stamp g v).2 := by
  have hengines := engines_stamp w g v
  refine ⟨.of_graphs ((detached_vars w).stamp (fun _ => rfl) g v) ((detached_subscriptions w).stamp rfl g v) hengines,
    .of_eq ?_ hengines⟩
  unfold World.stamp
  split <;> rfl

/-- A node changes in whatever way. -/
theorem modifyNode (w : World) (x : NodeRef) (f : Node → Node) : Unheard w (w.modifyNode x f) :=
  ⟨.modifyNode w x f, .of_eq rfl rfl⟩

/-- A fiber goes on at an output. -/
theorem commitFiber (w : World) (j f : Nat) (x : NodeRef) (output : String) (l : Option Listener) :
    Unheard w (w.commitFiber j f x output l).2 := by
  unfold World.commitFiber
  split
  · exact .refl w
  · refine ⟨.modifyEngine w j fun e => (congrArg Engine.isDisposed (Local.face_commit e f x l _) :), fun o => ?_⟩
    cases o with
    | host name => exact (List.append_nil _).symm
    | node i y =>
      refine ⟨[], ?_, .nil⟩
      rw [List.append_nil]
      exact triggers_modifyEngine w i j fun e => e.triggers_commit f x l _

end World.Unheard

end FlowGraph
