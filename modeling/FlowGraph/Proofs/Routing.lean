import FlowGraph.Proofs.Lasting
import FlowGraph.Proofs.Outline

/-!
Where fibers go. A fiber is sent along the wires behind a flow output of a node, and nowhere else; what is true of all those
wires is true of all routes that fibers are on, whoever acts.
-/
namespace FlowGraph

open World Play

/-- The fiber, if it is about to go on, does so along a route with the property. -/
def Fiber.Routed (G : Route → Prop) (f : Fiber) : Prop := ∀ route, f.next = some route → G route

/-- All fibers of the engine keep to routes with the property. -/
def Engine.Routed (G : Route → Prop) (e : Engine) : Prop := ∀ f ∈ e.fibers, f.Routed G

/-- The property is one of all wires behind flow outputs. -/
def World.Paved (G : Route → Prop) (w : World) : Prop :=
  ∀ x output, (w.node x).isFlowOutput output = true → ∀ wire ∈ w.wiresAt x output, G ⟨x.graph, wire⟩

/-- The world is one like `u`, and all fibers keep to routes with the property. -/
structure World.Routed (G : Route → Prop) (u w : World) : Prop where
  outlined : Outlined u w
  engines : ∀ j, (w.engine j).Routed G

namespace Engine.Routed

variable {G : Route → Prop} {e e' : Engine}

theorem empty : Engine.Routed G {} := fun _ hf => absurd hf (Array.not_mem_empty _)

theorem fiber (h : e.Routed G) (k : Nat) : (e.fiber k).Routed G := by
  unfold Engine.fiber
  cases hk : e.fibers[k]? with
  | none => exact fun _ hr => by cases hr
  | some f => exact h f (Array.mem_of_getElem? hk)

theorem modifyFiber (h : e.Routed G) (k : Nat) {g : Fiber → Fiber} (hg : ∀ f : Fiber, f.Routed G → (g f).Routed G) :
    (e.modifyFiber k g).Routed G := by
  intro f hf
  obtain ⟨j, hj⟩ := Array.mem_iff_getElem?.1 hf
  simp only [Engine.modifyFiber, Array.getElem?_modify] at hj
  split at hj
  · obtain ⟨f', hf', rfl⟩ := Option.map_eq_some_iff.1 hj
    exact hg f' (h f' (Array.mem_of_getElem? hf'))
  · exact h f (Array.mem_of_getElem? hj)

theorem append (h : e.Routed G) {fs : Array Fiber} (hfs : ∀ f ∈ fs, f.Routed G) :
    Engine.Routed G { e with fibers := e.fibers ++ fs } :=
  fun f hf => (Array.mem_append.1 hf).elim (h f) (hfs f)

theorem push (h : e.Routed G) {f : Fiber} (hf : f.Routed G) : Engine.Routed G { e with fibers := e.fibers.push f } := by
  intro k hk
  rcases Array.mem_push.1 hk with hk | rfl
  · exact h k hk
  · exact hf

/-- A fiber that ends leads nobody anywhere else. -/
theorem finish (h : e.Routed G) (k : Nat) : (e.finish k).Routed G := by
  have hmarked : (e.modifyFiber k fun f => { f with finished := true }).Routed G := h.modifyFiber k fun _ hf => hf
  unfold Engine.finish
  dsimp only
  split
  · exact h
  · split
    · rename_i p _
      have hless := hmarked.modifyFiber p (g := fun f => { f with pending := f.pending - 1 }) fun _ hf => hf
      unfold Engine.childFinished
      dsimp only
      split
      · exact hless
      · exact hless
    · exact hmarked

theorem abort (h : e.Routed G) (k : Nat) : (e.abort k).Routed G :=
  Engine.Routed.finish (h.modifyFiber k fun _ _ _ hr => by cases hr) k

theorem split (h : e.Routed G) (k : Nat) {routes : List Route} (hroutes : ∀ r ∈ routes, G r) : (e.split k routes).Routed G := by
  have hkids : ∀ f ∈ (e.children k routes).toArray, f.Routed G := by
    intro f hf
    obtain ⟨r, hr, rfl⟩ := List.mem_map.1 (List.mem_toArray.1 hf)
    rintro _ ⟨⟩
    exact hroutes r hr
  exact (h.append hkids).modifyFiber k
    (g := fun f => { f with isWritten := true, pending := f.pending + routes.length }) fun _ hf => hf

/-- A commitment sends fibers along its wires only. -/
theorem commit (h : e.Routed G) (k : Nat) (x : NodeRef) (l : Option Listener) {wires : List Wire}
    (hwires : ∀ wire ∈ wires, G ⟨x.graph, wire⟩) : (e.commit k x l wires).Routed G := by
  have hmarked : (e.modifyFiber k (·.commit x l)).Routed G := h.modifyFiber k fun _ hf => hf
  have hroutes : ∀ r ∈ wires.map fun wire => (⟨x.graph, wire⟩ : Route), G r := by
    intro r hr
    obtain ⟨wire, hwire, rfl⟩ := List.mem_map.1 hr
    exact hwires wire hwire
  unfold Engine.commit Engine.follow
  dsimp only
  generalize (wires.map fun wire => (⟨x.graph, wire⟩ : Route)) = routes at hroutes ⊢
  split
  · exact hmarked
  · refine hmarked.modifyFiber k fun _ _ => ?_
    rintro _ ⟨⟩
    exact hroutes _ List.mem_cons_self
  · exact hmarked.split k hroutes

end Engine.Routed

namespace World.Routed

variable {G : Route → Prop} {u v w : World} {i : Nat}

theorem frame (h : Routed G u w) (ho : Outlined u v) (he : v.engines = w.engines) : Routed G u v :=
  ⟨ho, fun j => by rw [engine_congr he]; exact h.engines j⟩

theorem modifyEngine (h : Routed G u w) (j : Nat) {g : Engine → Engine}
    (hg : (w.engine j).Routed G → (g (w.engine j)).Routed G) : Routed G u (w.modifyEngine j g) := by
  refine ⟨h.outlined.frame rfl, fun k => ?_⟩
  rw [engine_modifyEngine]
  split
  · rename_i hj
    exact hj.1 ▸ hg (h.engines j)
  · exact h.engines k

/-- The fibers stay as they are. -/
theorem arrange (h : Routed G u w) (j : Nat) {g : Engine → Engine} (hg : ∀ e : Engine, (g e).fibers = e.fibers) :
    Routed G u (w.modifyEngine j g) :=
  h.modifyEngine j fun he => by rw [Engine.Routed, hg]; exact he

theorem report (h : Routed G u w) (j : Nat) (e : Failure) : Routed G u (w.report j e) :=
  (h.arrange j (g := fun x => { x with failures := e :: x.failures }) fun _ => rfl).frame (h.outlined.report j e)
    (engines_report w j e)

/-- Writing what a trigger carries sends nobody anywhere. -/
theorem applyEntry (h : Routed G u w) (j f : Nat) : Routed G u (w.applyEntry j f).2 := by
  have hmarked : Routed G u (w.modifyEngine j (·.modifyFiber f fun x => { x with isWritten := true })) :=
    h.modifyEngine j fun he => he.modifyFiber f fun _ hf => hf
  refine ⟨h.outlined.applyEntry j f, fun k => ?_⟩
  unfold World.applyEntry
  dsimp only
  split
  · exact hmarked.engines k
  · rename_i x values _
    have hwritten := engines_writeOutputs (w.modifyEngine j (·.modifyFiber f fun x => { x with isWritten := true })) x values
    split
    · rename_i heq
      rw [heq] at hwritten
      rw [engine_congr hwritten]
      exact hmarked.engines k
    · rename_i heq
      rw [heq] at hwritten
      rw [engine_congr hwritten]
      exact hmarked.engines k

theorem endFiber (h : Routed G u w) (j f : Nat) (x : NodeRef) : Routed G u (w.endFiber j f x).2 := by
  unfold World.endFiber
  split
  · exact h
  · exact h.modifyEngine j fun he => he.modifyFiber f fun _ hf => hf

/-- Putting a fiber in the queue leaves it its route. -/
theorem enqueue (h : Routed G u w) (j f : Nat) : Routed G u (w.enqueue j f) := by
  unfold World.enqueue
  dsimp only
  split
  · have happly := h.applyEntry j f
    split
    · rename_i heq
      rw [heq] at happly
      exact happly.report j _
    · rename_i heq
      rw [heq] at happly
      exact happly.arrange j fun _ => rfl
  · split
    · exact h.arrange j fun _ => rfl
    · exact h.arrange j fun _ => rfl

section Paving

variable (hG : u.Paved G)

include hG

/-- What is committed goes along wires of the node's output. -/
theorem commitFiber (h : Routed G u w) (j f : Nat) (x : NodeRef) (output : String) (l : Option Listener) :
    Routed G u (w.commitFiber j f x output l).2 := by
  unfold World.commitFiber
  split
  · exact h
  · rename_i hfree
    refine h.modifyEngine j fun he => he.commit f x l fun wire hwire => ?_
    have hflow : (w.node x).isFlowOutput output = true := by
      unfold commitRefusal? at hfree
      split at hfree
      · cases hfree
      · split at hfree
        · assumption
        · cases hfree
    rw [h.outlined.wiresAt] at hwire
    refine hG x output ?_ wire hwire
    rwa [← h.outlined.isFlowOutput]

/-- A path that begins goes along wires of the node's output. -/
theorem begin (h : Routed G u w) (j : Nat) (x : NodeRef) (output : String) (l : Option Listener)
    (values : List (String × Value)) : Routed G u (w.begin j x output l values) := by
  unfold World.begin
  split
  · exact h
  · have hstamped := h.frame (h.outlined.stampOutputs x.graph values) (engines_stampOutputs w x.graph values)
    dsimp only
    generalize (w.stampOutputs x.graph values).2 = v at hstamped ⊢
    generalize (if (w.stampOutputs x.graph values).1.isEmpty then none
      else some (x, (Table.ofList (w.stampOutputs x.graph values).1).entries)) = entry
    have hpushed : Routed G u (v.modifyEngine j fun e => { e with fibers := e.fibers.push { entry := entry } }) :=
      hstamped.modifyEngine j fun he => he.push fun _ hr => by cases hr
    have hcommitted := hpushed.commitFiber hG j (v.engine j).fibers.size x output l
    split
    · rename_i heq
      rw [heq] at hcommitted
      exact hcommitted.report j _
    · rename_i heq
      rw [heq] at hcommitted
      exact hcommitted.enqueue j _

theorem complete (h : Routed G u w) (j o : Nat) (output : Option String) : Routed G u (w.complete j o output) := by
  refine complete_upholds ?_ ?_ ?_ ?_ ?_ h
  · exact fun w h => h.arrange j fun _ => rfl
  · exact fun w x h => h.frame (h.outlined.chooseOutput x output) (engines_chooseOutput w x output)
  · exact fun w e h => h.report j e
  · exact fun w x name h => h.begin hG j x name none []
  · exact fun w e h => h.frame (h.outlined.tell j e) (engines_tell w j e)

theorem finishOperation (h : Routed G u w) (j o : Nat) (output : Option String) (fromOutside : Bool) :
    Routed G u (w.finishOperation j o output fromOutside) := by
  refine finishOperation_upholds ?_ ?_ ?_ h
  · exact fun w h _ _ => h.arrange j fun _ => rfl
  · exact fun w h _ => h.complete hG j o output
  · exact fun w h _ => h.arrange j fun _ => rfl

theorem drainInbox (h : Routed G u w) (j : Nat) : Routed G u (w.drainInbox j) := by
  refine drainInbox_upholds (h.arrange j fun _ => rfl) fun p _ v hv => ?_
  cases p with
  | complete o output => exact hv.complete hG j o output
  | begin x output l values => exact hv.begin hG j x output l values

/-- Whatever is done in the name of nodes sends fibers along such routes only. -/
theorem closed (A : Context → Prop) : Closed (fun w _ => Routed G u w) A where
  stamp g v w _ h := h.frame (h.outlined.stamp g v) (engines_stamp w g v)
  write h _ _ _ _ _ hn := h.frame (h.outlined.modifyNode _ (Node.outline_write hn)) rfl
  setState _ _ _ _ h := h.frame (h.outlined.modifyNode _ rfl) rfl
  setInput x place v _ _ h := h.frame (h.outlined.modifyNode x (Node.outline_setInput _ place v)) rfl
  assign h _ _ _ _ _ hg := h.frame (h.outlined.modifyGraph _ (Outlined.outline_assign hg)) rfl
  record _ _ _ _ h := h.frame (h.outlined.frame rfl) rfl
  tell j e _ w _ h := h.frame (h.outlined.tell j e) (engines_tell w j e)
  hold _ _ _ h := h.frame (h.outlined.frame rfl) rfl
  schedule _ _ _ h := h.frame (h.outlined.frame rfl) rfl
  store _ _ _ h := h.frame (h.outlined.frame rfl) rfl
  subscribe _ _ _ _ h := h.frame (h.outlined.frame rfl) rfl
  unsubscribe _ _ _ h := h.frame (h.outlined.frame rfl) rfl
  enlist _ _ _ _ _ h := h.frame (h.outlined.frame rfl) rfl
  unlist _ _ _ h := h.frame (h.outlined.frame rfl) rfl
  report {j} _ _ _ _ _ _ _ h := h.report j _
  begin j x output l _ values _ _ _ h := h.begin hG j x output l values
  commit _ output l _ _ _ h := h.commitFiber hG _ _ _ output l
  stop _ _ _ h := h.endFiber _ _ _
  register h j _ _ _ _ := h.arrange j fun _ => rfl
  enrol _ _ _ h := h.arrange _ fun _ => rfl
  finish j o output _ _ h := h.finishOperation hG j o output false
  dismiss h j o _ _ := by
    have hstruck : Routed G u (World.strike _ j o) := h.arrange j fun _ => rfl
    exact relinquish_upholds (hstruck.arrange j fun _ => rfl) hstruck
  close h j _ := h.arrange j fun _ => rfl
  relinquish h j _ _ o := relinquish_upholds (h.arrange j fun _ => rfl) h
  release h j _ _ := h.arrange j fun _ => rfl
  clear h j _ _ := h.arrange j fun _ => rfl

/-- Everything that runs keeps to the routes. -/
theorem lasting : Lasting (fun _ => True) (Routed G u) where
  calls := closed hG _
  alter w h i f g hg := h.modifyEngine i fun he => he.modifyFiber f fun x hx => by
    rcases (hg x).next with hnone | hsame
    · exact fun r hr => by cases hnone.symm.trans hr
    · exact fun r hr => hx r (hsame ▸ hr)
  entry w h i f := h.applyEntry i f
  report w h i e _ := h.report i e
  arrange w h i g hg := h.arrange i fun e => by
    obtain ⟨_, _, _, _, _, heq⟩ := hg e
    rw [heq]
  conclude w h i f := h.modifyEngine i fun he => he.finish f
  abort w h i f := h.modifyEngine i fun he => he.abort f
  push w h name nodes eventNodes settings := by
    refine ⟨h.outlined.frame rfl, fun j => ?_⟩
    simp only [World.engine, Array.getElem?_push]
    split
    · exact fun _ hf => absurd hf (Array.not_mem_empty _)
    · exact h.engines j
  post w h j x output l values := h.arrange j fun _ => rfl
  finish w h j o output fromOutside := h.finishOperation hG j o output fromOutside
  drainInbox w h j := h.drainInbox hG j

end Paving

end World.Routed

end FlowGraph
