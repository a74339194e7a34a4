import FlowGraph.Proofs.Payloads

/-!
What is kept to be run later: the listeners of fibers, what other threads have posted, and what nodes and operations leave
to be undone. It speaks for contexts of one kind as long as all that is done is done in contexts of that kind.
-/
namespace FlowGraph

open World Play

/-- A path that is posted may start in contexts of the kind, and its listener speaks for one. -/
def Post.Within (B : Context → Prop) : Post → Prop
  | .begin x output l _ => Starts B x output l ∧ ∀ y, l = some y → y.Within B
  | .complete _ _ => True

/-- What the engine keeps to be run later speaks for contexts of the kind. -/
structure Engine.Within (B : Context → Prop) (e : Engine) : Prop where
  listeners : ∀ k, ∀ l ∈ (e.fiber k).listeners, l.2.Within B
  posts : ∀ p ∈ e.inbox, p.Within B
  disposers : ∀ op ∈ e.operations, ∀ d ∈ op.disposers, d.Within B

namespace Engine.Within

variable {B : Context → Prop} {e e' : Engine} {f : Nat}

theorem empty : Within B {} where
  listeners _ _ hl := absurd hl List.not_mem_nil
  posts _ hp := absurd hp List.not_mem_nil
  disposers op hop := absurd hop (Array.not_mem_empty op)

/-- Only listeners, posts and what operations leave to be undone count. -/
theorem congr (h : e.Within B) (hf : ∀ k, (e'.fiber k).listeners = (e.fiber k).listeners) (hi : e'.inbox = e.inbox)
    (ho : e'.operations = e.operations) : e'.Within B where
  listeners k := by
    rw [hf]
    exact h.listeners k
  posts := hi ▸ h.posts
  disposers := ho ▸ h.disposers

/-- Fibers that are entered keep listeners within bounds, if the listener of the first one is. -/
theorem enter (h : e.Within B) {root : Fiber} {kids : List Fiber} (he : Entered e e' root kids)
    (ho : e'.operations = e.operations) (hroot : ∀ l ∈ root.listeners, l.2.Within B) : e'.Within B where
  listeners k l hl := by
    obtain hk | rfl | ⟨hk, hk'⟩ | hk : k < e.fibers.size ∨ k = e.fibers.size ∨
        (e.fibers.size < k ∧ k < e'.fibers.size) ∨ e'.fibers.size ≤ k := by omega
    · rw [he.fiber_old hk] at hl
      exact h.listeners k l hl
    · rw [he.fiber_root] at hl
      exact hroot l hl
    · rw [(he.fresh _ (he.mem_kids_of_lt hk hk')).listeners] at hl
      cases hl
    · rw [fiber_out hk] at hl
      cases hl
  posts := he.inbox ▸ h.posts
  disposers := ho ▸ h.disposers

theorem alter (h : e.Within B) {g : Fiber → Fiber} (hg : ∀ l ∈ (g (e.fiber f)).listeners, l.2.Within B) :
    (e.modifyFiber f g).Within B where
  listeners k := by
    rw [fiber_modifyFiber]
    split
    · rename_i hk
      rw [← hk.1]
      exact hg
    · exact h.listeners k
  posts := h.posts
  disposers := h.disposers

/-- A commitment keeps listeners within bounds, if its own is. -/
theorem commit (h : e.Within B) (hf : f < e.fibers.size) (node : NodeRef) {l : Option Listener}
    (hl : ∀ y, l = some y → y.Within B) (wires : List Wire) : (e.commit f node l wires).Within B := by
  have heq := commit_eq hf node l wires
  refine ⟨fun k y hy => ?_, by rw [heq]; exact h.posts, by rw [heq]; exact h.disposers⟩
  rw [fiber_commit hf] at hy
  split at hy
  · split at hy
    · rw [onto_listeners] at hy
      cases l with
      | none => exact h.listeners _ y hy
      | some z =>
        rcases List.mem_cons.1 hy with rfl | hy
        · exact hl z rfl
        · exact h.listeners _ y hy
    · exact h.listeners k y hy
  · cases hkid : (offshoots f (e.fiber f) node wires)[k - e.fibers.size]? with
    | none =>
      rw [hkid] at hy
      cases hy
    | some z =>
      rw [hkid, Option.getD_some, (fresh_of_mem_offshoots (List.mem_of_getElem? hkid)).listeners] at hy
      cases hy

theorem finish (h : e.Within B) (f : Nat) : (e.finish f).Within B := by
  have hframe := finish_frame e f
  exact h.congr (fun k => (e.alike_finish f k).listeners) (by rw [hframe]) (by rw [hframe])

theorem abort (h : e.Within B) (f : Nat) : (e.abort f).Within B :=
  (h.alter (g := fun x => { x with isAborted := true, next := none, listeners := [] })
    fun _ hl => absurd hl List.not_mem_nil).finish f

end Engine.Within

/-- The engines are in order, and what is kept to be run later speaks for contexts of the kind. -/
structure Retained (u : World) (cur : Nat → Option Nat) (B : Context → Prop) (w : World) : Prop extends InOrder u cur w where
  within : ∀ j, (w.engine j).Within B
  undone : ∀ p ∈ w.disposers, p.2.Within B

/-- The context is of the kind, and bound to no fiber but those at work. -/
def Context.Serves (B : Context → Prop) (cur : Nat → Option Nat) (c : Context) : Prop :=
  B c ∧ ∀ j k input, c.role = .flow j k input → cur j = some k

namespace Retained

variable {u v w : World} {cur : Nat → Option Nat} {B : Context → Prop} {i j f : Nat}

theorem frame (h : Retained u cur B w) (he : v.engines = w.engines) (hd : v.disposers = w.disposers) :
    Retained u cur B v where
  toInOrder := h.toInOrder.frame he hd
  within j := by
    rw [engine_congr he]
    exact h.within j
  undone := hd ▸ h.undone

/-- An engine changes, and stays in order. -/
theorem of_order (h : Retained u cur B w) {cur' : Nat → Option Nat} {g : Engine → Engine}
    (ho : InOrder u cur' (w.modifyEngine j g)) (hg : (w.engine j).Within B → (g (w.engine j)).Within B) :
    Retained u cur' B (w.modifyEngine j g) where
  toInOrder := ho
  within k := by
    rw [engine_modifyEngine]
    split
    · rename_i hk
      rw [← hk.1]
      exact hg (h.within j)
    · exact h.within k
  undone := h.undone

/-- A change of what is not kept to be run later. -/
theorem face (h : Retained u cur B w) (j : Nat) {g : Engine → Engine} (hs : ∀ e : Engine, e.Same (g e))
    (hd : ∀ e : Engine, e.isDisposed = true → (g e).isDisposed = true) (ho : ∀ e : Engine, (g e).operations = e.operations) :
    Retained u cur B (w.modifyEngine j g) := by
  refine h.of_order (h.toInOrder.face j hs hd ?_) fun hw => ?_
  · rw [ho]
    exact (h.engine j).disposers
  · exact hw.congr (fun k => by rw [Engine.fiber_congr (hs _).fibers]) (hs _).inbox (ho _)

theorem tell (h : Retained u cur B w) (j : Nat) (e : String → Event) : Retained u cur B (w.tell j e) :=
  h.frame (engines_tell w j e) (disposers_tell w j e)

theorem report (h : Retained u cur B w) (j : Nat) (e : Failure) : Retained u cur B (w.report j e) :=
  (h.face j (g := fun x => { x with failures := e :: x.failures }) (fun _ => ⟨rfl, rfl, rfl, rfl⟩) (fun _ => id)
    fun _ => rfl).frame (engines_report w j e) (disposers_report w j e)

/-- A path that begins keeps what is retained within bounds, if its listener is and speaks for no fiber. -/
theorem begin (h : Retained u cur B w) (j : Nat) (x : NodeRef) (output : String) {l : Option Listener}
    (hl : ∀ y, l = some y → y.Within fun c => B c ∧ c.Free) (values : List (String × Value)) :
    Retained u cur B (w.begin j x output l values) := by
  have hfree (y : Listener) (hy : l = some y) : y.Free := fun c hc => (hl y hy c hc).2
  have hlocal := Local.begin w j x output l values
  refine ⟨h.toInOrder.begin j x output hfree values, fun k => ?_, by rw [hlocal.disposers]; exact h.undone⟩
  by_cases hk : k = j ∧ j < w.engines.size ∧ (w.engine j).isDisposed = false
  · obtain ⟨rfl, hj, hd⟩ := hk
    obtain ⟨root, kids, he, -, hroot, -⟩ := entered_begin hj hd ((h.engine k).accounted.out (Nat.le_refl _)).2 x output hfree values
    exact (h.within k).enter he (hlocal.operations k) fun y hy c hc => (hl y.2 (hroot y hy) c hc).1
  · have hsame : (w.begin j x output l values).engine k = w.engine k := by
      by_cases hkj : k = j
      · subst hkj
        by_cases hj : k < w.engines.size
        · rw [World.begin, if_pos (by simpa [hj] using hk)]
        · simp only [World.engine, Array.getElem?_eq_none (Nat.not_lt.1 hj),
            Array.getElem?_eq_none (Nat.not_lt.1 (hlocal.size ▸ hj))]
      · exact hlocal.others k hkj
    rw [hsame]
    exact h.within k

theorem modifyOperation (h : Retained u cur B w) (j o : Nat) {g : Operation → Operation}
    (hg : ∀ op, (∀ d ∈ op.disposers, d.Within fun c => B c ∧ c.Free) → ∀ d ∈ (g op).disposers, d.Within fun c => B c ∧ c.Free) :
    Retained u cur B (w.modifyEngine j (·.modifyOperation o g)) := by
  have hboth {d : Disposer} (hb : d.Within B) (hf : d.Free) : d.Within fun c => B c ∧ c.Free := by
    cases d with
    | script c actions => exact ⟨hb, hf⟩
    | _ => trivial
  have hall := Engine.forall_modifyOperation (e := w.engine j) (o := o) (g := g)
    (fun op hop d hd => hboth ((h.within j).disposers op hop d hd) ((h.engine j).disposers op hop d hd)) hg
  refine h.of_order (h.toInOrder.face j (fun _ => ⟨rfl, rfl, rfl, rfl⟩) (fun _ => id) ?_) fun hw => ?_
  · exact fun op hop d hd => Disposer.Within.free (A := B) (hall op hop d hd)
  · exact ⟨hw.listeners, hw.posts, fun op hop d hd => (hall op hop d hd).mono fun c hc => hc.1⟩

theorem complete (h : Retained u cur B w) (j o : Nat) (output : Option String) : Retained u cur B (w.complete j o output) := by
  refine complete_upholds (P := Retained u cur B) ?_ ?_ ?_ ?_ ?_ h
  · exact fun w h => h.face j (fun _ => ⟨rfl, rfl, rfl, rfl⟩) (fun _ => id) fun _ => rfl
  · exact fun w x h => h.frame (engines_chooseOutput w x output) (disposers_chooseOutput w x output)
  · exact fun w e h => h.report j e
  · exact fun w x name h => h.begin j x name (by simp) []
  · exact fun w e h => h.tell j e

/-- So does a post. -/
theorem post (h : Retained u cur B w) (j : Nat) {p : Post} (hp : p.Within fun c => B c ∧ c.Free) :
    Retained u cur B (w.post j p) := by
  have hfree : p.Free := by
    cases p with
    | complete o output => trivial
    | begin x output l values => exact fun y hy c hc => (hp.2 y hy c hc).2
  have hkind : p.Within B := by
    cases p with
    | complete o output => trivial
    | begin x output l values =>
      exact ⟨hp.1.imp_right fun ⟨c, hc, hx⟩ => ⟨c, hc.1, hx⟩, fun y hy c hc => (hp.2 y hy c hc).1⟩
  refine h.of_order (h.toInOrder.post j hfree) fun hw => ⟨hw.listeners, fun q hq => ?_, hw.disposers⟩
  rcases List.mem_append.1 hq with hq | hq
  · exact hw.posts q hq
  · rw [List.mem_singleton.1 hq]
    exact hkind

theorem finishOperation (h : Retained u cur B w) (j o : Nat) (output : Option String) (fromOutside : Bool) :
    Retained u cur B (w.finishOperation j o output fromOutside) := by
  refine finishOperation_upholds (P := Retained u cur B) ?_ ?_ ?_ h
  · exact fun w h _ _ => h.modifyOperation j o fun _ => id
  · exact fun w h _ => h.complete j o output
  · exact fun w h _ => h.post j trivial

theorem clearInbox (h : Retained u cur B w) (j : Nat) : Retained u cur B (w.modifyEngine j fun e => { e with inbox := [] }) :=
  h.of_order (h.toInOrder.clearInbox j) fun hw => ⟨hw.listeners, fun _ hp => absurd hp List.not_mem_nil, hw.disposers⟩

theorem drainInbox (h : Retained u cur B w) (j : Nat) : Retained u cur B (w.drainInbox j) := by
  refine drainInbox_upholds (h.clearInbox j) fun p hp v hv => ?_
  have hkind := (h.within j).posts p hp
  have hfree := (h.engine j).posts p hp
  cases p with
  | complete o output => exact hv.complete j o output
  | begin x output l values => exact hv.begin j x output (fun y hy c hc => ⟨hkind.2 y hy c hc, hfree y hy c hc⟩) values

theorem relinquish (h : Retained u cur B w) (j o : Nat) : Retained u cur B (w.relinquish j o) :=
  relinquish_upholds (h.modifyOperation j o (by simp)) h

/-- What is kept to be run later speaks for contexts of the kind as long as only such contexts do anything. -/
theorem closed (u : World) (cur : Nat → Option Nat) (B : Context → Prop) :
    Closed (fun w _ => Retained u cur B w) (Context.Serves B cur) where
  stamp g v w _ h := h.frame (engines_stamp w g v) (disposers_stamp w g v)
  write h _ _ _ _ _ _ := h.frame rfl rfl
  setState _ _ _ _ h := h.frame rfl rfl
  setInput _ _ _ _ _ h := h.frame rfl rfl
  assign h _ _ _ _ _ _ := h.frame rfl rfl
  record _ _ _ _ h := h.frame rfl rfl
  tell j e _ _ _ h := h.tell j e
  hold _ _ _ h := h.frame rfl rfl
  schedule _ _ _ h := h.frame rfl rfl
  store _ _ _ h := h.frame rfl rfl
  subscribe _ _ _ _ h := h.frame rfl rfl
  unsubscribe _ _ _ h := h.frame rfl rfl
  enlist x d hd w r h := by
    refine ⟨(InOrder.closed u cur).enlist x (hd.mono fun c hc => ⟨hc.1.2, hc.2⟩) (r := r) h.toInOrder, h.within, fun p hp => ?_⟩
    rcases List.mem_append.1 hp with hp | hp
    · exact h.undone p hp
    · rw [List.mem_singleton.1 hp]
      exact hd.mono fun c hc => hc.1.1
  unlist x _ r h := ⟨(InOrder.closed u cur).unlist x (r := r) h.toInOrder, h.within, fun p hp => h.undone p (List.mem_filter.1 hp).1⟩
  report {j} _ _ _ _ _ _ _ h := h.report j _
  begin j x output _ hl values _ _ _ h := h.begin j x output (fun y hy c hc => ⟨(hl y hy c hc).1.1, (hl y hy c hc).2⟩) values
  commit {x j f input} hc output l hl w r h := by
    have horder := (InOrder.closed u cur).commit hc.2 output hl (r := r) h.toInOrder
    simp only [World.commitFiber] at horder ⊢
    split
    · exact h
    · rename_i hgo
      rw [hgo] at horder
      have hcur := (h.engine j).current.trans (hc.2 j f input rfl)
      refine h.of_order horder fun hw => hw.commit ((h.engine j).accounted.current_lt hcur) x (fun y hy c hctx => ?_) _
      rw [hl y hy] at hctx
      cases hctx
      exact hc.1
  stop {x j f input} hc w r h := by
    have horder := (InOrder.closed u cur).stop hc.2 (r := r) h.toInOrder
    simp only [World.endFiber] at horder ⊢
    split
    · exact h
    · rename_i hgo
      rw [if_neg hgo] at horder
      exact h.of_order horder fun hw => hw.alter (hw.listeners f)
  register {w _} h j _ x _ input := by
    refine h.of_order (h.toInOrder.face j (fun _ => ⟨rfl, rfl, rfl, rfl⟩) (fun _ => id) fun op hop => ?_)
      fun hw => ⟨hw.listeners, hw.posts, fun op hop => ?_⟩
    · rcases Array.mem_push.1 hop with hop | rfl
      · exact (h.engine j).disposers op hop
      · exact fun d hd => absurd hd List.not_mem_nil
    · rcases Array.mem_push.1 hop with hop | rfl
      · exact hw.disposers op hop
      · exact fun d hd => absurd hd List.not_mem_nil
  enrol {j o d} hd w _ h := by
    refine h.modifyOperation j o fun op hop d' hd' => ?_
    rcases List.mem_append.1 hd' with hd' | hd'
    · exact hop d' hd'
    · rw [List.mem_singleton.1 hd']
      exact hd.mono fun c hc => ⟨hc.1.1, hc.2⟩
  finish j o output _ _ h := h.finishOperation j o output false
  dismiss {w _} h j o _ _ := by
    have hdrop : Retained u cur B (w.strike j o) :=
      h.face j (fun _ => ⟨rfl, rfl, rfl, rfl⟩) (fun _ => id) fun _ => rfl
    exact hdrop.relinquish j o
  close {w _} h j _ := h.face j (fun _ => ⟨rfl, rfl, rfl, rfl⟩) (fun _ _ => rfl) fun _ => rfl
  relinquish h j _ _ o := h.relinquish j o
  release {w _} h j _ _ := h.face j (fun _ => ⟨rfl, rfl, rfl, rfl⟩) (fun _ => id) fun _ => rfl
  clear {w r} h j ho hd := by
    have hopened : Opened (fun v _ => InOrder u cur v) j := by
      obtain ⟨v, s, hv, hopen⟩ := ho
      exact ⟨v, s, hv.toInOrder, hopen⟩
    exact h.of_order ((InOrder.closed u cur).clear (r := r) h.toInOrder hopened hd)
      fun hw => ⟨hw.listeners, fun p hp => absurd hp List.not_mem_nil, hw.disposers⟩

section AtWork

/-- The fiber at work changes in what is its own business. -/
theorem alter (h : Retained u (onlyAt i f) B w) {g : Fiber → Fiber} (hg : ∀ x : Fiber, x.Goes (g x))
    (hl : ∀ l ∈ (g ((w.engine i).fiber f)).listeners, l ∈ ((w.engine i).fiber f).listeners)
    (hblank : (g ((w.engine i).fiber f)).Blank → ((w.engine i).fiber f).Blank) :
    Retained u (onlyAt i f) B (w.modifyEngine i (·.modifyFiber f g)) :=
  h.of_order ((InOrder.duty u i f).alter w h.toInOrder g hg hl hblank)
    fun hw => hw.alter fun l hx => hw.listeners f l (hl l hx)

theorem applyEntry (h : Retained u (onlyAt i f) B w) : Retained u (onlyAt i f) B (w.applyEntry i f).2 where
  toInOrder := h.toInOrder.applyEntry
  within j := by
    by_cases hj : j = i
    · rw [hj, engine_applyEntry h.there]
      exact (h.within i).alter ((h.within i).listeners f)
    · rw [(Local.applyEntry w i f).others j hj]
      exact h.within j
  undone := by
    rw [(Local.applyEntry w i f).disposers]
    exact h.undone

/-- The head of the queue gets to work. -/
theorem take (h : Retained u atRest B w) {others : List Nat} (hq : (w.engine i).queue = f :: others) :
    Retained u (onlyAt i f) B (atWork i f others w) := by
  have horder : InOrder u (onlyAt i f) (atWork i f others w) := h.toInOrder.take hq
  rw [atWork, unqueued, modifyEngine_modifyEngine] at horder ⊢
  exact h.of_order horder fun hw => ⟨hw.listeners, hw.posts, hw.disposers⟩

theorem pop (h : Retained u atRest B w) {others : List Nat} (hq : (w.engine i).queue = f :: others)
    (hidle : ((w.engine i).fiber f).isReady = false) : Retained u atRest B (Play.pop i f others w) := by
  have horder := h.toInOrder.pop hq hidle
  unfold Play.pop at horder ⊢
  split at horder
  · rename_i hcomplete
    rw [if_pos hcomplete]
    rw [modifyEngine_modifyEngine] at horder ⊢
    exact h.of_order horder fun hw => Engine.Within.finish (e := { w.engine i with queue := others })
      ⟨hw.listeners, hw.posts, hw.disposers⟩ f
  · rename_i hopen
    rw [if_neg hopen]
    exact h.of_order horder fun hw => ⟨hw.listeners, hw.posts, hw.disposers⟩

theorem requeue (h : Retained u (onlyAt i f) B w) (hready : ((w.engine i).fiber f).isReady = true) :
    Retained u atRest B (w.modifyEngine i fun e => { e with queue := f :: e.queue, current := none }) := by
  refine h.of_order ?_ fun hw => ⟨hw.listeners, hw.posts, hw.disposers⟩
  exact h.toInOrder.modifyEngine (fun k hk => (InOrder.onlyAt_of_ne hk).symm) h.there (h.atWork.requeue hready)

/-- The fiber at work makes room. -/
theorem cede (h : Retained u (onlyAt i f) B w) (hidle : ((w.engine i).fiber f).isReady = false) :
    Retained u atRest B ((if ((w.engine i).fiber f).isComplete then w.modifyEngine i (·.finish f) else w).modifyEngine i
      fun e => { e with current := none }) := by
  have horder := h.toInOrder.cede hidle
  split at horder
  · rename_i hcomplete
    rw [if_pos hcomplete]
    rw [modifyEngine_modifyEngine] at horder ⊢
    refine h.of_order horder fun hw => ?_
    exact ⟨(hw.finish f).listeners, (hw.finish f).posts, (hw.finish f).disposers⟩
  · rename_i hopen
    rw [if_neg hopen]
    exact h.of_order horder fun hw => ⟨hw.listeners, hw.posts, hw.disposers⟩

/-- The fiber at work makes room or goes on. -/
theorem rest (h : Retained u (onlyAt i f) B w) : Retained u atRest B (Play.rest w i f) := by
  unfold Play.rest
  dsimp only
  split
  · rename_i hready
    exact h.requeue hready
  · rename_i hidle
    exact (h.cede (Bool.eq_false_iff.2 hidle)).drainInbox i

theorem count (h : Retained u (onlyAt i f) B w) :
    Retained u (onlyAt i f) B (w.modifyEngine i fun e => { e with steps := e.steps + 1 }) :=
  h.face i (fun _ => ⟨rfl, rfl, rfl, rfl⟩) (fun _ => id) fun _ => rfl

/-- The fiber at work fails. -/
theorem fail (h : Retained u (onlyAt i f) B w) (e : Failure) :
    Retained u (onlyAt i f) B ((w.report i e).modifyEngine i fun e => { e with steps := e.steps + 1 }.abort f) :=
  (h.report i e).of_order (h.toInOrder.fail e) fun hw =>
    Engine.Within.abort (e := { (w.report i e).engine i with steps := ((w.report i e).engine i).steps + 1 })
      ⟨hw.listeners, hw.posts, hw.disposers⟩ f

end AtWork

/-- The order counts from any point on. -/
theorem rebase (h : Retained u cur B w) : Retained w cur B w :=
  ⟨h.toInOrder.rebase, h.within, h.undone⟩

end Retained

end FlowGraph
