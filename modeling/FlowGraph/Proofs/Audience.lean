import FlowGraph.Proofs.Draining
import FlowGraph.Proofs.Refinement

/-!
What nothing reads. The journal is only written, and the handlers of the host have no hold on graphs and engines: worlds that
differ in these alone go the same way.
-/
namespace FlowGraph

open World Play

def Audience.hearAll (a : Audience) (es : List Event) : Audience := es.foldr (fun e a => a.hear e) a

/-- What was put down, and who hears of it. -/
structure Tally where
  journal : List Event
  audience : Audience

def Tally.add (t : Tally) (e : Event) : Tally := ⟨e :: t.journal, t.audience.hear e⟩

/-- The relation outlasts that an event is put down. -/
def Tally.Lasting (K : Tally → Tally → Prop) : Prop := ∀ ⦃s t⦄, K s t → ∀ e, K (s.add e) (t.add e)

namespace World

def tally (w : World) : Tally := ⟨w.journal, w.audience⟩

/-- The world without what nothing reads. -/
def silent (w : World) : World := { w with journal := [], audience := {} }

end World

/-- The worlds differ at most in what nothing reads, and that is related. -/
structure Unread (K : Tally → Tally → Prop) (w r : World) : Prop where
  rest : w.silent = r.silent
  tally : K w.tally r.tally

namespace Unread

variable {K : Tally → Tally → Prop} {w r : World}

theorem engines (h : Unread K w r) : w.engines = r.engines := (congrArg World.engines h.rest :)

theorem engine (h : Unread K w r) (j : Nat) : w.engine j = r.engine j := engine_congr h.engines j

/-- What a context can see does not depend on what nothing reads. -/
theorem seen (h : Unread K w r) : Seen w r where
  graphs := (congrArg World.graphs h.rest :)
  subscriptions := (congrArg World.subscriptions h.rest :)
  issued := (congrArg World.issued h.rest :)
  disposers := (congrArg World.disposers h.rest :)
  clock := (congrArg World.clock h.rest :)
  isLooping := (congrArg World.isLooping h.rest :)
  scheduler := (congrArg World.scheduler h.rest :)
  store := (congrArg World.store h.rest :)
  size := by rw [h.engines]
  eventNodes j := by rw [h.engine]
  operations j := by rw [h.engine]
  pending j := by rw [h.engine]
  isDisposed j := by rw [h.engine]

/-- A change that leaves alone what nothing reads. -/
theorem frame (h : Unread K w r) {F : World → World}
    (hF : ∀ v : World, (F v).silent = F v.silent) (ht : ∀ v, (F v).tally = v.tally) : Unread K (F w) (F r) :=
  ⟨by rw [hF, hF, h.rest], by rw [ht, ht]; exact h.tally⟩

theorem modifyEngine (h : Unread K w r) (j : Nat) (g : Engine → Engine) :
    Unread K (w.modifyEngine j g) (r.modifyEngine j g) :=
  h.frame (F := (·.modifyEngine j g)) (fun _ => rfl) fun _ => rfl

theorem modifyGraph (h : Unread K w r) (k : Nat) (g : Graph → Graph) : Unread K (w.modifyGraph k g) (r.modifyGraph k g) :=
  h.frame (F := (·.modifyGraph k g)) (fun _ => rfl) fun _ => rfl

theorem modifyNode (h : Unread K w r) (x : NodeRef) (g : Node → Node) : Unread K (w.modifyNode x g) (r.modifyNode x g) :=
  h.modifyGraph x.graph _

theorem record (h : Unread K w r) (hK : Tally.Lasting K) (e : Event) : Unread K (w.record e) (r.record e) :=
  ⟨h.rest, hK h.tally e⟩

theorem stamp (h : Unread K w r) (g : Nat) (v : Value) : Unread K (w.stamp g v).2 (r.stamp g v).2 := by
  unfold World.stamp
  rw [h.seen.graph]
  split
  · exact h.modifyGraph g _
  · exact h

theorem tell (h : Unread K w r) (hK : Tally.Lasting K) (j : Nat) (e : String → Event) : Unread K (w.tell j e) (r.tell j e) := by
  unfold World.tell
  rw [h.engine]
  split
  · exact h.record hK _
  · exact h

/-- A failure is put down and heard of, and nothing else sees it. -/
theorem report (h : Unread K w r) (hK : Tally.Lasting K) (j : Nat) (f : Failure) : Unread K (w.report j f) (r.report j f) := by
  have hpush {w r : World} (h : Unread K w r) :
      Unread K ((w.modifyEngine j fun e => { e with failures := f :: e.failures }).record
          (.failed (w.engine j).name (w.engine j).isObserved f))
        ((r.modifyEngine j fun e => { e with failures := f :: e.failures }).record
          (.failed (r.engine j).name (r.engine j).isObserved f)) := by
    rw [h.engine]
    exact (h.modifyEngine j _).record hK _
  have hblamed (id : String) : w.blamed j id = r.blamed j id := by
    have hid : (fun x : NodeRef => decide ((w.node x).id = id)) = fun x => decide ((r.node x).id = id) := by
      funext x
      rw [h.seen.node]
    rw [World.blamed, World.blamed, h.engine, hid]
  unfold World.report
  cases f with
  | node id type reason =>
    simp only [hblamed]
    split
    · exact hpush (h.modifyNode _ _)
    · exact hpush h
  | _ => exact hpush h

theorem writeOutputs (h : Unread K w r) (x : NodeRef) (values : List (String × Value)) :
    (w.writeOutputs x values).1 = (r.writeOutputs x values).1 ∧
      Unread K (w.writeOutputs x values).2 (r.writeOutputs x values).2 := by
  induction values generalizing w r with
  | nil => exact ⟨rfl, h⟩
  | cons p rest ih =>
    obtain ⟨name, v⟩ := p
    simp only [World.writeOutputs, h.seen.node]
    split
    · exact ih (h.modifyNode x _)
    · exact ⟨rfl, h⟩

/-- Writing what a trigger carries reads neither journal nor audience. -/
theorem applyEntry (h : Unread K w r) (j f : Nat) :
    (w.applyEntry j f).1 = (r.applyEntry j f).1 ∧ Unread K (w.applyEntry j f).2 (r.applyEntry j f).2 := by
  unfold World.applyEntry
  rw [h.engine]
  have hmarked := h.modifyEngine j (·.modifyFiber f fun f => { f with isWritten := true })
  dsimp only
  split
  · exact ⟨rfl, hmarked⟩
  · rename_i x values _
    obtain ⟨_, v, s, hp, hq, hn⟩ | ⟨e, v, s, hp, hq, hn⟩ := outcomes (hmarked.writeOutputs x values)
    · simp only [hp, hq]
      exact ⟨trivial, hn⟩
    · simp only [hp, hq, hn.seen.nodeFailure]
      exact ⟨trivial, hn⟩

theorem commitFiber (h : Unread K w r) (j f : Nat) (x : NodeRef) (output : String) (l : Option Listener) :
    (w.commitFiber j f x output l).1 = (r.commitFiber j f x output l).1 ∧
      Unread K (w.commitFiber j f x output l).2 (r.commitFiber j f x output l).2 := by
  refine ⟨h.seen.commitFiber (by rw [h.engine]) x output l, ?_⟩
  simp only [World.commitFiber, World.commitRefusal?, World.wiresAt, h.engine, h.seen.node, h.seen.nodeFailure]
  split
  · exact h
  · exact h.modifyEngine j _

theorem endFiber (h : Unread K w r) (j f : Nat) (x : NodeRef) : Unread K (w.endFiber j f x).2 (r.endFiber j f x).2 := by
  simp only [World.endFiber, h.engine]
  split
  · exact h
  · exact h.modifyEngine j _

theorem enqueue (h : Unread K w r) (hK : Tally.Lasting K) (j f : Nat) : Unread K (w.enqueue j f) (r.enqueue j f) := by
  simp only [World.enqueue, h.engine]
  split
  · obtain ⟨_, v, s, hp, hq, hn⟩ | ⟨e, v, s, hp, hq, hn⟩ := outcomes (h.applyEntry j f)
    · simp only [hp, hq]
      exact hn.modifyEngine j _
    · simp only [hp, hq]
      exact hn.report hK j e
  · split
    · exact h.modifyEngine j _
    · exact h.modifyEngine j _

theorem stampOutputs (h : Unread K w r) (g : Nat) (values : List (String × Value)) :
    (w.stampOutputs g values).1 = (r.stampOutputs g values).1 ∧
      Unread K (w.stampOutputs g values).2 (r.stampOutputs g values).2 := by
  induction values generalizing w r with
  | nil => exact ⟨rfl, h⟩
  | cons p rest ih =>
    obtain ⟨name, v⟩ := p
    obtain ⟨hrest, hn⟩ := ih (h.stamp g v)
    exact ⟨by simp only [World.stampOutputs, h.seen.stamp, hrest], hn⟩

/-- A path that begins is put in the queue whoever hears of it. -/
theorem begin (h : Unread K w r) (hK : Tally.Lasting K) (j : Nat) (x : NodeRef) (output : String) (l : Option Listener)
    (outputs : List (String × Value)) : Unread K (w.begin j x output l outputs) (r.begin j x output l outputs) := by
  unfold World.begin
  rw [h.engine]
  split
  · exact h
  · obtain ⟨hout, hn⟩ := h.stampOutputs x.graph outputs
    simp only [hout, hn.engine]
    generalize (r.stampOutputs x.graph outputs).1 = values
    generalize (w.stampOutputs x.graph outputs).2 = v at hn ⊢
    generalize (r.stampOutputs x.graph outputs).2 = s at hn ⊢
    generalize ({ entry := if values.isEmpty then none else some (x, (Table.ofList values).entries) } : Fiber) = fiber
    have hpush := hn.modifyEngine j fun e => { e with fibers := e.fibers.push fiber }
    obtain ⟨_, v', s', hp, hq, hn⟩ | ⟨e, v', s', hp, hq, hn⟩ :=
      outcomes (hpush.commitFiber j (s.engine j).fibers.size x output l)
    · simp only [hp, hq]
      exact hn.enqueue hK j _
    · simp only [hp, hq]
      exact hn.report hK j e

/-- The output of an operation is found without journal and audience. -/
theorem chooseOutput (h : Unread K w r) (x : NodeRef) (output : Option String) :
    (w.chooseOutput x output).2 = (r.chooseOutput x output).2 ∧
      Unread K (w.chooseOutput x output).1 (r.chooseOutput x output).1 := by
  have hforget : Unread K (if output.isNone then w.modifyNode x fun n => { n with lastOutput := none } else w)
      (if output.isNone then r.modifyNode x fun n => { n with lastOutput := none } else r) := by
    split
    · exact h.modifyNode x _
    · exact h
  unfold World.chooseOutput
  simp only
  generalize (if output.isNone then w.modifyNode x fun n => { n with lastOutput := none } else w) = v at hforget ⊢
  generalize (if output.isNone then r.modifyNode x fun n => { n with lastOutput := none } else r) = s at hforget ⊢
  simp only [World.outputOf, hforget.seen.node, hforget.seen.nodeFailure]
  split
  · exact ⟨rfl, hforget⟩
  · split
    · exact ⟨rfl, hforget.modifyNode x _⟩
    · exact ⟨rfl, hforget⟩

/-- An operation is completed whoever hears of it. -/
theorem complete (h : Unread K w r) (hK : Tally.Lasting K) (j o : Nat) (output : Option String) :
    Unread K (w.complete j o output) (r.complete j o output) := by
  have hgone := h.modifyEngine j fun e => { e with pending := e.pending.erase o }
  unfold World.complete
  simp only
  generalize w.modifyEngine j (fun e => { e with pending := e.pending.erase o }) = v at hgone ⊢
  generalize r.modifyEngine j (fun e => { e with pending := e.pending.erase o }) = s at hgone ⊢
  rw [hgone.engine]
  split
  · exact hgone
  · obtain ⟨heq, hn⟩ := hgone.chooseOutput ((s.engine j).operation o).node output
    generalize v.chooseOutput ((s.engine j).operation o).node output = p at heq hn ⊢
    generalize s.chooseOutput ((s.engine j).operation o).node output = q at heq hn ⊢
    obtain ⟨v', out⟩ := p
    obtain ⟨s', _⟩ := q
    simp only at heq hn
    subst heq
    cases out with
    | error e => exact hn.report hK j e
    | ok name =>
      have hbegun := hn.begin hK j ((s.engine j).operation o).node name none []
      simp only [World.tellEnded, hbegun.seen.node]
      exact hbegun.tell hK j _

theorem finishOperation (h : Unread K w r) (hK : Tally.Lasting K) (j o : Nat) (output : Option String) :
    Unread K (w.finishOperation j o output) (r.finishOperation j o output) := by
  unfold World.finishOperation
  rw [h.engine]
  simp only [Bool.false_eq_true, if_false]
  split
  · exact h
  · exact (h.modifyEngine j _).complete hK j o output

theorem relinquish (h : Unread K w r) (j o : Nat) : Unread K (w.relinquish j o) (r.relinquish j o) := by
  unfold World.relinquish
  rw [h.engine]
  split
  · exact h
  · exact h.modifyEngine j _

/-- Who is told does the same whatever the host hears. -/
theorem handle (h : Unread K w r) (hK : Tally.Lasting K) (n : Notice) (x : Handler) :
    Unread K (w.handle n x) (r.handle n x) := by
  cases x with
  | node j x =>
    simp only [World.handle]
    split
    · exact h.begin hK j x "exec" none _
    · exact h
  | watchVariable name =>
    cases n with
    | changed v => exact h.record hK (.changed name v)
    | _ => exact h
  | watchEvent name =>
    cases n with
    | triggered t => exact h.record hK (.triggered name t.entries)
    | _ => exact h

theorem emit (h : Unread K w r) (hK : Tally.Lasting K) (t : Topic) (n : Notice) : Unread K (w.emit t n) (r.emit t n) := by
  unfold World.emit
  rw [h.seen.handlers]
  generalize r.handlers t = handlers
  induction handlers generalizing w r with
  | nil => exact h
  | cons x handlers ih => exact ih (h.handle hK n x)

theorem applyPost (h : Unread K w r) (hK : Tally.Lasting K) (i : Nat) (p : Post) : Unread K (w.applyPost i p) (r.applyPost i p) := by
  cases p with
  | complete o output => exact h.complete hK i o output
  | begin x output l outputs => exact h.begin hK i x output l outputs

theorem drainInbox (h : Unread K w r) (hK : Tally.Lasting K) (i : Nat) : Unread K (w.drainInbox i) (r.drainInbox i) := by
  have hempty := h.modifyEngine i fun e => { e with inbox := [] }
  simp only [World.drainInbox, h.engine]
  generalize (r.engine i).inbox = posts
  generalize w.modifyEngine i (fun e => { e with inbox := [] }) = v at hempty ⊢
  generalize r.modifyEngine i (fun e => { e with inbox := [] }) = s at hempty ⊢
  induction posts generalizing v s with
  | nil => exact hempty
  | cons p posts ih => exact ih _ _ (hempty.applyPost hK i p)

/-- Everything that a call does keeps worlds alike that differ in what nothing reads. -/
theorem closed (hK : Tally.Lasting K) (A : Context → Prop) : Closed (Unread K) A where
  stamp g v _ _ h := h.stamp g v
  write h _ _ _ _ _ _ := h.modifyNode _ _
  setState _ _ _ _ h := h.modifyNode _ _
  setInput x _ _ _ _ h := h.modifyNode x _
  assign h _ _ _ _ _ _ := h.modifyGraph _ _
  record e _ _ _ h := h.record hK e
  tell j e _ _ _ h := h.tell hK j e
  hold {c} _ _ _ h := h.frame (F := fun w => { w with holds := w.holds ++ [c] }) (fun _ => rfl) fun _ => rfl
  schedule s _ _ h := h.frame (F := fun w => { w with scheduler := s }) (fun _ => rfl) fun _ => rfl
  store s _ _ h := h.frame (F := fun w => { w with store := s }) (fun _ => rfl) fun _ => rfl
  subscribe t x _ _ h := h.frame (F := fun w => (w.subscribe t x).2) (fun _ => rfl) fun _ => rfl
  unsubscribe s _ _ h := h.frame (F := (·.unsubscribe s)) (fun _ => rfl) fun _ => rfl
  enlist x d _ _ _ h :=
    h.frame (F := fun w => { w with disposers := w.disposers ++ [(x, d)] }) (fun _ => rfl) fun _ => rfl
  unlist x _ _ h :=
    h.frame (F := fun w => { w with disposers := w.disposers.filter (·.1 ≠ x) }) (fun _ => rfl) fun _ => rfl
  report {j} _ _ _ _ _ _ _ h := h.report hK j _
  begin j x output l _ values _ _ _ h := h.begin hK j x output l values
  commit _ output l _ _ _ h := (h.commitFiber _ _ _ output l).2
  stop _ _ _ h := h.endFiber _ _ _
  register h j _ _ _ _ := h.modifyEngine j _
  enrol {j _ _} _ _ _ h := h.modifyEngine j _
  finish j o output _ _ h := h.finishOperation hK j o output
  dismiss h j o _ _ := relinquish (h.modifyEngine j _) j o
  close h j _ := h.modifyEngine j _
  relinquish h j _ _ o := h.relinquish j o
  release h j _ _ := h.modifyEngine j _
  clear h j _ _ := h.modifyEngine j _

theorem bearing (hK : Tally.Lasting K) : Bearing (Unread K) fun _ => True where
  toManner := (closed hK _).toManner
  seen h := h.seen
  committed h _ _ _ _ _ := by rw [h.engine]
  nodes _ p _ := by cases p.2 <;> trivial
  enrolled _ _ _ _ d _ := by cases d <;> trivial
  function _ _ _ _ := trivial
  async _ _ _ _ _ _ := trivial

/-- Nothing that runs can tell the worlds apart. -/
theorem drained (hK : Tally.Lasting K) (i : Nat) : Drained (Unread K) i where
  toConduct := (bearing hK).conduct (closed hK _)
  engine h := h.engine i
  arrange _ _ _ h := h.modifyEngine i _
  entry h f := h.applyEntry i f
  inbox _ _ h := h.drainInbox hK i
  reported e _ _ h := h.report hK i e

theorem act? (h : Unread K w r) (i f : Nat) : w.act? i f = r.act? i f := by
  obtain ⟨_, v, s, hp, hq, -⟩ | ⟨e, v, s, hp, hq, -⟩ := outcomes (h.applyEntry i f)
  · simp only [World.act?, hp, hq, h.engine]
  · simp only [World.act?, hp, hq]

end Unread

/-- Whoever hears of it, what is done ends in the same way and leaves the same behind. What it puts down is heard in order, and
that is all that comes of the handlers of the host, however they fail. -/
def Unswayed {α : Type} (F : World → α × World) (w : World) : Prop :=
  ∃ news, (F w).2.journal = news ++ w.journal ∧
    ∀ a, F { w with audience := a } = ((F w).1, { (F w).2 with audience := a.hearAll news })

namespace Unswayed

variable {α : Type} {F : World → α × World} {w : World}

/-- The same was put down since `w`, and the audiences that `s` and `t` began with have heard of it. -/
def Heard (w : World) (a b : Audience) (s t : Tally) : Prop :=
  ∃ news, s = ⟨news ++ w.journal, a.hearAll news⟩ ∧ t = ⟨news ++ w.journal, b.hearAll news⟩

theorem lasting_heard (w : World) (a b : Audience) : Tally.Lasting (Heard w a b) := by
  rintro s t ⟨news, rfl, rfl⟩ e
  exact ⟨e :: news, rfl, rfl⟩

/-- What cannot tell worlds apart that differ in what nothing reads is not swayed. -/
theorem of_unread (hF : ∀ {K : Tally → Tally → Prop}, Tally.Lasting K → ∀ {v r}, Unread K v r →
    (F v).1 = (F r).1 ∧ Unread K (F v).2 (F r).2) : Unswayed F w := by
  have hheard (a : Audience) : ∃ news, (F w).2.journal = news ++ w.journal ∧
      F { w with audience := a } = ((F w).1, { (F w).2 with audience := a.hearAll news }) := by
    obtain ⟨hout, hrest, news, hw, hr⟩ :=
      hF (lasting_heard w w.audience a) (v := w) (r := { w with audience := a }) ⟨rfl, [], rfl, rfl⟩
    have hjournal : (F w).2.journal = news ++ w.journal := (congrArg Tally.journal hw :)
    refine ⟨news, hjournal, Prod.ext hout.symm ?_⟩
    calc (F { w with audience := a }).2
        = { (F { w with audience := a }).2.silent with
            journal := (F { w with audience := a }).2.tally.journal
            audience := (F { w with audience := a }).2.tally.audience } := rfl
      _ = { (F w).2.silent with journal := (F w).2.journal, audience := a.hearAll news } := by rw [← hrest, hr, hjournal]
      _ = { (F w).2 with audience := a.hearAll news } := rfl
  obtain ⟨news, hjournal, -⟩ := hheard w.audience
  refine ⟨news, hjournal, fun a => ?_⟩
  obtain ⟨news', hjournal', hsame⟩ := hheard a
  rw [List.append_cancel_right (hjournal.symm.trans hjournal')]
  exact hsame

theorem run (w : World) (i : Nat) (maxSteps : Option Int) (maxSeconds : Option Double) :
    Unswayed (Play.run i maxSteps maxSeconds).runOn w :=
  of_unread fun hK _ _ h => obeys_run (Unread.drained hK i) maxSteps maxSeconds _ _ h

theorem begin (w : World) (i : Nat) (x : NodeRef) (output : String) (l : Option Listener) (values : List (String × Value)) :
    Unswayed (fun v => ((), v.begin i x output l values)) w :=
  of_unread fun hK _ _ h => ⟨rfl, h.begin hK i x output l values⟩

theorem complete (w : World) (i o : Nat) (output : Option String) : Unswayed (fun v => ((), v.complete i o output)) w :=
  of_unread fun hK _ _ h => ⟨rfl, h.complete hK i o output⟩

theorem emit (w : World) (t : Topic) (n : Notice) : Unswayed (fun v => ((), v.emit t n)) w :=
  of_unread fun hK _ _ h => ⟨rfl, h.emit hK t n⟩

end Unswayed

end FlowGraph
