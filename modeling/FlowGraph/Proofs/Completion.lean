import FlowGraph.Proofs.Iterations
import FlowGraph.Proofs.Trail

/-!
Whatever behaviours and a host do goes along a trail, and so does every run.
-/
namespace FlowGraph

open World Play

/-- The trail goes on to the world. Once the engine is disposed of, nobody else takes its operations off the list. -/
def Trail.Extends (i : Nat) (ms : List Mark) (due : List (Nat × Option String)) (w : World) : Prop :=
  ∃ rest, Trail i (ms ++ rest) due w ∧ (.closed ∈ ms → .released ∉ rest)

theorem Engine.Aside.modifyOperation_out {e : Engine} {o : Nat} (ho : ¬ o < e.operations.size)
    (g : Operation → Operation) : e.Aside (e.modifyOperation o g) := by
  refine ⟨?_, rfl, rfl, rfl⟩
  apply Array.ext_getElem?
  intro k
  simp only [Engine.modifyOperation, Array.getElem?_modify]
  split
  · rename_i hk
    simp [← hk, ho]
  · rfl

namespace World

theorem complete_eq (w : World) (i o : Nat) (output : Option String) : w.complete i o output =
    if ((w.strike i o).engine i).isDisposed || (((w.strike i o).engine i).operation o).isAbandoned then w.strike i o
    else match (w.strike i o).chooseOutput (((w.strike i o).engine i).operation o).node output with
      | (w, .error e) => w.report i e
      | (v, .ok name) => (v.begin i (((w.strike i o).engine i).operation o).node name none []).tellEnded i
          (((w.strike i o).engine i).operation o).node := rfl

/-- What is put down when an operation is completed, and where it leads. -/
theorem applied_complete (w : World) (i o : Nat) (output : Option String) :
    ∃ rest, Applied i o output w rest (w.complete i o output) := by
  have hop : ((w.strike i o).engine i).operation o = (w.engine i).operation o := operation_strike w i i o o
  have hdisposed : ((w.strike i o).engine i).isDisposed = (w.engine i).isDisposed := by
    rw [strike, engine_modifyEngine]
    split
    · rfl
    · rfl
  rw [complete_eq, hop, hdisposed]
  split
  · rename_i hclosed
    exact ⟨[], .ignored hclosed⟩
  · rename_i hopen
    have hopen := Bool.eq_false_iff.2 hopen
    split
    · rename_i hchosen
      exact ⟨[], .refused rfl hopen hchosen⟩
    · rename_i hchosen
      exact ⟨_, .continued rfl hopen hchosen⟩

end World

namespace Trail

variable {i j o : Nat} {ms : List Mark} {due : List (Nat × Option String)} {w v : World}

theorem not_released_giving (w : World) (i o : Nat) : .released ∉ w.giving i o := by
  unfold World.giving
  split <;> simp

namespace Extends

theorem of_trail (h : Trail i ms due w) : Extends i ms due w := ⟨[], by simpa using h, fun _ => by simp⟩

theorem aside (h : Extends i ms due w) (ha : (w.engine i).Aside (v.engine i)) : Extends i ms due v :=
  have ⟨rest, ht, hr⟩ := h
  ⟨rest, ht.aside ha, hr⟩

theorem append {rest more : List Mark} (ht : Trail i (ms ++ rest ++ more) due w) (hr : .closed ∈ ms → .released ∉ rest)
    (hmore : .released ∉ more) : Extends i ms due w := by
  refine ⟨rest ++ more, by rwa [← List.append_assoc], fun hc hm => ?_⟩
  rcases List.mem_append.1 hm with hm | hm
  · exact hr hc hm
  · exact hmore hm

theorem kept (h : Extends i ms due w) :
    ∃ rest, Kept (ms ++ rest) (w.engine i) ∧ (.closed ∈ ms → .released ∉ rest) :=
  have ⟨rest, ht, hr⟩ := h
  ⟨rest, ht.kept.1, hr⟩

theorem of_engines (h : Extends i ms due w) (he : v.engines = w.engines) : Extends i ms due v :=
  h.aside (.of_engines he i)

theorem of_local (h : Extends i ms due w) (hl : Local j w v) : Extends i ms due v := h.aside (.of_local hl i)

/-- A change of another engine, or of what concerns no operation. -/
theorem modifyEngine (h : Extends i ms due w) (j : Nat) {g : Engine → Engine}
    (hg : j = i → i < w.engines.size → (w.engine i).Aside (g (w.engine i))) : Extends i ms due (w.modifyEngine j g) := by
  refine h.aside ?_
  rw [engine_modifyEngine]
  split
  · rename_i hj
    exact hg hj.1 (hj.1 ▸ hj.2)
  · exact ⟨rfl, rfl, rfl, rfl⟩

theorem relinquish (h : Extends i ms due w) (j o : Nat) (hd : j < w.engines.size → (w.engine j).isDisposed = true) :
    Extends i ms due (w.relinquish j o) := by
  by_cases hj : j = i ∧ i < w.engines.size ∧ o < (w.engine i).operations.size
  · obtain ⟨rfl, hi, ho⟩ := hj
    obtain ⟨rest, ht, hr⟩ := h
    exact append (ht.relinquish hi ho (hd hi)) hr (not_released_giving w j o)
  · refine relinquish_upholds (h.modifyEngine j fun hji hi => ?_) h
    exact .modifyOperation_out (fun ho => hj ⟨hji, hi, ho⟩) _

theorem dismiss (h : Extends i ms due w) (j : Nat) {o : Nat} (ho : j < w.engines.size → o < (w.engine j).operations.size) :
    Extends i ms due (w.dismiss j o) := by
  by_cases hj : j = i ∧ i < w.engines.size
  · obtain ⟨rfl, hi⟩ := hj
    obtain ⟨rest, ht, hr⟩ := h
    have ht' := ht.fail hi (ho hi)
    rw [List.append_assoc _ [_]] at ht'
    refine append ht' hr ?_
    simpa using not_released_giving w j o
  · have hstruck : Extends i ms due (w.strike j o) := h.modifyEngine j fun hji hi => absurd ⟨hji, hi⟩ hj
    refine relinquish_upholds (hstruck.modifyEngine j fun hji hi => absurd ⟨hji, ?_⟩ hj) hstruck
    simpa [strike] using hi

theorem register (h : Extends i ms due w) (j : Nat) (x : NodeRef) (input : String) : Extends i ms due
    (w.modifyEngine j fun e => { e with
      operations := e.operations.push { node := x, input := input }
      pending := e.pending ++ [(w.engine j).operations.size] }) := by
  by_cases hj : j = i ∧ i < w.engines.size
  · obtain ⟨rfl, hi⟩ := hj
    obtain ⟨rest, ht, hr⟩ := h
    exact append (ht.start x input hi) hr (by simp)
  · exact h.modifyEngine j fun hji hi => absurd ⟨hji, hi⟩ hj

theorem enrol (h : Extends i ms due w) (j o : Nat) (d : Disposer) : Extends i ms due
    (w.modifyEngine j (·.modifyOperation o fun op => { op with disposers := op.disposers ++ [d] })) := by
  by_cases hj : j = i ∧ i < w.engines.size ∧ o < (w.engine i).operations.size
  · obtain ⟨rfl, hi, ho⟩ := hj
    obtain ⟨rest, ht, hr⟩ := h
    exact append (ht.enrol d hi ho) hr (by simp)
  · refine h.modifyEngine j fun hji hi => ?_
    have ho : ¬ o < (w.engine i).operations.size := fun ho => hj ⟨hji, hi, ho⟩
    exact .modifyOperation_out ho _

theorem close (h : Extends i ms due w) (j : Nat) (hd : (w.engine j).isDisposed = false) :
    Extends i ms due (w.modifyEngine j fun e => { e with isDisposed := true }) := by
  by_cases hj : j = i ∧ i < w.engines.size
  · obtain ⟨rfl, hi⟩ := hj
    obtain ⟨rest, ht, hr⟩ := h
    exact append (ht.close hi hd) hr (by simp)
  · exact h.modifyEngine j fun hji hi => absurd ⟨hji, hi⟩ hj

theorem clear (h : Extends i ms due w) (j : Nat) (hd : j < w.engines.size → (w.engine j).isDisposed = true) :
    Extends i ms due (w.modifyEngine j fun e => { e with queue := [], inbox := [] }) := by
  by_cases hj : j = i ∧ i < w.engines.size
  · obtain ⟨rfl, hi⟩ := hj
    obtain ⟨rest, ht, hr⟩ := h
    exact ⟨rest, ht.clear hi (hd hi), hr⟩
  · exact h.modifyEngine j fun hji hi => absurd ⟨hji, hi⟩ hj

/-- If the engine was in use since, it had not been disposed of before. -/
theorem release (h : Extends i ms due w) (j : Nat) (ho : Opened (fun w _ => Extends i ms due w) j)
    (hd : j < w.engines.size → (w.engine j).isDisposed = true) :
    Extends i ms due (w.modifyEngine j fun e => { e with pending := [] }) := by
  by_cases hj : j = i ∧ i < w.engines.size
  · obtain ⟨rfl, hi⟩ := hj
    obtain ⟨rest, ht, -⟩ := h
    refine ⟨rest ++ [Mark.released], ?_, fun hc => ?_⟩
    · rw [← List.append_assoc]
      exact ht.release hi (hd hi)
    · obtain ⟨v, -, ⟨rest', ht', -⟩, hopen⟩ := ho
      rw [ht'.kept.1.closed.2 (List.mem_append_left _ hc)] at hopen
      cases hopen
  · exact h.modifyEngine j fun hji hi => absurd ⟨hji, hi⟩ hj

theorem complete_of_ne (h : Extends i ms due w) (hj : j ≠ i) (o : Nat) (output : Option String) :
    Extends i ms due (w.complete j o output) := by
  refine complete_upholds (P := Extends i ms due) ?_ ?_ ?_ ?_ ?_ h
  · exact fun v h => h.modifyEngine j fun hji => absurd hji hj
  · exact fun v x h => h.of_engines (engines_chooseOutput v x output)
  · exact fun v e h => h.of_local (.report v j e)
  · exact fun v x name h => h.of_local (.begin v j x name none [])
  · exact fun v e h => h.of_engines (engines_tell v j e)

/-- Finishing an operation marks it, and leaves the marks before it. -/
theorem finishOperation (h : Extends i ms due w) (j o : Nat) (output : Option String) (fromOutside : Bool) :
    Extends i ms due (w.finishOperation j o output fromOutside) := by
  obtain ⟨rest, ht, hr⟩ := h
  by_cases hj : j = i
  · subst hj
    unfold World.finishOperation
    simp only
    split
    · exact ⟨rest, ht, hr⟩
    · rename_i hs
      simp only [Bool.or_eq_true, decide_eq_true_eq, not_or, Bool.not_eq_true, Nat.not_le] at hs
      obtain ⟨⟨ho, habandoned⟩, hfinished⟩ := hs
      have hi : j < w.engines.size := by
        apply Decidable.byContradiction
        intro hi
        simp [World.engine, hi, show (default : Engine).operations = #[] from rfl] at ho
      have hs : ((w.engine j).operation o).isSettled = false := by simp [Operation.isSettled, habandoned, hfinished]
      split
      · exact append (ht.post output hi ho hs) hr (by simp)
      · obtain ⟨more, ha⟩ := (w.markFinished j o).applied_complete j o output
        have ht' := ht.finish hi ho hs ha
        simp only [List.append_assoc] at ht'
        rw [← List.append_assoc] at ht'
        exact append ht' hr (by simpa using ha.not_released)
  · -- The operation belongs to another engine.
    refine finishOperation_upholds (P := Extends i ms due) ?_ ?_ ?_ ⟨rest, ht, hr⟩
    · exact fun v hv _ _ => hv.modifyEngine j fun hji => absurd hji hj
    · exact fun v hv _ => hv.complete_of_ne hj o output
    · exact fun v hv _ => hv.modifyEngine j fun hji => absurd hji hj

/-- Calls only ever add marks. -/
theorem closed (i : Nat) (ms : List Mark) (due : List (Nat × Option String)) (A : Context → Prop) :
    Closed (fun w _ => Extends i ms due w) A where
  stamp g v w _ h := h.of_engines (engines_stamp w g v)
  write h _ _ _ _ _ _ := h.of_engines rfl
  setState _ _ _ _ h := h.of_engines rfl
  setInput _ _ _ _ _ h := h.of_engines rfl
  assign h _ _ _ _ _ _ := h.of_engines rfl
  record _ _ _ _ h := h.of_engines rfl
  tell j e _ w _ h := h.of_engines (engines_tell w j e)
  hold _ _ _ h := h.of_engines rfl
  schedule _ _ _ h := h.of_engines rfl
  store _ _ _ h := h.of_engines rfl
  subscribe _ _ _ _ h := h.of_engines rfl
  unsubscribe _ _ _ h := h.of_engines rfl
  enlist _ _ _ _ _ h := h.of_engines rfl
  unlist _ _ _ h := h.of_engines rfl
  report _ _ _ _ _ w _ h := h.of_local (.report w _ _)
  begin j x output l _ values _ w _ h := h.of_local (.begin w j x output l values)
  commit _ output l _ w _ h := h.of_local (.commitFiber w _ _ _ output l)
  stop {x j f _} _ w _ h := by
    simp only [World.endFiber]
    split
    · exact h
    · exact h.of_local (.modifyEngine w j fun _ => rfl)
  register h _ _ x _ input := h.register _ x input
  enrol {j o d} _ _ _ h := h.enrol j o d
  finish j o output _ _ h := h.finishOperation j o output false
  dismiss h j _ _ ho := h.dismiss j ho
  close h j hd := h.close j hd
  relinquish h j _ hd o := h.relinquish j o hd
  release h j ho hd := h.release j ho hd
  clear h j _ hd := h.clear j hd

theorem applyPosts_of_ne (h : Extends i ms due w) (hj : j ≠ i) (posts : List Post) :
    Extends i ms due (posts.foldl (fun w p => w.applyPost j p) w) := by
  induction posts generalizing w with
  | nil => exact h
  | cons p posts ih =>
    refine ih ?_
    cases p with
    | complete o output => exact h.complete_of_ne hj o output
    | begin x output l outputs => exact h.of_local (.begin w j x output l outputs)

/-- The posts that were taken out of the inbox are applied one after the other. -/
theorem applyPosts (hi : i < w.engines.size) (posts : List Post)
    (h : Extends i ms (posts.filterMap Post.completion?) w) :
    Extends i ms [] (posts.foldl (fun w p => w.applyPost i p) w) := by
  induction posts generalizing w with
  | nil => exact h
  | cons p posts ih =>
    cases p with
    | complete o output =>
      refine ih (w := w.complete i o output) ?_ ?_
      · rw [(Onward.complete w i o output).size]
        exact hi
      · obtain ⟨rest, ht, hr⟩ := h
        obtain ⟨more, ha⟩ := w.applied_complete i o output
        have ht' := Trail.apply ht hi ha
        rw [List.append_assoc _ [_]] at ht'
        exact append ht' hr (by simpa using ha.not_released)
    | begin x output l outputs =>
      have hlocal := Local.begin w i x output l outputs
      refine ih (w := w.begin i x output l outputs) ?_ (h.of_local hlocal)
      rw [hlocal.size]
      exact hi

/-- What an engine does for other threads is on the trail, in the order of its inbox. -/
theorem drainInbox (h : Extends i ms [] w) (j : Nat) : Extends i ms [] (w.drainInbox j) := by
  by_cases hj : j = i
  · subst hj
    by_cases hi : j < w.engines.size
    · obtain ⟨rest, ht, hr⟩ := h
      refine applyPosts (w := w.modifyEngine j fun e => { e with inbox := [] }) (by simpa using hi) (w.engine j).inbox ?_
      exact ⟨rest, ht.collect hi, hr⟩
    · have hnone : (w.engine j).inbox = [] := by simp [World.engine, hi, show (default : Engine).inbox = [] from rfl]
      rw [World.drainInbox, hnone]
      exact h.modifyEngine j fun _ hi' => absurd hi' hi
  · exact (h.modifyEngine j fun hji => absurd hji hj).applyPosts_of_ne hj (w.engine j).inbox

/-- Every run goes along the trail. -/
theorem drained (i : Nat) (ms : List Mark) (j : Nat) : Drained (Upholds (Extends i ms [])) j := by
  refine Conduct.drained (closed i ms [] _).conduct_of_all ?_ ?_ ?_ ?_
  · exact fun w h g hg => h.of_local (.modifyEngine w j hg)
  · exact fun w h f => h.of_local (.applyEntry w j f)
  · exact fun w h => h.drainInbox j
  · exact fun w h e => h.of_local (.report w j e)

/-- What a host does goes along the trail. -/
theorem hosted (i : Nat) (ms : List Mark) : Hosted (fun _ => True) (Extends i ms []) where
  conduct := (drained i ms 0).toConduct
  push w h _ _ _ _ := by
    refine h.aside ?_
    simp only [World.engine, Array.getElem?_push]
    split
    · -- A new engine has no operations.
      rename_i hi
      rw [hi, Array.getElem?_size]
      exact ⟨rfl, rfl, rfl, rfl⟩
    · exact ⟨rfl, rfl, rfl, rfl⟩
  observe _ h j _ := h.modifyEngine j fun _ _ => ⟨rfl, rfl, rfl, rfl⟩
  post w h j x output _ values _ := by
    refine h.modifyEngine j fun hji hi => ⟨rfl, rfl, rfl, ?_⟩
    simp [Engine.completions, Engine.notify, Post.completion?]
  finish w h j o output fromOutside _ := h.finishOperation j o output fromOutside
  drainInbox w h j := h.drainInbox j

theorem deed (h : Extends i ms [] w) (hd : Deed w v) : Extends i ms [] v :=
  (hosted i ms).deed (fun _ _ => trivial) (fun h he _ => h.of_engines he)
    (fun j _ hv => hv ▸ h.modifyEngine j fun _ _ => ⟨rfl, rfl, rfl, rfl⟩) h hd

end Extends

end Trail

namespace Play

def undoEach (dispose : Nat → Play Unit) (ds : List Disposer) (w : World) : World :=
  ds.foldl (fun w d => ((undo dispose d).runOn w).2) w

theorem runOn_undoAll (dispose : Nat → Play Unit) (ds : List Disposer) (w : World) :
    ∃ es, (undoAll dispose ds).runOn w = (.ok es, undoEach dispose ds w) := by
  induction ds generalizing w with
  | nil => exact ⟨[], rfl⟩
  | cons d ds ih =>
    obtain ⟨es, hrest⟩ := ih ((undo dispose d).runOn w).2
    rw [undoAll, runOn_bind, runOn_outcome]
    cases hd : ((undo dispose d).runOn w).1 with
    | ok _ => exact ⟨es, hrest⟩
    | error e =>
      refine ⟨e :: es, ?_⟩
      simp only [runOn_bind, hrest]
      rfl

/-- Who gives an operation up undoes what it registered, the latest first, unless it is settled. -/
theorem runOn_abandon_each (dispose : Nat → Play Unit) (j o : Nat) (w : World) : (abandon dispose j o).runOn w =
    (.ok (), if ((w.engine j).operation o).isSettled then w
      else undoEach dispose ((w.engine j).operation o).disposers.reverse (w.relinquish j o)) := by
  rw [runOn_abandon]
  split
  · rfl
  · obtain ⟨es, hundo⟩ := runOn_undoAll dispose ((w.engine j).operation o).disposers.reverse (w.relinquish j o)
    rw [runOn_bind, hundo]
    rfl

theorem settled_relinquish {w : World} {i o : Nat} (hi : i < w.engines.size) (ho : o < (w.engine i).operations.size) :
    (((w.relinquish i o).engine i).operation o).isSettled = true := by
  unfold World.relinquish
  split
  · rename_i hs
    exact hs
  · rw [engine_modifyEngine_self hi, Engine.operation_modifyOperation, if_pos ⟨rfl, ho⟩]
    simp [Operation.isSettled]

theorem onward_abandon (fuel j o : Nat) (w : World) :
    Onward (w.relinquish j o) ((abandon (disposeWithin fuel) j o).runOn w).2 := by
  have hN := (Onward.drained (w.relinquish j o) j).toConduct
  have hwithin : ∀ d ∈ ((w.engine j).operation o).disposers, d.Within fun _ => True := fun d _ => by
    cases d <;> trivial
  have hbefore : Upholds (Onward (w.relinquish j o)) (w.relinquish j o) (w.relinquish j o) := ⟨rfl, .refl _⟩
  exact (keeps_abandon hN.toBearing (obeys_disposeWithin hN fuel) rfl hwithin hbefore).2.2

theorem ok_disposeNodes (dispose : Nat → Play Unit) (i : Nat) (xs : List NodeRef) (w : World) :
    ((disposeNodes dispose i xs).runOn w).1 = .ok () := by
  induction xs generalizing w with
  | nil => rfl
  | cons x xs ih =>
    rw [disposeNodes, List.forM_eq_forM, List.forM_cons, runOn_bind, runOn_bind, runOn_outcome]
    cases ((disposeNode dispose x).runOn w).1 with
    | ok _ => exact ih _
    | error e => exact ih _

/-- Whatever else is done on the way, all of the operations are settled in the end. -/
theorem settled_forM_abandon (fuel i : Nat) (os : List Nat) (w : World) (hi : i < w.engines.size) :
    Onward w ((os.forM (abandon (disposeWithin fuel) i)).runOn w).2 ∧ ∀ o ∈ os, o < (w.engine i).operations.size →
      ((((os.forM (abandon (disposeWithin fuel) i)).runOn w).2.engine i).operation o).isSettled = true := by
  induction os generalizing w with
  | nil => exact ⟨.refl w, fun o ho => absurd ho List.not_mem_nil⟩
  | cons k os ih =>
    have honward := onward_abandon fuel i k w
    have hok := congrArg Prod.fst (runOn_abandon_each (disposeWithin fuel) i k w)
    have hcons : ((k :: os).forM (abandon (disposeWithin fuel) i)).runOn w =
        (abandon (disposeWithin fuel) i k >>= fun _ => os.forM (abandon (disposeWithin fuel) i)).runOn w := rfl
    rw [hcons, runOn_bind]
    generalize (abandon (disposeWithin fuel) i k).runOn w = p at honward hok
    obtain ⟨out, v⟩ := p
    simp only at hok honward
    subst hok
    have hwv : Onward w v := (Onward.relinquish w i k).trans honward
    obtain ⟨hrest, hsettled⟩ := ih v (by rw [hwv.size]; exact hi)
    refine ⟨hwv.trans hrest, fun o ho hlt => ?_⟩
    rcases List.mem_cons.1 ho with rfl | ho
    · exact hrest.settled i o (honward.settled i o (settled_relinquish hi hlt))
    · exact hsettled o ho (Nat.lt_of_lt_of_le hlt (hwv.operations i))

end Play

namespace Trail

variable {i : Nat} {ms : List Mark} {due : List (Nat × Option String)} {w : World}

theorem settled (h : Trail i ms due w) {o : Nat} :
    ((w.engine i).operation o).isSettled = true ↔ Finished ms o ∨ GivenUp ms o := by
  rw [Operation.isSettled, Bool.or_eq_true, h.kept.1.finished, h.kept.1.abandoned]

/-- Once an engine is disposed of its operations are given up. -/
theorem abandonAll (h : Trail i ms [] w) (hc : .closed ∈ ms) (hi : i < w.engines.size) (fuel : Nat) (os : List Nat) :
    ∃ rest, Trail i (ms ++ rest) [] ((os.forM (abandon (disposeWithin fuel) i)).runOn w).2 ∧
      i < ((os.forM (abandon (disposeWithin fuel) i)).runOn w).2.engines.size ∧
      ∀ o ∈ os, o < (w.engine i).operations.size → Finished (ms ++ rest) o ∨ GivenUp (ms ++ rest) o := by
  have hC := (Extends.drained i ms 0).toConduct
  have hgiven : Extends i ms [] ((os.forM (abandon (disposeWithin fuel) i)).runOn w).2 := by
    refine Agrees.upholds (.of_forM fun o _ v s hv => ?_) (.of_trail h)
    refine keeps_abandon hC.toBearing (obeys_disposeWithin hC fuel) (by rw [hv.1]) (enrolled_operation hC.toBearing hv i o) ?_
    refine ⟨by rw [hv.1], hv.2.relinquish i o fun _ => ?_⟩
    obtain ⟨rest, hk, -⟩ := hv.2.kept
    exact hk.closed.2 (List.mem_append_left _ hc)
  obtain ⟨honward, hsettled⟩ := settled_forM_abandon fuel i os w hi
  obtain ⟨rest, ht, -⟩ := hgiven
  refine ⟨rest, ht, by rw [honward.size]; exact hi, fun o ho hlt => ?_⟩
  rw [← ht.settled]
  exact hsettled o ho hlt

/-- Then what is queued or was handed over is dropped, which no operation depends on. -/
theorem abandonAll_clear (h : Trail i ms [] w) (hc : .closed ∈ ms) (hi : i < w.engines.size) (fuel : Nat) (os : List Nat) :
    ∃ rest, Trail i (ms ++ rest) [] ((os.forM (abandon (disposeWithin fuel) i) >>= fun _ =>
        modify (·.modifyEngine i fun e => { e with queue := [], inbox := [] }) : Play Unit).runOn w).2 ∧
      ∀ o ∈ os, o < (w.engine i).operations.size → Finished (ms ++ rest) o ∨ GivenUp (ms ++ rest) o := by
  obtain ⟨rest, hgiven, hi, hsettled⟩ := h.abandonAll hc hi fuel os
  have hcleared := hgiven.clear hi (hgiven.kept.1.closed.2 (List.mem_append_left _ hc))
  refine ⟨rest, ?_, hsettled⟩
  rw [runOn_bind]
  generalize (os.forM (abandon (disposeWithin fuel) i)).runOn w = p at hgiven hcleared
  obtain ⟨out, v⟩ := p
  cases out with
  | ok _ => exact hcleared
  | error e => exact hgiven

/-- Who disposes of an engine gives up every operation that is under way, unless it is finished meanwhile. -/
theorem dispose (h : Trail i ms [] w) (hi : i < w.engines.size) (hd : .closed ∉ ms) :
    ∃ rest, Trail i (ms ++ rest) [] ((Play.dispose i).runOn w).2 ∧
      ∀ o ∈ (w.engine i).pending, Finished (ms ++ rest) o ∨ GivenUp (ms ++ rest) o := by
  have hopen : (w.engine i).isDisposed = false := by
    apply Bool.eq_false_iff.2
    rw [Ne, h.kept.1.closed]
    exact hd
  rw [Play.dispose, runOn_get, disposeWithin, runOn_get]
  simp only [hopen, Bool.false_eq_true, if_false]
  generalize w.engines.size = fuel
  rw [runOn_bind, runOn_modify]
  have hclosed := h.close hi hopen
  have hi₁ : i < (w.modifyEngine i fun e => { e with isDisposed := true }).engines.size := by simpa using hi
  have honward : Onward w (w.modifyEngine i fun e => { e with isDisposed := true }) :=
    Onward.modifyEngine w i (fun _ => rfl) (fun _ _ => rfl) (fun _ => rfl) fun _ => id
  generalize w.modifyEngine i (fun e => { e with isDisposed := true }) = u at hclosed hi₁ honward
  dsimp only
  -- The event nodes are disposed of, which takes no operation off the list.
  have hC := (Extends.drained i (ms ++ [Mark.closed]) 0).toConduct
  have hnodes : Extends i (ms ++ [Mark.closed]) [] ((disposeNodes (disposeWithin fuel) i (w.engine i).eventNodes).runOn u).2 :=
    (obeys_disposeEvents hC (.inr (engages_all i)) fuel _).upholds (.of_trail hclosed)
  have hN := (Onward.drained w i).toConduct
  have honward : Onward w ((disposeNodes (disposeWithin fuel) i (w.engine i).eventNodes).runOn u).2 :=
    (obeys_disposeEvents hN (.inr (engages_all i)) fuel _).upholds honward
  have hok := ok_disposeNodes (disposeWithin fuel) i (w.engine i).eventNodes u
  rw [runOn_bind]
  generalize (disposeNodes (disposeWithin fuel) i (w.engine i).eventNodes).runOn u = p at hnodes hok honward
  obtain ⟨out, v⟩ := p
  simp only at hok hnodes honward
  subst hok
  obtain ⟨rest, ht, hr⟩ := hnodes
  have hr := hr (by simp)
  have hi₂ : i < v.engines.size := by rw [honward.size]; exact hi
  have hreleased := ht.release hi₂ (ht.kept.1.closed.2 (by simp))
  dsimp only
  rw [runOn_get, runOn_bind, runOn_modify]
  have hi₃ : i < (v.modifyEngine i fun e => { e with pending := [] }).engines.size := by simpa using hi₂
  have hsame : ((v.modifyEngine i fun e => { e with pending := [] }).engine i).operations = (v.engine i).operations := by
    rw [engine_modifyEngine_self hi₂]
  generalize v.modifyEngine i (fun e => { e with pending := [] }) = s at hreleased hi₃ hsame
  dsimp only
  obtain ⟨more, hlast, hsettled⟩ := hreleased.abandonAll_clear (by simp) hi₃ fuel (v.engine i).pending
  rw [hsame] at hsettled
  have hmore {o : Nat} (ho : Finished (ms ++ [Mark.closed] ++ rest) o ∨ GivenUp (ms ++ [Mark.closed] ++ rest) o) :
      Finished (ms ++ [Mark.closed] ++ rest ++ [Mark.released] ++ more) o ∨
        GivenUp (ms ++ [Mark.closed] ++ rest ++ [Mark.released] ++ more) o := by
    rw [finished_append, finished_append, givenUp_append, givenUp_append]
    exact ho.imp (.inl ∘ .inl) (.inl ∘ .inl)
  have hmarks : ms ++ [Mark.closed] ++ rest ++ [Mark.released] ++ more = ms ++ ([Mark.closed] ++ rest ++ [Mark.released] ++ more) := by
    simp only [List.append_assoc]
  rw [hmarks] at hlast hmore hsettled
  refine ⟨_, hlast, fun o ho => ?_⟩
  have hstarted := (h.kept.1.listed o ho).1
  rcases ht.kept.1.unlisted o (by simp [hstarted]) with hpending | happlied | hfailed | hreleased
  · exact hsettled o hpending ((ht.kept.1.started o).1 (by simp [hstarted]))
  · exact hmore (.inl (ht.kept.1.finished_of_applied happlied))
  · exact hmore (ht.failed hfailed)
  · rw [List.mem_append, List.mem_append] at hreleased
    rcases hreleased with (hreleased | hreleased) | hreleased
    · obtain ⟨a, b, rfl, hbefore⟩ := h.kept.1.lawful.legal hreleased
      exact absurd (List.mem_append_left _ hbefore) hd
    · simp at hreleased
    · exact absurd hreleased hr

/-- An operation that fails to start is taken off the list and given up, unless it was finished meanwhile. -/
theorem startOperation (h : Trail i ms [] w) (hi : i < w.engines.size) {x : NodeRef} {input : String}
    {b : Option AsyncBehaviour} {e : Failure} {v : World}
    (hrun : (Play.startOperation i x input b).runOn w = (.error e, v)) :
    ∃ rest, Trail i (ms ++ rest) [] v ∧ .failed (w.engine i).operations.size ∈ rest := by
  have hstarted := h.start x input hi
  rw [Play.startOperation, runOn_get, runOn_bind, runOn_modify] at hrun
  have honward := Onward.register w i { node := x, input := input } [(w.engine i).operations.size]
  generalize w.modifyEngine i (fun e => { e with
    operations := e.operations.push { node := x, input := input }
    pending := e.pending ++ [(w.engine i).operations.size] }) = u at hstarted hrun honward
  generalize (w.engine i).operations.size = o at hstarted hrun ⊢
  dsimp only at hrun
  have hC := (Extends.drained i (ms ++ [Mark.started o]) 0).toConduct
  have hinvoked := (obeys_invoke_map hC x .startAsync b fun b => b.obeys_run (c := ⟨x, .async i o⟩) hC trivial).upholds
    (.of_trail hstarted)
  have hN := (Onward.drained w i).toConduct
  have honward := (obeys_invoke_map hN x .startAsync b fun b => b.obeys_run (c := ⟨x, .async i o⟩) hN trivial).upholds honward
  rw [runOn_bind, runOn_outcome] at hrun
  generalize (invoke x .startAsync (b.map fun b => b.run ⟨x, .async i o⟩)).runOn u = p at hinvoked honward hrun
  obtain ⟨out, s⟩ := p
  cases out with
  | ok _ => cases hrun
  | error e' =>
    obtain ⟨rest, ht, -⟩ := hinvoked
    have hi' : i < s.engines.size := by rw [honward.size]; exact hi
    have hfailed := ht.fail hi' ((ht.kept.1.started o).1 (by simp))
    have hgiven : Extends i (ms ++ [Mark.started o] ++ rest ++ [Mark.failed o] ++ s.giving i o) []
        ((abandon Play.dispose i o).runOn (s.strike i o)).2 := by
      have hC := (Extends.drained i (ms ++ [Mark.started o] ++ rest ++ [Mark.failed o] ++ s.giving i o) 0).toConduct
      have hdismissed : Upholds (Extends i (ms ++ [Mark.started o] ++ rest ++ [Mark.failed o] ++ s.giving i o) [])
          ((s.strike i o).relinquish i o) ((s.strike i o).relinquish i o) := ⟨rfl, .of_trail hfailed⟩
      have hwithin : ∀ d ∈ (((s.strike i o).engine i).operation o).disposers, d.Within fun _ => True := fun d _ => by
        cases d <;> trivial
      exact (keeps_abandon hC.toBearing (obeys_dispose hC) rfl hwithin hdismissed).2.2
    dsimp only at hrun
    rw [runOn_bind, runOn_modify] at hrun
    have hlast : (abandon Play.dispose i o >>= fun _ => throw e' : Play Unit).runOn (s.strike i o) = (.error e, v) := hrun
    rw [runOn_bind, runOn_abandon_each] at hlast
    rw [runOn_abandon_each] at hgiven
    cases hlast
    obtain ⟨more, ht', -⟩ := hgiven
    have hmarks : ms ++ [Mark.started o] ++ rest ++ [Mark.failed o] ++ s.giving i o ++ more =
        ms ++ ([Mark.started o] ++ rest ++ [Mark.failed o] ++ s.giving i o ++ more) := by
      simp only [List.append_assoc]
    rw [hmarks] at ht'
    exact ⟨_, ht', by simp⟩

end Trail

/-- Every operation is completed or given up at most once, as the marks tell. -/
structure Trail.Once (i : Nat) (ms : List Mark) (due : List (Nat × Option String)) (w : World) : Prop where
  lawful : Lawful ms
  pending : .closed ∉ ms → ∀ o, o ∈ (w.engine i).pending ↔
    .started o ∈ ms ∧ .applied o ∉ ms ∧ .failed o ∉ ms ∧ ¬ GivenUp ms o
  atOnce : ∀ o output, .finished o output false ∈ ms → .applied o ∈ ms
  /-- The calls to finish from other threads are applied in their order. -/
  order : .closed ∉ ms → ∃ done, posted ms = done ++ (due ++ (w.engine i).completions) ∧
    (∀ p ∈ done, .applied p.1 ∈ ms) ∧ ∀ p ∈ due ++ (w.engine i).completions, .applied p.1 ∉ ms
  failed : ∀ o, .failed o ∈ ms → Finished ms o ∨ GivenUp ms o
  /-- Once an operation is finished or given up, another call to finish and giving it up have no effect. -/
  settled : ∀ o, Finished ms o ∨ GivenUp ms o → (∀ output fromOutside, w.finishOperation i o output fromOutside = w) ∧
    ∀ dispose, (abandon dispose i o).runOn w = (.ok (), w)
  /-- Before that, who gives it up undoes what it has registered so far, each once and the latest first. -/
  undone : ∀ o, ¬ (Finished ms o ∨ GivenUp ms o) → ∀ dispose, (abandon dispose i o).runOn w =
    (.ok (), undoEach dispose (enrolledOf o ms).reverse (w.relinquish i o))

/-- Whatever is done goes along the trail. Who disposes of the engine gives up what is under way, and so does a start that
fails. -/
structure Trail.Goes (i : Nat) (ms : List Mark) (w : World) : Prop where
  deed : ∀ v, Deed w v → ∃ rest, Trail i (ms ++ rest) [] v
  run : ∀ j maxSteps maxSeconds, ∃ rest, Trail i (ms ++ rest) [] ((Play.run j maxSteps maxSeconds).runOn w).2
  dispose : i < w.engines.size → .closed ∉ ms → ∃ rest, Trail i (ms ++ rest) [] ((Play.dispose i).runOn w).2 ∧
    ∀ o ∈ (w.engine i).pending, Finished (ms ++ rest) o ∨ GivenUp (ms ++ rest) o
  start : i < w.engines.size → ∀ x input b e v, (Play.startOperation i x input b).runOn w = (.error e, v) →
    ∃ rest, Trail i (ms ++ rest) [] v ∧ .failed (w.engine i).operations.size ∈ rest

/-- Asynchronous operations are completed once, whatever the order of calls to finish, starts that fail, drains and
disposal. -/
theorem Trail.completed_once {i : Nat} {ms : List Mark} {due : List (Nat × Option String)} {w : World}
    (h : Trail i ms due w) : Once i ms due w ∧ (due = [] → Goes i ms w) := by
  obtain ⟨hk, hw⟩ := h.kept
  refine ⟨⟨hk.lawful, fun hd o => hk.pending hd, hw.atOnce, fun hd => ?_, fun o => h.failed, fun o hs => ?_, fun o hs => ?_⟩, ?_⟩
  · obtain ⟨done, heq, hdone⟩ := hw.order hd
    exact ⟨done, heq, hdone, fun p hp => (hw.unapplied p hp).2⟩
  · have hsettled := h.settled.2 hs
    refine ⟨fun output fromOutside => ?_, fun dispose => ?_⟩
    · rw [World.finishOperation]
      simp only [Operation.isSettled, Bool.or_eq_true] at hsettled
      rw [if_pos]
      simp only [Bool.or_eq_true]
      exact hsettled.elim .inr fun ha => .inl (.inr ha)
    · rw [runOn_abandon, if_pos hsettled]
  · intro dispose
    rw [runOn_abandon_each, if_neg fun hsettled => hs (h.settled.1 hsettled), hk.disposers o fun hg => hs (.inr hg)]
  · rintro rfl
    refine ⟨fun v hv => ?_, fun j maxSteps maxSeconds => ?_, h.dispose, fun hi x input b e v => h.startOperation hi⟩
    · obtain ⟨rest, ht, -⟩ := (Extends.of_trail h).deed hv
      exact ⟨rest, ht⟩
    · obtain ⟨rest, ht, -⟩ := (obeys_run (Extends.drained i ms j) maxSteps maxSeconds).upholds (.of_trail h)
      exact ⟨rest, ht⟩

namespace Rendezvous

def node : Node where
  id := "wait"
  definition := { typeName := "Wait", behaviour := .async (some (.script [])) }
  inputs := [{ name := "exec", valueType := ValueType.flowName }]
  outputs := [{ name := "left", valueType := ValueType.flowName }, { name := "right", valueType := ValueType.flowName }]

def bare : World where
  graphs := #[{ arena := #[node], ids := ⟨[("wait", 0)]⟩ }]
  engines := #[{ nodes := [⟨0, 0⟩] }]

def start (w : World) : World :=
  w.modifyEngine 0 fun e => { e with
    operations := e.operations.push { node := ⟨0, 0⟩, input := "exec" }
    pending := e.pending ++ [(w.engine 0).operations.size] }

def post (w : World) (o : Nat) (output : Option String) : World := (w.markFinished 0 o).post 0 (.complete o output)

def pair : World := start (start bare)

/-- The two operations of the node are finished in the other order, one of them at an output that it names. -/
def posted : World := post (post pair 1 (some "right")) 0 none

def collected : World := posted.modifyEngine 0 fun e => { e with inbox := [] }

def chosen : World := ((collected.strike 0 1).chooseOutput ⟨0, 0⟩ (some "right")).1

/-- The completion of the second operation is applied, that of the first is not. -/
def halfway : World := (chosen.begin 0 ⟨0, 0⟩ "right" none []).tellEnded 0 ⟨0, 0⟩

def marks : List Mark := [.started 0, .started 1, .finished 1 (some "right") true, .finished 0 none true, .applied 1,
  .continued 1 "right" ["left", "right"]]

theorem trail_halfway : Trail 0 marks [(0, none)] halfway := by
  have hpair : Trail 0 [.started 0, .started 1] [] pair :=
    ((Trail.fresh (w := bare) rfl rfl rfl rfl).start ⟨0, 0⟩ "exec" (by decide)).start ⟨0, 0⟩ "exec" (by decide)
  have hposted : Trail 0 [.started 0, .started 1, .finished 1 (some "right") true, .finished 0 none true] [] posted :=
    (hpair.post (o := 1) (some "right") (by decide) (by decide) (by decide)).post (o := 0) none (by decide) (by decide)
      (by decide)
  have hcollected : Trail 0 [.started 0, .started 1, .finished 1 (some "right") true, .finished 0 none true]
      [(1, some "right"), (0, none)] collected := hposted.collect (by decide)
  have hchosen : (collected.strike 0 1).chooseOutput ⟨0, 0⟩ (some "right") = (chosen, .ok "right") := rfl
  have happlied : Applied 0 1 (some "right") collected [.continued 1 "right" ["left", "right"]] halfway :=
    @Applied.continued 0 1 (some "right") collected ⟨0, 0⟩ chosen "right" rfl rfl hchosen
  exact hcollected.apply (by decide) happlied

end Rendezvous

open Rendezvous in
/-- Halfway only the first operation is under way, and to finish the second one again changes nothing. -/
theorem Trail.completed_once_halfway : (∀ o, o ∈ (halfway.engine 0).pending ↔ o = 0) ∧
    ∀ output fromOutside, halfway.finishOperation 0 1 output fromOutside = halfway := by
  obtain ⟨honce, -⟩ := Trail.completed_once trail_halfway
  refine ⟨fun o => ?_, (honce.settled 1 (.inl ⟨some "right", true, by simp [marks]⟩)).1⟩
  rw [honce.pending (by simp [marks]) o]
  simp [marks, GivenUp]
  omega

end FlowGraph
