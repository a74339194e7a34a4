import FlowGraph.Proofs.Marks

/-!
The ways of the operations of an engine. A trail goes from world to world by what may happen to the operations, in any
order, and leaves a mark for each; at every point of it the marks tell the state of the operations.
-/
namespace FlowGraph

open World

/-- What other threads finished, as the inbox holds it. -/
def Post.completion? : Post → Option (Nat × Option String)
  | .complete o output => some (o, output)
  | .begin .. => none

def Engine.completions (e : Engine) : List (Nat × Option String) := e.inbox.filterMap Post.completion?

/-- Nothing changes for the operations of an engine. -/
structure Engine.Aside (e e' : Engine) : Prop where
  operations : e'.operations = e.operations
  pending : e'.pending = e.pending
  isDisposed : e'.isDisposed = e.isDisposed
  completions : e'.completions = e.completions

def World.markFinished (w : World) (i o : Nat) : World :=
  w.modifyEngine i (·.modifyOperation o fun op => { op with isFinished := true })

/-- The mark that is left when an operation is given up, unless it is finished or given up already. -/
def World.giving (w : World) (i o : Nat) : List Mark :=
  if ((w.engine i).operation o).isSettled then [] else [.gaveUp o ((w.engine i).operation o).disposers]

/-- The completion of an operation is applied, which leaves the mark for it and, if it goes on, one for the path behind. -/
inductive Applied (i o : Nat) (output : Option String) (w : World) : List Mark → World → Prop where
  | ignored : ((w.engine i).isDisposed || ((w.engine i).operation o).isAbandoned) = true →
      Applied i o output w [] (w.strike i o)
  | refused {x : NodeRef} {v : World} {e : Failure} : x = ((w.engine i).operation o).node →
      ((w.engine i).isDisposed || ((w.engine i).operation o).isAbandoned) = false →
      (w.strike i o).chooseOutput x output = (v, .error e) → Applied i o output w [] (v.report i e)
  | continued {x : NodeRef} {v : World} {name : String} : x = ((w.engine i).operation o).node →
      ((w.engine i).isDisposed || ((w.engine i).operation o).isAbandoned) = false →
      (w.strike i o).chooseOutput x output = (v, .ok name) →
      Applied i o output w [.continued o name ((w.node x).flowOutputs.map (·.name))]
        ((v.begin i x name none []).tellEnded i x)

/-- The marks that are left on the way to a world, and the completions that were taken out of the inbox but not applied
yet. Whatever concerns no operation may happen in between. -/
inductive Trail (i : Nat) : List Mark → List (Nat × Option String) → World → Prop where
  | fresh {w : World} : (w.engine i).operations = #[] → (w.engine i).pending = [] → (w.engine i).completions = [] →
      (w.engine i).isDisposed = false → Trail i [] [] w
  | aside {ms : List Mark} {due : List (Nat × Option String)} {w v : World} : Trail i ms due w →
      (w.engine i).Aside (v.engine i) → Trail i ms due v
  | start {ms : List Mark} {due : List (Nat × Option String)} {w : World} (x : NodeRef) (input : String) :
      Trail i ms due w → i < w.engines.size → Trail i (ms ++ [.started (w.engine i).operations.size]) due
        (w.modifyEngine i fun e => { e with
          operations := e.operations.push { node := x, input := input }
          pending := e.pending ++ [(w.engine i).operations.size] })
  | enrol {ms : List Mark} {due : List (Nat × Option String)} {w : World} {o : Nat} (d : Disposer) :
      Trail i ms due w → i < w.engines.size → o < (w.engine i).operations.size →
      Trail i (ms ++ [.enrolled o d]) due
        (w.modifyEngine i (·.modifyOperation o fun op => { op with disposers := op.disposers ++ [d] }))
  | finish {ms rest : List Mark} {due : List (Nat × Option String)} {w v : World} {o : Nat} {output : Option String} :
      Trail i ms due w → i < w.engines.size → o < (w.engine i).operations.size →
      ((w.engine i).operation o).isSettled = false → Applied i o output (w.markFinished i o) rest v →
      Trail i (ms ++ [.finished o output false] ++ [.applied o] ++ rest) due v
  | post {ms : List Mark} {due : List (Nat × Option String)} {w : World} {o : Nat} (output : Option String) :
      Trail i ms due w → i < w.engines.size → o < (w.engine i).operations.size →
      ((w.engine i).operation o).isSettled = false →
      Trail i (ms ++ [.finished o output true]) due ((w.markFinished i o).post i (.complete o output))
  | collect {ms : List Mark} {w : World} : Trail i ms [] w → i < w.engines.size →
      Trail i ms (w.engine i).completions (w.modifyEngine i fun e => { e with inbox := [] })
  | apply {ms rest : List Mark} {due : List (Nat × Option String)} {w v : World} {o : Nat} {output : Option String} :
      Trail i ms ((o, output) :: due) w → i < w.engines.size → Applied i o output w rest v →
      Trail i (ms ++ [.applied o] ++ rest) due v
  | fail {ms : List Mark} {due : List (Nat × Option String)} {w : World} {o : Nat} : Trail i ms due w →
      i < w.engines.size → o < (w.engine i).operations.size →
      Trail i (ms ++ [.failed o] ++ w.giving i o) due (w.dismiss i o)
  | relinquish {ms : List Mark} {due : List (Nat × Option String)} {w : World} {o : Nat} : Trail i ms due w →
      i < w.engines.size → o < (w.engine i).operations.size → (w.engine i).isDisposed = true →
      Trail i (ms ++ w.giving i o) due (w.relinquish i o)
  | close {ms : List Mark} {due : List (Nat × Option String)} {w : World} : Trail i ms due w → i < w.engines.size →
      (w.engine i).isDisposed = false →
      Trail i (ms ++ [.closed]) due (w.modifyEngine i fun e => { e with isDisposed := true })
  | release {ms : List Mark} {due : List (Nat × Option String)} {w : World} : Trail i ms due w → i < w.engines.size →
      (w.engine i).isDisposed = true →
      Trail i (ms ++ [.released]) due (w.modifyEngine i fun e => { e with pending := [] })
  | clear {ms : List Mark} {due : List (Nat × Option String)} {w : World} : Trail i ms due w → i < w.engines.size →
      (w.engine i).isDisposed = true →
      Trail i ms due (w.modifyEngine i fun e => { e with queue := [], inbox := [] })

namespace Engine.Aside

variable {e e' e'' : Engine}

theorem trans (h : e.Aside e') (h' : e'.Aside e'') : e.Aside e'' :=
  ⟨h'.operations.trans h.operations, h'.pending.trans h.pending, h'.isDisposed.trans h.isDisposed,
    h'.completions.trans h.completions⟩

theorem of_face (h : e'.face = e.face) : e.Aside e' :=
  ⟨(congrArg Engine.operations h :), (congrArg Engine.pending h :), (congrArg Engine.isDisposed h :),
    (congrArg Engine.completions h :)⟩

theorem of_local {w v : World} {j : Nat} (h : Local j w v) (i : Nat) : (w.engine i).Aside (v.engine i) :=
  of_face (h.face i)

theorem of_engines {w v : World} (h : v.engines = w.engines) (i : Nat) : (w.engine i).Aside (v.engine i) := by
  rw [engine_congr h]
  exact ⟨rfl, rfl, rfl, rfl⟩

end Engine.Aside

theorem World.completions_modifyEngine (w : World) (j k : Nat) {g : Engine → Engine} (hg : ∀ e, (g e).inbox = e.inbox) :
    ((w.modifyEngine j g).engine k).completions = (w.engine k).completions := by
  rw [engine_modifyEngine]
  split
  · rw [Engine.completions, hg]
    rfl
  · rfl

theorem World.completions_markFinished (w : World) (i o k : Nat) :
    ((w.markFinished i o).engine k).completions = (w.engine k).completions :=
  w.completions_modifyEngine i (g := (·.modifyOperation o fun op => { op with isFinished := true })) k fun _ => rfl

/-- An operation goes on at the output that its call to finish named, or else at the first one. -/
theorem World.chooseOutput_ok {w v : World} {x : NodeRef} {output : Option String} {name : String}
    (h : w.chooseOutput x output = (v, .ok name)) :
    output.or ((w.node x).flowOutputs.map (·.name)).head? = some name := by
  unfold chooseOutput at h
  cases output with
  | some named =>
    simp only [Option.isNone_some, Bool.false_eq_true, if_false] at h
    split at h
    · obtain ⟨-, h⟩ := Prod.mk.inj h
      exact congrArg some (Except.ok.inj h)
    · cases (Prod.mk.inj h).2
  | none =>
    simp only [Option.isNone_none, if_true] at h
    have hn : ((w.modifyNode x fun n => { n with lastOutput := none }).node x).lastOutput = none ∧
        ((w.modifyNode x fun n => { n with lastOutput := none }).node x).flowOutputs = (w.node x).flowOutputs := by
      rw [node_modifyNode]
      split
      · exact ⟨rfl, rfl⟩
      · rename_i hx
        have hnone : (w.graph x.graph).nodeAt? x.serial = none := by simpa using hx
        rw [World.node, hnone]
        exact ⟨rfl, rfl⟩
    simp only [outputOf, hn.1, hn.2] at h
    cases hf : (w.node x).flowOutputs with
    | nil =>
      rw [hf] at h
      cases (Prod.mk.inj h).2
    | cons s rest =>
      rw [hf] at h
      simp only at h
      split at h
      · obtain ⟨-, h⟩ := Prod.mk.inj h
        exact congrArg some (Except.ok.inj h)
      · cases (Prod.mk.inj h).2

namespace Applied

variable {i o : Nat} {output : Option String} {ms rest : List Mark} {w v : World}

open Trail

/-- Besides taking the operation off the list, a completion changes nothing for the operations. -/
theorem aside (h : Applied i o output w rest v) : ((w.strike i o).engine i).Aside (v.engine i) := by
  cases h with
  | ignored => exact ⟨rfl, rfl, rfl, rfl⟩
  | refused hx hopen hchosen =>
    have he := engines_chooseOutput (w.strike i o) ((w.engine i).operation o).node output
    rw [← hx, hchosen] at he
    exact (Engine.Aside.of_engines he i).trans (.of_local (.report ..) i)
  | continued hx hopen hchosen =>
    have he := engines_chooseOutput (w.strike i o) ((w.engine i).operation o).node output
    rw [← hx, hchosen] at he
    exact ((Engine.Aside.of_engines he i).trans (.of_local (.begin ..) i)).trans (.of_engines (engines_tell ..) i)

theorem not_failed (h : Applied i o output w rest v) (k : Nat) : .failed k ∉ rest := by
  cases h <;> simp

theorem not_released (h : Applied i o output w rest v) : .released ∉ rest := by
  cases h <;> simp

theorem completions (h : Applied i o output w rest v) : (v.engine i).completions = (w.engine i).completions :=
  h.aside.completions.trans
    (w.completions_modifyEngine i (g := fun e => { e with pending := e.pending.erase o }) i fun _ => rfl)

/-- The marks stay in order when an operation is applied. -/
theorem kept (h : Applied i o output w rest v) (hi : i < w.engines.size) (hk : Kept ms (w.engine i)) {fromOutside : Bool}
    (hf : .finished o output fromOutside ∈ ms) (ha : .applied o ∉ ms) :
    Kept (ms ++ [Mark.applied o] ++ rest) (v.engine i) := by
  have happlied := hk.apply ⟨output, fromOutside, hf⟩ ha
  have hstruck : (w.strike i o).engine i = { w.engine i with pending := (w.engine i).pending.erase o } :=
    engine_modifyEngine_self hi _
  rw [← hstruck] at happlied
  refine Kept.congr ?_ h.aside.operations h.aside.pending h.aside.isDisposed
  cases h with
  | ignored => simpa using happlied
  | refused => simpa using happlied
  | continued hx hopen hchosen =>
    simp only [Bool.or_eq_false_iff] at hopen
    have hnamed : output.or ((w.node _).flowOutputs.map (·.name)).head? = some _ :=
      chooseOutput_ok (w := w.strike i o) hchosen
    refine happlied.continues (hk.not_continued ha) ?_ ?_ hf hnamed
    · rw [hstruck]
      exact hopen.1
    · rw [hstruck]
      exact hopen.2

end Applied

namespace Trail

variable {i : Nat} {ms : List Mark} {due : List (Nat × Option String)} {w v : World}

theorem Awaited.rest {rest : List Mark} {waiting : List (Nat × Option String)} {o : Nat} {output : Option String}
    (h : Awaited ms waiting) (ha : Applied i o output w rest v) : Awaited (ms ++ rest) waiting := by
  cases ha with
  | ignored => simpa using h
  | refused => simpa using h
  | continued => exact h.silent (by simp) (by simp)

theorem kept_giving {o : Nat} (hk : Kept ms (w.engine i)) (hw : Awaited ms (due ++ (w.engine i).completions))
    (hi : i < w.engines.size) (ho : o < (w.engine i).operations.size) (hwhy : .failed o ∈ ms ∨ .closed ∈ ms) :
    Kept (ms ++ w.giving i o) ((w.relinquish i o).engine i) ∧
      Awaited (ms ++ w.giving i o) (due ++ ((w.relinquish i o).engine i).completions) := by
  unfold World.giving World.relinquish
  split
  · rw [List.append_nil]
    exact ⟨hk, hw⟩
  · rename_i hs
    rw [engine_modifyEngine_self hi]
    exact ⟨hk.giveUp ho (Bool.eq_false_iff.2 hs) hwhy, hw.silent (by simp) (by simp)⟩

/-- The marks tell the state of the operations at every point of a trail. -/
theorem kept (h : Trail i ms due w) : Kept ms (w.engine i) ∧ Awaited ms (due ++ (w.engine i).completions) := by
  induction h with
  | fresh ho hp hc hd =>
    refine ⟨.fresh ho hp hd, ?_⟩
    rw [hc]
    exact .fresh
  | aside _ ha ih =>
    obtain ⟨hk, hw⟩ := ih
    refine ⟨hk.congr ha.operations ha.pending ha.isDisposed, ?_⟩
    rw [ha.completions]
    exact hw
  | start x input _ hi ih =>
    obtain ⟨hk, hw⟩ := ih
    rw [engine_modifyEngine_self hi]
    exact ⟨hk.start x input, hw.silent (by simp) (by simp)⟩
  | enrol d _ hi ho ih =>
    obtain ⟨hk, hw⟩ := ih
    rw [engine_modifyEngine_self hi]
    exact ⟨hk.enrol ho d, hw.silent (by simp) (by simp)⟩
  | @finish ms rest due w v o output _ hi ho hs ha ih =>
    obtain ⟨hk, hw⟩ := ih
    have hf := hk.not_finished hs
    have hmarked : (w.markFinished i o).engine i =
        (w.engine i).modifyOperation o fun op => { op with isFinished := true } := engine_modifyEngine_self hi _
    have hk' := hk.finish ho hs output false
    rw [← hmarked] at hk'
    have hi' : i < (w.markFinished i o).engines.size := by simpa [markFinished] using hi
    refine ⟨ha.kept hi' hk' (List.mem_append_right _ List.mem_cons_self) ?_, ?_⟩
    · simpa using hk.not_applied hf
    · have hw' := (hw.finish hf output).rest ha
      rwa [ha.completions, completions_markFinished]
  | @post ms due w o output _ hi ho hs ih =>
    obtain ⟨hk, hw⟩ := ih
    have hf := hk.not_finished hs
    have hposted : ((w.markFinished i o).post i (.complete o output)).engine i =
        { ((w.engine i).modifyOperation o fun op => { op with isFinished := true }) with
          inbox := (w.engine i).inbox ++ [Post.complete o output] : Engine }.notify := by
      rw [World.post, engine_modifyEngine_self (by simpa [markFinished] using hi), markFinished,
        engine_modifyEngine_self hi]
      rfl
    have hw' := hw.post hf (hk.not_applied hf) output
    rw [hposted]
    refine ⟨(hk.finish ho hs output true).congr rfl rfl rfl, ?_⟩
    simpa [Engine.completions, Engine.notify, Engine.modifyOperation, Post.completion?] using hw'
  | collect _ hi ih =>
    obtain ⟨hk, hw⟩ := ih
    rw [engine_modifyEngine_self hi]
    refine ⟨hk.congr rfl rfl rfl, ?_⟩
    simpa [Engine.completions] using hw
  | @apply ms rest due w v o output _ hi ha ih =>
    obtain ⟨hk, hw⟩ := ih
    obtain ⟨hfinished, hunapplied⟩ := hw.unapplied (o, output) List.mem_cons_self
    refine ⟨ha.kept hi hk hfinished hunapplied, ?_⟩
    have hw' := (Awaited.apply hw).rest ha
    rwa [ha.completions]
  | @fail ms due w o _ hi ho ih =>
    obtain ⟨hk, hw⟩ := ih
    have hstruck : (w.strike i o).engine i = { w.engine i with pending := (w.engine i).pending.erase o } :=
      engine_modifyEngine_self hi _
    have hi' : i < (w.strike i o).engines.size := by simpa [strike] using hi
    have hgiving : w.giving i o = (w.strike i o).giving i o := by
      rw [giving, giving, operation_strike]
    have hk' := hk.fail ho
    rw [← hstruck] at hk'
    have hw' : Awaited (ms ++ [Mark.failed o]) (due ++ ((w.strike i o).engine i).completions) := by
      rw [hstruck]
      exact hw.silent (by simp) (by simp)
    rw [hgiving]
    exact kept_giving hk' hw' hi' (by rw [hstruck]; exact ho) (.inl (by simp))
  | relinquish _ hi ho hd ih =>
    obtain ⟨hk, hw⟩ := ih
    exact kept_giving hk hw hi ho (.inr (hk.closed.1 hd))
  | close _ hi hd ih =>
    obtain ⟨hk, hw⟩ := ih
    rw [engine_modifyEngine_self hi]
    exact ⟨hk.close hd, hw.silent (by simp) (by simp)⟩
  | release _ hi hd ih =>
    obtain ⟨hk, hw⟩ := ih
    rw [engine_modifyEngine_self hi]
    exact ⟨hk.release hd, hw.silent (by simp) (by simp)⟩
  | clear _ hi hd ih =>
    obtain ⟨hk, hw⟩ := ih
    rw [engine_modifyEngine_self hi]
    exact ⟨hk.congr rfl rfl rfl, hw.forget (hk.closed.1 hd) (by simp [Engine.completions])⟩

theorem not_failed_giving (w : World) (i k o : Nat) : .failed o ∉ w.giving i k := by
  unfold World.giving
  split <;> simp

/-- An operation that failed to start is settled: it was finished before, or it is given up. -/
theorem failed (h : Trail i ms due w) {o : Nat} (hm : .failed o ∈ ms) : Finished ms o ∨ GivenUp ms o := by
  have hmore {ms ms' : List Mark} (h : Finished ms o ∨ GivenUp ms o) : Finished (ms ++ ms') o ∨ GivenUp (ms ++ ms') o := by
    simp only [finished_append, givenUp_append]
    exact h.imp .inl .inl
  induction h with
  | fresh => cases hm
  | aside _ _ ih => exact ih hm
  | start _ _ _ _ ih => exact hmore (ih (by simpa using hm))
  | enrol _ _ _ _ ih => exact hmore (ih (by simpa using hm))
  | finish _ _ _ _ ha ih =>
    have hrest := ha.not_failed o
    exact hmore (hmore (hmore (ih (by simpa [hrest] using hm))))
  | post _ _ _ _ _ ih => exact hmore (ih (by simpa using hm))
  | collect _ _ ih => exact ih hm
  | apply _ _ ha ih =>
    have hrest := ha.not_failed o
    exact hmore (hmore (ih (by simpa [hrest] using hm)))
  | @fail ms due w k ht _ _ ih =>
    rw [List.mem_append, List.mem_append, List.mem_singleton] at hm
    rcases hm with (hm | hm) | hm
    · exact hmore (hmore (ih hm))
    · obtain rfl : o = k := by simpa using hm
      unfold World.giving
      split
      · rename_i hs
        rw [Operation.isSettled, Bool.or_eq_true, ht.kept.1.finished, ht.kept.1.abandoned] at hs
        exact hmore (hmore hs)
      · exact .inr ⟨_, List.mem_append_right _ List.mem_cons_self⟩
    · exact absurd hm (not_failed_giving w i k o)
  | @relinquish ms due w k _ _ _ _ ih =>
    rcases List.mem_append.1 hm with hm | hm
    · exact hmore (ih hm)
    · exact absurd hm (not_failed_giving w i k o)
  | close _ _ _ ih => exact hmore (ih (by simpa using hm))
  | release _ _ _ ih => exact hmore (ih (by simpa using hm))
  | clear _ _ _ ih => exact ih hm

end Trail

end FlowGraph
