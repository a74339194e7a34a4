import FlowGraph.Proofs.Evaluation

/-!
Main statement: if the function nodes above a node do not draw on each other in a round, and each computes a function of
what its inputs hold, then resolving the inputs of the node comes to what the reference evaluation says, and touches
nothing but the inputs of the node and the sockets of those function nodes.
-/
namespace FlowGraph

open World Play Relation

/-- From `u` to `w` the inputs in `S` and the outputs in `T` may have changed what they hold. -/
structure World.Touches (j : Nat) (S T : Nat → Nat → Prop) (u w : World) : Prop where
  around : Around j u w
  inputs : ∀ k p, ¬ S k p → w.inputValue ⟨j, k⟩ p = u.inputValue ⟨j, k⟩ p
  outputs : ∀ k p, ¬ T k p → w.outputValue ⟨j, k⟩ p = u.outputValue ⟨j, k⟩ p

/-- A function node fails, or makes a function of what its data inputs hold and writes every data output. What else
it reads, the configuration, the variables of the graph and the services of the host, is as it is in `u`. -/
structure Computes (u : World) (j k : Nat) (F : Meaning) : Prop where
  fails : ∀ w, Around j u w → F (w.inputValues ⟨j, k⟩) (w.labels j) = none →
    ∃ e, ((compute ⟨j, k⟩).runOn w).1 = .error e
  gives : ∀ w, Around j u w → ∀ outputs n, F (w.inputValues ⟨j, k⟩) (w.labels j) = some (outputs, n) →
    ((compute ⟨j, k⟩).runOn w).1 = .ok () ∧ ((compute ⟨j, k⟩).runOn w).2.labels j = n ∧
      ∀ p, u.isDataOutput ⟨j, k⟩ p = true → ((compute ⟨j, k⟩).runOn w).2.outputValue ⟨j, k⟩ p = outputs p
  touches : ∀ w, Around j u w → Touches j (fun _ _ => False) (fun l p => l = k ∧ u.isDataOutput ⟨j, k⟩ p = true) w
    ((compute ⟨j, k⟩).runOn w).2
  silent : ∀ w, Around j u w → ((compute ⟨j, k⟩).runOn w).2.reports = w.reports
  ascends : ∀ values n outputs n', F values n = some (outputs, n') → n ≤ n'

namespace World.Touches

variable {j : Nat} {S T : Nat → Nat → Prop} {u v w : World}

theorem refl (u : World) : Touches j S T u u := ⟨.refl j u, fun _ _ _ => rfl, fun _ _ _ => rfl⟩

theorem trans (h : Touches j S T u v) (h' : Touches j S T v w) : Touches j S T u w :=
  ⟨h.around.trans h'.around, fun k p hS => (h'.inputs k p hS).trans (h.inputs k p hS),
    fun k p hT => (h'.outputs k p hT).trans (h.outputs k p hT)⟩

theorem mono {S' T' : Nat → Nat → Prop} (h : Touches j S T u w) (hS : ∀ k p, S k p → S' k p)
    (hT : ∀ k p, T k p → T' k p) : Touches j S' T' u w :=
  ⟨h.around, fun k p hno => h.inputs k p fun hyes => hno (hS k p hyes),
    fun k p hno => h.outputs k p fun hyes => hno (hT k p hyes)⟩

theorem tell (h : Touches j S T u w) (i : Nat) (e : String → Event) : Touches j S T u (w.tell i e) :=
  ⟨h.around.trans (.tell w i e), fun k p hS => (inputValue_tell ..).trans (h.inputs k p hS),
    fun k p hT => (outputValue_tell ..).trans (h.outputs k p hT)⟩

theorem stamp (h : Touches j S T u w) (v : Value) : Touches j S T u (w.stamp j v).2 :=
  ⟨h.around.trans (.stamp w v), fun k p hS => (inputValue_stamp ..).trans (h.inputs k p hS),
    fun k p hT => (outputValue_stamp ..).trans (h.outputs k p hT)⟩

theorem setInput (h : Touches j S T u w) {k p : Nat} (hS : S k p) (v : Value) :
    Touches j S T u (w.modifyNode ⟨j, k⟩ (·.setInput p v)) := by
  refine ⟨h.around.trans (.modifyNode w k fun n => Node.emptied_setInput n p v), ?_, ?_⟩
  · intro l q hno
    rw [inputValue_setInput_of_ne, h.inputs l q hno]
    by_contra hsame
    simp only [ne_eq, NodeRef.mk.injEq, true_and, not_or, not_not] at hsame
    exact hno (hsame.1 ▸ hsame.2 ▸ hS)
  · intro l q hno
    rw [outputValue_setInput, h.outputs l q hno]

end World.Touches

/-- What a computation may touch, it touches at most. -/
abbrev Touching (j : Nat) (S T : Nat → Nat → Prop) (u : World) {α : Type} (x : Play α) : Prop :=
  Obeys (Upholds (Touches j S T u)) x

section Frame

variable {i j : Nat} {S T : Nat → Nat → Prop} {u : World}

theorem touching_tell (e : String → Event) : Touching j S T u (modify (·.tell i e)) :=
  .of_modify fun _ _ h => ⟨by rw [h.1], h.2.tell i e⟩

theorem touching_stamp (v : Value) : Touching j S T u (Play.stamp j v) := by
  rintro w _ ⟨rfl, h⟩
  exact ⟨rfl, rfl, h.stamp v⟩

theorem touching_setInput {k p : Nat} (hS : S k p) (v : Value) :
    Touching j S T u (modify (·.modifyNode ⟨j, k⟩ (·.setInput p v))) :=
  .of_modify fun _ _ h => ⟨by rw [h.1], h.2.setInput hS v⟩

theorem touching_fillInput {k p : Nat} (hS : S k p) (s : Socket) : Touching j S T u (fillInput i ⟨j, k⟩ p s) := by
  unfold fillInput
  split
  · refine .look ?_
    rintro w _ ⟨rfl, -⟩
    refine (Agrees.of_integrity _).bind fun t => (touching_stamp _).bind fun v => (touching_setInput hS v).bind fun _ => ?_
    refine .look ?_
    rintro w _ ⟨rfl, -⟩
    exact touching_tell _
  · exact .of_pure _

theorem touching_pullAcross {k p : Nat} (hS : S k p) (s : Socket) (source : End) :
    Touching j S T u (pullAcross ⟨j, k⟩ p s source) := by
  refine .look ?_
  rintro w _ ⟨rfl, -⟩
  exact (Agrees.of_except _).bind fun v => (touching_stamp v).bind fun v => touching_setInput hS v

theorem touching_compute {u₀ : World} {k : Nat} {F : Meaning} (hF : Computes u₀ j k F) (hu : Around j u₀ u)
    (hT : ∀ p, u₀.isDataOutput ⟨j, k⟩ p = true → T k p) : Touching j S T u (compute ⟨j, k⟩) := by
  rintro w _ ⟨rfl, h⟩
  refine ⟨rfl, rfl, h.trans ((hF.touches w (hu.trans h.around)).mono ?_ ?_)⟩
  · exact fun _ _ h => h.elim
  · rintro _ p ⟨rfl, hp⟩
    exact hT p hp

end Frame

section Resolving

variable {i j : Nat} {g : Graph} {u₀ : World} {F : Nat → Meaning}

theorem World.Around.shape (hg : Shaped j g u₀) {w : World} (h : Around j u₀ w) : Shaped j g w :=
  h.shaped.trans hg

namespace World.Shaped

variable {w : World}

/-- A world has the graph if there is a node in it. -/
theorem inside (h : Shaped j g w) (hg : g.Indexed) {a : String} {k : Nat} (hk : g.serial? a = some k) :
    j < w.graphs.size := by
  by_contra hout
  obtain ⟨n, hn, -⟩ := hg.placed hk
  have hnone : w.graph j = default := by simp [World.graph, Nat.le_of_not_lt hout]
  have hat := congrArg (Graph.nodeAt? · k) h
  simp only [Graph.nodeAt?_outline, hn, hnone] at hat
  cases hat

theorem dataPlace_lt (h : Shaped j g w) {k p : Nat} (hp : p ∈ Play.dataPlaces ((g.nodeAt? k).getD default)) :
    p < (w.node ⟨j, k⟩).inputs.length := by
  rw [← h.dataPlaces] at hp
  obtain ⟨s, hs, -⟩ := socket_of_dataPlaces hp
  exact (List.getElem?_eq_some_iff.1 hs).1

theorem dataOutput (h : Shaped j g w) {k p : Nat}
    (hp : ∃ s, ((g.nodeAt? k).getD default).outputs[p]? = some s ∧ s.isFlow = false) : w.isDataOutput ⟨j, k⟩ p = true := by
  obtain ⟨s, hs, hflow⟩ := hp
  have houtputs : ((g.nodeAt? k).getD default).outputs.map Socket.hollow =
      (w.node ⟨j, k⟩).outputs.map Socket.hollow := (congrArg Node.outputs (h.node k).symm :)
  obtain ⟨t, ht, hst⟩ := socket_of_outline houtputs hs
  have hdata : t.isFlow = false := by
    rw [← hflow]
    exact (congrArg Socket.isFlow hst :)
  simp [isDataOutput, ht, hdata]

end World.Shaped

/-- What a data input pulls from is a data output. -/
theorem Graph.Indexed.data_of_pulls (hg : g.Indexed) {a : String} {k p : Nat} (hk : g.serial? a = some k)
    (hp : p ∈ dataPlaces ((g.nodeAt? k).getD default)) {e : Ends} (he : g.pulls k p = some e) :
    ∃ s, ((g.nodeAt? e.source.node).getD default).outputs[e.source.socket]? = some s ∧ s.isFlow = false := by
  obtain ⟨n, hn, rfl⟩ := hg.placed hk
  rw [hn, Option.getD_some] at hp
  obtain ⟨s, hs, hflow⟩ := socket_of_dataPlaces hp
  simp only [Graph.pulls, hn, hs, Option.getD_some] at he
  obtain ⟨w, hw, hends⟩ := Option.bind_eq_some_iff.1 he
  have hmem : w ∈ g.wires.filter (Side.meets .input n.id (Side.sockets .input n) p) := by
    rw [← hg.listed .input hk hn hs]
    exact List.mem_of_mem_head? hw
  obtain ⟨hw, hmeets⟩ := List.mem_filter.1 hmem
  obtain ⟨e', hjoins, hends'⟩ := hg.joined w hw
  cases hends.symm.trans hends'
  have htarget : (⟨k, p⟩ : End) = e.target := (hg.meets_iff hk hn (hjoins.leads .input)).1 hmeets
  obtain ⟨source, target, hfrom, hto, hfits⟩ := hjoins.fits
  have htype : target = s.valueType := by
    rw [← htarget] at hto
    have hside : (Side.sockets .input n)[p]? = some s := hs
    simp only [Graph.typeAt?, hn, Option.bind_some, hside, Option.map_some, Option.some.injEq] at hto
    exact hto.symm
  obtain ⟨t, ht, rfl⟩ := Option.map_eq_some_iff.1 hfrom
  obtain ⟨m, hm, ht⟩ := Option.bind_eq_some_iff.1 ht
  refine ⟨t, by rw [hm]; exact ht, ?_⟩
  have hdata : s.valueType ≠ ValueType.flowName := by simpa [Socket.isFlow] using hflow
  by_contra hflow'
  have hflow' : t.valueType = ValueType.flowName := by simpa [Socket.isFlow] using hflow'
  simp only [Registry.canConnect, htype, hflow', true_or, if_true, beq_iff_eq] at hfits
  exact hdata hfits.symm

section Frame

variable {S T : Nat → Nat → Prop} {u : World}

/-- Resolving one input touches that input, and what resolving the node at its source touches. -/
theorem touching_resolveInput (hg : g.Indexed) (hshape : Shaped j g u₀) (hu : Around j u₀ u) {a : String} {k p : Nat}
    (hk : g.serial? a = some k) (hp : p ∈ dataPlaces ((g.nodeAt? k).getD default)) (hS : S k p)
    (hF : ∀ m, g.Above a m → Computes u₀ j m (F m))
    (hT : ∀ m q, g.Above a m → u₀.isDataOutput ⟨j, m⟩ q = true → T m q) {resolve : List String → NodeRef → Play Unit}
    (hresolve : ∀ b m visiting, g.Draws a b → g.serial? b = some m → Touching j S T u (resolve visiting ⟨j, m⟩))
    (visiting : List String) : Touching j S T u (resolveInput i resolve visiting ⟨j, k⟩ p) := by
  refine .look ?_
  rintro w _ ⟨rfl, hw⟩
  have hw := (hu.trans hw.around).shape hshape
  simp only [hw.pulls]
  cases he : g.pulls k p with
  | none => exact touching_fillInput hS _
  | some e =>
    obtain ⟨b, hb, hdraws⟩ := hg.of_pulls hk hp he
    refine Agrees.bind (.look ?_) fun _ => touching_pullAcross hS _ _
    rintro w _ ⟨rfl, hw⟩
    have hw := (hu.trans hw.around).shape hshape
    dsimp only
    split
    · rename_i hkind
      rw [hw.kind, ← hg.isFunction_iff hb] at hkind
      have hab := hdraws hkind
      have habove := Graph.Above.of_draws hab hb
      have hrest : Touching j S T u (do
          resolve ((w.node ⟨j, e.source.node⟩).id :: visiting) ⟨j, e.source.node⟩
          modify (·.tellStarted i ⟨j, e.source.node⟩)
          compute ⟨j, e.source.node⟩
          modify (·.tellEnded i ⟨j, e.source.node⟩) : Play Unit) := by
        refine (hresolve b _ _ hab hb).bind fun _ => Agrees.bind (.of_modify ?_) fun _ =>
          (touching_compute (hF _ habove) hu fun q => hT _ q habove).bind fun _ => .of_modify ?_
        · exact fun w r h => ⟨by rw [h.1], h.2.tell i _⟩
        · exact fun w r h => ⟨by rw [h.1], h.2.tell i _⟩
      split
      · refine .look ?_
        rintro w _ ⟨rfl, -⟩
        exact Agrees.bind (.of_throw _) fun _ => hrest
      · exact hrest
    · exact .of_pure _

/-- Resolving a node touches its inputs, and the sockets of the function nodes above it. -/
theorem touching_resolveWithin (hg : g.Indexed) (hshape : Shaped j g u₀) (hu : Around j u₀ u) {fuel : Nat} {a : String}
    {k : Nat} (hk : g.serial? a = some k) (hF : ∀ m, g.Above a m → Computes u₀ j m (F m)) (hS : ∀ p, S k p)
    (hup : ∀ m q, g.Above a m → S m q) (hT : ∀ m q, g.Above a m → u₀.isDataOutput ⟨j, m⟩ q = true → T m q)
    (visiting : List String) : Touching j S T u (resolveWithin i fuel visiting ⟨j, k⟩) := by
  induction fuel generalizing a k visiting with
  | zero => exact .of_pure _
  | succ fuel ih =>
    refine .look ?_
    rintro w _ ⟨rfl, hw⟩
    rw [((hu.trans hw.around).shape hshape).dataPlaces]
    refine .of_forM fun p hp => touching_resolveInput hg hshape hu hk hp (hS p) hF hT ?_ visiting
    intro b m visiting hab hb
    have habove := Graph.Above.of_draws hab hb
    exact ih hb (fun l hl => hF l (hl.head hab)) (fun q => hup m q habove) (fun l q hl => hup l q (hl.head hab))
      (fun l q hl => hT l q (hl.head hab)) visiting

end Frame

end Resolving

/-- From where `pre` holds the computation succeeds exactly if the evaluation is defined, and then `post` holds. -/
def Follows {σ α β : Type} (pre : World → σ → Prop) (x : Play α) (m : StateT σ Option β)
    (post : α → β → World → σ → Prop) : Prop :=
  ∀ w s, pre w s → (m.run s = none → ∃ e, (x.runOn w).1 = .error e) ∧
    ∀ b s', m.run s = some (b, s') → ∃ a, (x.runOn w).1 = .ok a ∧ post a b (x.runOn w).2 s'

namespace Follows

variable {σ α β γ δ : Type} {pre : World → σ → Prop} {x : Play α} {m : StateT σ Option β}
  {mid : α → β → World → σ → Prop} {post : γ → δ → World → σ → Prop}

/-- A computation follows the reference step by step. -/
theorem bind {k : α → Play γ} {l : β → StateT σ Option δ} (hx : Follows pre x m mid)
    (hk : ∀ a b, Follows (mid a b) (k a) (l b) post) : Follows pre (x >>= k) (m >>= l) post := by
  intro w s h
  obtain ⟨hfails, hgives⟩ := hx w s h
  rw [runOn_bind, StateT.run_bind]
  cases hm : m.run s with
  | none =>
    obtain ⟨e, he⟩ := hfails hm
    refine ⟨fun _ => ⟨e, ?_⟩, fun b s' hb => by cases hb⟩
    generalize x.runOn w = p at he
    obtain ⟨out, v⟩ := p
    cases he
    rfl
  | some p =>
    obtain ⟨b, s'⟩ := p
    obtain ⟨a, ha, hmid⟩ := hgives b s' hm
    generalize x.runOn w = p at ha hmid
    obtain ⟨out, v⟩ := p
    cases ha
    exact hk a b v s' hmid

theorem weaken {pre' : World → σ → Prop} {mid' : α → β → World → σ → Prop} (hx : Follows pre x m mid)
    (hpre : ∀ w s, pre' w s → pre w s) (hpost : ∀ a b w s, mid a b w s → mid' a b w s) : Follows pre' x m mid' := by
  intro w s h
  obtain ⟨hfails, hgives⟩ := hx w s (hpre w s h)
  refine ⟨hfails, fun b s' hb => ?_⟩
  obtain ⟨a, ha, hmid⟩ := hgives b s' hb
  exact ⟨a, ha, hpost a b _ _ hmid⟩

theorem map_right {ε : Type} {f : β → ε} {mid' : α → ε → World → σ → Prop} (hx : Follows pre x m mid)
    (hf : ∀ a b w s, mid a b w s → mid' a (f b) w s) : Follows pre x (do return f (← m)) mid' := by
  intro w s h
  obtain ⟨hfails, hgives⟩ := hx w s h
  rw [StateT.run_bind]
  cases hm : m.run s with
  | none => exact ⟨fun _ => hfails hm, fun b s' hb => by cases hb⟩
  | some p =>
    obtain ⟨b, s'⟩ := p
    obtain ⟨a, ha, hmid⟩ := hgives b s' hm
    refine ⟨(fun hm => by cases hm), fun c t hc => ⟨a, ha, ?_⟩⟩
    cases hc
    exact hf a b _ s' hmid

/-- A change of the world that the evaluation knows nothing of. -/
theorem modify_bind {f : World → World} {k : Unit → Play α} {pre' : World → σ → Prop}
    (hf : ∀ w s, pre w s → pre' (f w) s) (hk : Follows pre' (k ()) m mid) : Follows pre (modify f >>= k) m mid :=
  fun w s h => hk (f w) s (hf w s h)

/-- A change of the world that the reference does not see. -/
theorem bind_modify {f : World → World} (hx : Follows pre x m mid) {mid' : Unit → β → World → σ → Prop}
    (hf : ∀ a b w s, mid a b w s → mid' () b (f w) s) : Follows pre (x >>= fun _ => modify f) m mid' := by
  intro w s h
  obtain ⟨hfails, hgives⟩ := hx w s h
  rw [runOn_bind]
  generalize x.runOn w = p at hfails hgives
  obtain ⟨out, v⟩ := p
  refine ⟨fun hm => ?_, fun b s' hb => ?_⟩
  · obtain ⟨e, he⟩ := hfails hm
    cases he
    exact ⟨e, rfl⟩
  · obtain ⟨a, ha, hmid⟩ := hgives b s' hb
    cases ha
    exact ⟨(), rfl, hf a b v s' hmid⟩

/-- What the computation upholds besides. -/
theorem upholding {P : World → Prop} (hx : Follows pre x m mid) (hP : Obeys (Upholds P) x) :
    Follows (fun w s => pre w s ∧ P w) x m fun a b w s => mid a b w s ∧ P w := by
  intro w s h
  obtain ⟨hfails, hgives⟩ := hx w s h.1
  refine ⟨hfails, fun b s' hb => ?_⟩
  obtain ⟨a, ha, hmid⟩ := hgives b s' hb
  exact ⟨a, ha, hmid, hP.upholds h.2⟩

end Follows

section Lockstep

variable {i j : Nat} {g : Graph} {u₀ : World} {F : Nat → Meaning}

/-- How an observed engine tells of an input without value and link. -/
def World.reportOf (u : World) (i j : Nat) (place : Nat × Nat) : Event :=
  .unresolved (u.engine i).name (u.node ⟨j, place.1⟩).id
    (((u.node ⟨j, place.1⟩).inputs[place.2]?).getD default).name

/-- The world is as the ledger says; the rest is as it was in `u₀`. -/
structure Tracks (u₀ : World) (i j : Nat) (w : World) (s : Ledger) : Prop where
  around : Around j u₀ w
  held : ∀ k p, (u₀.node ⟨j, k⟩).kind ≠ .function → w.outputValue ⟨j, k⟩ p = u₀.outputValue ⟨j, k⟩ p
  inputs : ∀ k p, w.inputValue ⟨j, k⟩ p = s.inputs k p
  outputs : ∀ k p, w.outputValue ⟨j, k⟩ p = s.outputs k p
  labels : w.labels j = s.labels
  reports : w.reports = (if (u₀.engine i).isObserved then s.reports.map (u₀.reportOf i j) else []) ++ u₀.reports

namespace Tracks

variable {w : World} {s : Ledger}

theorem tell (h : Tracks u₀ i j w s) {e : String → Event} (he : (e (w.engine i).name).isReport = false) :
    Tracks u₀ i j (w.tell i e) s := by
  refine ⟨h.around.trans (.tell w i e), ?_, ?_, ?_, (labels_tell ..).trans h.labels, ?_⟩
  · exact fun k p hk => (outputValue_tell ..).trans (h.held k p hk)
  · exact fun k p => (inputValue_tell ..).trans (h.inputs k p)
  · exact fun k p => (outputValue_tell ..).trans (h.outputs k p)
  · rw [reports_tell, if_neg (by simp [he]), h.reports]

theorem keep (h : Tracks u₀ i j w s) (hj : j < u₀.graphs.size) (v : Value) :
    Tracks u₀ i j (w.stamp j v).2 { s with labels := (v.kept s.labels).2 } ∧ (w.stamp j v).1 = (v.kept s.labels).1 := by
  refine ⟨⟨h.around.trans (.stamp w v), ?_, ?_, ?_, ?_, (reports_stamp ..).trans h.reports⟩, ?_⟩
  · exact fun k p hk => (outputValue_stamp ..).trans (h.held k p hk)
  · exact fun k p => (inputValue_stamp ..).trans (h.inputs k p)
  · exact fun k p => (outputValue_stamp ..).trans (h.outputs k p)
  · rw [labels_stamp (by rw [h.around.size]; exact hj), h.labels]
  · rw [stamp_eq_kept, h.labels]

theorem setInput (h : Tracks u₀ i j w s) {k p : Nat} (hp : p < (u₀.node ⟨j, k⟩).inputs.length) (v : Value) :
    Tracks u₀ i j (w.modifyNode ⟨j, k⟩ (·.setInput p v)) (s.setInput k p v) := by
  refine ⟨h.around.trans (.modifyNode w k fun n => Node.emptied_setInput n p v), ?_, ?_, ?_,
    (labels_modifyNode ..).trans h.labels, (reports_modifyNode ..).trans h.reports⟩
  · exact fun l q hl => (outputValue_setInput ..).trans (h.held l q hl)
  · intro l q
    rw [inputValue_setInput (h.around.input_lt hp), h.inputs l q]
    simp [Ledger.setInput]
  · exact fun l q => (outputValue_setInput ..).trans (h.outputs l q)

/-- An input without value and link is told of. -/
theorem report (h : Tracks u₀ i j w s) (k p : Nat) {id name : String} (hid : id = (u₀.node ⟨j, k⟩).id)
    (hname : name = (((u₀.node ⟨j, k⟩).inputs[p]?).getD default).name) :
    Tracks u₀ i j (w.tell i (.unresolved · id name)) { s with reports := (k, p) :: s.reports } := by
  refine ⟨h.around.trans (.tell w i _), ?_, ?_, ?_, (labels_tell ..).trans h.labels, ?_⟩
  · exact fun k p hk => (outputValue_tell ..).trans (h.held k p hk)
  · exact fun k p => (inputValue_tell ..).trans (h.inputs k p)
  · exact fun k p => (outputValue_tell ..).trans (h.outputs k p)
  · rw [reports_tell, h.around.engine i, h.reports]
    by_cases ho : (u₀.engine i).isObserved = true
    · simp [ho, Event.isReport, reportOf, hid, hname]
    · simp [ho]

end Tracks

/-- An input without link keeps its literal, or is filled and told of. -/
theorem follows_fillInput (hj : j < u₀.graphs.size) {k p : Nat} (hp : p < (u₀.node ⟨j, k⟩).inputs.length) : Follows (Tracks u₀ i j)
      (get >>= fun w => fillInput i ⟨j, k⟩ p (((w.node ⟨j, k⟩).inputs[p]?).getD default)) (Reference.literal u₀ j k p)
      fun _ v w s => Tracks u₀ i j w s ∧ w.inputValue ⟨j, k⟩ p = v := by
  intro w s h
  have hvalue : (((w.node ⟨j, k⟩).inputs[p]?).getD default).value = s.inputs k p := h.inputs k p
  have htype : (((w.node ⟨j, k⟩).inputs[p]?).getD default).valueType = Reference.inputType u₀ j k p :=
    (congrArg Socket.valueType (h.around.input k p) :)
  have hname : (((w.node ⟨j, k⟩).inputs[p]?).getD default).name = (((u₀.node ⟨j, k⟩).inputs[p]?).getD default).name :=
    (congrArg Socket.name (h.around.input k p) :)
  have hregistry := h.around.registry k
  rw [runOn_get]
  cases hnone : (s.inputs k p).isNone with
  | false =>
    rw [Reference.run_literal_kept hnone]
    simp only [fillInput, hvalue, hnone, Bool.false_eq_true, if_false]
    refine ⟨(fun hm => by cases hm), fun b s' hb => ⟨(), rfl, ?_⟩⟩
    cases hb
    exact ⟨h, h.inputs k p⟩
  | true =>
    cases ht : (u₀.registryOf ⟨j, k⟩).valueType (Reference.inputType u₀ j k p) with
    | error e =>
      rw [Reference.run_literal_untyped hnone ht]
      refine ⟨fun _ => ⟨.integrity e, ?_⟩, fun b s' hb => by cases hb⟩
      simp only [fillInput, hvalue, hnone, if_true, runOn_get, hregistry, htype, ht]
      rfl
    | ok t =>
      rw [Reference.run_literal_filled hnone ht]
      obtain ⟨hkept, hstamp⟩ := h.keep hj t.create
      have hrun : (fillInput i ⟨j, k⟩ p (((w.node ⟨j, k⟩).inputs[p]?).getD default)).runOn w = (.ok (),
          (((w.stamp j t.create).2.modifyNode ⟨j, k⟩ (·.setInput p (t.create.kept s.labels).1)).tell i
            (.unresolved · (((w.stamp j t.create).2.modifyNode ⟨j, k⟩ (·.setInput p (t.create.kept s.labels).1)).node
              ⟨j, k⟩).id (((w.node ⟨j, k⟩).inputs[p]?).getD default).name))) := by
        simp only [fillInput, hvalue, hnone, if_true, runOn_get, hregistry, htype, ht, ← hstamp]
        rfl
      rw [hrun]
      refine ⟨(fun hm => by cases hm), fun b s' hb => ⟨(), rfl, ?_⟩⟩
      cases hb
      have hset := hkept.setInput hp (t.create.kept s.labels).1
      dsimp only
      generalize (w.stamp j t.create).2.modifyNode ⟨j, k⟩ (·.setInput p (t.create.kept s.labels).1) = v at hset ⊢
      have hid : (v.node ⟨j, k⟩).id = (u₀.node ⟨j, k⟩).id :=
        (congrArg Node.id (hset.around.node_emptied k) :)
      refine ⟨hset.report k p hid hname, ?_⟩
      rw [inputValue_tell, hset.inputs k p]
      exact if_pos ⟨rfl, rfl⟩

theorem outputAt?_getD (w : World) (j : Nat) (e : End) :
    ((w.graph j).outputAt? e).getD default = ((w.node ⟨j, e.node⟩).outputs[e.socket]?).getD default := by
  simp only [Graph.outputAt?, World.node]
  cases (w.graph j).nodeAt? e.node with
  | none => rfl
  | some n => rfl

/-- A linked input takes the converted value of its source. -/
theorem follows_pullAcross (hj : j < u₀.graphs.size) {k p : Nat} (hp : p < (u₀.node ⟨j, k⟩).inputs.length)
    {t : Socket} (ht : t.valueType = Reference.inputType u₀ j k p) (e : End)
    (v : Value) : Follows (fun w s => Tracks u₀ i j w s ∧ w.outputValue ⟨j, e.node⟩ e.socket = v)
      (pullAcross ⟨j, k⟩ p t e)
      (do
        let v ← StateT.lift ((u₀.registryOf ⟨j, k⟩).convert v (Reference.outputType u₀ j e.node e.socket)
          (Reference.inputType u₀ j k p)).toOption
        let v ← Reference.keep v
        modify (·.setInput k p v)
        return v)
      fun _ v w s => Tracks u₀ i j w s ∧ w.inputValue ⟨j, k⟩ p = v := by
  rintro w s ⟨h, rfl⟩
  have htype : ((((w.node ⟨j, e.node⟩).outputs[e.socket]?).getD default)).valueType =
      Reference.outputType u₀ j e.node e.socket := (congrArg Socket.valueType (h.around.output e.node e.socket) :)
  cases hc : (u₀.registryOf ⟨j, k⟩).convert (w.outputValue ⟨j, e.node⟩ e.socket)
      (Reference.outputType u₀ j e.node e.socket) (Reference.inputType u₀ j k p) with
  | error f =>
    refine ⟨fun _ => ⟨w.nodeFailure ⟨j, k⟩ (.unconvertible (Reference.outputType u₀ j e.node e.socket)
      (Reference.inputType u₀ j k p) t.name f), ?_⟩, fun b s' hb => by cases hb⟩
    rw [outputValue] at hc
    simp only [pullAcross, runOn_get, carried, outputAt?_getD, htype, ht, h.around.registry k, hc]
    rfl
  | ok v =>
    obtain ⟨hkept, hstamp⟩ := h.keep hj v
    have hrun : (pullAcross ⟨j, k⟩ p t e).runOn w =
        (.ok (), (w.stamp j v).2.modifyNode ⟨j, k⟩ (·.setInput p (v.kept s.labels).1)) := by
      rw [outputValue] at hc
      simp only [pullAcross, runOn_get, carried, outputAt?_getD, htype, ht, h.around.registry k, hc, ← hstamp]
      rfl
    rw [hrun]
    refine ⟨(fun hm => by cases hm), fun b s' hb => ⟨(), rfl, ?_⟩⟩
    cases hb
    refine ⟨hkept.setInput hp _, ?_⟩
    rw [inputValue_setInput (hkept.around.input_lt hp), if_pos ⟨rfl, rfl⟩]

/-- A function node computes. -/
theorem follows_compute {m : Nat} (hfunction : (u₀.node ⟨j, m⟩).kind = .function) (hF : Computes u₀ j m (F m)) {q : Nat}
    (hq : u₀.isDataOutput ⟨j, m⟩ q = true) (values : List Value) :
    Follows (fun w s => Tracks u₀ i j w s ∧ w.inputValues ⟨j, m⟩ = values) (compute ⟨j, m⟩)
      (do
        let (outputs, n) ← StateT.lift (F m values (← get).labels)
        modify (·.deliver m (u₀.isDataOutput ⟨j, m⟩) outputs n)
        return outputs q)
      fun _ v w s => Tracks u₀ i j w s ∧ w.outputValue ⟨j, m⟩ q = v := by
  rintro w s ⟨h, rfl⟩
  cases hm : F m (w.inputValues ⟨j, m⟩) (w.labels j) with
  | none =>
    have hnone := hm
    rw [h.labels] at hnone
    refine ⟨fun _ => hF.fails w h.around hm, fun b s' hb => ?_⟩
    simp only [StateT.run_bind, StateT.run_get, Option.pure_def, Option.bind_eq_bind, Option.bind_some, hnone] at hb
    cases hb
  | some out =>
    obtain ⟨outputs, n⟩ := out
    obtain ⟨hok, hlabels, houtputs⟩ := hF.gives w h.around outputs n hm
    have htouches := hF.touches w h.around
    rw [h.labels] at hm
    have hrun : (do
        let (outputs, n) ← StateT.lift (F m (w.inputValues ⟨j, m⟩) (← get).labels)
        modify (·.deliver m (u₀.isDataOutput ⟨j, m⟩) outputs n)
        return outputs q : StateT Ledger Option Value).run s =
          some (outputs q, s.deliver m (u₀.isDataOutput ⟨j, m⟩) outputs n) := by
      simp only [StateT.run_bind, StateT.run_get, Option.pure_def, Option.bind_eq_bind, Option.bind_some, hm]
      rfl
    rw [hrun]
    refine ⟨(fun hno => by cases hno), fun b s' hb => ⟨(), hok, ?_⟩⟩
    cases hb
    refine ⟨⟨h.around.trans htouches.around, ?_, ?_, ?_, hlabels, ?_⟩, houtputs q hq⟩
    · intro l r hl
      rw [htouches.outputs, h.held l r hl]
      rintro ⟨rfl, -⟩
      exact hl hfunction
    · exact fun l r => (htouches.inputs l r not_false).trans (h.inputs l r)
    · intro l r
      by_cases hdata : l = m ∧ u₀.isDataOutput ⟨j, m⟩ r = true
      · obtain ⟨rfl, hdata⟩ := hdata
        simp only [Ledger.deliver, true_and, if_pos hdata]
        exact houtputs r hdata
      · simp only [Ledger.deliver, if_neg hdata]
        exact (htouches.outputs l r hdata).trans (h.outputs l r)
    · exact (hF.silent w h.around).trans h.reports

/-- The source of a wire is resolved and computed if it is a function node, and is left alone if it is not. -/
theorem follows_supply {k : Nat} {e : End} {visiting : List String} {resolve : List String → NodeRef → Play Unit}
    {inputs : Nat → StateT Ledger Option (List Value)}
    (hF : (u₀.node ⟨j, e.node⟩).kind = .function → Computes u₀ j e.node (F e.node))
    (hnew : (u₀.node ⟨j, e.node⟩).kind = .function → (u₀.node ⟨j, e.node⟩).id ∉ visiting)
    (hq : u₀.isDataOutput ⟨j, e.node⟩ e.socket = true)
    (hresolve : (u₀.node ⟨j, e.node⟩).kind = .function → Follows (Tracks u₀ i j)
      (resolve ((u₀.node ⟨j, e.node⟩).id :: visiting) ⟨j, e.node⟩) (inputs e.node)
      fun _ values w s => Tracks u₀ i j w s ∧ w.inputValues ⟨j, e.node⟩ = values) :
    Follows (Tracks u₀ i j) (supply i resolve visiting ⟨j, k⟩ ⟨j, e.node⟩) (Reference.source u₀ j F inputs e)
      fun _ v w s => Tracks u₀ i j w s ∧ w.outputValue ⟨j, e.node⟩ e.socket = v := by
  intro w s h
  have hid : (w.node ⟨j, e.node⟩).id = (u₀.node ⟨j, e.node⟩).id := (congrArg Node.id (h.around.node_emptied e.node) :)
  have hkind : (w.node ⟨j, e.node⟩).kind = (u₀.node ⟨j, e.node⟩).kind :=
    (congrArg Node.kind (h.around.node_emptied e.node) :)
  rw [supply, runOn_get]
  simp only [hid, hkind]
  by_cases hfunction : (u₀.node ⟨j, e.node⟩).kind = .function
  · have hcomputes : Follows (Tracks u₀ i j) (do
          resolve ((u₀.node ⟨j, e.node⟩).id :: visiting) ⟨j, e.node⟩
          modify (·.tellStarted i ⟨j, e.node⟩)
          compute ⟨j, e.node⟩
          modify (·.tellEnded i ⟨j, e.node⟩)) (Reference.source u₀ j F inputs e)
        fun _ v w s => Tracks u₀ i j w s ∧ w.outputValue ⟨j, e.node⟩ e.socket = v := by
      rw [Reference.source, if_pos hfunction]
      refine .bind (hresolve hfunction) fun _ values => ?_
      have hcompute : Follows (fun w s => Tracks u₀ i j w s ∧ w.inputValues ⟨j, e.node⟩ = values)
          (do compute ⟨j, e.node⟩; modify (·.tellEnded i ⟨j, e.node⟩)) _
          fun _ v w s => Tracks u₀ i j w s ∧ w.outputValue ⟨j, e.node⟩ e.socket = v :=
        .bind_modify (follows_compute hfunction (hF hfunction) hq values) fun _ v w s h =>
          ⟨h.1.tell rfl, (outputValue_tell ..).trans h.2⟩
      refine .modify_bind ?_ hcompute
      rintro w s ⟨h, hvalues⟩
      refine ⟨h.tell rfl, ?_⟩
      rw [← hvalues]
      simp [inputValues, inputValue, tellStarted]
    rw [if_pos hfunction, if_neg (hnew hfunction)]
    exact hcomputes w s h
  · rw [Reference.source, if_neg hfunction, if_neg hfunction]
    refine ⟨(fun hm => by cases hm), fun b s' hb => ⟨(), rfl, ?_⟩⟩
    cases hb
    exact ⟨h, h.held e.node e.socket hfunction⟩

section Recursion

variable (hg : g.Indexed) (hshape : Shaped j g u₀) {a : String} {k : Nat} (hk : g.serial? a = some k)
  (hF : ∀ m, g.Above a m → Computes u₀ j m (F m)) {visiting : List String}
  {resolve : List String → NodeRef → Play Unit} {inputs : Nat → StateT Ledger Option (List Value)}

include hg hshape hk hF

/-- Resolving one input comes to what the evaluation of it says, if that is so for the nodes it draws on. -/
theorem follows_resolveInput {p : Nat} (hp : p ∈ dataPlaces ((g.nodeAt? k).getD default))
    (hnew : ∀ b, g.Draws a b → b ∉ visiting)
    (hresolve : ∀ b m, g.Draws a b → g.serial? b = some m → Follows (Tracks u₀ i j) (resolve (b :: visiting) ⟨j, m⟩)
      (inputs m) fun _ values w s => Tracks u₀ i j w s ∧ w.inputValues ⟨j, m⟩ = values) :
    Follows (Tracks u₀ i j) (resolveInput i resolve visiting ⟨j, k⟩ p) (Reference.input u₀ j F inputs k p)
      fun _ v w s => Tracks u₀ i j w s ∧ w.inputValue ⟨j, k⟩ p = v := by
  have hj : j < u₀.graphs.size := hshape.inside hg hk
  have hlength : p < (u₀.node ⟨j, k⟩).inputs.length := hshape.dataPlace_lt hp
  have hpulls : (u₀.graph j).pulls k p = g.pulls k p := Graph.pulls_of_outline hshape k p
  intro w s h
  have hw := h.around.shape hshape
  rw [resolveInput, runOn_get]
  simp only [hw.pulls, Reference.input, hpulls]
  cases he : g.pulls k p with
  | none => exact follows_fillInput hj hlength w s h
  | some e =>
    rw [← hshape.dataPlaces] at hp
    obtain ⟨b, hb, hdraws⟩ := hshape.of_pulls hg hk hp (hpulls.trans he)
    obtain ⟨m, hm, hid⟩ := hg.placed hb
    have hname : (u₀.node ⟨j, e.source.node⟩).id = b := (hshape.id hm).trans hid
    have htype : (((w.node ⟨j, k⟩).inputs[p]?).getD default).valueType = Reference.inputType u₀ j k p :=
      (congrArg Socket.valueType (h.around.input k p) :)
    rw [hshape.dataPlaces] at hp
    refine Follows.bind (follows_supply ?_ ?_ (hshape.dataOutput (hg.data_of_pulls hk hp he)) ?_)
      (fun _ v => follows_pullAcross hj hlength htype e.source v) w s h
    · exact fun hkind => hF _ (.of_draws (hdraws hkind) hb)
    · intro hkind
      rw [hname]
      exact hnew b (hdraws hkind)
    · intro hkind
      rw [hname]
      exact hresolve b _ (hdraws hkind) hb

/-- What resolving the other inputs leaves alone. -/
theorem upholds_other {fuel : Nat} {ps : List Nat} (hps : ∀ p ∈ ps, p ∈ dataPlaces ((g.nodeAt? k).getD default))
    {q : Nat} (hq : q ∉ ps)
    (hloop : ¬ g.Above a k) (v : Value) :
    Obeys (Upholds fun w => Around j u₀ w ∧ w.inputValue ⟨j, k⟩ q = v)
      (ps.forM (resolveInput i (resolveWithin i fuel) visiting ⟨j, k⟩)) := by
  rintro w _ ⟨rfl, hw, hv⟩
  refine ⟨rfl, rfl, ?_⟩
  have htouching : Touching j (fun m r => (m = k ∧ r ∈ ps) ∨ g.Above a m) (fun m _ => g.Above a m) w
      (ps.forM (resolveInput i (resolveWithin i fuel) visiting ⟨j, k⟩)) := by
    refine .of_forM fun p hp => touching_resolveInput hg hshape hw hk (hps p hp) (.inl ⟨rfl, hp⟩) hF (fun _ _ h _ => h) ?_ visiting
    intro b m visiting hab hb
    have habove := Graph.Above.of_draws hab hb
    refine touching_resolveWithin hg hshape hw hb (fun l hl => hF l (hl.head hab)) (fun _ => .inr habove)
      (fun _ _ h => .inr (h.head hab)) (fun _ _ h _ => h.head hab) visiting
  have htouches := htouching.upholds (.refl w)
  refine ⟨hw.trans htouches.around, ?_⟩
  rw [htouches.inputs k q, hv]
  rintro (⟨-, hmem⟩ | habove)
  · exact hq hmem
  · exact hloop habove

omit hk in
/-- Resolving the inputs of a node comes to what the evaluation says. -/
theorem follows_resolveWithin {fuel : Nat} {rest : List String} (hk : g.serial? a = some k)
    (hacyclic : ∀ c, ReflTransGen g.Draws a c → ¬ TransGen g.Draws c c) (hnodup : (a :: rest).Nodup)
    (hin : ∀ id ∈ a :: rest, ∃ k, g.serial? id = some k) (hback : ∀ b ∈ a :: rest, ReflTransGen g.Draws b a)
    (hfuel : g.arena.size + 2 ≤ fuel + (a :: rest).length) :
    Follows (Tracks u₀ i j) (resolveWithin i fuel (a :: rest) ⟨j, k⟩) (Reference.inputsWithin u₀ j F fuel k)
      fun _ values w s => Tracks u₀ i j w s ∧ w.inputValues ⟨j, k⟩ = values := by
  induction fuel generalizing a k rest with
  | zero =>
    have hlength := hg.length_le_size hnodup hin
    omega
  | succ fuel ih =>
    have hloop : ¬ g.Above a k := by
      rintro ⟨b, hab, hb⟩
      rw [hg.serial?_inj hb hk] at hab
      exact hacyclic a .refl hab
    have hnew : ∀ b, g.Draws a b → b ∉ a :: rest := fun b hab hmem =>
      hacyclic a .refl (.head' hab (hback b hmem))
    have heach (p : Nat) (hp : p ∈ dataPlaces ((g.nodeAt? k).getD default)) :
        Follows (Tracks u₀ i j) (resolveInput i (resolveWithin i fuel) (a :: rest) ⟨j, k⟩ p)
          (Reference.input u₀ j F (Reference.inputsWithin u₀ j F fuel) k p)
          fun _ v w s => Tracks u₀ i j w s ∧ w.inputValue ⟨j, k⟩ p = v :=
      follows_resolveInput hg hshape hk hF hp hnew fun b m hab hm => by
          refine ih (fun l hl => hF l (hl.head hab)) hm (fun c hc => hacyclic c (.head hab hc))
            (List.nodup_cons.2 ⟨hnew b hab, hnodup⟩) ?_ ?_ ?_
          · intro id hid
            rcases List.mem_cons.1 hid with rfl | hid
            · exact ⟨m, hm⟩
            · exact hin id hid
          · intro c hc
            rcases List.mem_cons.1 hc with rfl | hc
            · exact .refl
            · exact .tail (hback c hc) hab
          · simp only [List.length_cons] at hfuel ⊢
            omega
    have hall (ps : List Nat) (hps : ∀ p ∈ ps, p ∈ dataPlaces ((g.nodeAt? k).getD default)) (hnodup : ps.Nodup) :
        Follows (Tracks u₀ i j) (ps.forM (resolveInput i (resolveWithin i fuel) (a :: rest) ⟨j, k⟩))
          (ps.mapM (Reference.input u₀ j F (Reference.inputsWithin u₀ j F fuel) k))
          fun _ values w s => Tracks u₀ i j w s ∧ ps.map (w.inputValue ⟨j, k⟩) = values := by
      induction ps with
      | nil =>
        intro w s h
        exact ⟨(fun hm => by cases hm), fun b s' hb => by cases hb; exact ⟨(), rfl, h, rfl⟩⟩
      | cons p ps ihps =>
        obtain ⟨hp, hnodup⟩ := List.nodup_cons.1 hnodup
        rw [List.mapM_cons]
        have hps' : ∀ q ∈ ps, q ∈ dataPlaces ((g.nodeAt? k).getD default) := fun q hq => hps q (List.mem_cons_of_mem p hq)
        refine (heach p (hps p List.mem_cons_self)).bind fun _ v => ?_
        refine (((ihps hps' hnodup).upholding (upholds_other hg hshape hk hF hps' hp hloop v)).weaken ?_
          fun _ _ _ _ h => h).map_right ?_
        · exact fun w s h => ⟨h.1, h.1.around, h.2⟩
        · rintro _ values w s ⟨⟨h, rfl⟩, -, hv⟩
          exact ⟨h, by rw [List.map_cons, hv]⟩
    intro w s h
    have hplaces := (h.around.shape hshape).dataPlaces k
    have hplaces' := hshape.dataPlaces k
    rw [resolveWithin, runOn_get, Reference.inputsWithin]
    simp only [hplaces, hplaces']
    obtain ⟨hfails, hgives⟩ := hall _ (fun _ hp => hp) (nodup_dataPlaces _) w s h
    refine ⟨hfails, fun values s' hm => ?_⟩
    obtain ⟨u, hok, htracks, hvalues⟩ := hgives values s' hm
    refine ⟨u, hok, htracks, ?_⟩
    rw [inputValues, (htracks.around.shape hshape).dataPlaces, hvalues]

end Recursion

end Lockstep

/-- Resolving the inputs of the node at the place `k` comes to what the reference evaluation says of them. -/
structure Resolves (g : Graph) (u : World) (i j : Nat) (a : String) (k : Nat) (F : Nat → Meaning) : Prop where
  /-- The evaluation is by recursion along the wires. -/
  recursive : ∀ b m, ReflTransGen g.Draws a b → g.serial? b = some m → Reference.evaluate u j F m =
    (dataPlaces (u.node ⟨j, m⟩)).mapM (Reference.input u j F (Reference.evaluate u j F) m)
  /-- Resolving succeeds exactly if the evaluation is defined. -/
  succeeds : ((Play.resolve i ⟨j, k⟩).runOn u).1 = .ok () ↔
    ((Reference.evaluate u j F k).run (u.ledger j)).isSome = true
  /-- Then the inputs hold the values that were evaluated, and all sockets hold what the ledger says. -/
  holds : ∀ values s, (Reference.evaluate u j F k).run (u.ledger j) = some (values, s) →
    ((Play.resolve i ⟨j, k⟩).runOn u).2.inputValues ⟨j, k⟩ = values ∧
      Tracks u i j ((Play.resolve i ⟨j, k⟩).runOn u).2 s
  /-- An input without link keeps its literal; if it has none it is filled, and told of once. -/
  filled : ∀ values s p, (Reference.evaluate u j F k).run (u.ledger j) = some (values, s) →
    p ∈ dataPlaces (u.node ⟨j, k⟩) → (u.graph j).pulls k p = none → Reference.FilledOnce u j (u.ledger j) k p s
  /-- Nothing changes but the inputs of the node and the sockets of the function nodes above it. -/
  touches : Touches j (fun m _ => m = k ∨ g.Above a m) (fun m p => g.Above a m ∧ u.isDataOutput ⟨j, m⟩ p = true) u
    ((Play.resolve i ⟨j, k⟩).runOn u).2
  /-- If no NaN was made, resolving again leaves everything as it is. -/
  again : ∀ values s, (Reference.evaluate u j F k).run (u.ledger j) = some (values, s) → s.labels = u.labels j →
    ((Play.resolve i ⟨j, k⟩).runOn ((Play.resolve i ⟨j, k⟩).runOn u).2).1 = .ok () ∧
      ((Play.resolve i ⟨j, k⟩).runOn ((Play.resolve i ⟨j, k⟩).runOn u).2).2.graphs =
        ((Play.resolve i ⟨j, k⟩).runOn u).2.graphs

theorem World.Around.isDataOutput {j : Nat} {u w : World} (h : Around j u w) (k p : Nat) :
    w.isDataOutput ⟨j, k⟩ p = u.isDataOutput ⟨j, k⟩ p := by
  have houtputs : (w.node ⟨j, k⟩).outputs.map Socket.hollow = (u.node ⟨j, k⟩).outputs.map Socket.hollow :=
    (congrArg Node.outputs (h.node_emptied k) :)
  have hp := congrArg (·[p]?) houtputs
  simp only [List.getElem?_map] at hp
  unfold World.isDataOutput
  cases hw : (w.node ⟨j, k⟩).outputs[p]? <;> cases hu : (u.node ⟨j, k⟩).outputs[p]? <;> simp [hw, hu] at hp ⊢
  exact (congrArg Socket.isFlow hp :)

/-- A function node computes the same whatever its sockets hold. -/
theorem Computes.of_around {u w : World} {j k : Nat} {F : Meaning} (hF : Computes u j k F) (h : Around j u w) :
    Computes w j k F where
  fails v hv := hF.fails v (h.trans hv)
  gives v hv := by
    simp only [h.isDataOutput]
    exact hF.gives v (h.trans hv)
  touches v hv := by
    simp only [h.isDataOutput]
    exact hF.touches v (h.trans hv)
  silent v hv := hF.silent v (h.trans hv)
  ascends := hF.ascends

namespace Reference

/-- The evaluation reads of the world what the outputs of nodes without function hold. -/
theorem inputsWithin_of_around {u w : World} {j : Nat} {F : Nat → Meaning} (h : Around j u w)
    (hheld : ∀ k p, (u.node ⟨j, k⟩).kind ≠ .function → w.outputValue ⟨j, k⟩ p = u.outputValue ⟨j, k⟩ p) (fuel k : Nat) :
    inputsWithin w j F fuel k = inputsWithin u j F fuel k := by
  have hpulls (k p : Nat) : (w.graph j).pulls k p = (u.graph j).pulls k p := Graph.pulls_of_outline h.shaped k p
  have hinput (k p : Nat) : inputType w j k p = inputType u j k p := (congrArg Socket.valueType (h.input k p) :)
  have houtput (k p : Nat) : outputType w j k p = outputType u j k p := (congrArg Socket.valueType (h.output k p) :)
  have hkind (k : Nat) : (w.node ⟨j, k⟩).kind = (u.node ⟨j, k⟩).kind := (congrArg Node.kind (h.node_emptied k) :)
  have hdata (k : Nat) : w.isDataOutput ⟨j, k⟩ = u.isDataOutput ⟨j, k⟩ := funext (h.isDataOutput k)
  induction fuel generalizing k with
  | zero => rfl
  | succ fuel ih =>
    have hinputs : inputsWithin w j F fuel = inputsWithin u j F fuel := funext ih
    rw [inputsWithin, inputsWithin, h.dataPlaces, hinputs]
    refine mapM_congr fun p _ => ?_
    simp only [input, literal, hpulls, hinput, houtput, h.registry]
    split
    · rfl
    · rename_i e _
      have hsource : source w j F (inputsWithin u j F fuel) e.source = source u j F (inputsWithin u j F fuel) e.source := by
        unfold source
        by_cases hfunction : (u.node ⟨j, e.source.node⟩).kind = .function
        · rw [if_pos hfunction, if_pos ((hkind _).trans hfunction), hdata]
        · rw [if_neg hfunction, if_neg fun hw => hfunction ((hkind _).symm.trans hw), hheld _ _ hfunction]
      rw [hsource]

end Reference

namespace Graph.Indexed

variable {g : Graph} {u : World} {i j : Nat} {a : String} {k : Nat} {F : Nat → Meaning}

/-- Resolving follows the evaluation, from what the sockets of the world hold. -/
theorem follows_resolve (hg : g.Indexed) (hu : Shaped j g u) (hk : g.serial? a = some k)
    (hacyclic : ∀ c, ReflTransGen g.Draws a c → ¬ TransGen g.Draws c c)
    (hF : ∀ m, g.Above a m → Computes u j m (F m)) :
    ((Reference.evaluate u j F k).run (u.ledger j) = none → ∃ e, ((Play.resolve i ⟨j, k⟩).runOn u).1 = .error e) ∧
      ∀ values s, (Reference.evaluate u j F k).run (u.ledger j) = some (values, s) →
        ((Play.resolve i ⟨j, k⟩).runOn u).1 = .ok () ∧ Tracks u i j ((Play.resolve i ⟨j, k⟩).runOn u).2 s ∧
          ((Play.resolve i ⟨j, k⟩).runOn u).2.inputValues ⟨j, k⟩ = values := by
  obtain ⟨n, hn, hid⟩ := hg.placed hk
  have hsize : (u.graph j).arena.size = g.arena.size := by
    have harena : (u.graph j).arena.map Node.outline = g.arena.map Node.outline := (congrArg Graph.arena hu :)
    simpa using congrArg Array.size harena
  have hinitial : Tracks u i j u (u.ledger j) :=
    ⟨.refl j u, fun _ _ _ => rfl, fun _ _ => rfl, fun _ _ => rfl, rfl, by simp [World.ledger]⟩
  have hwithin : Follows (Tracks u i j) (resolveWithin i (g.arena.size + 1) [a] ⟨j, k⟩)
      (Reference.inputsWithin u j F (g.arena.size + 1) k)
      fun _ values w s => Tracks u i j w s ∧ w.inputValues ⟨j, k⟩ = values :=
    follows_resolveWithin hg hu hF hk hacyclic (List.nodup_singleton a) (by simpa using ⟨k, hk⟩)
      (by simpa using ReflTransGen.refl) (by simp)
  have hfollows := hwithin u (u.ledger j) hinitial
  rw [hu.resolve_eq hn hid, Reference.evaluate, hsize]
  refine ⟨hfollows.1, fun values s h => ?_⟩
  obtain ⟨_, hok, hpost⟩ := hfollows.2 values s h
  exact ⟨hok, hpost⟩

/-- Resolving again, where no NaN was made, leaves everything as it is. -/
theorem resolve_again (hg : g.Indexed) (hu : Shaped j g u) (hk : g.serial? a = some k)
    (hacyclic : ∀ c, ReflTransGen g.Draws a c → ¬ TransGen g.Draws c c)
    (hF : ∀ m, g.Above a m → Computes u j m (F m)) {values : List Value} {s : Ledger}
    (h : (Reference.evaluate u j F k).run (u.ledger j) = some (values, s)) (hlabels : s.labels = u.labels j) {w : World}
    (hw : w = ((Play.resolve i ⟨j, k⟩).runOn u).2) : ((Play.resolve i ⟨j, k⟩).runOn w).1 = .ok () ∧
      ((Play.resolve i ⟨j, k⟩).runOn w).2.graphs = w.graphs := by
  obtain ⟨-, htracks, -⟩ := (hg.follows_resolve (i := i) hu hk hacyclic hF).2 values s h
  rw [← hw] at htracks
  have hrepeats : Reference.Repeats u j (Reference.evaluate u j F k) :=
    Reference.repeats_inputsWithin hg hu hk (fun m hm => (hF m hm).ascends) _
  obtain ⟨-, hredo⟩ := hrepeats _ _ _ h
  obtain ⟨hlevel, hredo⟩ := hredo hlabels
  have hledger : w.ledger j = { s with reports := [] } := by
    simp only [World.ledger, Ledger.mk.injEq, and_true]
    exact ⟨htracks.labels, funext₂ htracks.inputs, funext₂ htracks.outputs⟩
  obtain ⟨t', hrun, hlevel', hdone⟩ := hredo (w.ledger j) (by rw [hledger]; exact ⟨hlevel.labels, hlevel.given⟩)
  have hsame : Reference.evaluate w j F k = Reference.evaluate u j F k := by
    have hsize : (w.graph j).arena.size = (u.graph j).arena.size := by
      have harena : (w.graph j).arena.map Node.outline = (u.graph j).arena.map Node.outline :=
        (congrArg Graph.arena htracks.around.shaped :)
      simpa using congrArg Array.size harena
    rw [Reference.evaluate, Reference.evaluate, hsize, Reference.inputsWithin_of_around htracks.around htracks.held]
  rw [← hsame] at hrun
  obtain ⟨hok, htracks', -⟩ := (hg.follows_resolve (i := i) (htracks.around.shape hu) hk hacyclic
    fun m hm => (hF m hm).of_around htracks.around).2 values t' hrun
  rw [hledger] at hdone hlevel'
  refine ⟨hok, htracks'.around.graphs_eq (fun l p => ?_) (fun l p => ?_) ?_⟩
  · rw [htracks'.inputs, htracks.inputs]
    rcases hdone.inputs l p with hin | ⟨hin, -⟩
    · exact hin
    · exact hin
  · rw [htracks'.outputs, htracks.outputs]
    rcases hdone.outputs l p with hout | ⟨hout, -⟩
    · exact hout
    · exact hout
  · rw [htracks'.labels, htracks.labels]
    exact hlevel'.labels

/-- A pull over what is shaped as the reference assumes resolves, if no round can be reached. -/
theorem resolves (hg : g.Indexed) (hu : Shaped j g u) (hk : g.serial? a = some k)
    (hacyclic : ∀ c, ReflTransGen g.Draws a c → ¬ TransGen g.Draws c c)
    (hF : ∀ m, g.Above a m → Computes u j m (F m)) : Resolves g u i j a k F := by
  have hfollows := hg.follows_resolve (i := i) hu hk hacyclic hF
  refine ⟨?_, ?_, ?_, ?_, ?_, fun values s h hlabels => hg.resolve_again hu hk hacyclic hF h hlabels rfl⟩
  · intro b m hb hm
    exact Reference.evaluate_eq hg hu hm fun c hc => hacyclic c (hb.trans hc)
  · constructor
    · intro hok
      rw [Option.isSome_iff_ne_none]
      intro hnone
      obtain ⟨e, he⟩ := hfollows.1 hnone
      rw [hok] at he
      cases he
    · intro hsome
      obtain ⟨⟨values, s⟩, h⟩ := Option.isSome_iff_exists.1 hsome
      exact (hfollows.2 values s h).1
  · intro values s h
    obtain ⟨-, htracks, hvalues⟩ := hfollows.2 values s h
    exact ⟨hvalues, htracks⟩
  · intro values s p h hp hpull
    refine Reference.filled_evaluate hg hu hk ?_ hp hpull h
    rintro ⟨b, hab, hb⟩
    rw [hg.serial?_inj hb hk] at hab
    exact hacyclic a .refl hab
  · obtain ⟨n, hn, hid⟩ := hg.placed hk
    have htouching : Touching j (fun m _ => m = k ∨ g.Above a m) (fun m p => g.Above a m ∧ u.isDataOutput ⟨j, m⟩ p = true) u
        (resolveWithin i (g.arena.size + 1) [a] ⟨j, k⟩) :=
      touching_resolveWithin hg hu (.refl j u) hk hF (fun _ => .inl rfl) (fun _ _ h => .inr h) (fun _ _ h hp => ⟨h, hp⟩) [a]
    rw [hu.resolve_eq hn hid]
    exact htouching.upholds (.refl u)

end Graph.Indexed

end FlowGraph
