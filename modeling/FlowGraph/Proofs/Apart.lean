import FlowGraph.Proofs.Retained
import FlowGraph.Proofs.Showing

/-!
The payloads of one node stay apart. While there is a single engine, whatever behaviours and hosts do, and turn by turn, no
fiber that has written what it carries for an event node has another before it in the queue that carries something else.
-/
namespace FlowGraph

open World Play

/-- There is no engine but one, and what its fibers carry for the node does not get mixed. The fiber `c` may be about to
fail. -/
structure Apart (u : World) (i : Nat) (x : NodeRef) (c : Option Nat) (w : World) : Prop where
  alone : ∀ j, j < w.engines.size → j = i
  unmixed : (w.engine i).Unmixed x (w.node x).Shows (u.node x).Accepts (u.wiresAt x "exec" = []) c
  lasting : (u.engine i).Lasting (w.engine i)

namespace InOrder

variable {u w : World} {cur : Nat → Option Nat} {i k : Nat}

theorem queue_lt (h : InOrder u cur w) (i : Nat) : ∀ k ∈ (w.engine i).queue, k < (w.engine i).fibers.size :=
  fun _ hk => (h.engine i).accounted.lt_size hk

theorem parent_lt (h : InOrder u cur w) (i : Nat) :
    ∀ k p, ((w.engine i).fiber k).parent = some p → p < (w.engine i).fibers.size := by
  intro k p hp
  by_cases hk : k < (w.engine i).fibers.size
  · exact Nat.lt_trans (((h.engine i).accounted.tallied k).parent p hp) hk
  · rw [Engine.fiber_out (Nat.not_lt.1 hk)] at hp
    cases hp

end InOrder

namespace Apart

variable {u v w : World} {cur : Nat → Option Nat} {i j f : Nat} {x : NodeRef} {c : Option Nat}

/-- Only the engines, the fibers of the one and their queue, and what the node shows count. -/
theorem congr (h : Apart u i x c w) (hs : v.engines.size = w.engines.size) (hf : (v.engine i).fibers = (w.engine i).fibers)
    (hq : (v.engine i).queue = (w.engine i).queue) (hc : (v.engine i).current = (w.engine i).current)
    (ho : (v.node x).outputs = (w.node x).outputs) : Apart u i x c v where
  alone := hs ▸ h.alone
  unmixed := (h.unmixed.congr hf hq hc).reshow (.inr fun _ hv => hv.congr ho)
  lasting := h.lasting.trans (.of_fibers hf)

theorem frame (h : Apart u i x c w) (he : v.engines = w.engines) (ho : (v.node x).outputs = (w.node x).outputs) :
    Apart u i x c v := by
  have hengine := engine_congr he i
  exact h.congr (by rw [he]) (by rw [hengine]) (by rw [hengine]) (by rw [hengine]) ho

theorem aside (h : Apart u i x c w) (hg : v.graphs = w.graphs) (he : v.engines = w.engines) : Apart u i x c v :=
  h.frame he (outputs_of_graphs hg x)

/-- A change of engines that leaves the fibers and their queue alone. -/
theorem face (h : Apart u i x c w) (j : Nat) {g : Engine → Engine}
    (hg : ∀ e : Engine, (g e).fibers = e.fibers ∧ (g e).queue = e.queue ∧ (g e).current = e.current) :
    Apart u i x c (w.modifyEngine j g) := by
  have hsame : ((w.modifyEngine j g).engine i).fibers = (w.engine i).fibers ∧
      ((w.modifyEngine j g).engine i).queue = (w.engine i).queue ∧
      ((w.modifyEngine j g).engine i).current = (w.engine i).current := by
    rw [engine_modifyEngine]
    split
    · exact hg _
    · exact ⟨rfl, rfl, rfl⟩
  exact h.congr (by simp) hsame.1 hsame.2.1 hsame.2.2 rfl

theorem modifyNode (h : Apart u i x c w) (y : NodeRef) {g : Node → Node} (hg : ∀ n, (g n).outputs = n.outputs) :
    Apart u i x c (w.modifyNode y g) :=
  h.frame rfl (outputs_modifyNode w y hg x)

theorem modifyNode_of_ne (h : Apart u i x c w) {y : NodeRef} (hy : y ≠ x) (g : Node → Node) : Apart u i x c (w.modifyNode y g) :=
  h.frame rfl (outputs_modifyNode_of_ne w hy g)

theorem report (h : Apart u i x c w) (j : Nat) (e : Failure) : Apart u i x c (w.report j e) := by
  have hnoted := h.face j (g := fun e' => { e' with failures := e :: e'.failures }) fun _ => ⟨rfl, rfl, rfl⟩
  exact hnoted.frame (engines_report w j e) (outputs_report w j e x)

/-- A path may begin anywhere but in the name of the node, for which only those begin that an event fires. -/
theorem begin (hu : InOrder v cur w) (ho : Outlined u w) (h : Apart u i x c w) (j : Nat) (y : NodeRef) (output : String)
    {l : Option Listener} (hl : ∀ z, l = some z → z.Free) (values : List (String × Value))
    (hy : y = x → values = [] ∨ output = "exec" ∧ l = none) : Apart u i x c (w.begin j y output l values) := by
  have hlocal := Local.begin w j y output l values
  have hnil : values = [] → (w.stampOutputs y.graph values).1 = [] := by
    rintro rfl
    rfl
  by_cases hj : j < w.engines.size ∧ (w.engine j).isDisposed = false
  · obtain ⟨hj, hd⟩ := hj
    obtain rfl := h.alone j hj
    obtain ⟨root, kids, he, hentry, hlisteners, hbehind⟩ :=
      entered_begin hj hd ((hu.engine j).accounted.out (Nat.le_refl _)).2 y output hl values
    have hroot (vs : List (String × Value)) (hv : root.Carries x vs) : root.listeners = [] ∧ (vs.map (·.1)).Nodup ∧
        (u.wiresAt x "exec" = [] → kids = [] ∧ root.isComplete = true) := by
      rw [Fiber.Carries, hentry] at hv
      split at hv
      · cases hv
      · rename_i hsome
        cases hv
        rcases hy rfl with hnone | ⟨rfl, rfl⟩
        · rw [hnil hnone] at hsome
          exact absurd rfl hsome
        · refine ⟨List.eq_nil_iff_forall_not_mem.2 fun z hz => ?_, Table.nodup_keys_ofList _,
            fun hb => hbehind rfl ((ho.wiresAt x "exec").trans hb)⟩
          cases hlisteners z hz
    have hunmixed := Engine.Unmixed.enter (hu.queue_lt j) (hu.parent_lt j) h.unmixed he
      (fun k hk => (hu.engine j).accounted.current_lt hk) hroot
    refine ⟨hlocal.size ▸ h.alone, hunmixed.reshow ?_, h.lasting.trans (.enter he)⟩
    by_cases hb : u.wiresAt x "exec" = []
    · exact .inl hb
    · refine .inr fun vs hv => hv.congr (outputs_begin w ?_)
      rintro rfl
      refine (hy rfl).imp id ?_
      rintro ⟨rfl, -⟩
      exact .inl fun hw => hb ((ho.wiresAt y "exec").symm.trans hw)
  · have hengine : (w.begin j y output l values).engine i = w.engine i := by
      by_cases hji : i = j
      · subst hji
        by_cases hi : i < w.engines.size
        · rw [World.begin, if_pos (by simpa [hi] using hj)]
        · simp only [World.engine, Array.getElem?_eq_none (Nat.not_lt.1 hi),
            Array.getElem?_eq_none (Nat.not_lt.1 (hlocal.size ▸ hi))]
      · exact hlocal.others i hji
    refine h.congr hlocal.size (by rw [hengine]) (by rw [hengine]) (by rw [hengine]) ?_
    by_cases hd : (w.engine j).isDisposed = true
    · rw [World.begin, if_pos hd]
    · exact outputs_begin w fun _ => .inr (.inr fun hlt => hj ⟨hlt, Bool.eq_false_iff.2 hd⟩)

/-- The fiber at work commits. -/
theorem commitFiber (hu : InOrder v cur w) (h : Apart u i x none w) (hcur : cur j = some f) (y : NodeRef) (output : String)
    (l : Option Listener) : Apart u i x none (w.commitFiber j f y output l).2 := by
  unfold World.commitFiber
  split
  · exact h
  · have hj := hu.inside hcur
    obtain rfl := h.alone j hj
    have hcurrent := (hu.engine j).current.trans hcur
    have hf := (hu.engine j).accounted.current_lt hcurrent
    refine ⟨by simpa using h.alone, ?_, ?_⟩
    · rw [engine_modifyEngine_self hj]
      exact Engine.Unmixed.commit (hu.queue_lt j) (hu.parent_lt j) h.unmixed hcurrent hf y l _
    · rw [engine_modifyEngine_self hj]
      exact h.lasting.trans (.commit hf y l _)

/-- The fiber at work changes in what is its own business. -/
theorem alter (hu : InOrder v cur w) (h : Apart u i x c w) (hcur : cur j = some f) {g : Fiber → Fiber}
    (hentry : ∀ y, (g y).entry = y.entry) (hwritten : ∀ y, (g y).isWritten = y.isWritten)
    (hparent : ∀ y, (g y).parent = y.parent) : Apart u i x c (w.modifyEngine j (·.modifyFiber f g)) := by
  have hj := hu.inside hcur
  obtain rfl := h.alone j hj
  refine ⟨by simpa using h.alone, ?_, ?_⟩
  · rw [engine_modifyEngine_self hj]
    exact h.unmixed.alter ((hu.engine j).current.trans hcur) hentry hwritten hparent
  · rw [engine_modifyEngine_self hj]
    exact h.lasting.trans (.modifyFiber _ f hentry)

theorem endFiber (hu : InOrder v cur w) (h : Apart u i x c w) (hcur : cur j = some f) (y : NodeRef) :
    Apart u i x c (w.endFiber j f y).2 := by
  unfold World.endFiber
  split
  · exact h
  · exact h.alter hu hcur (fun _ => rfl) (fun _ => rfl) fun _ => rfl

theorem modifyOperation (h : Apart u i x c w) (j o : Nat) (g : Operation → Operation) :
    Apart u i x c (w.modifyEngine j (·.modifyOperation o g)) :=
  h.face j fun _ => ⟨rfl, rfl, rfl⟩

theorem relinquish (h : Apart u i x c w) (j o : Nat) : Apart u i x c (w.relinquish j o) :=
  relinquish_upholds (h.modifyOperation j o _) h

/-- The queue of an engine that is disposed of is emptied. -/
theorem clear (h : Apart u i x c w) (j : Nat) : Apart u i x c (w.modifyEngine j fun e => { e with queue := [], inbox := [] }) := by
  refine ⟨by simpa using h.alone, ?_, ?_⟩
  · rw [engine_modifyEngine]
    split
    · have hshort : ((w.engine i).current.toList ++ []).Sublist (w.engine i).line :=
        List.Sublist.append_left (List.nil_sublist _) _
      exact (h.unmixed.regroup (fun _ hk => hk) hshort).congr rfl rfl rfl
    · exact h.unmixed
  · rw [engine_modifyEngine]
    split
    · exact h.lasting.trans (.of_fibers rfl)
    · exact h.lasting

/-- Any fiber may be about to fail. -/
theorem doubt (h : Apart u i x none w) (c : Option Nat) : Apart u i x c w where
  alone := h.alone
  unmixed := h.unmixed.doubt c
  lasting := h.lasting

section Turn

variable {s : World} {others : List Nat}

/-- The node shows what the fiber at work carries. -/
theorem shows (h : Apart u i x none w) (hc : (w.engine i).current = some f) {values : List (String × Value)}
    (hv : ((w.engine i).fiber f).Carries x values) : (w.node x).Shows values :=
  h.unmixed.shown f (Engine.mem_line.2 (.inl hc)) values hv (h.unmixed.written f hc) (h.unmixed.fit f hc (by simp) values hv)

theorem accepts_iff (ho : Outlined u w) (values : List (String × Value)) : (w.node x).Accepts values ↔ (u.node x).Accepts values :=
  ⟨fun h => h.congr (ho.node x).symm, fun h => h.congr (ho.node x)⟩

/-- The head of the queue gets to work and writes what it carries. If that cannot be written, it is about to fail. -/
theorem write (hu : InOrder v atRest w) (ho : Outlined u w) (h : Apart u i x none w)
    (hq : (w.engine i).queue = f :: others) (hready : ((w.engine i).fiber f).isReady = true) {out : Except Failure Unit}
    (ht : (atWork i f others w).applyEntry i f = (out, s)) :
    Apart u i x (if out.isOk then none else some f) s := by
  have hi : i < w.engines.size := by simpa using (hu.take hq).there
  have hthere : i < (atWork i f others w).engines.size := (hu.take hq).there
  have hlocal := Local.applyEntry (atWork i f others w) i f
  have hengine := engine_applyEntry hthere f
  have htaken := engine_atWork hi f others
  have hgraphs : (atWork i f others w).node x = w.node x := rfl
  have hsize : (atWork i f others w).engines.size = w.engines.size := by simp [atWork, unqueued]
  generalize atWork i f others w = t at ht hlocal hengine htaken hgraphs hsize
  have hout : s = (t.applyEntry i f).2 := by rw [ht]
  rw [← hout] at hlocal hengine
  rw [htaken] at hengine
  have hfiber : (t.engine i).fiber f = (w.engine i).fiber f := by rw [htaken]; rfl
  have hnodup := (hu.engine i).accounted.nodup
  rw [hq, List.nodup_cons] at hnodup
  have hlt : f < (w.engine i).fibers.size := hu.queue_lt i f (by rw [hq]; exact List.mem_cons_self)
  -- What is yet to be written is what is carried.
  have hdue {values : List (String × Value)} (hv : ((w.engine i).fiber f).Carries x values)
      (hw : ((w.engine i).fiber f).isWritten = false) : ((t.engine i).fiber f).due = some (x, values) := by
    rw [hfiber]
    exact due_eq_some.2 ⟨hv, hw⟩
  refine ⟨by rw [hlocal.size, hsize]; exact h.alone, ?_, ?_⟩
  · rw [hengine]
    refine h.unmixed.write (hu.engine i).current hq hlt hnodup.1 (fun vs hv hw hfits => ?_) (fun hdone vs hv => ?_) fun hc vs hv => ?_
    · cases out with
      | ok _ => exact (shows_applyEntry ht (hdue hv hw) (h.unmixed.distinct f vs hv)).1
      | error e =>
        have hrefused := not_accepts_of_applyEntry ht (hdue hv hw)
        rw [hgraphs] at hrefused
        exact absurd ((accepts_iff ho vs).2 hfits) hrefused
    · rw [← hgraphs] at hv
      rw [hout]
      refine hv.congr (outputs_applyEntry fun values hd => ?_)
      rw [hfiber] at hd
      obtain ⟨hcarries, hopen⟩ := due_eq_some.1 hd
      rw [hdone values hcarries] at hopen
      cases hopen
    · cases out with
      | error e => exact absurd rfl hc
      | ok _ =>
        by_cases hw : ((w.engine i).fiber f).isWritten = true
        · apply Classical.byContradiction
          intro hfits
          obtain ⟨hnext, hlisteners⟩ := h.unmixed.idle f (by simp) vs hv hw hfits
          rw [Fiber.isReady, Fiber.isComplete, Fiber.isWaiting, hnext, hlisteners] at hready
          revert hready
          cases ((w.engine i).fiber f).isAborted <;> cases ((w.engine i).fiber f).pending <;> simp
        · have haccepts := (shows_applyEntry ht (hdue hv (Bool.eq_false_iff.2 hw)) (h.unmixed.distinct f vs hv)).2
          rw [hgraphs] at haccepts
          exact (accepts_iff ho vs).1 haccepts
  · rw [hengine]
    have htaken : (w.engine i).Lasting { w.engine i with queue := others, current := some f } := .of_fibers rfl
    exact h.lasting.trans (htaken.trans (.modifyFiber _ f fun _ => rfl))

/-- A fiber that waits in the queue for its turn but cannot go on is over, and has written what it carries. -/
theorem pop (hu : InOrder v atRest w) (h : Apart u i x none w) (hq : (w.engine i).queue = f :: others)
    (hidle : ((w.engine i).fiber f).isReady = false) : Apart u i x none (Play.pop i f others w) := by
  have hi : i < w.engines.size := by simpa using (hu.take hq).there
  have hmem : f ∈ (w.engine i).queue := by rw [hq]; exact List.mem_cons_self
  have hrest := (hu.engine i).current
  obtain ⟨-, hopen, hpending⟩ := ((hu.engine i).accounted.tallied f).queued hmem
  have hrunning : ((w.engine i).fiber f).isAborted = false := by
    refine Bool.eq_false_iff.2 fun ha => ?_
    rcases ((hu.engine i).accounted.tallied f).aborted ha with hfin | hc
    · rw [hopen] at hfin
      cases hfin
    · rw [hrest] at hc
      cases hc
  have hcomplete : ((w.engine i).fiber f).isComplete = true := by
    simpa [Fiber.isReady, Fiber.isWaiting, hpending] using hidle
  have hwritten (vs : List (String × Value)) (hv : ((w.engine i).fiber f).Carries x vs) :
      ((w.engine i).fiber f).isWritten = true := by
    cases hw : ((w.engine i).fiber f).isWritten with
    | true => rfl
    | false =>
      have hnext := h.unmixed.ready f hmem vs hv hw
      simp [Fiber.isComplete, hrunning, ← Option.not_isSome, hnext] at hcomplete
  have hline : (w.engine i).line = f :: others := by rw [Engine.line_of_rest hrest, hq]
  rw [Play.pop, if_pos hcomplete, modifyEngine_modifyEngine]
  refine ⟨by simpa using h.alone, ?_, ?_⟩
  · rw [engine_modifyEngine_self hi]
    have hpopped := h.unmixed.finish (d := none) (fun _ hk => by cases hk) hline hwritten
      (by rw [hline]; exact List.sublist_cons_self _ _)
    refine hpopped.congr rfl rfl ?_
    rw [Engine.finish_frame]
    exact hrest
  · rw [engine_modifyEngine_self hi]
    have htaken : (w.engine i).Lasting { w.engine i with queue := others } := .of_fibers rfl
    exact h.lasting.trans (htaken.trans (.finish _ f))

section AtWork

variable (hu : InOrder v (onlyAt i f) w)

include hu

/-- The fiber at work goes back to the head of the queue. -/
theorem requeue (h : Apart u i x c w) :
    Apart u i x c (w.modifyEngine i fun e => { e with queue := f :: e.queue, current := none }) := by
  have hline := Engine.line_of_current hu.atWork.current
  refine ⟨by simpa using h.alone, ?_, ?_⟩
  · rw [engine_modifyEngine_self hu.there]
    exact h.unmixed.regroup (d := none) (fun _ hk => by cases hk) (by rw [hline]; exact List.Sublist.refl _)
  · rw [engine_modifyEngine_self hu.there]
    exact h.lasting.trans (.of_fibers rfl)

/-- The fiber at work makes room. -/
theorem cede (h : Apart u i x c w) :
    Apart u i x c ((if ((w.engine i).fiber f).isComplete then w.modifyEngine i (·.finish f) else w).modifyEngine i
      fun e => { e with current := none }) := by
  have hcurrent := hu.atWork.current
  have hline := Engine.line_of_current hcurrent
  have hself : ((none : Option Nat).toList ++ (w.engine i).queue).Sublist (w.engine i).line := by
    rw [hline]
    exact List.sublist_cons_self _ _
  split
  · rw [modifyEngine_modifyEngine]
    refine ⟨by simpa using h.alone, ?_, ?_⟩
    · rw [engine_modifyEngine_self hu.there]
      exact h.unmixed.finish (fun _ hk => by cases hk) hline (fun _ _ => h.unmixed.written f hcurrent) hself
    · rw [engine_modifyEngine_self hu.there]
      exact (h.lasting.trans (.finish _ f)).trans (.of_fibers rfl)
  · refine ⟨by simpa using h.alone, ?_, ?_⟩
    · rw [engine_modifyEngine_self hu.there]
      exact h.unmixed.regroup (fun _ hk => by cases hk) hself
    · rw [engine_modifyEngine_self hu.there]
      exact h.lasting.trans (.of_fibers rfl)

/-- The fiber at work fails. -/
theorem abort (h : Apart u i x c w) : Apart u i x c (w.modifyEngine i fun e => { e with steps := e.steps + 1 }.abort f) := by
  have hcurrent := hu.atWork.current
  have hcounted : ({ w.engine i with steps := (w.engine i).steps + 1 } : Engine).Unmixed x (w.node x).Shows
      (u.node x).Accepts (u.wiresAt x "exec" = []) c := h.unmixed.congr rfl rfl rfl
  have hstopped := hcounted.alter hcurrent (g := fun x => { x with isAborted := true, next := none, listeners := [] })
    (fun _ => rfl) (fun _ => rfl) fun _ => rfl
  refine ⟨by simpa using h.alone, ?_, ?_⟩
  · rw [engine_modifyEngine_self hu.there]
    have hover := hstopped.finish (d := some f) (fun k hk => hcurrent.trans hk) (Engine.line_of_current hcurrent)
      (fun _ _ => hstopped.written f hcurrent) (Engine.line_of_current hcurrent ▸ List.Sublist.refl _)
    refine hover.congr rfl rfl ?_
    rw [Engine.abort, Engine.finish_frame]
    exact hcurrent
  · rw [engine_modifyEngine_self hu.there]
    have hcounted : (w.engine i).Lasting { w.engine i with steps := (w.engine i).steps + 1 } := .of_fibers rfl
    have hmarked : Engine.Lasting { w.engine i with steps := (w.engine i).steps + 1 } _ :=
      .modifyFiber _ f (g := fun x => { x with isAborted := true, next := none, listeners := [] }) fun _ => rfl
    exact h.lasting.trans (hcounted.trans (hmarked.trans (.finish _ f)))

end AtWork

/-- Who was about to fail is idle, and so nobody is about to fail. -/
theorem settle (h : Apart u i x c w) (hrest : (w.engine i).current = none)
    (hidle : ∀ k, c = some k → ((w.engine i).fiber k).next = none ∧ ((w.engine i).fiber k).listeners = []) :
    Apart u i x none w where
  alone := h.alone
  unmixed := h.unmixed.excuse hrest hidle
  lasting := h.lasting

end Turn

end Apart

end FlowGraph
