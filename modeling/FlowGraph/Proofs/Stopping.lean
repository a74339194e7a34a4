import FlowGraph.Proofs.Completion
import FlowGraph.Proofs.OtherEngines
import FlowGraph.Proofs.Reckoning

/-!
What is left of a drain whose engine is disposed of in the middle of a step. The queue is emptied and nothing new gets
in from outside, but the step goes on: of all that was queued, only what belongs to the fiber at work can come back.
-/
namespace FlowGraph

open World Play

/-- Once the engine is disposed of, only children of the fiber at work stand in its queue. If `shut`, it is. -/
structure Subdued (i : Nat) (c : Option Nat) (shut : Prop) (w : World) : Prop where
  isDisposed : shut → (w.engine i).isDisposed = true
  queue : (w.engine i).isDisposed = true → ∀ k ∈ (w.engine i).queue, ∃ f, c = some f ∧ ((w.engine i).fiber k).parent = some f

namespace Subdued

variable {i j : Nat} {c : Option Nat} {shut : Prop} {w v : World}

theorem congr (h : Subdued i c shut w) (hf : (v.engine i).fibers = (w.engine i).fibers)
    (hq : (v.engine i).queue = (w.engine i).queue) (hd : (v.engine i).isDisposed = (w.engine i).isDisposed) :
    Subdued i c shut v := by
  refine ⟨fun hs => hd.trans (h.isDisposed hs), ?_⟩
  rw [hd, hq]
  intro hdisposed k hk
  rw [Engine.fiber_congr hf]
  exact h.queue hdisposed k hk

theorem of_engine (h : Subdued i c shut w) (he : v.engine i = w.engine i) : Subdued i c shut v :=
  h.congr (by rw [he]) (by rw [he]) (by rw [he])

theorem of_engines (h : Subdued i c shut w) (he : v.engines = w.engines) : Subdued i c shut v :=
  h.of_engine (engine_congr he i)

/-- A change of what concerns neither fibers nor queue. -/
theorem face (h : Subdued i c shut w) (j : Nat) {g : Engine → Engine}
    (hg : ∀ e : Engine, (g e).fibers = e.fibers ∧ (g e).queue = e.queue ∧ (g e).isDisposed = e.isDisposed) :
    Subdued i c shut (w.modifyEngine j g) := by
  by_cases hj : i = j ∧ j < w.engines.size
  · obtain ⟨rfl, hlt⟩ := hj
    have he := engine_modifyEngine_self (w := w) hlt g
    obtain ⟨hf, hq, hd⟩ := hg (w.engine i)
    exact h.congr (by rw [he, hf]) (by rw [he, hq]) (by rw [he, hd])
  · refine h.of_engine ?_
    rw [engine_modifyEngine, if_neg fun hk => hj ⟨hk.1.symm, hk.2⟩]

theorem report (h : Subdued i c shut w) (j : Nat) (e : Failure) : Subdued i c shut (w.report j e) := by
  have hs := same_report w i j e
  exact h.congr hs.fibers hs.queue ((Local.report w j e).isDisposed i)

/-- Nothing is begun on an engine that is disposed of. -/
theorem begin (h : Subdued i c shut w) (j : Nat) (x : NodeRef) (output : String) (l : Option Listener)
    (values : List (String × Value)) : Subdued i c shut (w.begin j x output l values) := by
  have hlocal := Local.begin w j x output l values
  by_cases hj : i = j
  · subst hj
    cases hd : (w.engine i).isDisposed with
    | true =>
      rw [World.begin, if_pos hd]
      exact h
    | false =>
      have hopen : ((w.begin i x output l values).engine i).isDisposed = false := (hlocal.isDisposed i).trans hd
      refine ⟨fun hs => absurd (h.isDisposed hs) (by rw [hd]; exact Bool.false_ne_true), fun hdisposed => ?_⟩
      rw [hopen] at hdisposed
      cases hdisposed
  · exact h.of_engine (hlocal.others i hj)

theorem complete (h : Subdued i c shut w) (j o : Nat) (output : Option String) : Subdued i c shut (w.complete j o output) := by
  refine complete_upholds (P := Subdued i c shut) ?_ ?_ ?_ ?_ ?_ h
  · exact fun v h => h.face j fun _ => ⟨rfl, rfl, rfl⟩
  · exact fun v x h => h.of_engines (engines_chooseOutput v x output)
  · exact fun v e h => h.report j e
  · exact fun v x name h => h.begin j x name none []
  · exact fun v e h => h.of_engines (engines_tell v j e)

theorem modifyOperation (h : Subdued i c shut w) (j o : Nat) (g : Operation → Operation) :
    Subdued i c shut (w.modifyEngine j (·.modifyOperation o g)) :=
  h.face j fun _ => ⟨rfl, rfl, rfl⟩

theorem finishOperation (h : Subdued i c shut w) (j o : Nat) (output : Option String) (fromOutside : Bool) :
    Subdued i c shut (w.finishOperation j o output fromOutside) := by
  refine finishOperation_upholds (P := Subdued i c shut) ?_ ?_ ?_ h
  · exact fun v h _ _ => h.modifyOperation j o _
  · exact fun v h _ => h.complete j o output
  · exact fun v h _ => h.face j fun _ => ⟨rfl, rfl, rfl⟩

theorem relinquish (h : Subdued i c shut w) (j o : Nat) : Subdued i c shut (w.relinquish j o) :=
  relinquish_upholds (h.modifyOperation j o _) h

theorem drainInbox (h : Subdued i c shut w) (j : Nat) : Subdued i c shut (w.drainInbox j) := by
  have hempty : Subdued i c shut (w.modifyEngine j fun e => { e with inbox := [] }) := h.face j fun _ => ⟨rfl, rfl, rfl⟩
  refine drainInbox_upholds hempty fun p _ v hv => ?_
  cases p with
  | complete o output => exact hv.complete j o output
  | begin x output l values => exact hv.begin j x output l values

/-- Only the fiber at work commits, and only its children come of that. -/
theorem commitFiber {u : World} {cur : Nat → Option Nat} (hu : InOrder u cur w) (h : Subdued i (cur i) shut w) {x : NodeRef}
    {j f : Nat} (hcur : cur j = some f) (output : String) (l : Option Listener) :
    Subdued i (cur i) shut (w.commitFiber j f x output l).2 := by
  unfold World.commitFiber
  split
  · exact h
  · by_cases hj : j = i
    · subst hj
      have hf := (hu.engine j).accounted.current_lt ((hu.engine j).current.trans hcur)
      generalize w.wiresAt x output = wires
      have hqueue : ((w.engine j).commit f x l wires).queue = if (w.engine j).current = some f
          then List.range' (w.engine j).fibers.size (Engine.branches wires).length ++ (w.engine j).queue
          else (w.engine j).queue ++ List.range' (w.engine j).fibers.size (Engine.branches wires).length := by
        rw [Engine.commit_eq hf]
      have hmem {k : Nat} (hk : k ∈ ((w.engine j).commit f x l wires).queue) :
          k ∈ List.range' (w.engine j).fibers.size (Engine.branches wires).length ∨ k ∈ (w.engine j).queue := by
        rw [hqueue] at hk
        split at hk
        · exact List.mem_append.1 hk
        · exact (List.mem_append.1 hk).symm
      have hd : ((w.engine j).commit f x l wires).isDisposed = (w.engine j).isDisposed := by rw [Engine.commit_eq hf]
      have he := engine_modifyEngine_self (hu.inside hcur) (·.commit f x l wires)
      refine ⟨fun hs => by rw [he, hd, h.isDisposed hs], ?_⟩
      rw [he, hd]
      intro hdisposed k hk
      rcases hmem hk with hnew | hold
      · exact ⟨f, hcur, (Engine.fresh_commit hf x l wires hnew).parent⟩
      · obtain ⟨g, hg, hparent⟩ := h.queue hdisposed k hold
        refine ⟨g, hg, ?_⟩
        rw [Engine.fiber_commit hf, if_pos ((hu.engine j).accounted.lt_size hold)]
        split
        · rw [Engine.onto_parent]
          exact hparent
        · exact hparent
    · refine h.of_engine ?_
      exact engine_modifyEngine_of_ne hj w _

/-- The fiber at work changes in what is its own business. -/
theorem modifyFiber (h : Subdued i c shut w) (j f : Nat) {g : Fiber → Fiber} (hg : ∀ x, (g x).parent = x.parent) :
    Subdued i c shut (w.modifyEngine j (·.modifyFiber f g)) := by
  by_cases hj : i = j ∧ j < w.engines.size
  · obtain ⟨rfl, hlt⟩ := hj
    have he := engine_modifyEngine_self (w := w) hlt (·.modifyFiber f g)
    refine ⟨fun hs => by rw [he]; exact h.isDisposed hs, ?_⟩
    rw [he]
    intro hdisposed k hk
    obtain ⟨q, hq, hparent⟩ := h.queue hdisposed k hk
    refine ⟨q, hq, ?_⟩
    rw [Engine.fiber_modifyFiber]
    split
    · rw [hg]
      exact hparent
    · exact hparent
  · refine h.of_engine ?_
    rw [engine_modifyEngine, if_neg fun hk => hj ⟨hk.1.symm, hk.2⟩]

/-- Short of disposing of engines, nothing gets others into the queue of an engine that is disposed of. -/
theorem manner (u : World) (cur : Nat → Option Nat) (i : Nat) (shut : Prop) : Manner
    (fun w _ => InOrder u cur w ∧ Subdued i (cur i) shut w) fun c => ∀ j k input, c.role = .flow j k input → cur j = some k where
  stamp g v w r h := ⟨(InOrder.closed u cur).stamp g v (r := r) h.1, h.2.of_engines (engines_stamp w g v)⟩
  write {_ r} h _ hc _ _ _ hn := ⟨(InOrder.closed u cur).write (r := r) h.1 hc hn, h.2.of_engines rfl⟩
  setState hc v _ r h := ⟨(InOrder.closed u cur).setState hc v (r := r) h.1, h.2.of_engines rfl⟩
  setInput x place v _ r h := ⟨(InOrder.closed u cur).setInput x place v (r := r) h.1, h.2.of_engines rfl⟩
  assign {_ r} h _ _ _ _ _ hg := ⟨(InOrder.closed u cur).assign (r := r) h.1 hg, h.2.of_engines rfl⟩
  record e he _ r h := ⟨(InOrder.closed u cur).record e he (r := r) h.1, h.2.of_engines rfl⟩
  tell j e he w r h := ⟨(InOrder.closed u cur).tell j e he (r := r) h.1, h.2.of_engines (engines_tell w j e)⟩
  hold hc _ r h := ⟨(InOrder.closed u cur).hold hc (r := r) h.1, h.2.of_engines rfl⟩
  schedule s _ r h := ⟨(InOrder.closed u cur).schedule s (r := r) h.1, h.2.of_engines rfl⟩
  store s _ r h := ⟨(InOrder.closed u cur).store s (r := r) h.1, h.2.of_engines rfl⟩
  subscribe t x _ r h := ⟨(InOrder.closed u cur).subscribe t x (r := r) h.1, h.2.of_engines rfl⟩
  unsubscribe s _ r h := ⟨(InOrder.closed u cur).unsubscribe s (r := r) h.1, h.2.of_engines rfl⟩
  enlist x _ hd _ r h := ⟨(InOrder.closed u cur).enlist x hd (r := r) h.1, h.2.of_engines rfl⟩
  unlist x _ r h := ⟨(InOrder.closed u cur).unlist x (r := r) h.1, h.2.of_engines rfl⟩
  report {j} hj id t x hx _ r h :=
    ⟨(InOrder.closed u cur).report (hj.mono fun _ _ h => h.1) id t x hx (r := r) h.1, h.2.report j _⟩
  begin j x output l hl values hx _ r h :=
    ⟨(InOrder.closed u cur).begin j x output hl values hx (r := r) h.1, h.2.begin j x output l values⟩
  commit hc output l hl _ r h :=
    ⟨(InOrder.closed u cur).commit hc output hl (r := r) h.1, commitFiber h.1 h.2 (hc _ _ _ rfl) output l⟩
  stop {x j f _} hc w r h := by
    refine ⟨(InOrder.closed u cur).stop hc (r := r) h.1, ?_⟩
    simp only [World.endFiber]
    split
    · exact h.2
    · exact h.2.modifyFiber j f fun _ => rfl
  register {_ r} h j hj x hx input :=
    ⟨(InOrder.closed u cur).register (r := r) h.1 (hj.mono fun _ _ h => h.1) x hx input, h.2.face j fun _ => ⟨rfl, rfl, rfl⟩⟩
  enrol {j o _} hd _ r h := ⟨(InOrder.closed u cur).enrol hd (r := r) h.1, h.2.modifyOperation j o _⟩
  finish j o output _ r h :=
    ⟨(InOrder.closed u cur).finish j o output (r := r) h.1, h.2.finishOperation j o output false⟩
  dismiss {w r} h j o hj ho := by
    refine ⟨(InOrder.closed u cur).dismiss (r := r) h.1 hj ho, ?_⟩
    have hstruck : Subdued i (cur i) shut (w.strike j o) := h.2.face j fun _ => ⟨rfl, rfl, rfl⟩
    exact hstruck.relinquish j o

/-- The disposal of another engine. -/
theorem endures (u : World) (cur : Nat → Option Nat) (shut : Prop) (hj : j ≠ i) :
    Endures (Upholds fun w => InOrder u cur w ∧ Subdued i (cur i) shut w) j where
  close {w r} h hd := by
    obtain ⟨rfl, h⟩ := h
    exact ⟨rfl, (InOrder.closed u cur).close (r := w) h.1 hd, h.2.of_engine (engine_modifyEngine_of_ne hj w _)⟩
  relinquish {w r} h ho hd o := by
    obtain ⟨rfl, h⟩ := h
    exact ⟨rfl, h.1.relinquish j o, h.2.relinquish j o⟩
  release {w r} h ho hd := by
    obtain ⟨rfl, h⟩ := h
    refine ⟨rfl, (InOrder.closed u cur).release (r := w) h.1 ?_ hd, h.2.face j fun _ => ⟨rfl, rfl, rfl⟩⟩
    exact ho.elim fun v ⟨s, hv, hopen⟩ => ⟨v, s, hv.2.1, hopen⟩
  clear {w r} h ho hd := by
    obtain ⟨rfl, h⟩ := h
    refine ⟨rfl, (InOrder.closed u cur).clear (r := w) h.1 ?_ hd, h.2.of_engine (engine_modifyEngine_of_ne hj w _)⟩
    exact ho.elim fun v ⟨s, hv, hopen⟩ => ⟨v, s, hv.2.1, hopen⟩

end Subdued

namespace Play

theorem ok_forM_abandon (dispose : Nat → Play Unit) (i : Nat) (os : List Nat) (w : World) :
    ((os.forM (abandon dispose i)).runOn w).1 = .ok ⟨⟩ := by
  induction os generalizing w with
  | nil => rfl
  | cons o os ih =>
    have hcons : ((o :: os).forM (abandon dispose i)).runOn w =
        (abandon dispose i o >>= fun _ => os.forM (abandon dispose i)).runOn w := rfl
    rw [hcons, runOn_bind, runOn_abandon_each]
    exact ih _

theorem disposeWithin_disposed {i fuel : Nat} {w : World} (hd : (w.engine i).isDisposed = true) :
    (disposeWithin fuel i).runOn w = (.ok (), w) := by
  cases fuel with
  | zero => rfl
  | succ fuel =>
    rw [disposeWithin, runOn_get, if_pos hd]
    rfl

/-- The world in which the operations of an engine are given up, whose event nodes are disposed of. -/
def released (dispose : Nat → Play Unit) (i : Nat) (w : World) : World :=
  ((disposeNodes dispose i (w.engine i).eventNodes).runOn (w.modifyEngine i fun e => { e with isDisposed := true })).2

/-- How an engine that is in use is disposed of. -/
theorem runOn_disposeWithin {fuel i : Nat} {w : World} (hd : (w.engine i).isDisposed = false) :
    (disposeWithin (fuel + 1) i).runOn w = (.ok (), ((((released (disposeWithin fuel) i w).engine i).pending.forM
      (abandon (disposeWithin fuel) i)).runOn ((released (disposeWithin fuel) i w).modifyEngine i
        fun e => { e with pending := [] })).2.modifyEngine i fun e => { e with queue := [], inbox := [] }) := by
  rw [disposeWithin, runOn_get]
  simp only [hd, Bool.false_eq_true, if_false]
  rw [runOn_bind, runOn_modify]
  have hnodes := ok_disposeNodes (disposeWithin fuel) i (w.engine i).eventNodes
    (w.modifyEngine i fun e => { e with isDisposed := true })
  unfold released
  dsimp only
  rw [runOn_bind]
  generalize (disposeNodes (disposeWithin fuel) i (w.engine i).eventNodes).runOn
    (w.modifyEngine i fun e => { e with isDisposed := true }) = p at hnodes
  obtain ⟨out, v⟩ := p
  simp only at hnodes
  subst hnodes
  dsimp only
  rw [runOn_get, runOn_bind, runOn_modify]
  have hgiven := ok_forM_abandon (disposeWithin fuel) i (v.engine i).pending (v.modifyEngine i fun e => { e with pending := [] })
  dsimp only
  rw [runOn_bind]
  generalize ((v.engine i).pending.forM (abandon (disposeWithin fuel) i)).runOn
    (v.modifyEngine i fun e => { e with pending := [] }) = p at hgiven
  obtain ⟨out, s⟩ := p
  simp only at hgiven
  subst hgiven
  rfl

/-- Whoever disposes of an engine leaves its queue empty: nothing that goes wrong on the way keeps it from that. -/
theorem queue_disposeWithin {i : Nat} (fuel : Nat) {w : World} (hd : (w.engine i).isDisposed = false) :
    (((disposeWithin (fuel + 1) i).runOn w).2.engine i).queue = [] := by
  rw [runOn_disposeWithin hd]
  generalize (((released (disposeWithin fuel) i w).engine i).pending.forM (abandon (disposeWithin fuel) i)).runOn _ = p
  show ((p.2.modifyEngine i fun e => { e with queue := [], inbox := [] }).engine i).queue = []
  rw [engine_modifyEngine]
  split
  · rfl
  · rename_i hi
    have hnone : p.2.engine i = default := by
      simp only [World.engine, Array.getElem?_eq_none (Nat.not_lt.1 fun h => hi ⟨rfl, h⟩)]
      rfl
    rw [hnone]
    rfl

end Play

namespace Subdued

variable {i j : Nat} {c : Option Nat} {shut : Prop} {u w v : World} {cur : Nat → Option Nat}

/-- Once an engine is disposed of, only children of the fiber at work get into its queue, whatever is done in contexts that
are bound to no fiber or to that one. -/
theorem conduct (u : World) (cur : Nat → Option Nat) (i : Nat) (shut : Prop) :
    Conduct (Upholds fun w => InOrder u cur w ∧ Subdued i (cur i) shut w)
      fun c => ∀ j k input, c.role = .flow j k input → cur j = some k := by
  have hO := InOrder.conduct u cur
  have hB := (manner u cur i shut).bearing (fun w h => hO.nodes ⟨rfl, h.1⟩) (fun w h => hO.enrolled ⟨rfl, h.1⟩)
    (fun w h x b => hO.function ⟨rfl, h.1⟩) fun w h x b => hO.async ⟨rfl, h.1⟩
  generalize (fun c : Context => ∀ j k input, c.role = .flow j k input → cur j = some k) = A at hO hB
  refine hB.conduct_of_ne (fun hj => endures u cur shut hj) fun hS fuel => ?_
  rintro w r ⟨⟨rfl, h⟩, hSw⟩
  cases hd : (w.engine i).isDisposed with
  | true =>
    rw [disposeWithin_disposed hd]
    exact ⟨rfl, ⟨rfl, h⟩, hSw⟩
  | false =>
    obtain ⟨-, ⟨-, hout⟩, hS'⟩ := hO.disposal hS (fuel + 1) i w w ⟨⟨rfl, h.1⟩, hSw⟩
    refine ⟨rfl, ⟨rfl, hout, fun hs => ?_, fun _ k hk => ?_⟩, hS'⟩
    · rw [h.2.isDisposed hs] at hd
      cases hd
    · rw [queue_disposeWithin fuel hd] at hk
      cases hk

theorem applyEntry {f : Nat} (hu : InOrder u (onlyAt j f) w) (h : Subdued i (onlyAt j f i) shut w) :
    Subdued i (onlyAt j f i) shut (w.applyEntry j f).2 := by
  have hmarked := h.modifyFiber j f (g := fun x => { x with isWritten := true }) fun _ => rfl
  by_cases hj : i = j
  · subst hj
    refine hmarked.of_engine ?_
    rw [engine_applyEntry hu.there, engine_modifyEngine_self hu.there]
  · exact h.of_engine ((Local.applyEntry w j f).others i hj)

theorem duty (u : World) (i j f : Nat) (shut : Prop) :
    Duty j f (fun c => ∀ j' k input, c.role = .flow j' k input → onlyAt j f j' = some k)
      fun w => InOrder u (onlyAt j f) w ∧ Subdued i (onlyAt j f i) shut w where
  conduct := conduct u _ i shut
  engages := ⟨default, f, "", InOrder.admitted default j f ""⟩
  reaches _ _ x _ _ input := InOrder.admitted x j f input
  heeds w h := (InOrder.duty u j f).heeds w h.1
  alter w h g hg hl hb := ⟨(InOrder.duty u j f).alter w h.1 g hg hl hb, h.2.modifyFiber j f fun x => (hg x).parent⟩

/-- A step of any engine gets nobody else into the queue of one that is disposed of. -/
theorem step {f : Nat} (hu : InOrder u (onlyAt j f) w) (h : Subdued i (onlyAt j f i) shut w) :
    Subdued i (onlyAt j f i) shut ((Play.step j f).runOn w).2 := by
  have happly : InOrder u (onlyAt j f) (w.applyEntry j f).2 ∧ Subdued i (onlyAt j f i) shut (w.applyEntry j f).2 :=
    ⟨hu.applyEntry, h.applyEntry hu⟩
  rw [runOn_step]
  split
  · rename_i v heq
    rw [heq] at happly
    exact ((duty u i j f shut).proceed happly).2
  · rename_i e v heq
    rw [heq] at happly
    exact happly.2

/-- What hosts and other engines do leaves the engine stopped. -/
theorem hosted (u : World) (i : Nat) (shut : Prop) : Hosted (fun c => ∀ j k input, c.role = .flow j k input → atRest j = some k)
    fun w => InOrder u atRest w ∧ Subdued i none shut w where
  conduct := conduct u atRest i shut
  push w h name nodes eventNodes settings := by
    refine ⟨(InOrder.hosted u).push w h.1 name nodes eventNodes settings, ?_⟩
    by_cases hi : i = w.engines.size
    · have hnone : w.engine i = {} := by simp [World.engine, hi]; rfl
      have hnew (e : Engine) : ({ w with engines := w.engines.push e } : World).engine i = e := by
        simp [World.engine, hi]
      refine ⟨fun hs => ?_, ?_⟩
      · have := h.2.isDisposed hs
        rw [hnone] at this
        cases this
      · rw [hnew]
        exact fun hd => by cases hd
    · refine h.2.of_engine ?_
      simp only [World.engine, Array.getElem?_push, if_neg hi]
  observe w h j b := ⟨(InOrder.hosted u).observe w h.1 j b, h.2.face j fun _ => ⟨rfl, rfl, rfl⟩⟩
  post w h j x output _ values hl :=
    ⟨(InOrder.hosted u).post w h.1 j x output values hl, h.2.face j fun _ => ⟨rfl, rfl, rfl⟩⟩
  finish w h j o output fromOutside ho :=
    ⟨(InOrder.hosted u).finish w h.1 j o output fromOutside ho, h.2.finishOperation j o output fromOutside⟩
  drainInbox w h j := ⟨h.1.drainInbox j, h.2.drainInbox j⟩

theorem aloof (u : World) (i : Nat) (shut : Prop) : Aloof i u (Subdued i none shut) where
  of_engine h _ he := h.of_engine he
  conduct {j} hj f := by
    have hC := conduct u (onlyAt j f) i shut
    rwa [InOrder.onlyAt_of_ne hj.symm] at hC
  drainInbox h j := h.drainInbox j

/-- An iteration of an engine is none of the business of another that is disposed of, and has none to take itself. -/
theorem iteration (hu : InOrder u atRest w) (h : Subdued i none True w) (hi : Iteration j w v) : Subdued i none True v := by
  refine (aloof u i True).iteration hu h hi ?_
  rintro rfl
  obtain ⟨f, others, hq⟩ := List.exists_cons_of_ne_nil hi.queue_ne_nil
  obtain ⟨_, hf, -⟩ := h.queue (h.isDisposed trivial) f (by rw [hq]; exact List.mem_cons_self)
  cases hf

/-- An engine that is disposed of with nothing in its queue stays so. -/
theorem passage (hu : InOrder u atRest w) (h : Subdued i none True w) (hp : Passage w v) :
    InOrder u atRest v ∧ Subdued i none True v := by
  induction hp with
  | refl => exact ⟨hu, h⟩
  | deed _ hd ih =>
    exact (hosted u i True).deed (fun _ hc j k input hrole => absurd hrole (hc j k input))
      (fun h he hd => ⟨h.1.frame he hd, h.2.of_engines he⟩)
      (fun j b hv => hv ▸ ⟨ih.1.setWake j b, ih.2.face j fun _ => ⟨rfl, rfl, rfl⟩⟩) ih hd
  | iteration _ hi ih => exact ⟨ih.1.iteration hi, ih.2.iteration ih.1 hi⟩

end Subdued

/-- The engine is disposed of, and its fibers and their queue are as they were. -/
structure Still (i : Nat) (w v : World) : Prop where
  isDisposed : (v.engine i).isDisposed = true
  fibers : (v.engine i).fibers = (w.engine i).fibers
  queue : (v.engine i).queue = (w.engine i).queue

namespace Still

variable {i : Nat} {w v z : World}

theorem of_engine (h : Still i w v) (hd : (z.engine i).isDisposed = (v.engine i).isDisposed)
    (hf : (z.engine i).fibers = (v.engine i).fibers) (hq : (z.engine i).queue = (v.engine i).queue) : Still i w z :=
  ⟨hd.trans h.isDisposed, hf.trans h.fibers, hq.trans h.queue⟩

theorem of_engines (h : Still i w v) (he : z.engines = v.engines) : Still i w z :=
  h.of_engine (by rw [engine_congr he]) (by rw [engine_congr he]) (by rw [engine_congr he])

theorem modifyEngine (h : Still i w v) {g : Engine → Engine}
    (hg : ∀ e : Engine, (g e).isDisposed = e.isDisposed ∧ (g e).fibers = e.fibers ∧ (g e).queue = e.queue) :
    Still i w (v.modifyEngine i g) := by
  have he : ((v.modifyEngine i g).engine i).isDisposed = (v.engine i).isDisposed ∧
      ((v.modifyEngine i g).engine i).fibers = (v.engine i).fibers ∧
      ((v.modifyEngine i g).engine i).queue = (v.engine i).queue := by
    rw [engine_modifyEngine]
    split
    · exact hg _
    · exact ⟨rfl, rfl, rfl⟩
  exact h.of_engine he.1 he.2.1 he.2.2

theorem begin (h : Still i w v) (x : NodeRef) (output : String) (l : Option Listener) (values : List (String × Value)) :
    Still i w (v.begin i x output l values) := by
  rw [World.begin, if_pos h.isDisposed]
  exact h

theorem complete (h : Still i w v) (o : Nat) (output : Option String) : Still i w (v.complete i o output) := by
  refine complete_upholds (P := Still i w) ?_ ?_ ?_ ?_ ?_ h
  · exact fun v hv => hv.modifyEngine fun _ => ⟨rfl, rfl, rfl⟩
  · exact fun v x hv => hv.of_engines (engines_chooseOutput v x output)
  · intro v e hv
    have hs := same_report v i i e
    exact hv.of_engine ((Local.report v i e).isDisposed i) hs.fibers hs.queue
  · exact fun v x name hv => hv.begin x name none []
  · exact fun v e hv => hv.of_engines (engines_tell v i e)

/-- What other threads asked of an engine that is disposed of comes to nothing. -/
theorem drainInbox (hd : (w.engine i).isDisposed = true) : Still i w (w.drainInbox i) := by
  have hempty : Still i w (w.modifyEngine i fun e => { e with inbox := [] }) :=
    modifyEngine ⟨hd, rfl, rfl⟩ fun _ => ⟨rfl, rfl, rfl⟩
  unfold World.drainInbox
  simp only
  generalize (w.engine i).inbox = posts
  generalize w.modifyEngine i (fun e => { e with inbox := [] }) = v at hempty
  induction posts generalizing v with
  | nil => exact hempty
  | cons p posts ih =>
    refine ih _ ?_
    cases p with
    | complete o output => exact hempty.complete o output
    | begin x output l values => exact hempty.begin x output l values

end Still

namespace Engine

variable {e e' : Engine} {f : Nat}

/-- Nobody stands in the queue but children of the fiber and its parent. -/
def OnlyKin (e : Engine) (f : Nat) : Prop :=
  ∀ k ∈ e.queue, (e.fiber k).parent = some f ∨ (e.fiber f).parent = some k

theorem OnlyKin.congr (h : e.OnlyKin f) (hf : e'.fibers = e.fibers) (hq : e'.queue = e.queue) : e'.OnlyKin f := by
  intro k hk
  rw [hq] at hk
  rw [fiber_congr hf, fiber_congr hf]
  exact h k hk

/-- The end of the fiber calls nobody but its parent. -/
theorem OnlyKin.finish (h : e.OnlyKin f) (ha : e.Accounted) (hc : e.current = some f) : (e.finish f).OnlyKin f := by
  have hf := ha.current_lt hc
  have hparent := (Outlived.finish hf (ha.tallied f).parent).parent
  cases hopen : (e.fiber f).finished with
  | true =>
    rw [finish_eq_self hopen]
    exact h
  | false =>
    have hov := finishing_finish hf hopen (ha.tallied f).parent
    have hold (k : Nat) (hk : k ∈ e.queue) :
        ((e.finish f).fiber k).parent = some f ∨ ((e.finish f).fiber f).parent = some k := by
      rw [hparent k (ha.lt_size hk), hparent f hf]
      exact h k hk
    intro k hk
    rcases hov.queue with hq | ⟨p, hp, hq⟩
    · rw [hq] at hk
      exact hold k hk
    · rw [hq] at hk
      rcases List.mem_cons.1 hk with rfl | hk
      · rw [hparent f hf]
        exact .inr hp
      · exact hold k hk

theorem OnlyKin.abort (h : e.OnlyKin f) (ha : e.Accounted) (hc : e.current = some f) : (e.abort f).OnlyKin f := by
  have hparent (k : Nat) : ((e.modifyFiber f fun x => { x with isAborted := true, next := none, listeners := [] }).fiber
      k).parent = (e.fiber k).parent := by
    rw [fiber_modifyFiber]
    split
    · rfl
    · rfl
  refine OnlyKin.finish (fun k hk => ?_) (ha.alter hc (fun _ => rfl) (fun _ => rfl) (fun _ => rfl) fun _ ha => by cases ha) hc
  rw [hparent, hparent]
  exact h k hk

end Engine

namespace World

theorem isDisposed_modifyEngine (w : World) (i : Nat) {g : Engine → Engine} (hg : ∀ e : Engine, (g e).isDisposed = e.isDisposed) :
    ((w.modifyEngine i g).engine i).isDisposed = (w.engine i).isDisposed := by
  rw [engine_modifyEngine]
  split
  · exact hg _
  · rfl

/-- What other threads post never disposes of an engine. -/
theorem isDisposed_drainInbox (w : World) (i : Nat) : ((w.drainInbox i).engine i).isDisposed = (w.engine i).isDisposed := by
  have hempty := w.isDisposed_modifyEngine i (g := fun e => { e with inbox := [] }) fun _ => rfl
  unfold World.drainInbox
  simp only
  rw [← hempty]
  generalize (w.engine i).inbox = posts
  generalize w.modifyEngine i (fun e => { e with inbox := [] }) = v
  induction posts generalizing v with
  | nil => rfl
  | cons p posts ih =>
    refine (ih _).trans ?_
    cases p with
    | complete o output =>
      refine complete_upholds (P := fun z => (z.engine i).isDisposed = (v.engine i).isDisposed) ?_ ?_ ?_ ?_ ?_ rfl
      · exact fun z hz => (z.isDisposed_modifyEngine i (g := fun e => { e with pending := e.pending.erase o }) fun _ => rfl).trans hz
      · exact fun z x hz => by rw [engine_congr (engines_chooseOutput z x output), hz]
      · exact fun z e hz => ((Local.report z i e).isDisposed i).trans hz
      · exact fun z x name hz => ((Local.begin z i x name none []).isDisposed i).trans hz
      · exact fun z e hz => by rw [engine_congr (engines_tell z i e), hz]
    | begin x output l values => exact (Local.begin v i x output l values).isDisposed i

theorem isDisposed_rest (w : World) (i f : Nat) : ((Play.rest w i f).engine i).isDisposed = (w.engine i).isDisposed := by
  unfold Play.rest
  simp only
  split
  · exact w.isDisposed_modifyEngine i (g := fun e => { e with queue := f :: e.queue, current := none }) fun _ => rfl
  · refine (isDisposed_drainInbox _ i).trans ?_
    split
    · have hfinish := w.isDisposed_modifyEngine i (g := (·.finish f)) fun e => by rw [Engine.finish_frame]
      exact (isDisposed_modifyEngine _ i (g := fun e => { e with current := none }) fun _ => rfl).trans hfinish
    · exact w.isDisposed_modifyEngine i (g := fun e => { e with current := none }) fun _ => rfl

end World

section Turn

variable {i f : Nat} {u w v s : World}

/-- At the end of a turn on an engine that is disposed of, only the fiber itself and its kin are left. -/
theorem onlyKin_rest (h : InOrder u (onlyAt i f) s) (hd : (s.engine i).isDisposed = true) (hk : (s.engine i).OnlyKin f) :
    ∀ k ∈ ((Play.rest s i f).engine i).queue, k = f ∨ (((Play.rest s i f).engine i).fiber k).parent = some f ∨
      (((Play.rest s i f).engine i).fiber f).parent = some k := by
  have hi := h.there
  unfold Play.rest
  simp only
  split
  · rw [engine_modifyEngine_self hi]
    intro k hmem
    rcases List.mem_cons.1 hmem with rfl | hmem
    · exact .inl rfl
    · exact .inr (hk k hmem)
  · refine fun k hmem => .inr ?_
    have hleft : ∃ t : World, (t.engine i).isDisposed = true ∧ (t.engine i).OnlyKin f ∧
        t.drainInbox i = ((if ((s.engine i).fiber f).isComplete = true then s.modifyEngine i (·.finish f) else s).modifyEngine i
          fun e => { e with current := none }).drainInbox i := by
      refine ⟨_, ?_, ?_, rfl⟩
      · split
        · rw [modifyEngine_modifyEngine, engine_modifyEngine_self hi]
          rw [Engine.finish_frame]
          exact hd
        · rw [engine_modifyEngine_self hi]
          exact hd
      · split
        · rw [modifyEngine_modifyEngine, engine_modifyEngine_self hi]
          exact (hk.finish h.atWork.accounted h.atWork.current).congr rfl rfl
        · rw [engine_modifyEngine_self hi]
          exact hk.congr rfl rfl
    obtain ⟨t, htd, htk, heq⟩ := hleft
    rw [← heq] at hmem ⊢
    have hstill := Still.drainInbox htd
    exact htk.congr hstill.fibers hstill.queue k hmem

/-- Whoever disposes of an engine in the middle of a step throws everything out of its queue but the fiber that takes the
step and its kin. -/
theorem onlyKin_turn (h : InOrder u atRest w) {others : List Nat} (hq : (w.engine i).queue = f :: others)
    (hopen : (w.engine i).isDisposed = false)
    (ht : (Play.turn i f).runOn (w.modifyEngine i fun e => { e with queue := others }) = (.ok (), v))
    (hd : (v.engine i).isDisposed = true) :
    ∀ k ∈ (v.engine i).queue, k = f ∨ ((v.engine i).fiber k).parent = some f ∨ ((v.engine i).fiber f).parent = some k := by
  have htaken := h.take hq
  have hsubdued : Subdued i (onlyAt i f i) False
      ((w.modifyEngine i fun e => { e with queue := others }).modifyEngine i fun e => { e with current := some f }) := by
    refine ⟨False.elim, fun hdisposed => ?_⟩
    have hi : i < w.engines.size := by simpa using htaken.there
    rw [modifyEngine_modifyEngine, engine_modifyEngine_self hi] at hdisposed
    cases hopen.symm.trans hdisposed
  have hstep : InOrder u (onlyAt i f) ((Play.step i f).runOn (atWork i f others w)).2 := htaken.step
  have hleft : Subdued i (onlyAt i f i) False ((Play.step i f).runOn (atWork i f others w)).2 := hsubdued.step htaken
  have hkin (hd : (((Play.step i f).runOn (atWork i f others w)).2.engine i).isDisposed = true) :
      (((Play.step i f).runOn (atWork i f others w)).2.engine i).OnlyKin f := by
    intro k hk
    obtain ⟨q, hq, hparent⟩ := hleft.queue hd k hk
    rw [InOrder.onlyAt_self] at hq
    cases hq
    exact .inl hparent
  rcases turn_eq_ok ht with ⟨s, hp, rfl⟩ | ⟨e, s, -, hp, rfl⟩
  · rw [hp] at hstep hkin
    rw [isDisposed_rest] at hd
    refine onlyKin_rest hstep.count hd ?_
    rw [engine_modifyEngine_self hstep.there] at hd ⊢
    exact (hkin hd).congr rfl rfl
  · rw [hp] at hstep hkin
    rw [isDisposed_rest] at hd
    refine onlyKin_rest (hstep.fail e) hd ?_
    have hreported := hstep.report i e
    have hcounted := hreported.count.atWork
    rw [engine_modifyEngine_self hreported.there] at hcounted hd ⊢
    rw [Engine.abort, Engine.finish_frame] at hd
    have hs := same_report s i i e
    have hkin : ({ (s.report i e).engine i with steps := ((s.report i e).engine i).steps + 1 } : Engine).OnlyKin f :=
      (hkin (((Local.report s i e).isDisposed i).symm.trans hd)).congr hs.fibers hs.queue
    exact hkin.abort hcounted.accounted hcounted.current

theorem settle_nil (hq : (w.engine i).queue = []) : settle w i = w := by
  unfold settle
  simp only [settleWithin, hq]

/-- A drain with nothing in the queue ends at once. -/
theorem drain_nil (hq : (w.engine i).queue = []) (n t : Nat) : (drain i n t).runOn w = (.ok t, w) := by
  cases n with
  | zero =>
    rw [drain, breakOff, runOn_get]
    simp only [hq, List.length_nil, ne_eq, not_true_eq_false, if_false]
    rfl
  | succ n =>
    rw [drain, runOn_bind, runOn_modify, settle_nil hq]
    dsimp only
    rw [runOn_get]
    simp only [hq]
    rfl

theorem run_nil (hd : (w.engine i).isDisposed = true) (hq : (w.engine i).queue = []) (maxSteps : Option Int)
    (maxSeconds : Option Double) : (run i maxSteps maxSeconds).runOn w = (.ok 0, w.drainInbox i) := by
  rw [run, runOn_bind, runOn_modify]
  dsimp only
  rw [runOn_get]
  exact drain_nil ((Still.drainInbox hd).queue.trans hq) _ 0

end Turn

/-- The last step of an engine is over: the drain under way ends, and at every later point there is nothing to run, so that
no node is triggered, no listener runs and no operation starts. -/
structure Stopped (i : Nat) (v : World) : Prop where
  drain : ∀ n t, (drain i n t).runOn v = (.ok t, v)
  later : ∀ z, Passage v z → (z.engine i).queue = [] ∧ (∀ z', ¬ Iteration i z z') ∧
    ∀ maxSteps maxSeconds, (run i maxSteps maxSeconds).runOn z = (.ok 0, z.drainInbox i)

/-- Disposal stops a drain in progress, but for what the step goes on with. Let an engine be disposed of in the middle of a
step. Of all that was queued, only the fiber that takes the step, its children and its parent can be left afterwards; and
unless one of them is, because the step has committed since or has resumed the parent, that step was the last one. -/
theorem Play.stopped_of_turn {u w v : World} (he : u.engines = #[]) (hd : u.disposers = []) (hw : Passage u w) {i f : Nat}
    {others : List Nat} (hq : (w.engine i).queue = f :: others) (hopen : (w.engine i).isDisposed = false)
    (ht : (turn i f).runOn (w.modifyEngine i fun e => { e with queue := others }) = (.ok (), v))
    (hdisposed : (v.engine i).isDisposed = true) :
    (∀ k ∈ (v.engine i).queue,
      k = f ∨ ((v.engine i).fiber k).parent = some f ∨ ((v.engine i).fiber f).parent = some k) ∧
      ((v.engine i).queue = [] → Stopped i v) := by
  have hu := (InOrder.start he hd).passage hw
  refine ⟨onlyKin_turn hu hq hopen ht hdisposed, fun hempty => ⟨drain_nil hempty, fun z hz => ?_⟩⟩
  have hsubdued : Subdued i none True v := ⟨fun _ => hdisposed, fun _ k hk => by rw [hempty] at hk; cases hk⟩
  obtain ⟨-, hlater⟩ := hsubdued.passage (hu.turn hq ht) hz
  have hnone : (z.engine i).queue = [] := by
    apply List.eq_nil_iff_forall_not_mem.2
    intro k hk
    obtain ⟨_, hf, -⟩ := hlater.queue (hlater.isDisposed trivial) k hk
    cases hf
  exact ⟨hnone, fun z' hi => hi.queue_ne_nil hnone, run_nil (hlater.isDisposed trivial) hnone⟩

namespace Halt

def ahead : Wire := ⟨⟨"go", "exec", "halt", "exec"⟩, 0⟩

def beyond : Wire := ⟨⟨"halt", "exec", "far", "exec"⟩, 1⟩

/-- An event, a node that disposes of its engine, and a node behind it. -/
def graph (actions : List Action) : Graph where
  arena := #[
    { id := "go", definition := { typeName := "Go", behaviour := .event (some (.script [])) }
      outputs := [{ name := "exec", valueType := ValueType.flowName, wires := [ahead] }] },
    { id := "halt", definition := { typeName := "Halt", behaviour := .flow (some (.script (.dispose :: actions))) }
      inputs := [{ name := "exec", valueType := ValueType.flowName, wires := [ahead] }]
      outputs := [{ name := "exec", valueType := ValueType.flowName, wires := [beyond] }] },
    { id := "far", definition := { typeName := "Far", behaviour := .flow (some (.script [.trace (.str "far")])) }
      inputs := [{ name := "exec", valueType := ValueType.flowName, wires := [beyond] }] }]
  ids := ⟨[("go", 0), ("halt", 1), ("far", 2)]⟩
  wires := [ahead, beyond]
  ends := #[some ⟨⟨0, 0⟩, ⟨1, 0⟩⟩, some ⟨⟨1, 0⟩, ⟨2, 0⟩⟩]

def bare (actions : List Action) : World := { graphs := #[graph actions] }

/-- The event has happened twice. -/
def begun (actions : List Action) : World :=
  (((makeEngine "main" [⟨0, 0⟩, ⟨0, 1⟩, ⟨0, 2⟩] {}).runOn (bare actions)).2.begin 0 ⟨0, 0⟩ "exec" none []).begin 0 ⟨0, 0⟩
    "exec" none []

/-- The first of the two paths has taken its step, and has disposed of the engine. -/
def halted (actions : List Action) : World :=
  ((turn 0 0).runOn ((begun actions).modifyEngine 0 fun e => { e with queue := [1] })).2

def isReached (w : World) : Bool := w.journal.any fun
  | .trace "far" _ => true
  | _ => false

theorem passage_begun (actions : List Action) : Passage (bare actions) (begun actions) :=
  (((Passage.refl _).deed (.makeEngine _ "main" _ {})).deed (.begin _ 0 ⟨0, 0⟩ "exec" [] fun _ hl => by cases hl)).deed
    (.begin _ 0 ⟨0, 0⟩ "exec" [] fun _ hl => by cases hl)

end Halt

open Halt in
/-- Who disposes of the engine and ends its path has stopped the engine: the second path is never taken. -/
theorem Play.stopped_of_turn_halt : ((begun [.stop]).engine 0).queue = [0, 1] ∧ Stopped 0 (halted [.stop]) := by
  have hqueue : ((begun [.stop]).engine 0).queue = 0 :: [1] := by decide
  exact ⟨hqueue, (Play.stopped_of_turn rfl rfl (passage_begun [.stop]) hqueue (by decide) (by rfl) (by decide)).2 (by decide)⟩

open Halt in
/-- Who disposes of the engine and goes on takes the engine along: the node behind is triggered in a later step. -/
theorem Play.not_stopped_halt : Passage (bare [.commit "exec"]) (begun [.commit "exec"]) ∧
    ((begun [.commit "exec"]).engine 0).queue = [0, 1] ∧ ((begun [.commit "exec"]).engine 0).isDisposed = false ∧
    (turn 0 0).runOn ((begun [.commit "exec"]).modifyEngine 0 fun e => { e with queue := [1] }) =
      (.ok (), halted [.commit "exec"]) ∧
    ((halted [.commit "exec"]).engine 0).isDisposed = true ∧ ((halted [.commit "exec"]).engine 0).queue = [0] ∧
    isReached (halted [.commit "exec"]) = false ∧ isReached ((run 0 none none).runOn (halted [.commit "exec"])).2 = true ∧
    ¬ Stopped 0 (halted [.commit "exec"]) := by
  refine ⟨passage_begun _, by decide, by decide, by rfl, by decide, by decide,
    by decide +kernel, by decide +kernel, fun h => ?_⟩
  have hempty := (h.later _ (.refl _)).1
  revert hempty
  decide

end FlowGraph
