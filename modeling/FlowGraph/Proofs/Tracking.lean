import FlowGraph.Proofs.Calls

/-!
Behaviours do not see the order of business of the engine that runs them. In worlds that differ only in
it, a call has the same outcome and leads to worlds that differ only in it, and what it does to the
fibers is what a call may do.
-/
namespace FlowGraph

open Play World

variable {i f : Nat} {M : Engine → Prop}

/-- The worlds differ at most in the order of business of the engine, which is steady. -/
def Tracked (i : Nat) (M : Engine → Prop) (w r : World) : Prop := Alike i w r ∧ Steady i M w

theorem Steady.enlist {w : World} (h : Steady i M w) (x : NodeRef) {d : Disposer} (hd : d.Free) :
    Steady i M { w with disposers := w.disposers ++ [(x, d)] } := by
  refine ⟨h.inside, h.engine, ?_, h.operations⟩
  intro p hp
  rcases List.mem_append.1 hp with hp | hp
  · exact h.nodes p hp
  · rw [List.mem_singleton.1 hp]
    exact hd

theorem Steady.register {w : World} (h : Steady i M w) (hM : Growing M) (j o : Nat) (x : NodeRef) (input : String) :
    Steady i M (w.modifyEngine j fun e => { e with
      operations := e.operations.push { node := x, input := input }
      pending := e.pending ++ [o] }) := by
  refine h.face hM j (fun _ => ⟨rfl, rfl, rfl, rfl⟩) (fun _ => id) ?_
  intro op hop
  rcases Array.mem_push.1 hop with hop | rfl
  · exact h.operations j op hop
  · intro d hd
    cases hd

/-- Whatever happens to an engine that is disposed of, nothing is asked of it. -/
theorem Steady.disposed {w : World} (h : Steady i M w) (j : Nat) {g : Engine → Engine}
    (hd : j < w.engines.size → (g (w.engine j)).isDisposed = true)
    (ho : ∀ e, (g e).operations = e.operations) : Steady i M (w.modifyEngine j g) := by
  refine ⟨by simpa using h.inside, ?_, h.nodes, ?_⟩
  · rw [engine_modifyEngine]
    split
    · rename_i hj
      rw [← hj.1]
      exact .inl (hd hj.2)
    · exact h.engine
  · intro k
    rw [engine_modifyEngine]
    split
    · rw [ho]
      exact h.operations k
    · exact h.operations k

theorem Steady.relinquish {w : World} (h : Steady i M w) (hM : Growing M) (j o : Nat) : Steady i M (w.relinquish j o) :=
  relinquish_upholds (h.modifyOperation hM j o (by simp)) h

theorem Alike.relinquish {w r : World} (h : Alike i w r) (j o : Nat) :
    Alike i (w.relinquish j o) (r.relinquish j o) := by
  unfold World.relinquish
  rw [h.operation]
  split
  · exact h
  · exact h.modifyOperation j o _

/-- Calls keep track of one engine, if what is asked of it grows with the arena. -/
theorem closed_tracked (hM : Growing M) : Closed (Tracked i M) (·.Admits i M) where
  stamp g v w _ h := ⟨(h.1.stamp g v).2, h.2.frame (engines_stamp w g v) (disposers_stamp w g v)⟩
  write h _ _ _ _ _ _ := ⟨h.1.modifyNode _ _, h.2.frame rfl rfl⟩
  setState _ _ _ _ h := ⟨h.1.modifyNode _ _, h.2.frame rfl rfl⟩
  setInput x _ _ _ _ h := ⟨h.1.modifyNode x _, h.2.frame rfl rfl⟩
  assign h _ _ _ _ _ _ := ⟨h.1.modifyGraph _ _, h.2.frame rfl rfl⟩
  record e _ _ _ h := ⟨h.1.record e, h.2.frame rfl rfl⟩
  tell j e _ _ _ h := ⟨h.1.tell j e, h.2.tell j e⟩
  hold {c} _ _ _ h := ⟨h.1.frame (F := fun w => { w with holds := w.holds ++ [c] }) (fun _ => rfl) fun _ => rfl,
    h.2.frame rfl rfl⟩
  schedule s _ _ h := ⟨h.1.frame (F := fun w => { w with scheduler := s }) (fun _ => rfl) fun _ => rfl,
    h.2.frame rfl rfl⟩
  store s _ _ h := ⟨h.1.frame (F := fun w => { w with store := s }) (fun _ => rfl) fun _ => rfl, h.2.frame rfl rfl⟩
  subscribe t x _ _ h := ⟨(h.1.subscribe t x).2, h.2.frame rfl rfl⟩
  unsubscribe s _ _ h := ⟨h.1.unsubscribe s, h.2.frame rfl rfl⟩
  enlist x d hd _ _ h :=
    ⟨h.1.frame (F := fun w => { w with disposers := w.disposers ++ [(x, d)] }) (fun _ => rfl) fun _ => rfl,
      h.2.enlist x hd.free⟩
  unlist x _ _ h :=
    ⟨h.1.frame (F := fun w => { w with disposers := w.disposers.filter (·.1 ≠ x) }) (fun _ => rfl) fun _ => rfl,
      h.2.inside, h.2.engine, fun p hp => h.2.nodes p (List.mem_filter.1 hp).1, h.2.operations⟩
  report {j} _ _ _ _ _ _ _ h := ⟨h.1.report j _, h.2.report hM j _⟩
  begin j x output l hl values _ _ _ h :=
    ⟨h.1.begin j x output l values, h.2.begin hM j x output (fun y hy c hc => (hl y hy c hc).2) values⟩
  commit {x j k input} hc output l hl _ _ h := by
    obtain ⟨rfl, hM⟩ := hc j k input rfl
    refine ⟨(h.1.commitFiber j k x output l).2, h.2.commitFiber fun he ho => hM.commit he ho x ?_ _⟩
    intro y hy c hc j' k' input' hrole
    rw [hl y hy] at hc
    cases hc
    cases hrole
    exact ⟨rfl, rfl⟩
  stop {x j k input} hc _ _ h := by
    obtain ⟨rfl, hM⟩ := hc j k input rfl
    exact ⟨(h.1.endFiber j k x).2, h.2.endFiber hM.stop x⟩
  register h j _ x _ input :=
    ⟨h.1.modifyFace j fun e => by simp [Engine.core, Fiber.core, Function.comp_def], h.2.register hM j _ x input⟩
  enrol {j o d} hd _ _ h := by
    refine ⟨h.1.modifyOperation j o _, h.2.modifyOperation hM j o ?_⟩
    intro op hop d' hd'
    rcases List.mem_append.1 hd' with hd' | hd'
    · exact hop d' hd'
    · rw [List.mem_singleton.1 hd']
      exact hd.free
  finish j o output _ _ h := ⟨h.1.finishOperation j o output, h.2.finishOperation hM j o output⟩
  dismiss {w r} h j o _ _ := by
    have hal : Alike i (w.strike j o) (r.strike j o) :=
      h.1.modifyFace j fun e => by simp [Engine.core, Fiber.core, Function.comp_def]
    have hst : Steady i M (w.strike j o) :=
      h.2.face hM j (fun _ => ⟨rfl, rfl, rfl, rfl⟩) (fun _ => id) (h.2.operations j)
    exact ⟨hal.relinquish j o, hst.relinquish hM j o⟩
  close h j _ := ⟨h.1.modifyFace j fun e => by simp [Engine.core, Fiber.core, Function.comp_def],
    h.2.disposed j (fun _ => rfl) fun _ => rfl⟩
  relinquish h j _ _ o := ⟨h.1.relinquish j o, h.2.relinquish hM j o⟩
  release h j _ hd := ⟨h.1.modifyFace j fun e => by simp [Engine.core, Fiber.core, Function.comp_def],
    h.2.disposed j hd fun _ => rfl⟩
  clear h j _ hd := ⟨h.1.modifyFace j fun e => by simp [Engine.core, Fiber.core, Function.comp_def],
    h.2.disposed j hd fun _ => rfl⟩

/-- What is steady stays so whatever is done in contexts that the property admits. -/
theorem closed_steady (hM : Growing M) {A : Context → Prop} (hA : ∀ c, A c → c.Admits i M) :
    Closed (fun w _ => Steady i M w) A := by
  have hT := closed_tracked (i := i) hM
  have hr {w : World} (h : Steady i M w) : Tracked i M w w := ⟨.refl i w, h⟩
  have hopen {j : Nat} (hj : Opened (fun w _ => Steady i M w) j) : Opened (Tracked i M) j := by
    obtain ⟨v, -, hv, ho⟩ := hj
    exact ⟨v, v, hr hv, ho⟩
  have hengages {j : Nat} (hj : Engages A j) : Engages (·.Admits i M) j := by
    obtain ⟨x, f, input, hx⟩ := hj
    exact ⟨x, f, input, hA _ hx⟩
  have hengaged {j : Nat} (hj : Engaged (fun w _ => Steady i M w) A j) : Engaged (Tracked i M) (·.Admits i M) j :=
    hj.imp hopen hengages
  have hfree {c : Context} (hc : A c ∧ c.Free) : c.Admits i M ∧ c.Free := ⟨hA c hc.1, hc.2⟩
  exact {
    stamp := fun g v w _ h => (hT.stamp g v (hr h)).2
    write := fun h _ hc _ _ _ hn => (hT.write (hr h) (hA _ hc) hn).2
    setState := fun hc v _ _ h => (hT.setState (hA _ hc) v (hr h)).2
    setInput := fun x place v _ _ h => (hT.setInput x place v (hr h)).2
    assign := fun h _ _ _ _ _ hg => (hT.assign (hr h) hg).2
    record := fun e he _ _ h => (hT.record e he (hr h)).2
    tell := fun j e he _ _ h => (hT.tell j e he (hr h)).2
    hold := fun hc _ _ h => (hT.hold (hA _ hc) (hr h)).2
    schedule := fun s _ _ h => (hT.schedule s (hr h)).2
    store := fun s _ _ h => (hT.store s (hr h)).2
    subscribe := fun t x _ _ h => (hT.subscribe t x (hr h)).2
    unsubscribe := fun s _ _ h => (hT.unsubscribe s (hr h)).2
    enlist := fun x _ hd _ _ h => (hT.enlist x (hd.mono fun _ => hfree) (hr h)).2
    unlist := fun x _ _ h => (hT.unlist x (hr h)).2
    report := fun hj id t cause hcause _ _ h => (hT.report (hengaged hj) id t cause hcause (hr h)).2
    begin := fun j x output _ hl values hs _ _ h => (hT.begin j x output (fun y hy c hc => hfree (hl y hy c hc)) values
      (hs.imp_right fun ⟨c, hc, hx⟩ => ⟨c, hA c hc, hx⟩) (hr h)).2
    commit := fun hc output _ hl _ _ h => (hT.commit (hA _ hc) output hl (hr h)).2
    stop := fun hc _ _ h => (hT.stop (hA _ hc) (hr h)).2
    register := fun h _ hj x hx input => (hT.register (hr h) (hengaged hj) x hx input).2
    enrol := fun hd _ _ h => (hT.enrol (hd.mono fun _ => hfree) (hr h)).2
    finish := fun j o output _ _ h => (hT.finish j o output (hr h)).2
    dismiss := fun h _ _ hj ho => (hT.dismiss (hr h) (hengages hj) ho).2
    close := fun h _ ho => (hT.close (hr h) ho).2
    relinquish := fun h _ ho hd o => (hT.relinquish (hr h) (hopen ho) hd o).2
    release := fun h _ ho hd => (hT.release (hr h) (hopen ho) hd).2
    clear := fun h _ ho hd => (hT.clear (hr h) (hopen ho) hd).2 }

theorem conduct_tracked (hM : Growing M) : Conduct (Tracked i M) (·.Admits i M) := by
  refine Bearing.conduct ⟨(closed_tracked hM).toManner, ?_, ?_, ?_, ?_, ?_, ?_⟩ (closed_tracked hM)
  · exact fun h => ⟨h.1.graphs, h.1.subscriptions, h.1.issued, h.1.disposers, h.1.clock, h.1.isLooping, h.1.scheduler,
      h.1.store, h.1.size, h.1.eventNodes, h.1.operations, h.1.pending, h.1.isDisposed⟩
  · exact fun h _ j f _ _ => h.1.committed j f
  · exact fun h p hp => (h.2.nodes p hp).within fun _ hc => hc.admits i M
  · exact fun h j op hop d hd => (h.2.operations j op hop d hd).within fun _ hc => hc.admits i M
  · rintro _ _ _ _ _ _ j k input ⟨⟩
  · rintro _ _ _ _ _ _ _ _ j k input ⟨⟩

namespace Play

theorem tracks_reach (hM : Working i f M) (x : NodeRef) (input : String) : Obeys (Tracked i M) (reach i f x input) := by
  refine obeys_reach (conduct_tracked hM.growing) ?_
  rintro j k name ⟨⟩
  exact ⟨rfl, hM⟩

theorem tracks_answer (hM : Working i f M) (node : Option NodeRef) {l : Listener} (hl : l.Fits i f) :
    Obeys (Tracked i M) (answer node l) :=
  obeys_answer (conduct_tracked hM.growing) node fun c hc => (hl c hc).admits hM

end Play

end FlowGraph
