import FlowGraph.Proofs.Alike

/-!
What the operations of a world do to the fibers and the queue of one engine: nothing at all, or they
bring in a root. `Steady` carries a property of the engine through them.
-/
namespace FlowGraph

def Disposer.Free : Disposer → Prop
  | .script c _ => c.Free
  | _ => True

/-- A property of engines that outlasts whatever does not concern the fiber at work. -/
structure Growing (M : Engine → Prop) : Prop where
  congr : ∀ {e e' : Engine}, M e → e'.fibers = e.fibers → e'.queue = e.queue → e'.current = e.current →
    e'.inbox = e.inbox → M e'
  enter : ∀ {e e' : Engine} {root : Fiber} {kids : List Fiber}, M e → e.Entered e' root kids → M e'
  current : ∀ {e : Engine}, M e → e.current ≠ some e.fibers.size

/-- A property of engines that outlasts what a call of the fiber does. -/
structure Working (i f : Nat) (M : Engine → Prop) : Prop where
  growing : Growing M
  commit : ∀ {e : Engine}, M e → (e.fiber f).committed = false → ∀ (node : NodeRef) {l : Option Listener},
    (∀ x, l = some x → x.Fits i f) → ∀ wires, M (e.commit f node l wires)
  stop : ∀ {e : Engine}, M e → M (e.modifyFiber f fun x => { x with committed := true })

/-- What the context may do keeps the property: it is bound to no fiber, or to the one at work. -/
def Context.Admits (c : Context) (i : Nat) (M : Engine → Prop) : Prop :=
  ∀ j k input, c.role = .flow j k input → j = i ∧ Working i k M

theorem Context.Free.admits {c : Context} (h : c.Free) (i : Nat) (M : Engine → Prop) : c.Admits i M :=
  fun j k input hc => absurd hc (h j k input)

theorem Context.Fits.admits {c : Context} {i f : Nat} {M : Engine → Prop} (h : c.Fits i f) (hM : Working i f M) :
    c.Admits i M := by
  intro j k input hc
  obtain ⟨rfl, rfl⟩ := h j k input hc
  exact ⟨rfl, hM⟩

theorem working_moved (i f : Nat) (a : Engine) : Working i f (Engine.Moved i f a) := by
  refine ⟨⟨fun h => h.congr, fun h he => h.enter he, ?_⟩, fun h ho node _ hl wires => h.commit ho node hl wires, ?_⟩
  · intro e h hc
    rw [h.current] at hc
    have hlt := h.inside
    have hle := h.kept.size
    have heq : f = e.fibers.size := by simpa using hc
    omega
  · intro e h
    refine h.alter Fiber.own_stop h.fits ?_ h.parted
    intro hc
    cases hc

namespace World

section Engines

@[simp] theorem engines_stamp (w : World) (g : Nat) (v : Value) : (w.stamp g v).2.engines = w.engines := by
  unfold stamp
  split <;> rfl

@[simp] theorem disposers_stamp (w : World) (g : Nat) (v : Value) : (w.stamp g v).2.disposers = w.disposers := by
  unfold stamp
  split <;> rfl

@[simp] theorem engines_stampOutputs (w : World) (g : Nat) (values : List (String × Value)) :
    (w.stampOutputs g values).2.engines = w.engines := by
  induction values generalizing w with
  | nil => rfl
  | cons p rest ih =>
    obtain ⟨name, v⟩ := p
    exact (ih _).trans (engines_stamp w g v)

@[simp] theorem disposers_stampOutputs (w : World) (g : Nat) (values : List (String × Value)) :
    (w.stampOutputs g values).2.disposers = w.disposers := by
  induction values generalizing w with
  | nil => rfl
  | cons p rest ih =>
    obtain ⟨name, v⟩ := p
    exact (ih _).trans (disposers_stamp w g v)

@[simp] theorem node_stampOutputs (w : World) (g : Nat) (values : List (String × Value)) (x : NodeRef) :
    (w.stampOutputs g values).2.node x = w.node x := by
  induction values generalizing w with
  | nil => rfl
  | cons p rest ih =>
    obtain ⟨name, v⟩ := p
    exact (ih _).trans (node_stamp w g v x)

@[simp] theorem engines_tell (w : World) (j : Nat) (e : String → Event) : (w.tell j e).engines = w.engines := by
  unfold tell
  split <;> rfl

@[simp] theorem disposers_tell (w : World) (j : Nat) (e : String → Event) :
    (w.tell j e).disposers = w.disposers := by
  unfold tell
  split <;> rfl

@[simp] theorem engines_writeOutputs (w : World) (x : NodeRef) (values : List (String × Value)) :
    (w.writeOutputs x values).2.engines = w.engines := by
  induction values generalizing w with
  | nil => rfl
  | cons p rest ih =>
    obtain ⟨name, v⟩ := p
    unfold writeOutputs
    split
    · exact ih _
    · rfl

@[simp] theorem disposers_writeOutputs (w : World) (x : NodeRef) (values : List (String × Value)) :
    (w.writeOutputs x values).2.disposers = w.disposers := by
  induction values generalizing w with
  | nil => rfl
  | cons p rest ih =>
    obtain ⟨name, v⟩ := p
    unfold writeOutputs
    split
    · exact ih _
    · rfl

theorem engines_report (w : World) (j : Nat) (f : Failure) :
    (w.report j f).engines = (w.modifyEngine j fun e => { e with failures := f :: e.failures }).engines := by
  unfold report
  cases f with
  | node id type reason =>
    simp only
    split <;> rfl
  | _ => rfl

@[simp] theorem disposers_report (w : World) (j : Nat) (f : Failure) : (w.report j f).disposers = w.disposers := by
  unfold report
  cases f with
  | node id type reason =>
    simp only
    split <;> rfl
  | _ => rfl

@[simp] theorem engines_chooseOutput (w : World) (x : NodeRef) (output : Option String) :
    (w.chooseOutput x output).1.engines = w.engines := by
  unfold chooseOutput
  simp only
  split
  · split <;> rfl
  · split
    · split <;> rfl
    · split <;> rfl

@[simp] theorem disposers_chooseOutput (w : World) (x : NodeRef) (output : Option String) :
    (w.chooseOutput x output).1.disposers = w.disposers := by
  unfold chooseOutput
  simp only
  split
  · split <;> rfl
  · split
    · split <;> rfl
    · split <;> rfl

end Engines

theorem engine_congr {w v : World} (h : v.engines = w.engines) (j : Nat) : v.engine j = w.engine j := by
  rw [engine, engine, h]

end World

namespace Engine

/-- An engine without its fibers and how they stand. -/
def face (e : Engine) : Engine :=
  { e with fibers := #[], queue := [], current := none, failures := [], steps := 0, wake := none }

/-- What holds of every operation holds still when one of them changes, if it does not mind the change. -/
theorem forall_modifyOperation {P : Operation → Prop} {e : Engine} {o : Nat} {g : Operation → Operation}
    (h : ∀ op ∈ e.operations, P op) (hg : ∀ op, P op → P (g op)) : ∀ op ∈ (e.modifyOperation o g).operations, P op := by
  intro op hop
  obtain ⟨k, hk⟩ := Array.mem_iff_getElem?.1 hop
  simp only [modifyOperation, Array.getElem?_modify] at hk
  split at hk
  · obtain ⟨op', hop', rfl⟩ := Option.map_eq_some_iff.1 hk
    exact hg op' (h op' (Array.mem_of_getElem? hop'))
  · exact h op (Array.mem_of_getElem? hk)

/-- The engine behind the first commit of a new path. -/
structure Pushed (e e' : Engine) (root : Fiber) (kids : List Fiber) : Prop where
  fibers : e'.fibers = e.fibers ++ (root :: kids).toArray
  queue : e'.queue = e.queue ++ List.range' (e.fibers.size + 1) kids.length
  current : e'.current = e.current
  inbox : e'.inbox = e.inbox

/-- A commitment of the fiber that came last only adds to the engine. -/
theorem pushed_commit {e : Engine} (hc : e.current ≠ some e.fibers.size) (f : Fiber) (node : NodeRef)
    (l : Option Listener) (wires : List Wire) :
    Pushed e (({ e with fibers := e.fibers.push f } : Engine).commit e.fibers.size node l wires)
      (onto node l wires f) (offshoots e.fibers.size f node wires) := by
  have hlt : e.fibers.size < ({ e with fibers := e.fibers.push f } : Engine).fibers.size := by simp
  have hfiber : ({ e with fibers := e.fibers.push f } : Engine).fiber e.fibers.size = f := by simp [fiber]
  rw [commit_eq hlt, hfiber]
  refine ⟨?_, ?_, rfl, rfl⟩
  · apply Array.ext_getElem?
    intro k
    simp only [Array.getElem?_append, Array.getElem?_modify, Array.getElem?_push, Array.size_modify,
      Array.size_push, List.getElem?_toArray, List.getElem?_cons]
    rcases Nat.lt_trichotomy k e.fibers.size with hk | rfl | hk
    · have hk1 : k < e.fibers.size + 1 := by omega
      have hne : ¬ e.fibers.size = k := by omega
      have hne' : ¬ k = e.fibers.size := by omega
      simp [hk, hk1, hne, hne']
    · simp
    · have hk1 : ¬ k < e.fibers.size + 1 := by omega
      have hk2 : ¬ k < e.fibers.size := by omega
      have hk3 : ¬ k - e.fibers.size = 0 := by omega
      have hk4 : k - (e.fibers.size + 1) = k - e.fibers.size - 1 := by omega
      simp [hk1, hk2, hk3, hk4]
  · simp [hc]

/-- The engines have the same fibers and the same business at hand. -/
structure Same (e e' : Engine) : Prop where
  fibers : e'.fibers = e.fibers
  queue : e'.queue = e.queue
  current : e'.current = e.current
  inbox : e'.inbox = e.inbox

theorem Same.of_eq {e e' : Engine} (h : e' = e) : Same e e' := by
  rw [h]
  exact ⟨rfl, rfl, rfl, rfl⟩

theorem Entered.congr {e e' e'' : Engine} {root : Fiber} {kids : List Fiber} (h : Entered e e' root kids)
    (hs : Same e' e'') : Entered e e'' root kids :=
  { h with
    fibers := hs.fibers.trans h.fibers
    queue := hs.queue.trans h.queue
    current := hs.current.trans h.current
    inbox := hs.inbox.trans h.inbox }

theorem modify_root (xs : Array Fiber) (root : Fiber) (kids : List Fiber) (g : Fiber → Fiber) :
    (xs ++ (root :: kids).toArray).modify xs.size g = xs ++ (g root :: kids).toArray := by
  apply Array.ext_getElem?
  intro k
  simp only [Array.getElem?_modify, Array.getElem?_append, List.getElem?_toArray, List.getElem?_cons]
  by_cases hk : xs.size = k
  · simp [← hk]
  · by_cases hlt : k < xs.size
    · simp [hk, hlt]
    · have hpos : ¬ k - xs.size = 0 := by omega
      simp [hk, hlt, hpos]

end Engine

namespace World

variable {i : Nat} {w : World}

theorem same_report (w : World) (i j : Nat) (f : Failure) : (w.engine i).Same ((w.report j f).engine i) := by
  rw [engine_congr (engines_report w j f), engine_modifyEngine]
  split
  · exact ⟨rfl, rfl, rfl, rfl⟩
  · exact .of_eq rfl

theorem same_notify (w : World) (i j : Nat) :
    (w.engine i).Same ((w.modifyEngine j Engine.notify).engine i) := by
  rw [engine_modifyEngine]
  split
  · exact ⟨rfl, rfl, rfl, rfl⟩
  · exact .of_eq rfl

/-- Writing what a trigger carries marks the fiber, and changes nothing else in the engine. -/
theorem engine_applyEntry (hi : i < w.engines.size) (f : Nat) :
    (w.applyEntry i f).2.engine i = (w.engine i).modifyFiber f fun x => { x with isWritten := true } := by
  have hmarked := engine_modifyEngine_self hi (·.modifyFiber f fun x => { x with isWritten := true })
  unfold applyEntry
  dsimp only
  split
  · exact hmarked
  · rename_i x values _
    have hw := (engine_congr (engines_writeOutputs (w.modifyEngine i (·.modifyFiber f fun x =>
      { x with isWritten := true })) x values) i).trans hmarked
    split
    · rename_i heq
      rw [heq] at hw
      exact hw
    · rename_i heq
      rw [heq] at hw
      exact hw

/-- The new path goes into the queue if it has something to run. -/
theorem entered_enqueue {e : Engine} {root : Fiber} {kids : List Fiber} (hi : i < w.engines.size)
    (hp : e.Pushed (w.engine i) root kids) (hparent : root.parent = none) (hfinished : root.finished = false)
    (haborted : root.isAborted = false) (hsteps : root.steps = 0) (hpending : root.pending = kids.length)
    (hfresh : ∀ k ∈ kids, Engine.Fresh e.fibers.size k)
    (hheirs : ∀ k ∈ kids, k.next.isSome = true ∧ k.entry = root.entry ∧ k.isWritten = false)
    (hleft : kids ≠ [] → root.next = none ∧ root.isWritten = true) (hready : kids = [] → root.isWritten = false)
    (hlisteners : ∀ l ∈ root.listeners, l.1.isSome = true ∧ l.2.Free) :
    ∃ root', e.Entered ((w.enqueue i e.fibers.size).engine i) root' kids ∧ root'.entry = root.entry ∧
      root'.listeners = root.listeners ∧ root'.isComplete = root.isComplete := by
  have howned (l : Option NodeRef × Listener) (hl : l ∈ root.listeners) : l.1.isSome = true := (hlisteners l hl).1
  have hfree (l : Option NodeRef × Listener) (hl : l ∈ root.listeners) : l.2.Free := (hlisteners l hl).2
  have hroot : (w.engine i).fiber e.fibers.size = root := by
    simp [Engine.fiber, hp.fibers]
  unfold enqueue
  simp only [hroot]
  split
  · rename_i hcomplete
    have hkids : kids = [] := by
      simp only [Fiber.isComplete, haborted, Bool.false_or, Bool.and_eq_true, beq_iff_eq] at hcomplete
      rw [hpending] at hcomplete
      exact List.length_eq_zero_iff.1 hcomplete.1.2
    have happly := engine_applyEntry hi e.fibers.size
    have hentered : e.Entered ((w.applyEntry i e.fibers.size).2.engine i) { root with isWritten := true } kids := by
      rw [happly]
      have hcomplete' : ({ root with isWritten := true } : Fiber).isComplete = true := hcomplete
      refine ⟨?_, hparent, hfinished, haborted, hsteps, hpending, hfresh, hheirs, fun h => absurd hkids h, fun _ h => ?_, howned,
        hfree, ?_, hp.current, hp.inbox⟩
      · simp only [Engine.modifyFiber, hp.fibers, Engine.modify_root]
      · rw [hcomplete'] at h
        cases h
      · rw [if_pos hkids, hcomplete', if_pos rfl]
        simpa [hkids, Engine.modifyFiber] using hp.queue
    refine ⟨{ root with isWritten := true }, ?_, rfl, rfl, rfl⟩
    split
    · rename_i heq
      rw [heq] at hentered
      exact hentered.congr (same_report ..)
    · rename_i heq
      rw [heq] at hentered
      exact hentered.congr (same_notify ..)
  · rename_i hcomplete
    refine ⟨root, ?_, rfl, rfl, rfl⟩
    split
    · rename_i hwaiting
      have hkids : kids ≠ [] := by
        intro hk
        simp [Fiber.isWaiting, hpending, hk] at hwaiting
      refine Engine.Entered.congr ?_ (same_notify w i i)
      refine ⟨hp.fibers, hparent, hfinished, haborted, hsteps, hpending, hfresh, hheirs, hleft, fun h => absurd h hkids, howned,
        hfree, ?_, hp.current, hp.inbox⟩
      rw [if_neg hkids, hp.queue]
    · rename_i hwaiting
      have hkids : kids = [] := by
        simp only [Fiber.isWaiting, hpending, decide_eq_true_eq] at hwaiting
        exact List.length_eq_zero_iff.1 (by omega)
      rw [engine_modifyEngine_self hi]
      refine ⟨hp.fibers, hparent, hfinished, haborted, hsteps, hpending, hfresh, hheirs, hleft, fun h _ => hready h, howned,
        hfree, ?_, hp.current, hp.inbox⟩
      have hq := hp.queue
      simp only [hkids, List.length_nil, List.range'_zero, List.append_nil] at hq
      simp [Engine.notify, hkids, hcomplete, hq]

/-- A new path brings a root into its engine. Without a listener and a wire there is nothing for it to do. -/
theorem entered_begin (hi : i < w.engines.size) (hd : (w.engine i).isDisposed = false)
    (hc : (w.engine i).current ≠ some (w.engine i).fibers.size) (x : NodeRef) (output : String)
    {l : Option Listener} (hl : ∀ y, l = some y → y.Free) (outputs : List (String × Value)) :
    ∃ root kids, (w.engine i).Entered ((w.begin i x output l outputs).engine i) root kids ∧
      root.entry = (if (w.stampOutputs x.graph outputs).1.isEmpty then none
        else some (x, (Table.ofList (w.stampOutputs x.graph outputs).1).entries)) ∧
      (∀ y ∈ root.listeners, l = some y.2) ∧ (l = none → w.wiresAt x output = [] → kids = [] ∧ root.isComplete = true) := by
  have hwires : (w.stampOutputs x.graph outputs).2.wiresAt x output = w.wiresAt x output := by
    rw [wiresAt, node_stampOutputs, wiresAt]
  unfold begin
  rw [hd]
  simp only [Bool.false_eq_true, if_false]
  have hv := engine_congr (engines_stampOutputs w x.graph outputs) i
  have hvi : i < (w.stampOutputs x.graph outputs).2.engines.size := by simpa using hi
  generalize (w.stampOutputs x.graph outputs).2 = v at hv hvi hwires ⊢
  generalize (w.stampOutputs x.graph outputs).1 = values
  rw [← hv] at hc ⊢
  generalize (if values.isEmpty then none else some (x, (Table.ofList values).entries)) = entry
  have hpush : (v.modifyEngine i fun e => { e with fibers := e.fibers.push { entry := entry } }).engine i =
      { v.engine i with fibers := (v.engine i).fibers.push { entry := entry } } :=
    engine_modifyEngine_self hvi _
  have hsize : i < (v.modifyEngine i fun e => { e with fibers := e.fibers.push { entry := entry } }).engines.size := by
    simpa using hvi
  have hbehind : (v.modifyEngine i fun e => { e with fibers := e.fibers.push { entry := entry } }).wiresAt x output =
      w.wiresAt x output := by
    rw [← hwires]
    rfl
  generalize (v.modifyEngine i fun e => { e with fibers := e.fibers.push { entry := entry } }) = u at hpush hsize hbehind ⊢
  unfold commitFiber
  split
  · -- Refused: the root has nothing to run.
    rename_i heq
    split at heq
    · cases heq
      refine ⟨{ entry := entry }, [], Engine.Entered.congr ?_ (same_report ..), rfl,
        fun y hy => absurd hy List.not_mem_nil, fun _ _ => ⟨rfl, rfl⟩⟩
      rw [hpush]
      refine ⟨?_, rfl, rfl, rfl, rfl, rfl, by simp, by simp, by simp, fun _ _ => rfl, by simp, by simp, ?_, rfl, rfl⟩
      · simp
      · simp [Fiber.isComplete]
    · cases heq
  · rename_i heq
    split at heq
    · cases heq
    · cases heq
      have hp := Engine.pushed_commit hc { entry := entry } x l (u.wiresAt x output)
      have hcommitted : (u.modifyEngine i (·.commit (v.engine i).fibers.size x l (u.wiresAt x output))).engine i =
          (u.engine i).commit (v.engine i).fibers.size x l (u.wiresAt x output) := engine_modifyEngine_self hsize _
      rw [← hpush, ← hcommitted] at hp
      have hbranches : Engine.offshoots (v.engine i).fibers.size { entry := entry } x (u.wiresAt x output) = [] ↔
          Engine.branches (u.wiresAt x output) = [] := List.map_eq_nil_iff
      obtain ⟨root, hroot, hentry, hlisteners, hcomplete⟩ := entered_enqueue (by simpa using hsize) hp (by simp)
        (by simp) (by simp) (by simp)
        (by simp) (fun k hk => Engine.fresh_of_mem_offshoots hk)
        (fun k hk => by rw [Engine.onto_entry]; exact Engine.heir_of_mem_offshoots hk)
        (fun hk => by
          have hb := mt hbranches.2 hk
          rw [Engine.onto_next_of_branches _ _ _ _ hb, Engine.onto_isWritten]
          simpa using hb)
        (fun hk => by
          rw [Engine.onto_isWritten, hbranches.1 hk]
          rfl)
        (by
          intro y hy
          rw [Engine.onto_listeners] at hy
          cases l with
          | none => cases hy
          | some z =>
            rcases List.mem_cons.1 hy with rfl | hy
            · exact ⟨rfl, hl z rfl⟩
            · cases hy)
      refine ⟨root, _, hroot, by rw [hentry, Engine.onto_entry], fun y hy => ?_, ?_⟩
      · rw [hlisteners, Engine.onto_listeners] at hy
        cases l with
        | none => cases hy
        | some z =>
          rcases List.mem_cons.1 hy with rfl | hy
          · rfl
          · cases hy
      · rintro rfl hnone
        rw [hbehind, hnone] at hcomplete ⊢
        exact ⟨rfl, hcomplete⟩

/-- From `w` to `v` only one engine changed, and of that nothing but its fibers and how they stand. -/
structure Local (j : Nat) (w v : World) : Prop where
  size : v.engines.size = w.engines.size
  others : ∀ k, k ≠ j → v.engine k = w.engine k
  face : ∀ k, (v.engine k).face = (w.engine k).face
  disposers : v.disposers = w.disposers

namespace Local

variable {j : Nat} {u v w : World}

theorem operations (h : Local j w v) (k : Nat) : (v.engine k).operations = (w.engine k).operations :=
  (congrArg Engine.operations (h.face k) :)

theorem isDisposed (h : Local j w v) (k : Nat) : (v.engine k).isDisposed = (w.engine k).isDisposed :=
  (congrArg Engine.isDisposed (h.face k) :)

theorem trans (h : Local j u v) (h' : Local j v w) : Local j u w :=
  ⟨h'.size.trans h.size, fun k hk => (h'.others k hk).trans (h.others k hk),
    fun k => (h'.face k).trans (h.face k), h'.disposers.trans h.disposers⟩

theorem of_engines (j : Nat) (he : v.engines = w.engines) (hd : v.disposers = w.disposers) : Local j w v :=
  ⟨by rw [he], fun k _ => engine_congr he k, fun k => by rw [engine_congr he], hd⟩

theorem modifyEngine (w : World) (j : Nat) {g : Engine → Engine} (hg : ∀ e, (g e).face = e.face) :
    Local j w (w.modifyEngine j g) := by
  refine ⟨by simp, fun k hk => engine_modifyEngine_of_ne hk.symm w g, ?_, rfl⟩
  intro k
  rw [engine_modifyEngine]
  split
  · exact hg _
  · rfl

theorem report (w : World) (j : Nat) (f : Failure) : Local j w (w.report j f) :=
  (modifyEngine w j (g := fun e => { e with failures := f :: e.failures }) fun _ => rfl).trans
    (of_engines j (engines_report w j f) (disposers_report w j f))

/-- Writing what a trigger carries is the business of one engine. -/
theorem applyEntry (w : World) (j f : Nat) : Local j w (w.applyEntry j f).2 := by
  have hmarked := modifyEngine w j (g := (·.modifyFiber f fun x => { x with isWritten := true })) fun _ => rfl
  unfold World.applyEntry
  dsimp only
  split
  · exact hmarked
  · rename_i x values _
    have hwrite := hmarked.trans (of_engines j (engines_writeOutputs _ x values) (disposers_writeOutputs _ x values))
    split
    · rename_i heq
      rw [heq] at hwrite
      exact hwrite
    · rename_i heq
      rw [heq] at hwrite
      exact hwrite

theorem face_commit (e : Engine) (f : Nat) (x : NodeRef) (l : Option Listener) (wires : List Wire) :
    (e.commit f x l wires).face = e.face := by
  rw [Engine.commit_frame]
  rfl

theorem commitFiber (w : World) (j f : Nat) (x : NodeRef) (output : String) (l : Option Listener) :
    Local j w (w.commitFiber j f x output l).2 := by
  unfold World.commitFiber
  split
  · exact of_engines j rfl rfl
  · exact modifyEngine w j fun e => face_commit e f x l _

/-- So is putting a fiber in the queue. -/
theorem enqueue (w : World) (j f : Nat) : Local j w (w.enqueue j f) := by
  unfold World.enqueue
  simp only
  split
  · have happly := applyEntry w j f
    split
    · rename_i heq
      rw [heq] at happly
      exact happly.trans (report ..)
    · rename_i heq
      rw [heq] at happly
      exact happly.trans (modifyEngine _ j fun _ => rfl)
  · split
    · exact modifyEngine w j fun _ => rfl
    · exact modifyEngine w j fun _ => rfl

/-- So is the beginning of a path. -/
theorem begin (w : World) (j : Nat) (x : NodeRef) (output : String) (l : Option Listener)
    (outputs : List (String × Value)) : Local j w (w.begin j x output l outputs) := by
  unfold World.begin
  split
  · exact of_engines j rfl rfl
  · refine (of_engines j (engines_stampOutputs w x.graph outputs) (disposers_stampOutputs ..)).trans ?_
    simp only
    generalize (w.stampOutputs x.graph outputs).2 = v
    generalize (if (w.stampOutputs x.graph outputs).1.isEmpty then none
      else some (x, (Table.ofList (w.stampOutputs x.graph outputs).1).entries)) = entry
    have hpush := modifyEngine v j (g := fun e => { e with fibers := e.fibers.push { entry := entry } })
      fun _ => rfl
    have hcommit := hpush.trans (commitFiber _ j (v.engine j).fibers.size x output l)
    split
    · rename_i heq
      rw [heq] at hcommit
      exact hcommit.trans (report ..)
    · rename_i heq
      rw [heq] at hcommit
      exact hcommit.trans (enqueue ..)

end Local

/-- A property that outlasts that a failure is noted at its node, and in the engine, outlasts the report. -/
theorem report_upholds {P : World → Prop} {w : World} {j : Nat} {f : Failure}
    (hmark : ∀ x, P w → P (w.modifyNode x fun n => { n with error := some f.message }))
    (hnote : ∀ v e, P v → P ((v.modifyEngine j fun e => { e with failures := f :: e.failures }).record e)) (h : P w) :
    P (w.report j f) := by
  unfold World.report
  refine hnote _ _ ?_
  split
  · split
    · exact hmark _ h
    · exact h
  · exact h

section Completion

variable {P : World → Prop} {j o : Nat} {output : Option String}

/-- A property that outlasts the parts of a completion outlasts the completion. -/
theorem complete_upholds
    (hdrop : ∀ w, P w → P (w.modifyEngine j fun e => { e with pending := e.pending.erase o }))
    (hchoose : ∀ w x, P w → P (w.chooseOutput x output).1) (hreport : ∀ w e, P w → P (w.report j e))
    (hbegin : ∀ w x name, P w → P (w.begin j x name none [])) (htell : ∀ w e, P w → P (w.tell j e)) {w : World}
    (h : P w) : P (w.complete j o output) := by
  have hgone := hdrop w h
  unfold complete
  simp only
  generalize w.modifyEngine j (fun e => { e with pending := e.pending.erase o }) = v at hgone ⊢
  split
  · exact hgone
  · have hchosen := hchoose v ((v.engine j).operation o).node hgone
    split
    · rename_i heq
      rw [heq] at hchosen
      exact hreport _ _ hchosen
    · rename_i heq
      rw [heq] at hchosen
      exact htell _ _ (hbegin _ _ _ hchosen)

/-- Likewise for an operation that is finished, at once or by way of the inbox. -/
theorem finishOperation_upholds {fromOutside : Bool}
    (hmark : ∀ w, P w → ((w.engine j).operation o).isAbandoned = false → ((w.engine j).operation o).isFinished = false →
      P (w.modifyEngine j (·.modifyOperation o fun op => { op with isFinished := true })))
    (hcomplete : ∀ w, P w → fromOutside = false → P (w.complete j o output))
    (hpost : ∀ w, P w → fromOutside = true → P (w.post j (.complete o output))) {w : World} (h : P w) :
    P (w.finishOperation j o output fromOutside) := by
  unfold finishOperation
  simp only
  split
  · exact h
  · rename_i hopen
    simp only [Bool.or_eq_true, not_or, Bool.not_eq_true] at hopen
    have hmarked := hmark w h hopen.1.2 hopen.2
    split
    · rename_i hout
      exact hpost _ hmarked hout
    · rename_i hout
      exact hcomplete _ hmarked (Bool.eq_false_iff.2 hout)

/-- A property that outlasts that the inbox is emptied, and each post in it, outlasts that the posts are done. -/
theorem drainInbox_upholds {w : World} (hempty : P (w.modifyEngine j fun e => { e with inbox := [] }))
    (hposts : ∀ p ∈ (w.engine j).inbox, ∀ v, P v → P (v.applyPost j p)) : P (w.drainInbox j) := by
  unfold drainInbox
  simp only
  generalize (w.engine j).inbox = posts at hposts ⊢
  generalize w.modifyEngine j (fun e => { e with inbox := [] }) = v at hempty ⊢
  induction posts generalizing v with
  | nil => exact hempty
  | cons p posts ih =>
    exact ih (fun q hq => hposts q (List.mem_cons_of_mem p hq)) _ (hposts p List.mem_cons_self v hempty)

end Completion

/-- No completion starts an operation. -/
theorem operations_complete (w : World) (i o : Nat) (output : Option String) (k : Nat) :
    ((w.complete i o output).engine k).operations = (w.engine k).operations := by
  refine complete_upholds (P := fun v => (v.engine k).operations = (w.engine k).operations) ?_ ?_ ?_ ?_ ?_ rfl
  · intro v hv
    rw [engine_modifyEngine, ← hv]
    split <;> rfl
  · intro v x hv
    rw [engine_congr (engines_chooseOutput v x output), hv]
  · intro v e hv
    rw [(Local.report v i e).operations, hv]
  · intro v x name hv
    rw [(Local.begin v i x name none []).operations, hv]
  · intro v e hv
    rw [engine_congr (engines_tell v i e), hv]

end World

/-- The engine has the property or is disposed of, and nothing that is to be undone is bound to a fiber. -/
structure Steady (i : Nat) (M : Engine → Prop) (w : World) : Prop where
  inside : i < w.engines.size
  engine : (w.engine i).isDisposed = true ∨ M (w.engine i)
  nodes : ∀ p ∈ w.disposers, p.2.Free
  operations : ∀ j, ∀ op ∈ (w.engine j).operations, ∀ d ∈ op.disposers, d.Free

namespace Steady

open World

variable {i f j : Nat} {M : Engine → Prop} {v w : World}

theorem frame (h : Steady i M w) (he : v.engines = w.engines) (hd : v.disposers = w.disposers) : Steady i M v := by
  refine ⟨by rw [he]; exact h.inside, ?_, by rw [hd]; exact h.nodes, ?_⟩
  · rw [engine_congr he]
    exact h.engine
  · intro j
    rw [engine_congr he]
    exact h.operations j

/-- A change of an engine that leaves its fibers and its queue alone. -/
theorem face (h : Steady i M w) (hM : Growing M) (j : Nat) {g : Engine → Engine} (hs : ∀ e : Engine, e.Same (g e))
    (hd : ∀ e : Engine, e.isDisposed = true → (g e).isDisposed = true)
    (ho : ∀ op ∈ (g (w.engine j)).operations, ∀ d ∈ op.disposers, d.Free) : Steady i M (w.modifyEngine j g) := by
  refine ⟨by simpa using h.inside, ?_, h.nodes, ?_⟩
  · rw [engine_modifyEngine]
    split
    · rcases h.engine with he | he
      · exact .inl (hd _ he)
      · have hs := hs (w.engine i)
        exact .inr (hM.congr he hs.fibers hs.queue hs.current hs.inbox)
    · exact h.engine
  · intro k
    rw [engine_modifyEngine]
    split
    · rename_i hk
      rw [← hk.1]
      exact ho
    · exact h.operations k

theorem tell (h : Steady i M w) (j : Nat) (e : String → Event) : Steady i M (w.tell j e) :=
  h.frame (engines_tell w j e) (disposers_tell w j e)

theorem report (h : Steady i M w) (hM : Growing M) (j : Nat) (e : Failure) : Steady i M (w.report j e) := by
  have hf := h.face hM j (g := fun x => { x with failures := e :: x.failures }) (fun _ => ⟨rfl, rfl, rfl, rfl⟩)
    (fun _ => id) (h.operations j)
  exact hf.frame (engines_report w j e) (disposers_report w j e)

/-- A path that begins keeps a world steady, if its listener speaks for no fiber. -/
theorem begin (h : Steady i M w) (hM : Growing M) (j : Nat) (x : NodeRef) (output : String)
    {l : Option Listener} (hl : ∀ y, l = some y → y.Free) (outputs : List (String × Value)) :
    Steady i M (w.begin j x output l outputs) := by
  have hlocal := Local.begin w j x output l outputs
  refine ⟨by rw [hlocal.size]; exact h.inside, ?_, by rw [hlocal.disposers]; exact h.nodes, ?_⟩
  · rw [hlocal.isDisposed]
    rcases h.engine with he | he
    · exact .inl he
    · by_cases hd : (w.engine i).isDisposed = true
      · exact .inl hd
      · by_cases hj : i = j
        · subst hj
          obtain ⟨root, kids, hentered, -⟩ := entered_begin h.inside (by simpa using hd) (hM.current he) x output hl
            outputs
          exact .inr (hM.enter he hentered)
        · rw [hlocal.others i hj]
          exact .inr he
  · intro k
    rw [hlocal.operations]
    exact h.operations k

/-- A commitment keeps a world steady, if the engine bears it. -/
theorem commitFiber (h : Steady i M w) {x : NodeRef} {output : String} {l : Option Listener}
    (hM : M (w.engine i) → ((w.engine i).fiber f).committed = false →
      M ((w.engine i).commit f x l (w.wiresAt x output))) : Steady i M (w.commitFiber i f x output l).2 := by
  have hlocal := Local.commitFiber w i f x output l
  refine ⟨by rw [hlocal.size]; exact h.inside, ?_, by rw [hlocal.disposers]; exact h.nodes, ?_⟩
  · rw [hlocal.isDisposed]
    rcases h.engine with he | he
    · exact .inl he
    · right
      unfold World.commitFiber
      split
      · exact he
      · rename_i hopen
        rw [engine_modifyEngine_self h.inside]
        refine hM he ?_
        unfold commitRefusal? at hopen
        split at hopen
        · cases hopen
        · rename_i hc
          simpa using hc
  · intro k
    rw [hlocal.operations]
    exact h.operations k

/-- So does the end of a path. -/
theorem endFiber (h : Steady i M w)
    (hM : M (w.engine i) → M ((w.engine i).modifyFiber f fun x => { x with committed := true })) (x : NodeRef) :
    Steady i M (w.endFiber i f x).2 := by
  unfold World.endFiber
  split
  · exact h
  · refine ⟨by simpa using h.inside, ?_, h.nodes, ?_⟩
    · rw [engine_modifyEngine_self h.inside]
      rcases h.engine with he | he
      · exact .inl he
      · exact .inr (hM he)
    · intro k
      rw [engine_modifyEngine]
      split
      · exact h.operations k
      · exact h.operations k

theorem complete (h : Steady i M w) (hM : Growing M) (j o : Nat) (output : Option String) :
    Steady i M (w.complete j o output) := by
  refine complete_upholds ?_ ?_ ?_ ?_ ?_ h
  · exact fun w h => h.face hM j (fun _ => ⟨rfl, rfl, rfl, rfl⟩) (fun _ => id) (h.operations j)
  · exact fun w x h => h.frame (engines_chooseOutput w x output) (disposers_chooseOutput w x output)
  · exact fun w e h => h.report hM j e
  · exact fun w x name h => h.begin hM j x name (by simp) []
  · exact fun w e h => h.tell j e

/-- An operation changes; what it has to undo stays bound to no fiber. -/
theorem modifyOperation (h : Steady i M w) (hM : Growing M) (j o : Nat) {g : Operation → Operation}
    (hg : ∀ op, (∀ d ∈ op.disposers, d.Free) → ∀ d ∈ (g op).disposers, d.Free) :
    Steady i M (w.modifyEngine j (·.modifyOperation o g)) := by
  exact h.face hM j (fun _ => ⟨rfl, rfl, rfl, rfl⟩) (fun _ => id)
    (Engine.forall_modifyOperation (h.operations j) hg)

theorem finishOperation (h : Steady i M w) (hM : Growing M) (j o : Nat) (output : Option String) :
    Steady i M (w.finishOperation j o output) := by
  refine finishOperation_upholds ?_ ?_ ?_ h
  · exact fun w h _ _ => h.modifyOperation hM j o fun _ => id
  · exact fun w h _ => h.complete hM j o output
  · intro _ _ hout
    cases hout

end Steady

end FlowGraph
