import FlowGraph.Proofs.Conduct

/-!
What happens to the operations of an engine leaves marks. The marks, in the order in which they were left, tell the state of
every operation, which operations are under way, and what waits to be applied.
-/
namespace FlowGraph

/-- What happens to the operations of an engine. -/
inductive Mark where
  | started (o : Nat)
  | enrolled (o : Nat) (d : Disposer)
  /-- A call to finish that counts, from the thread of the engine or from another one. -/
  | finished (o : Nat) (output : Option String) (fromOutside : Bool)
  | applied (o : Nat)
  /-- The path behind an operation begins at an output, one of those that the node has. -/
  | continued (o : Nat) (output : String) (outputs : List String)
  /-- The operation failed to start. -/
  | failed (o : Nat)
  | gaveUp (o : Nat) (ds : List Disposer)
  /-- The engine is disposed of. -/
  | closed
  /-- The operations under way are taken off the list, to be given up. -/
  | released

def Mark.about : Mark → Option Nat
  | started o | enrolled o _ | finished o _ _ | applied o | continued o _ _ | failed o | gaveUp o _ => some o
  | closed | released => none

namespace Trail

def Finished (ms : List Mark) (o : Nat) : Prop := ∃ output fromOutside, .finished o output fromOutside ∈ ms

def GivenUp (ms : List Mark) (o : Nat) : Prop := ∃ ds, .gaveUp o ds ∈ ms

def enrolledOf (o : Nat) (ms : List Mark) : List Disposer :=
  ms.filterMap fun
    | .enrolled k d => if k = o then some d else none
    | _ => none

def posted (ms : List Mark) : List (Nat × Option String) :=
  ms.filterMap fun
    | .finished o output true => some (o, output)
    | _ => none

/-- What is before a mark, and what is not. -/
def Legal (ms : List Mark) : Mark → Prop
  | .started o => ∀ m ∈ ms, m.about ≠ some o
  | .enrolled o _ => .started o ∈ ms
  | .finished o _ _ => .started o ∈ ms ∧ ¬ Finished ms o ∧ ¬ GivenUp ms o
  | .applied o => Finished ms o ∧ .applied o ∉ ms
  | .continued o output outputs => .closed ∉ ms ∧ ¬ GivenUp ms o ∧ (∀ output outputs, .continued o output outputs ∉ ms) ∧
      ∃ named fromOutside, .finished o named fromOutside ∈ ms ∧ named.or outputs.head? = some output
  | .failed o => .started o ∈ ms
  | .gaveUp o ds => .started o ∈ ms ∧ ¬ Finished ms o ∧ ¬ GivenUp ms o ∧ (.failed o ∈ ms ∨ .closed ∈ ms) ∧
      ds = enrolledOf o ms
  | .closed => .closed ∉ ms
  | .released => .closed ∈ ms

def Lawful (ms : List Mark) : Prop := ∀ a m b, ms = a ++ m :: b → Legal a m

section Marks

variable {ms : List Mark} {m : Mark} {o : Nat}

theorem lawful_nil : Lawful [] := by
  intro a m b h
  cases a <;> cases h

theorem Lawful.snoc (h : Lawful ms) (hm : Legal ms m) : Lawful (ms ++ [m]) := by
  intro a m' b heq
  rcases List.eq_nil_or_concat b with rfl | ⟨b, m'', rfl⟩
  · obtain ⟨rfl, hlast⟩ := List.append_inj' heq rfl
    cases hlast
    exact hm
  · rw [List.concat_eq_append, ← List.cons_append, ← List.append_assoc] at heq
    exact h a m' b (List.append_inj' heq rfl).1

theorem Lawful.legal (h : Lawful ms) (hm : m ∈ ms) : ∃ a b, ms = a ++ m :: b ∧ Legal a m := by
  obtain ⟨a, b, heq⟩ := List.append_of_mem hm
  exact ⟨a, b, heq, h a m b heq⟩

@[simp] theorem finished_nil : ¬ Finished [] o := by simp [Finished]

@[simp] theorem givenUp_nil : ¬ GivenUp [] o := by simp [GivenUp]

@[simp] theorem finished_append {ms' : List Mark} : Finished (ms ++ ms') o ↔ Finished ms o ∨ Finished ms' o := by
  simp only [Finished, List.mem_append, exists_or]

@[simp] theorem givenUp_append {ms' : List Mark} : GivenUp (ms ++ ms') o ↔ GivenUp ms o ∨ GivenUp ms' o := by
  simp only [GivenUp, List.mem_append, exists_or]

@[simp] theorem finished_singleton :
    Finished [m] o ↔ ∃ output fromOutside, Mark.finished o output fromOutside = m := by
  simp only [Finished, List.mem_singleton]

@[simp] theorem givenUp_singleton : GivenUp [m] o ↔ ∃ ds, Mark.gaveUp o ds = m := by
  simp only [GivenUp, List.mem_singleton]

@[simp] theorem enrolledOf_append {ms' : List Mark} :
    enrolledOf o (ms ++ ms') = enrolledOf o ms ++ enrolledOf o ms' := List.filterMap_append

theorem enrolledOf_silent (hm : ∀ d, m ≠ .enrolled o d) : enrolledOf o [m] = [] := by
  cases m <;> simp_all [enrolledOf]

@[simp] theorem posted_append {ms' : List Mark} : posted (ms ++ ms') = posted ms ++ posted ms' :=
  List.filterMap_append

theorem posted_silent (hm : ∀ o output, .finished o output true ≠ m) : posted [m] = [] := by
  match m with
  | .finished o output true => exact absurd rfl (hm o output)
  | .finished _ _ false | .started _ | .enrolled .. | .applied _ | .continued .. | .failed _ | .gaveUp .. | .closed
  | .released => rfl

end Marks

/-- The marks tell the state of the operations. -/
structure Described (ms : List Mark) (e : Engine) : Prop where
  started : ∀ o, .started o ∈ ms ↔ o < e.operations.size
  about : ∀ m ∈ ms, ∀ o, m.about = some o → o < e.operations.size
  finished : ∀ o, (e.operation o).isFinished = true ↔ Finished ms o
  abandoned : ∀ o, (e.operation o).isAbandoned = true ↔ GivenUp ms o
  disposers : ∀ o, ¬ GivenUp ms o → (e.operation o).disposers = enrolledOf o ms

namespace Described

variable {ms : List Mark} {e e' : Engine} {o : Nat}

theorem congr (h : Described ms e) (ho : e'.operations = e.operations) : Described ms e' := by
  have hop (o : Nat) : e'.operation o = e.operation o := by
    rw [Engine.operation, ho]
    rfl
  refine ⟨?_, ?_, ?_, ?_, ?_⟩
  · simpa only [ho] using h.started
  · simpa only [ho] using h.about
  · simpa only [hop] using h.finished
  · simpa only [hop] using h.abandoned
  · simpa only [hop] using h.disposers

/-- An operation that is not there yet has left no mark. -/
theorem unmarked (h : Described ms e) (ho : e.operations.size ≤ o) : ∀ m ∈ ms, m.about ≠ some o :=
  fun m hm ha => absurd (h.about m hm o ha) (by omega)

theorem lt_of_finished (h : Described ms e) (hf : Finished ms o) : o < e.operations.size :=
  have ⟨_, _, hm⟩ := hf
  h.about _ hm o rfl

theorem not_finished (h : Described ms e) (hs : (e.operation o).isSettled = false) : ¬ Finished ms o := by
  rw [← h.finished]
  intro hf
  simp [Operation.isSettled, hf] at hs

theorem not_givenUp (h : Described ms e) (hs : (e.operation o).isSettled = false) : ¬ GivenUp ms o := by
  rw [← h.abandoned]
  intro ha
  simp [Operation.isSettled, ha] at hs

/-- An operation that starts leaves its mark. -/
theorem start (h : Described ms e) (x : NodeRef) (input : String)
    (ho : e'.operations = e.operations.push { node := x, input := input }) :
    Described (ms ++ [Mark.started e.operations.size]) e' := by
  have hnew := h.unmarked (Nat.le_refl _)
  have hop := Engine.operation_push e e' _ ho
  have hnone : e.operation e.operations.size = default := Engine.operation_of_size_le (Nat.le_refl _)
  refine ⟨?_, ?_, ?_, ?_, ?_⟩
  · intro o
    simp [h.started, ho]
    omega
  · intro m hm o ha
    have hold := h.about m
    simp only [List.mem_append, List.mem_singleton, ho, Array.size_push] at hm ⊢
    rcases hm with hm | rfl
    · exact Nat.lt_succ_of_lt (hold hm o ha)
    · cases ha
      exact Nat.lt_succ_self _
  · intro o
    have hold := h.finished o
    simp only [hop, finished_append, finished_singleton]
    split
    · rename_i hlast
      rw [hlast, hnone] at hold
      simpa [hlast, show (default : Operation).isFinished = false from rfl] using hold
    · simpa using hold
  · intro o
    have hold := h.abandoned o
    simp only [hop, givenUp_append, givenUp_singleton]
    split
    · rename_i hlast
      rw [hlast, hnone] at hold
      simpa [hlast, show (default : Operation).isAbandoned = false from rfl] using hold
    · simpa using hold
  · intro o hopen
    have hold := h.disposers o (by simpa using hopen)
    rw [hop, enrolledOf_append, enrolledOf_silent (by simp), List.append_nil, ← hold]
    split
    · rename_i hlast
      rw [hlast, hnone]
      rfl
    · rfl

/-- An operation changes along with what a mark says of it. -/
theorem modify (h : Described ms e) {k : Nat} (hk : k < e.operations.size) {m : Mark} (hm : m.about = some k)
    {g : Operation → Operation} (ho : e'.operations = (e.modifyOperation k g).operations)
    (hstarted : ∀ o, .started o ≠ m)
    (hfinished : (g (e.operation k)).isFinished = true ↔ Finished (ms ++ [m]) k)
    (habandoned : (g (e.operation k)).isAbandoned = true ↔ GivenUp (ms ++ [m]) k)
    (hdisposers : ¬ GivenUp (ms ++ [m]) k → (g (e.operation k)).disposers = enrolledOf k (ms ++ [m])) :
    Described (ms ++ [m]) e' := by
  have hop (o : Nat) : e'.operation o = if o = k then g (e.operation k) else e.operation o := by
    have hmod := e.operation_modifyOperation k o g
    rw [Engine.operation, ho]
    refine Eq.trans hmod ?_
    by_cases hok : o = k
    · simp [hok, hk]
    · simp [hok]
  have hother {o : Nat} (hok : o ≠ k) : (Finished [m] o ↔ False) ∧ (GivenUp [m] o ↔ False) ∧ enrolledOf o [m] = [] := by
    have habout : m.about ≠ some o := by simpa [hm] using Ne.symm hok
    refine ⟨?_, ?_, enrolledOf_silent ?_⟩
    · simp only [finished_singleton, iff_false]
      rintro ⟨_, _, rfl⟩
      exact habout rfl
    · simp only [givenUp_singleton, iff_false]
      rintro ⟨_, rfl⟩
      exact habout rfl
    · rintro _ rfl
      exact habout rfl
  refine ⟨?_, ?_, ?_, ?_, ?_⟩
  · intro o
    simp [h.started, ho, hstarted, Engine.modifyOperation]
  · intro m' hm' o ha
    simp only [ho, Engine.modifyOperation, Array.size_modify]
    rcases List.mem_append.1 hm' with hm' | hm'
    · exact h.about m' hm' o ha
    · rw [List.mem_singleton.1 hm', hm] at ha
      cases ha
      exact hk
  · intro o
    rw [hop]
    split
    · rename_i hok
      rw [hok]
      exact hfinished
    · rename_i hok
      rw [finished_append, (hother hok).1, or_false]
      exact h.finished o
  · intro o
    rw [hop]
    split
    · rename_i hok
      rw [hok]
      exact habandoned
    · rename_i hok
      rw [givenUp_append, (hother hok).2.1, or_false]
      exact h.abandoned o
  · intro o hopen
    rw [hop]
    split
    · rename_i hok
      rw [hok] at hopen ⊢
      exact hdisposers hopen
    · rename_i hok
      rw [givenUp_append, (hother hok).2.1, or_false] at hopen
      rw [enrolledOf_append, (hother hok).2.2, List.append_nil]
      exact h.disposers o hopen

theorem enrol (h : Described ms e) (ho : o < e.operations.size) (d : Disposer) :
    Described (ms ++ [Mark.enrolled o d])
      (e.modifyOperation o fun op => { op with disposers := op.disposers ++ [d] }) := by
  refine h.modify ho rfl rfl (by simp) ?_ ?_ ?_
  · simpa using h.finished o
  · simpa using h.abandoned o
  · intro hopen
    have hold := h.disposers o (by simpa using hopen)
    simp [hold, enrolledOf]

theorem finish (h : Described ms e) (ho : o < e.operations.size) (output : Option String) (fromOutside : Bool) :
    Described (ms ++ [Mark.finished o output fromOutside]) (e.modifyOperation o fun op => { op with isFinished := true }) := by
  refine h.modify ho rfl rfl (by simp) ?_ ?_ ?_
  · simp
  · simpa using h.abandoned o
  · intro hopen
    rw [enrolledOf_append, enrolledOf_silent (by simp), List.append_nil]
    exact h.disposers o (by simpa using hopen)

theorem giveUp (h : Described ms e) (ho : o < e.operations.size) (ds : List Disposer) :
    Described (ms ++ [Mark.gaveUp o ds])
      (e.modifyOperation o fun op => { op with isAbandoned := true, disposers := [] }) := by
  refine h.modify ho rfl rfl (by simp) ?_ ?_ ?_
  · simpa using h.finished o
  · simp
  · intro hopen
    simp at hopen

/-- Other marks say nothing of the state of an operation. -/
theorem silent (h : Described ms e) {m : Mark} (hm : ∀ o, m.about = some o → o < e.operations.size)
    (hstarted : ∀ o, .started o ≠ m) (henrolled : ∀ o d, m ≠ .enrolled o d)
    (hfinished : ∀ o output fromOutside, .finished o output fromOutside ≠ m) (hgaveUp : ∀ o ds, .gaveUp o ds ≠ m) :
    Described (ms ++ [m]) e := by
  have hnone (o : Nat) := enrolledOf_silent (henrolled o)
  refine ⟨?_, ?_, ?_, ?_, ?_⟩
  · simpa [hstarted] using h.started
  · intro m' hm' o ha
    rcases List.mem_append.1 hm' with hm' | hm'
    · exact h.about m' hm' o ha
    · rw [List.mem_singleton.1 hm'] at ha
      exact hm o ha
  · simpa [hfinished] using h.finished
  · simpa [hgaveUp] using h.abandoned
  · simpa [hgaveUp, hnone] using h.disposers

end Described

/-- The operations under way are those that were started and neither completed nor failed to start, until the engine is
disposed of and gives them up. -/
structure Listed (ms : List Mark) (pending : List Nat) : Prop where
  nodup : pending.Nodup
  listed : ∀ o ∈ pending, .started o ∈ ms ∧ .applied o ∉ ms ∧ .failed o ∉ ms
  unlisted : ∀ o, .started o ∈ ms → o ∈ pending ∨ .applied o ∈ ms ∨ .failed o ∈ ms ∨ .released ∈ ms

namespace Listed

variable {ms : List Mark} {m : Mark} {pending : List Nat} {o : Nat}

/-- An operation that starts is listed last. -/
theorem start (h : Listed ms pending) (hnew : ∀ m ∈ ms, m.about ≠ some o) :
    Listed (ms ++ [Mark.started o]) (pending ++ [o]) := by
  have hfresh : o ∉ pending := fun ho => hnew _ (h.listed o ho).1 rfl
  refine ⟨?_, ?_, ?_⟩
  · refine List.nodup_append.2 ⟨h.nodup, by simp, ?_⟩
    rintro a ha b hb rfl
    exact hfresh (List.mem_singleton.1 hb ▸ ha)
  · intro k hk
    rcases List.mem_append.1 hk with hk | hk
    · simpa using (h.listed k hk).imp_left .inl
    · rw [List.mem_singleton.1 hk]
      simpa using ⟨fun ha => hnew _ ha rfl, fun hf => hnew _ hf rfl⟩
  · intro k hk
    have hold := h.unlisted k
    simp at hk ⊢
    grind

theorem silent (h : Listed ms pending) (hstarted : ∀ k, .started k ≠ m) (happlied : ∀ k, .applied k ≠ m)
    (hfailed : ∀ k, .failed k ≠ m) : Listed (ms ++ [m]) pending := by
  refine ⟨h.nodup, ?_, ?_⟩
  · simpa [hstarted, happlied, hfailed] using h.listed
  · intro k hk
    rcases h.unlisted k (by simpa [hstarted] using hk) with hp | ha | hf | hr
    · exact .inl hp
    · exact .inr (.inl (List.mem_append_left _ ha))
    · exact .inr (.inr (.inl (List.mem_append_left _ hf)))
    · exact .inr (.inr (.inr (List.mem_append_left _ hr)))

/-- An operation that is completed or failed to start is taken off the list. -/
theorem strike (h : Listed ms pending) (hm : m = .applied o ∨ m = .failed o) : Listed (ms ++ [m]) (pending.erase o) := by
  refine ⟨h.nodup.erase o, ?_, ?_⟩
  · intro k hk
    obtain ⟨hko, hk⟩ := (List.Nodup.mem_erase_iff h.nodup).1 hk
    have hold := h.listed k hk
    rcases hm with rfl | rfl <;> simpa [hko] using hold
  · intro k hk
    rw [List.Nodup.mem_erase_iff h.nodup]
    have hold := h.unlisted k
    rcases hm with rfl | rfl
    · simp at hk ⊢
      grind
    · simp at hk ⊢
      grind

theorem released (ms : List Mark) : Listed (ms ++ [Mark.released]) [] := ⟨List.nodup_nil, by simp, by simp⟩

end Listed

/-- What the marks tell of an engine. -/
structure Kept (ms : List Mark) (e : Engine) : Prop extends Described ms e, Listed ms e.pending where
  lawful : Lawful ms
  closed : e.isDisposed = true ↔ .closed ∈ ms
  continued : ∀ o output outputs, .continued o output outputs ∈ ms → .applied o ∈ ms

namespace Kept

variable {ms : List Mark} {e e' : Engine} {o : Nat}

theorem congr (h : Kept ms e) (ho : e'.operations = e.operations) (hp : e'.pending = e.pending)
    (hd : e'.isDisposed = e.isDisposed) : Kept ms e' where
  toDescribed := h.toDescribed.congr ho
  toListed := hp ▸ h.toListed
  lawful := h.lawful
  closed := by rw [hd, h.closed]
  continued := h.continued

/-- In a new engine there are no marks. -/
theorem fresh (ho : e.operations = #[]) (hp : e.pending = []) (hd : e.isDisposed = false) : Kept [] e := by
  have hop (o : Nat) : e.operation o = default := Engine.operation_of_size_le (by simp [ho])
  refine ⟨⟨?_, ?_, ?_, ?_, ?_⟩, ⟨?_, ?_, ?_⟩, lawful_nil, ?_, ?_⟩
  · simp [ho]
  · simp
  · intro o
    simp [hop, show (default : Operation).isFinished = false from rfl]
  · intro o
    simp [hop, show (default : Operation).isAbandoned = false from rfl]
  · intro o _
    rw [hop]
    rfl
  · simp [hp]
  · simp [hp]
  · simp
  · simp [hd]
  · simp

/-- A mark that says nothing of what is under way. -/
theorem snoc (h : Kept ms e) {m : Mark} (hd : Described (ms ++ [m]) e') (hl : Listed (ms ++ [m]) e'.pending)
    (hlegal : Legal ms m) (hdisposed : e'.isDisposed = e.isDisposed) (hclosed : m ≠ .closed)
    (hcontinued : ∀ o output outputs, m = .continued o output outputs → .applied o ∈ ms) : Kept (ms ++ [m]) e' where
  toDescribed := hd
  toListed := hl
  lawful := h.lawful.snoc hlegal
  closed := by simp [hdisposed, h.closed, hclosed.symm]
  continued o output outputs hm := by
    rcases List.mem_append.1 hm with hm | hm
    · exact List.mem_append_left _ (h.continued o output outputs hm)
    · exact List.mem_append_left _ (hcontinued o output outputs (List.mem_singleton.1 hm).symm)

theorem start (h : Kept ms e) (x : NodeRef) (input : String) : Kept (ms ++ [Mark.started e.operations.size])
    { e with
      operations := e.operations.push { node := x, input := input }
      pending := e.pending ++ [e.operations.size] } := by
  have hnew := h.unmarked (Nat.le_refl _)
  refine h.snoc ?_ (h.toListed.start hnew) hnew rfl (by simp) (by simp)
  exact h.toDescribed.start x input rfl

theorem enrol (h : Kept ms e) (ho : o < e.operations.size) (d : Disposer) : Kept (ms ++ [Mark.enrolled o d])
    (e.modifyOperation o fun op => { op with disposers := op.disposers ++ [d] }) :=
  h.snoc (h.toDescribed.enrol ho d) (h.toListed.silent (by simp) (by simp) (by simp)) ((h.started o).2 ho) rfl (by simp)
    (by simp)

theorem finish (h : Kept ms e) (ho : o < e.operations.size) (hs : (e.operation o).isSettled = false)
    (output : Option String) (fromOutside : Bool) : Kept (ms ++ [Mark.finished o output fromOutside])
      (e.modifyOperation o fun op => { op with isFinished := true }) := by
  have hopen := And.intro ((h.started o).2 ho) (And.intro (h.not_finished hs) (h.not_givenUp hs))
  exact h.snoc (h.toDescribed.finish ho output fromOutside) (h.toListed.silent (by simp) (by simp) (by simp)) hopen rfl
    (by simp) (by simp)

theorem apply (h : Kept ms e) (hf : Finished ms o) (ha : .applied o ∉ ms) :
    Kept (ms ++ [Mark.applied o]) { e with pending := e.pending.erase o } := by
  refine h.snoc ?_ (h.toListed.strike (.inl rfl)) ⟨hf, ha⟩ rfl (by simp) (by simp)
  refine Described.congr (h.toDescribed.silent ?_ (by simp) (by simp) (by simp) (by simp)) rfl
  rintro _ ⟨⟩
  exact h.lt_of_finished hf

/-- The path behind an operation begins where its own call to finish said. -/
theorem continues (h : Kept (ms ++ [Mark.applied o]) e) (hnone : ∀ output outputs, .continued o output outputs ∉ ms)
    (hd : e.isDisposed = false) (hg : (e.operation o).isAbandoned = false) {named : Option String} {fromOutside : Bool}
    (hf : .finished o named fromOutside ∈ ms) {output : String} {outputs : List String}
    (ho : named.or outputs.head? = some output) : Kept (ms ++ [Mark.applied o] ++ [Mark.continued o output outputs]) e := by
  have hmem : .finished o named fromOutside ∈ ms ++ [Mark.applied o] := List.mem_append_left _ hf
  refine h.snoc ?_ (h.toListed.silent (by simp) (by simp) (by simp)) ?_ rfl (by simp) ?_
  · refine h.toDescribed.silent ?_ (by simp) (by simp) (by simp) (by simp)
    rintro _ ⟨⟩
    exact h.about _ hmem o rfl
  · refine ⟨?_, ?_, by simpa using hnone, named, fromOutside, hmem, ho⟩
    · rw [← h.closed, hd]
      exact Bool.false_ne_true
    · rw [← h.abandoned, hg]
      exact Bool.false_ne_true
  · rintro k _ _ ⟨⟩
    simp

theorem finished_of_applied (h : Kept ms e) (hm : .applied o ∈ ms) : Finished ms o := by
  obtain ⟨a, b, rfl, ⟨output, fromOutside, hbefore⟩, -⟩ := h.lawful.legal hm
  exact ⟨output, fromOutside, List.mem_append_left _ hbefore⟩

theorem not_applied (h : Kept ms e) (hf : ¬ Finished ms o) : .applied o ∉ ms := fun hm => hf (h.finished_of_applied hm)

/-- An operation whose completion was not applied has no path behind it. -/
theorem not_continued (h : Kept ms e) (ha : .applied o ∉ ms) (output : String) (outputs : List String) :
    .continued o output outputs ∉ ms := fun hm => ha (h.continued o output outputs hm)

theorem fail (h : Kept ms e) (ho : o < e.operations.size) :
    Kept (ms ++ [Mark.failed o]) { e with pending := e.pending.erase o } := by
  refine h.snoc ?_ (h.toListed.strike (.inr rfl)) ((h.started o).2 ho) rfl (by simp) (by simp)
  refine Described.congr (h.toDescribed.silent ?_ (by simp) (by simp) (by simp) (by simp)) rfl
  rintro _ ⟨⟩
  exact ho

theorem giveUp (h : Kept ms e) (ho : o < e.operations.size) (hs : (e.operation o).isSettled = false)
    (hwhy : .failed o ∈ ms ∨ .closed ∈ ms) : Kept (ms ++ [Mark.gaveUp o (e.operation o).disposers])
      (e.modifyOperation o fun op => { op with isAbandoned := true, disposers := [] }) := by
  have hopen := h.not_givenUp hs
  exact h.snoc (h.toDescribed.giveUp ho _) (h.toListed.silent (by simp) (by simp) (by simp))
    ⟨(h.started o).2 ho, h.not_finished hs, hopen, hwhy, h.disposers o hopen⟩ rfl (by simp) (by simp)

theorem close (h : Kept ms e) (hd : e.isDisposed = false) : Kept (ms ++ [Mark.closed]) { e with isDisposed := true } where
  toDescribed := Described.congr (h.toDescribed.silent (by simp [Mark.about]) (by simp) (by simp) (by simp) (by simp)) rfl
  toListed := h.toListed.silent (by simp) (by simp) (by simp)
  lawful := by
    refine h.lawful.snoc fun hm => ?_
    rw [h.closed.2 hm] at hd
    cases hd
  closed := by simp
  continued := by simpa using h.continued

theorem release (h : Kept ms e) (hd : e.isDisposed = true) : Kept (ms ++ [Mark.released]) { e with pending := [] } := by
  refine h.snoc ?_ (Listed.released ms) (h.closed.1 hd) rfl (by simp) (by simp)
  exact Described.congr (h.toDescribed.silent (by simp [Mark.about]) (by simp) (by simp) (by simp) (by simp)) rfl

/-- Until the engine is disposed of, the list holds the operations that were started and neither completed nor given up. -/
theorem pending (h : Kept ms e) (hd : .closed ∉ ms) :
    o ∈ e.pending ↔ .started o ∈ ms ∧ .applied o ∉ ms ∧ .failed o ∉ ms ∧ ¬ GivenUp ms o := by
  constructor
  · intro ho
    obtain ⟨hs, ha, hf⟩ := h.listed o ho
    refine ⟨hs, ha, hf, ?_⟩
    rintro ⟨ds, hm⟩
    obtain ⟨a, b, rfl, -, -, -, hwhy, -⟩ := h.lawful.legal hm
    rcases hwhy with hwhy | hwhy
    · exact hf (List.mem_append_left _ hwhy)
    · exact hd (List.mem_append_left _ hwhy)
  · rintro ⟨hs, ha, hf, -⟩
    rcases h.unlisted o hs with ho | ho | ho | ho
    · exact ho
    · exact absurd ho ha
    · exact absurd ho hf
    · obtain ⟨a, b, rfl, hclosed⟩ := h.lawful.legal ho
      exact absurd (List.mem_append_left _ hclosed) hd

end Kept

/-- What waits to be applied: calls to finish from other threads, in their order. Those from the thread of the engine were
applied at once. -/
structure Awaited (ms : List Mark) (waiting : List (Nat × Option String)) : Prop where
  unapplied : ∀ p ∈ waiting, .finished p.1 p.2 true ∈ ms ∧ .applied p.1 ∉ ms
  once : (waiting.map Prod.fst).Nodup
  order : .closed ∉ ms → ∃ done, posted ms = done ++ waiting ∧ ∀ p ∈ done, .applied p.1 ∈ ms
  atOnce : ∀ o output, .finished o output false ∈ ms → .applied o ∈ ms

namespace Awaited

variable {ms : List Mark} {m : Mark} {o : Nat} {output : Option String} {waiting rest : List (Nat × Option String)}

theorem fresh : Awaited [] [] := ⟨by simp, List.nodup_nil, fun _ => ⟨[], rfl, by simp⟩, by simp⟩

theorem not_waiting (h : Awaited ms waiting) (hf : ¬ Finished ms o) : ∀ p ∈ waiting, p.1 ≠ o := by
  rintro p hp rfl
  exact hf ⟨p.2, true, (h.unapplied p hp).1⟩

theorem silent (h : Awaited ms waiting) (happlied : ∀ k, .applied k ≠ m)
    (hfinished : ∀ o output fromOutside, .finished o output fromOutside ≠ m) : Awaited (ms ++ [m]) waiting := by
  have hposted := posted_silent fun o output => hfinished o output true
  refine ⟨?_, h.once, ?_, ?_⟩
  · simpa [happlied, hfinished] using h.unapplied
  · intro hd
    obtain ⟨done, heq, hdone⟩ := h.order fun hm => hd (List.mem_append_left _ hm)
    refine ⟨done, by rw [posted_append, hposted, List.append_nil, heq], fun p hp => ?_⟩
    exact List.mem_append_left _ (hdone p hp)
  · intro o output hm
    exact List.mem_append_left _ (h.atOnce o output (by simpa [hfinished] using hm))

/-- What is finished on the thread of the engine is applied at once. -/
theorem finish (h : Awaited ms waiting) (hf : ¬ Finished ms o) (output : Option String) :
    Awaited (ms ++ [Mark.finished o output false] ++ [Mark.applied o]) waiting := by
  have hother := h.not_waiting hf
  refine ⟨?_, h.once, ?_, ?_⟩
  · intro p hp
    obtain ⟨hfin, happ⟩ := h.unapplied p hp
    simp [hfin, happ, hother p hp]
  · intro hd
    obtain ⟨done, heq, hdone⟩ := h.order (by simpa using hd)
    refine ⟨done, ?_, fun p hp => ?_⟩
    · rw [posted_append, posted_append, heq, posted_silent (by simp), posted_silent (by simp), List.append_nil,
        List.append_nil]
    simp [hdone p hp]
  · intro k named hm
    have hold := h.atOnce k named
    simp at hm ⊢
    grind

/-- What is finished on another thread waits to be applied. -/
theorem post (h : Awaited ms waiting) (hf : ¬ Finished ms o) (ha : .applied o ∉ ms) (output : Option String) :
    Awaited (ms ++ [Mark.finished o output true]) (waiting ++ [(o, output)]) := by
  have hother := h.not_waiting hf
  refine ⟨?_, ?_, ?_, ?_⟩
  · intro p hp
    rcases List.mem_append.1 hp with hp | hp
    · simpa using (h.unapplied p hp).imp_left .inl
    · rw [List.mem_singleton.1 hp]
      simpa using ha
  · rw [List.map_append]
    refine List.nodup_append.2 ⟨h.once, by simp, ?_⟩
    intro k hk b hb hkb
    obtain ⟨p, hp, rfl⟩ := List.mem_map.1 hk
    exact hother p hp (by simpa [← hkb] using hb)
  · intro hd
    obtain ⟨done, heq, hdone⟩ := h.order (by simpa using hd)
    refine ⟨done, ?_, fun p hp => List.mem_append_left _ (hdone p hp)⟩
    rw [posted_append, heq, List.append_assoc]
    rfl
  · intro k named hm
    simpa using h.atOnce k named (by simpa using hm)

/-- Who has waited longest is applied first. -/
theorem apply (h : Awaited ms ((o, output) :: rest)) : Awaited (ms ++ [Mark.applied o]) rest := by
  obtain ⟨hnew, honce⟩ := List.nodup_cons.1 h.once
  refine ⟨?_, honce, ?_, ?_⟩
  · intro p hp
    obtain ⟨hfin, happ⟩ := h.unapplied p (List.mem_cons_of_mem _ hp)
    have hother : p.1 ≠ o := by
      rintro rfl
      exact hnew (List.mem_map.2 ⟨p, hp, rfl⟩)
    simp [hfin, happ, hother]
  · intro hd
    obtain ⟨done, heq, hdone⟩ := h.order (by simpa using hd)
    refine ⟨done ++ [(o, output)], ?_, ?_⟩
    · rw [posted_append, posted_silent (by simp), List.append_nil, heq, List.append_assoc]
      rfl
    intro p hp
    rcases List.mem_append.1 hp with hp | hp
    · simp [hdone p hp]
    · simp [List.mem_singleton.1 hp]
  · intro k named hm
    simp [h.atOnce k named (by simpa using hm)]

/-- An engine that is disposed of forgets what waits. -/
theorem forget (h : Awaited ms waiting) (hd : .closed ∈ ms) (hsub : rest.Sublist waiting) : Awaited ms rest where
  unapplied p hp := h.unapplied p (hsub.subset hp)
  once := h.once.sublist (hsub.map Prod.fst)
  order hopen := absurd hd hopen
  atOnce := h.atOnce

end Awaited

end Trail

end FlowGraph
