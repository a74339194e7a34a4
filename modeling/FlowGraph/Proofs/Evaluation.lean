import FlowGraph.Proofs.Sockets

/-!
A reference evaluation of the data inputs of a node: by recursion along the wires, with no sockets in between. It is
bounded by the number of nodes, which makes no difference where no nodes draw on each other in a round. Where it makes
no NaN, evaluating once more comes to the same.
-/
namespace FlowGraph

open World Play Relation

/-- What a function node makes of the values at its data inputs, from the label of the next NaN on: what each output
holds, and the next label after that. Nothing, if it fails. -/
abbrev Meaning := List Value → Nat → Option ((Nat → Value) × Nat)

/-- What a reference evaluation keeps account of: the label of the next NaN, what each socket was given last, and which
inputs were told of for want of a link and a value, latest first. Of the sockets it reads only inputs without link. -/
structure Ledger where
  labels : Nat
  inputs : Nat → Nat → Value
  outputs : Nat → Nat → Value
  reports : List (Nat × Nat) := []

def World.isDataOutput (w : World) (x : NodeRef) (p : Nat) : Bool := ((w.node x).outputs[p]?).any (!·.isFlow)

def World.ledger (w : World) (j : Nat) : Ledger where
  labels := w.labels j
  inputs k p := w.inputValue ⟨j, k⟩ p
  outputs k p := w.outputValue ⟨j, k⟩ p

namespace Ledger

def setInput (s : Ledger) (k p : Nat) (v : Value) : Ledger :=
  { s with inputs := fun l q => if l = k ∧ q = p then v else s.inputs l q }

/-- The ledger after a function node has computed. -/
def deliver (s : Ledger) (k : Nat) (isData : Nat → Bool) (outputs : Nat → Value) (n : Nat) : Ledger :=
  { s with
    labels := n
    outputs := fun l p => if l = k ∧ isData p = true then outputs p else s.outputs l p }

end Ledger

namespace Reference

variable (w : World) (j : Nat) (F : Nat → Meaning)

def keep (v : Value) : StateT Ledger Option Value := fun s =>
  some ((v.kept s.labels).1, { s with labels := (v.kept s.labels).2 })

def inputType (k p : Nat) : String := (((w.node ⟨j, k⟩).inputs[p]?).getD default).valueType

def outputType (k p : Nat) : String := (((w.node ⟨j, k⟩).outputs[p]?).getD default).valueType

/-- An input without link: its literal, or what its type starts with. -/
def literal (k p : Nat) : StateT Ledger Option Value := do
  let v := (← get).inputs k p
  if v.isNone then
    let t ← StateT.lift ((w.registryOf ⟨j, k⟩).valueType (inputType w j k p)).toOption
    let v ← keep t.create
    modify fun s => { s.setInput k p v with reports := (k, p) :: s.reports }
    return v
  else return v

section Literal

variable {w j} {k p : Nat} {s : Ledger}

theorem run_literal_kept (h : (s.inputs k p).isNone = false) :
    (literal w j k p).run s = some (s.inputs k p, s) := by
  simp only [literal, StateT.run_bind, StateT.run_get, Option.pure_def, Option.bind_eq_bind, Option.bind_some, h,
    Bool.false_eq_true, if_false]
  rfl

theorem run_literal_filled (h : (s.inputs k p).isNone = true) {t : ValueType}
    (ht : (w.registryOf ⟨j, k⟩).valueType (inputType w j k p) = .ok t) : (literal w j k p).run s =
      some ((t.create.kept s.labels).1, { s.setInput k p (t.create.kept s.labels).1 with
        labels := (t.create.kept s.labels).2
        reports := (k, p) :: s.reports }) := by
  simp only [literal, StateT.run_bind, StateT.run_get, Option.pure_def, Option.bind_eq_bind, Option.bind_some, h, if_true,
    ht]
  rfl

theorem run_literal_untyped (h : (s.inputs k p).isNone = true) {e : IntegrityError}
    (ht : (w.registryOf ⟨j, k⟩).valueType (inputType w j k p) = .error e) : (literal w j k p).run s = none := by
  simp only [literal, StateT.run_bind, StateT.run_get, Option.pure_def, Option.bind_eq_bind, Option.bind_some, h, if_true,
    ht]
  rfl

end Literal

/-- The value at an output: what a function node makes of its inputs, and what any other node holds there. -/
def source (inputs : Nat → StateT Ledger Option (List Value)) (e : End) : StateT Ledger Option Value := do
  if (w.node ⟨j, e.node⟩).kind = .function then
    let values ← inputs e.node
    let (outputs, n) ← StateT.lift (F e.node values (← get).labels)
    modify (·.deliver e.node (w.isDataOutput ⟨j, e.node⟩) outputs n)
    return outputs e.socket
  else return w.outputValue ⟨j, e.node⟩ e.socket

/-- A data input: the converted value of its source if it is linked. -/
def input (inputs : Nat → StateT Ledger Option (List Value)) (k p : Nat) : StateT Ledger Option Value := do
  match (w.graph j).pulls k p with
  | none => literal w j k p
  | some e => do
    let v ← source w j F inputs e.source
    let v ← StateT.lift ((w.registryOf ⟨j, k⟩).convert v (outputType w j e.source.node e.source.socket)
      (inputType w j k p)).toOption
    let v ← keep v
    modify (·.setInput k p v)
    return v

/-- The data inputs of a node. Each recursion goes one node up; `fuel` bounds how far. -/
def inputsWithin : Nat → Nat → StateT Ledger Option (List Value)
  | 0, _ => StateT.lift none
  | fuel + 1, k => (dataPlaces (w.node ⟨j, k⟩)).mapM (input w j F (inputsWithin fuel) k)

/-- The data inputs of a node. A way that meets no node twice is no longer than there are nodes. -/
def evaluate (k : Nat) : StateT Ledger Option (List Value) := inputsWithin w j F ((w.graph j).arena.size + 1) k

end Reference

namespace Value

mutual

theorem le_stamp (v : Value) (n : Nat) : n ≤ (v.stamp.run n).2 := by
  cases v with
  | float x =>
    simp only [stamp, stampFloat]
    split
    · exact Nat.le_succ n
    · exact Nat.le_refl n
  | list vs => exact le_stampItems vs n
  | dict fields => exact le_stampFields fields n
  | vec2 x y => exact (le_stamp x n).trans (le_stamp y _)
  | vec3 x y z => exact (le_stamp x n).trans ((le_stamp y _).trans (le_stamp z _))
  | none | bool _ | int _ | str _ => exact Nat.le_refl n

theorem le_stampItems (vs : List Value) (n : Nat) : n ≤ ((stampItems vs).run n).2 := by
  cases vs with
  | nil => exact Nat.le_refl n
  | cons v vs => exact (le_stamp v n).trans (le_stampItems vs _)

theorem le_stampFields (fields : List (String × Value)) (n : Nat) : n ≤ ((stampFields fields).run n).2 := by
  cases fields with
  | nil => exact Nat.le_refl n
  | cons field fields => exact (le_stamp field.2 n).trans (le_stampFields fields _)

end

theorem le_kept (v : Value) (n : Nat) : n ≤ (v.kept n).2 := by
  unfold kept
  split
  · exact le_stamp v n
  · exact Nat.le_refl n

end Value

/-- The node at the place is a function node above the node of the identifier. -/
def Graph.Above (g : Graph) (a : String) (m : Nat) : Prop := ∃ b, TransGen g.Draws a b ∧ g.serial? b = some m

namespace Graph.Above

variable {g : Graph} {a b : String} {m : Nat}

theorem of_draws (h : g.Draws a b) (hm : g.serial? b = some m) : g.Above a m := ⟨b, .single h, hm⟩

theorem head (h : g.Draws a b) (hm : g.Above b m) : g.Above a m :=
  have ⟨c, hc, hserial⟩ := hm
  ⟨c, .head h hc, hserial⟩

end Graph.Above

/-- What resolving one input asks of the graph does not depend on what the sockets hold. -/
theorem World.Shaped.pulls {j : Nat} {g : Graph} {w : World} (h : Shaped j g w) (k p : Nat) :
    (((w.node ⟨j, k⟩).inputs[p]?).getD default).wires.head?.bind (w.graph j).endsOf = g.pulls k p :=
  Graph.pulls_of_outline h k p

/-- What a data input pulls from is a node, and one to draw on if it is a function node. -/
theorem World.Shaped.of_pulls {j : Nat} {g : Graph} {w : World} (h : Shaped j g w) (hg : g.Indexed) {a : String} {k p : Nat}
    (hk : g.serial? a = some k) (hp : p ∈ Play.dataPlaces (w.node ⟨j, k⟩)) {e : Ends} (he : (w.graph j).pulls k p = some e) :
    ∃ b, g.serial? b = some e.source.node ∧ ((w.node ⟨j, e.source.node⟩).kind = .function → g.Draws a b) := by
  rw [h.dataPlaces] at hp
  obtain ⟨b, hb, hdraws⟩ := hg.of_pulls hk hp ((Graph.pulls_of_outline h k p).symm.trans he)
  refine ⟨b, hb, fun hkind => hdraws ?_⟩
  rw [hg.isFunction_iff hb, ← h.kind]
  exact hkind

theorem nodup_dataPlaces (n : Node) : (dataPlaces n).Nodup := by
  refine ((List.filter_sublist (p := fun q : Socket × Nat => !q.1.isFlow)).map Prod.snd).nodup ?_
  rw [List.zipIdx_map_snd]
  exact List.nodup_range' 1

theorem run_bind_eq_some {σ α β : Type} {m : StateT σ Option α} {f : α → StateT σ Option β} {s s' : σ} {b : β} :
    (m >>= f).run s = some (b, s') ↔ ∃ a t, m.run s = some (a, t) ∧ (f a).run t = some (b, s') := by
  rw [StateT.run_bind]
  constructor
  · intro h
    obtain ⟨⟨a, t⟩, ha, hb⟩ := Option.bind_eq_some_iff.1 h
    exact ⟨a, t, ha, hb⟩
  · rintro ⟨a, t, ha, hb⟩
    exact Option.bind_eq_some_iff.2 ⟨(a, t), ha, hb⟩

namespace Reference

section Repeating

variable (w : World) (j : Nat)

/-- What an input gives that has no link: its literal, or what its type starts with; and the next label after that. -/
def given (s : Ledger) (k p : Nat) : Option (Value × Nat) :=
  if (s.inputs k p).isNone then
    ((w.registryOf ⟨j, k⟩).valueType (inputType w j k p)).toOption.map fun t => t.create.kept s.labels
  else some (s.inputs k p, s.labels)

/-- As seen from the ledgers, no NaN was made in between, and the inputs without link give the same. -/
structure Level (s t : Ledger) : Prop where
  labels : t.labels = s.labels
  given : ∀ k p, (w.graph j).pulls k p = none → given w j t k p = given w j s k p

/-- What was done to `s` has been done to `t`. -/
structure Redone (s t s' t' : Ledger) : Prop where
  inputs : ∀ k p, t'.inputs k p = s'.inputs k p ∨ t'.inputs k p = t.inputs k p ∧ s'.inputs k p = s.inputs k p
  outputs : ∀ k p, t'.outputs k p = s'.outputs k p ∨ t'.outputs k p = t.outputs k p ∧ s'.outputs k p = s.outputs k p

/-- Labels are used up only. An evaluation that makes no NaN comes to the same on any level ledger. -/
def Repeats {β : Type} (m : StateT Ledger Option β) : Prop :=
  ∀ s b s', m.run s = some (b, s') → s.labels ≤ s'.labels ∧ (s'.labels = s.labels → Level w j s s' ∧
    ∀ t, Level w j s t → ∃ t', m.run t = some (b, t') ∧ Level w j t t' ∧ Redone s t s' t')

end Repeating

section

variable {w : World} {j : Nat}

namespace Level

variable {s t u : Ledger}

theorem refl (s : Ledger) : Level w j s s := ⟨rfl, fun _ _ _ => rfl⟩

theorem symm (h : Level w j s t) : Level w j t s := ⟨h.labels.symm, fun k p hp => (h.given k p hp).symm⟩

theorem trans (h : Level w j s t) (h' : Level w j t u) : Level w j s u :=
  ⟨h'.labels.trans h.labels, fun k p hp => (h'.given k p hp).trans (h.given k p hp)⟩

theorem setInput {k p : Nat} (hp : (w.graph j).pulls k p ≠ none) (s : Ledger) (v : Value) :
    Level w j s (s.setInput k p v) := by
  refine ⟨rfl, fun l q hq => ?_⟩
  have hother : ¬ (l = k ∧ q = p) := by
    rintro ⟨rfl, rfl⟩
    exact hp hq
  simp [Reference.given, Ledger.setInput, hother]

theorem deliver (s : Ledger) (k : Nat) (isData : Nat → Bool) (outputs : Nat → Value) :
    Level w j s (s.deliver k isData outputs s.labels) := ⟨rfl, fun _ _ _ => rfl⟩

end Level

namespace Redone

variable {s t s' t' s'' t'' : Ledger}

theorem refl (s t : Ledger) : Redone s t s t := ⟨fun _ _ => .inr ⟨rfl, rfl⟩, fun _ _ => .inr ⟨rfl, rfl⟩⟩

theorem trans (h : Redone s t s' t') (h' : Redone s' t' s'' t'') : Redone s t s'' t'' := by
  constructor
  · intro k p
    rcases h'.inputs k p with hsame | ⟨ht, hs⟩
    · exact .inl hsame
    · rw [ht, hs]
      exact h.inputs k p
  · intro k p
    rcases h'.outputs k p with hsame | ⟨ht, hs⟩
    · exact .inl hsame
    · rw [ht, hs]
      exact h.outputs k p

theorem setInput (s t : Ledger) (k p : Nat) (v : Value) : Redone s t (s.setInput k p v) (t.setInput k p v) := by
  refine ⟨fun l q => ?_, fun _ _ => .inr ⟨rfl, rfl⟩⟩
  by_cases h : l = k ∧ q = p
  · exact .inl (by simp [Ledger.setInput, h])
  · exact .inr (by simp [Ledger.setInput, h])

theorem deliver (s t : Ledger) (k : Nat) (isData : Nat → Bool) (outputs : Nat → Value) (n n' : Nat) :
    Redone s t (s.deliver k isData outputs n) (t.deliver k isData outputs n') := by
  refine ⟨fun _ _ => .inr ⟨rfl, rfl⟩, fun l q => ?_⟩
  by_cases h : l = k ∧ isData q = true
  · exact .inl (by simp [Ledger.deliver, h])
  · exact .inr (by simp [Ledger.deliver, h])

end Redone

namespace Repeats

variable {α β : Type} {m : StateT Ledger Option α}

theorem of_pure (a : α) : Repeats w j (pure a : StateT Ledger Option α) := by
  intro s b s' h
  cases h
  exact ⟨Nat.le_refl _, fun _ => ⟨.refl s, fun t _ => ⟨t, rfl, .refl t, .refl s t⟩⟩⟩

theorem of_lift (o : Option α) : Repeats w j (StateT.lift o : StateT Ledger Option α) := by
  intro s b s' h
  cases o with
  | none => cases h
  | some a =>
    cases h
    exact ⟨Nat.le_refl _, fun _ => ⟨.refl s, fun t _ => ⟨t, rfl, .refl t, .refl s t⟩⟩⟩

theorem bind {f : α → StateT Ledger Option β} (hm : Repeats w j m) (hf : ∀ a, Repeats w j (f a)) :
    Repeats w j (m >>= f) := by
  intro s b s' h
  obtain ⟨a, s₁, ha, hb⟩ := run_bind_eq_some.1 h
  obtain ⟨hle, hredo⟩ := hm s a s₁ ha
  obtain ⟨hle', hredo'⟩ := hf a s₁ b s' hb
  refine ⟨hle.trans hle', fun hlabels => ?_⟩
  obtain ⟨hlevel, hredo⟩ := hredo (by omega)
  obtain ⟨hlevel', hredo'⟩ := hredo' (by omega)
  refine ⟨hlevel.trans hlevel', fun t ht => ?_⟩
  obtain ⟨t₁, ha', hlevelt, hdone⟩ := hredo t ht
  obtain ⟨t', hb', hlevelt', hdone'⟩ := hredo' t₁ ((hlevel.symm.trans ht).trans hlevelt)
  exact ⟨t', run_bind_eq_some.2 ⟨a, t₁, ha', hb'⟩, hlevelt.trans hlevelt', hdone.trans hdone'⟩

theorem of_mapM {f : Nat → StateT Ledger Option α} {ps : List Nat} (hf : ∀ p ∈ ps, Repeats w j (f p)) :
    Repeats w j (ps.mapM f) := by
  induction ps with
  | nil => exact .of_pure []
  | cons p ps ih =>
    rw [List.mapM_cons]
    refine (hf p List.mem_cons_self).bind fun v => ?_
    exact (ih fun q hq => hf q (List.mem_cons_of_mem p hq)).bind fun vs => .of_pure (v :: vs)

/-- Keeping a value gives the same again unless it takes a label. -/
theorem of_keep (v : Value) : Repeats w j (keep v) := by
  intro s b s' h
  cases h
  refine ⟨v.le_kept s.labels, fun hlabels => ?_⟩
  have hlevel (t : Ledger) (ht : t.labels = s.labels) : Level w j t { t with labels := (v.kept t.labels).2 } := by
    have hsame : (v.kept t.labels).2 = t.labels := by
      rw [ht]
      exact hlabels
    rw [hsame]
    exact .refl t
  refine ⟨hlevel s rfl, fun t ht => ⟨{ t with labels := (v.kept t.labels).2 }, ?_, hlevel t ht.labels, ?_⟩⟩
  · rw [← ht.labels]
    rfl
  · exact ⟨fun _ _ => .inr ⟨rfl, rfl⟩, fun _ _ => .inr ⟨rfl, rfl⟩⟩

theorem of_setInput {k p : Nat} (hp : (w.graph j).pulls k p ≠ none) (v : Value) :
    Repeats w j (modify (·.setInput k p v) : StateT Ledger Option PUnit) := by
  intro s b s' h
  cases h
  exact ⟨Nat.le_refl _, fun _ => ⟨.setInput hp s v, fun t _ => ⟨t.setInput k p v, rfl, .setInput hp t v, .setInput s t k p v⟩⟩⟩

end Repeats

/-- An input without link is told of if it has to be filled. -/
theorem run_literal (s : Ledger) (k p : Nat) : (literal w j k p).run s = (given w j s k p).map fun r =>
    (r.1, { s.setInput k p r.1 with
      labels := r.2
      reports := if (s.inputs k p).isNone then (k, p) :: s.reports else s.reports }) := by
  cases hnone : (s.inputs k p).isNone with
  | false =>
    have hsame : s.setInput k p (s.inputs k p) = s := by
      simp only [Ledger.setInput]
      congr 1
      funext l q
      by_cases h : l = k ∧ q = p
      · simp [h]
      · simp [h]
    simp only [run_literal_kept hnone, given, hnone, Bool.false_eq_true, if_false, Option.map_some, hsame]
  | true =>
    cases ht : (w.registryOf ⟨j, k⟩).valueType (inputType w j k p) with
    | error e =>
      simp only [run_literal_untyped hnone ht, given, hnone, if_true, ht]
      rfl
    | ok t =>
      simp only [run_literal_filled hnone ht, given, hnone, if_true, ht]
      rfl

/-- Filling an input does not change what it gives, if it takes no label. -/
theorem level_literal {s : Ledger} {k p : Nat} {v : Value} (h : given w j s k p = some (v, s.labels))
    (reports : List (Nat × Nat)) : Level w j s { s.setInput k p v with reports := reports } := by
  refine ⟨rfl, fun l q _ => ?_⟩
  by_cases hsame : l = k ∧ q = p
  · obtain ⟨rfl, rfl⟩ := hsame
    rw [h]
    cases hv : v.isNone with
    | false => simp [given, Ledger.setInput, hv]
    | true =>
      -- a type that starts with nothing: the input is filled with nothing again
      cases hnone : (s.inputs l q).isNone with
      | false =>
        simp only [given, hnone, Bool.false_eq_true, if_false, Option.some.injEq, Prod.mk.injEq, and_true] at h
        rw [h, hv] at hnone
        cases hnone
      | true =>
        rw [← h]
        simp [given, Ledger.setInput, hv, hnone]
  · simp [given, Ledger.setInput, hsame]

/-- A literal is found as it is when the input is asked for again. -/
theorem repeats_literal {k p : Nat} (hp : (w.graph j).pulls k p = none) : Repeats w j (literal w j k p) := by
  intro s v s' h
  rw [run_literal] at h
  obtain ⟨⟨v, n⟩, hgiven, hs⟩ := Option.map_eq_some_iff.1 h
  cases hs
  have hle : s.labels ≤ n := by
    unfold given at hgiven
    split at hgiven
    · obtain ⟨t, -, ht⟩ := Option.map_eq_some_iff.1 hgiven
      rw [← show (t.create.kept s.labels).2 = n from congrArg Prod.snd ht]
      exact Value.le_kept _ _
    · cases hgiven
      exact Nat.le_refl _
  refine ⟨hle, fun (hlabels : n = s.labels) => ?_⟩
  subst hlabels
  refine ⟨level_literal hgiven _, fun t ht => ?_⟩
  have hgivent : given w j t k p = some (v, t.labels) := by
    rw [ht.given k p hp, ht.labels, hgiven]
  refine ⟨_, by rw [run_literal, hgivent]; rfl, level_literal hgivent _, ?_⟩
  have hdone := Redone.setInput s t k p v
  exact ⟨hdone.inputs, hdone.outputs⟩

/-- Nothing is written to the input, and nothing told of it. -/
def Leaves {β : Type} (k p : Nat) (m : StateT Ledger Option β) : Prop := ∀ s b s', m.run s = some (b, s') →
  s'.inputs k p = s.inputs k p ∧ s'.reports.count (k, p) = s.reports.count (k, p)

namespace Leaves

variable {α β : Type} {m : StateT Ledger Option α} {k p : Nat}

theorem of_pure (a : α) : Leaves k p (pure a : StateT Ledger Option α) := by
  intro s b s' h
  cases h
  exact ⟨rfl, rfl⟩

theorem of_lift (o : Option α) : Leaves k p (StateT.lift o : StateT Ledger Option α) := by
  intro s b s' h
  cases o with
  | none => cases h
  | some a =>
    cases h
    exact ⟨rfl, rfl⟩

theorem bind {f : α → StateT Ledger Option β} (hm : Leaves k p m) (hf : ∀ a, Leaves k p (f a)) :
    Leaves k p (m >>= f) := by
  intro s b s' h
  obtain ⟨a, t, ha, hb⟩ := run_bind_eq_some.1 h
  obtain ⟨hinput, hcount⟩ := hm s a t ha
  obtain ⟨hinput', hcount'⟩ := hf a t b s' hb
  exact ⟨hinput'.trans hinput, hcount'.trans hcount⟩

theorem of_mapM {f : Nat → StateT Ledger Option α} {ps : List Nat} (hf : ∀ q ∈ ps, Leaves k p (f q)) :
    Leaves k p (ps.mapM f) := by
  induction ps with
  | nil => exact .of_pure []
  | cons q ps ih =>
    rw [List.mapM_cons]
    refine (hf q List.mem_cons_self).bind fun v => ?_
    exact (ih fun r hr => hf r (List.mem_cons_of_mem q hr)).bind fun vs => .of_pure (v :: vs)

theorem of_keep (v : Value) : Leaves k p (keep v) := by
  intro s b s' h
  cases h
  exact ⟨rfl, rfl⟩

theorem of_setInput {l q : Nat} (h : ¬ (k = l ∧ p = q)) (v : Value) :
    Leaves k p (modify (·.setInput l q v) : StateT Ledger Option PUnit) := by
  intro s b s' hs
  cases hs
  exact ⟨if_neg h, rfl⟩

theorem of_literal {l q : Nat} (h : ¬ (k = l ∧ p = q)) : Leaves k p (literal w j l q) := by
  intro s v s' hs
  rw [run_literal] at hs
  obtain ⟨⟨v, n⟩, -, hs⟩ := Option.map_eq_some_iff.1 hs
  cases hs
  refine ⟨if_neg h, ?_⟩
  have hother : ((l, q) == (k, p)) = false := by
    rw [beq_eq_false_iff_ne]
    rintro ⟨⟩
    exact h ⟨rfl, rfl⟩
  cases (s.inputs l q).isNone with
  | false => rfl
  | true => simp [List.count_cons, hother]

/-- Of many inputs, one by one, each leaves what the others give. -/
theorem of_mem {f : Nat → StateT Ledger Option α} {ps : List Nat} (hnodup : ps.Nodup) (hp : p ∈ ps)
    (hf : ∀ q ∈ ps, q ≠ p → Leaves k p (f q)) {s s' : Ledger} {vs : List α} (h : (ps.mapM f).run s = some (vs, s')) :
    ∃ t v t', (f p).run t = some (v, t') ∧ t.inputs k p = s.inputs k p ∧ t.reports.count (k, p) = s.reports.count (k, p) ∧
      s'.inputs k p = t'.inputs k p ∧ s'.reports.count (k, p) = t'.reports.count (k, p) := by
  induction ps generalizing s vs with
  | nil => cases hp
  | cons q ps ih =>
    obtain ⟨hq, hnodup⟩ := List.nodup_cons.1 hnodup
    rw [List.mapM_cons] at h
    obtain ⟨v, t, hv, h⟩ := run_bind_eq_some.1 h
    obtain ⟨vs, t', hvs, h⟩ := run_bind_eq_some.1 h
    cases h
    have hrest : ∀ r ∈ ps, r ≠ p → Leaves k p (f r) := fun r hr => hf r (List.mem_cons_of_mem q hr)
    by_cases hqp : q = p
    · subst hqp
      have hleaves : Leaves k q (ps.mapM f) := .of_mapM fun r hr => hrest r hr fun heq => hq (heq ▸ hr)
      obtain ⟨hinput, hcount⟩ := hleaves t vs s' hvs
      exact ⟨s, v, t, hv, rfl, rfl, hinput, hcount⟩
    · obtain ⟨hinput, hcount⟩ := hf q List.mem_cons_self hqp s v t hv
      obtain ⟨u, v', u', hrun, hi, hc, hi', hc'⟩ := ih hnodup ((List.mem_cons.1 hp).resolve_left (Ne.symm hqp)) hrest hvs
      exact ⟨u, v', u', hrun, hi.trans hinput, hc.trans hcount, hi', hc'⟩

end Leaves

/-- An input without link keeps its literal; if it has none it is filled, and told of once. -/
structure FilledOnce (w : World) (j : Nat) (s : Ledger) (k p : Nat) (s' : Ledger) : Prop where
  kept : (s.inputs k p).isNone = false →
    s'.inputs k p = s.inputs k p ∧ s'.reports.count (k, p) = s.reports.count (k, p)
  filled : (s.inputs k p).isNone = true → ∃ t n, (w.registryOf ⟨j, k⟩).valueType (inputType w j k p) = .ok t ∧
    s'.inputs k p = (t.create.kept n).1 ∧ s'.reports.count (k, p) = s.reports.count (k, p) + 1

/-- A literal is filled in where there is none, and told of then. -/
theorem filled_literal {k p : Nat} {s s' : Ledger} {v : Value} (h : (literal w j k p).run s = some (v, s')) :
    FilledOnce w j s k p s' := by
  rw [run_literal] at h
  obtain ⟨⟨v, n⟩, hgiven, h⟩ := Option.map_eq_some_iff.1 h
  cases h
  constructor
  · intro hnone
    simp only [given, hnone, Bool.false_eq_true, if_false, Option.some.injEq, Prod.mk.injEq] at hgiven
    obtain ⟨rfl, -⟩ := hgiven
    simp [Ledger.setInput, hnone]
  · intro hnone
    simp only [given, hnone, if_true] at hgiven
    obtain ⟨t, ht, hkept⟩ := Option.map_eq_some_iff.1 hgiven
    refine ⟨t, s.labels, ?_, ?_, ?_⟩
    · cases hc : (w.registryOf ⟨j, k⟩).valueType (inputType w j k p) with
      | error e =>
        rw [hc] at ht
        cases ht
      | ok t' =>
        rw [hc] at ht
        cases ht
        rfl
    · simp [Ledger.setInput, hkept]
    · simp [hnone]

section Source

variable {F : Nat → Meaning} {inputs : Nat → StateT Ledger Option (List Value)} {e : End}

/-- A source that was computed gives the same again, if its inputs do. -/
theorem repeats_source (hF : (w.node ⟨j, e.node⟩).kind = .function → ∀ values n outputs n',
      F e.node values n = some (outputs, n') → n ≤ n')
    (hinputs : (w.node ⟨j, e.node⟩).kind = .function → Repeats w j (inputs e.node)) :
    Repeats w j (source w j F inputs e) := by
  unfold source
  split
  · rename_i hkind
    refine (hinputs hkind).bind fun values => ?_
    intro s v s' h
    simp only [StateT.run_bind, StateT.run_get, Option.pure_def, Option.bind_eq_bind, Option.bind_some] at h ⊢
    cases hf : F e.node values s.labels with
    | none =>
      rw [hf] at h
      cases h
    | some out =>
      rw [hf] at h
      obtain ⟨outputs, n⟩ := out
      cases h
      refine ⟨hF hkind _ _ _ _ hf, fun (hlabels : n = s.labels) => ?_⟩
      subst hlabels
      refine ⟨.deliver s _ _ _, fun t ht => ⟨t.deliver e.node (w.isDataOutput ⟨j, e.node⟩) outputs t.labels, ?_, .deliver t _ _ _,
        .deliver s t _ _ _ _ _⟩⟩
      rw [ht.labels, hf]
      rfl
  · exact .of_pure _

/-- A source leaves a place alone that its inputs leave alone. -/
theorem leaves_source {k p : Nat} (hinputs : (w.node ⟨j, e.node⟩).kind = .function → Leaves k p (inputs e.node)) :
    Leaves k p (source w j F inputs e) := by
  unfold source
  split
  · rename_i hkind
    refine (hinputs hkind).bind fun values => ?_
    intro s v s' h
    simp only [StateT.run_bind, StateT.run_get, Option.pure_def, Option.bind_eq_bind, Option.bind_some] at h
    cases hf : F e.node values s.labels with
    | none =>
      rw [hf] at h
      cases h
    | some out =>
      rw [hf] at h
      cases h
      exact ⟨rfl, rfl⟩
  · exact .of_pure _

theorem repeats_input {k p : Nat} (hsource : ∀ e, (w.graph j).pulls k p = some e → Repeats w j (source w j F inputs e.source)) :
    Repeats w j (input w j F inputs k p) := by
  unfold input
  split
  · rename_i hp
    exact repeats_literal hp
  · rename_i e he
    have hp : (w.graph j).pulls k p ≠ none := by
      rw [he]
      exact Option.some_ne_none e
    exact (hsource e he).bind fun v => (Repeats.of_lift _).bind fun v => (Repeats.of_keep v).bind fun v =>
      (Repeats.of_setInput hp v).bind fun _ => .of_pure v

theorem leaves_input {k p l q : Nat} (h : ¬ (k = l ∧ p = q))
    (hsource : ∀ e, (w.graph j).pulls l q = some e → Leaves k p (source w j F inputs e.source)) :
    Leaves k p (input w j F inputs l q) := by
  unfold input
  split
  · exact .of_literal h
  · rename_i e he
    exact (hsource e he).bind fun v => (Leaves.of_lift _).bind fun v => (Leaves.of_keep v).bind fun v =>
      (Leaves.of_setInput h v).bind fun _ => .of_pure v

theorem mapM_congr {σ α β : Type} {f f' : α → StateT σ Option β} {l : List α} (h : ∀ a ∈ l, f a = f' a) :
    l.mapM f = l.mapM f' := by
  induction l with
  | nil => rfl
  | cons a l ih =>
    rw [List.mapM_cons, List.mapM_cons, h a List.mem_cons_self, ih fun b hb => h b (List.mem_cons_of_mem a hb)]

/-- Of what it is to draw on, an input reads what its source draws on. -/
theorem input_congr {inputs' : Nat → StateT Ledger Option (List Value)} {k p : Nat}
    (h : ∀ e, (w.graph j).pulls k p = some e → (w.node ⟨j, e.source.node⟩).kind = .function →
      inputs e.source.node = inputs' e.source.node) : input w j F inputs k p = input w j F inputs' k p := by
  unfold input
  split
  · rfl
  · rename_i e he
    unfold source
    by_cases hkind : (w.node ⟨j, e.source.node⟩).kind = .function
    · rw [if_pos hkind, if_pos hkind, h e he hkind]
    · rw [if_neg hkind, if_neg hkind]

end Source

section Recursion

variable {g : Graph} (hg : g.Indexed) (hshape : Shaped j g w) {F : Nat → Meaning} {a : String} {k : Nat}
  (hk : g.serial? a = some k)

include hg hshape hk

theorem repeats_inputsWithin (hF : ∀ m, g.Above a m → ∀ values n outputs n', F m values n = some (outputs, n') → n ≤ n')
    (fuel : Nat) : Repeats w j (inputsWithin w j F fuel k) := by
  induction fuel generalizing a k with
  | zero => exact .of_lift none
  | succ fuel ih =>
    refine .of_mapM fun p hp => repeats_input fun e he => ?_
    obtain ⟨b, hb, hdraws⟩ := hshape.of_pulls hg hk hp he
    refine repeats_source (fun hkind => hF _ (.of_draws (hdraws hkind) hb)) fun hkind => ?_
    exact ih hb fun m hm => hF m (hm.head (hdraws hkind))

/-- What is not an input of the node or of a function node above it is left alone. -/
theorem leaves_inputsWithin {l q : Nat} (hl : l ≠ k) (habove : ¬ g.Above a l) (fuel : Nat) :
    Leaves l q (inputsWithin w j F fuel k) := by
  induction fuel generalizing a k with
  | zero => exact .of_lift none
  | succ fuel ih =>
    refine .of_mapM fun p hp => leaves_input (fun h => hl h.1) fun e he => ?_
    obtain ⟨b, hb, hdraws⟩ := hshape.of_pulls hg hk hp he
    refine leaves_source fun hkind => ih hb ?_ fun h => habove (h.head (hdraws hkind))
    rintro rfl
    exact habove (.of_draws (hdraws hkind) hb)

/-- Where no nodes draw on each other in a round, more fuel makes no difference. -/
theorem inputsWithin_succ {fuel : Nat} {rest : List String} (hnodup : (a :: rest).Nodup)
    (hin : ∀ id ∈ a :: rest, ∃ k, g.serial? id = some k) (hback : ∀ b ∈ a :: rest, ReflTransGen g.Draws b a)
    (hacyclic : ∀ c, ReflTransGen g.Draws a c → ¬ TransGen g.Draws c c)
    (hfuel : g.arena.size + 2 ≤ fuel + (a :: rest).length) :
    inputsWithin w j F (fuel + 1) k = inputsWithin w j F fuel k := by
  induction fuel generalizing a k rest with
  | zero =>
    have hlength := hg.length_le_size hnodup hin
    omega
  | succ fuel ih =>
    rw [inputsWithin, inputsWithin]
    refine mapM_congr fun p hp => input_congr fun e he hkind => ?_
    obtain ⟨b, hb, hdraws⟩ := hshape.of_pulls hg hk hp he
    have hab := hdraws hkind
    have hnew : b ∉ a :: rest := fun hmem => hacyclic a .refl (.head' hab (hback b hmem))
    refine ih hb (List.nodup_cons.2 ⟨hnew, hnodup⟩) ?_ ?_ (fun c hc => hacyclic c (.head hab hc)) ?_
    · intro id hid
      rcases List.mem_cons.1 hid with rfl | hid
      · exact ⟨_, hb⟩
      · exact hin id hid
    · intro c hc
      rcases List.mem_cons.1 hc with rfl | hc
      · exact .refl
      · exact .tail (hback c hc) hab
    · simp only [List.length_cons] at hfuel ⊢
      omega

/-- What is evaluated fills in a place of its node once, if the node does not draw on itself. -/
theorem filled_evaluate (hloop : ¬ g.Above a k) {p : Nat} (hp : p ∈ dataPlaces (w.node ⟨j, k⟩))
    (hpull : (w.graph j).pulls k p = none) {s s' : Ledger} {vs : List Value}
    (h : (evaluate w j F k).run s = some (vs, s')) : FilledOnce w j s k p s' := by
  have hother (q : Nat) (hq : q ∈ dataPlaces (w.node ⟨j, k⟩)) (hqp : q ≠ p) :
      Leaves k p (input w j F (inputsWithin w j F (w.graph j).arena.size) k q) := by
    refine leaves_input (fun h => hqp h.2.symm) fun e he => ?_
    obtain ⟨b, hb, hdraws⟩ := hshape.of_pulls hg hk hq he
    refine leaves_source fun hkind => leaves_inputsWithin hg hshape hb ?_ (fun h => hloop (h.head (hdraws hkind))) _
    rintro rfl
    exact hloop (.of_draws (hdraws hkind) hb)
  obtain ⟨t, v, t', hrun, hinput, hcount, hinput', hcount'⟩ := Leaves.of_mem (nodup_dataPlaces _) hp hother h
  have hliteral : input w j F (inputsWithin w j F (w.graph j).arena.size) k p = literal w j k p := by
    simp only [input, hpull]
  rw [hliteral] at hrun
  have hfilled := filled_literal hrun
  constructor
  · intro hnone
    rw [← hinput] at hnone ⊢
    rw [hinput', hcount', ← hcount]
    exact hfilled.kept hnone
  · intro hnone
    rw [← hinput] at hnone
    rw [hinput', hcount', ← hcount]
    exact hfilled.filled hnone

/-- The data inputs of a node, from those of the nodes it draws on. -/
theorem evaluate_eq (hacyclic : ∀ c, ReflTransGen g.Draws a c → ¬ TransGen g.Draws c c) :
    evaluate w j F k = (dataPlaces (w.node ⟨j, k⟩)).mapM (input w j F (evaluate w j F) k) := by
  have hsize : (w.graph j).arena.size = g.arena.size := by
    have harena : (w.graph j).arena.map Node.outline = g.arena.map Node.outline := (congrArg Graph.arena hshape :)
    simpa using congrArg Array.size harena
  rw [evaluate, inputsWithin]
  refine mapM_congr fun p hp => input_congr fun e he hkind => ?_
  obtain ⟨b, hb, hdraws⟩ := hshape.of_pulls hg hk hp he
  have hab := hdraws hkind
  have hnew : b ≠ a := by
    rintro rfl
    exact hacyclic b .refl (.single hab)
  rw [evaluate, hsize]
  have hnodup : (b :: [a]).Nodup := by simpa using hnew
  refine (inputsWithin_succ hg hshape hb hnodup ?_ ?_ (fun c hc => hacyclic c (.head hab hc)) (by simp)).symm
  · simp only [List.mem_cons, List.not_mem_nil, or_false]
    rintro id (rfl | rfl)
    · exact ⟨_, hb⟩
    · exact ⟨_, hk⟩
  · simp only [List.mem_cons, List.not_mem_nil, or_false]
    rintro c (rfl | rfl)
    · exact .refl
    · exact .single hab

end Recursion

end

end Reference

end FlowGraph
