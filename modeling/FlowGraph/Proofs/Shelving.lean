import FlowGraph.Proofs.Folding

/-!
Extensions in place. An extension fills new tables only, so all tables that were there stay as they were, and the new ones hold
what the extension makes of the registry. Carried out one after the other, extensions leave every registry on the way unchanged.
-/
namespace FlowGraph.Shelf

section Tables

variable {κ α : Type} {tables : Array (Table κ α)} {i : Nat}

theorem at_push (t : Table κ α) (j : Nat) : at_ (tables.push t) j = if j = tables.size then t else at_ tables j := by
  unfold at_
  rw [Array.getElem?_push]
  split <;> rfl

/-- The tables with another one at a place. -/
structure Changes (i : Nat) (before after : Array (Table κ α)) (t : Table κ α) : Prop where
  size : after.size = before.size
  here : at_ after i = t
  others : ∀ j ≠ i, at_ after j = at_ before j

theorem Changes.refl : Changes i tables tables (at_ tables i) := ⟨rfl, rfl, fun _ _ => rfl⟩

theorem Changes.trans {a b c : Array (Table κ α)} {t u : Table κ α} (h : Changes i a b t) (h' : Changes i b c u) :
    Changes i a c u :=
  ⟨h'.size.trans h.size, h'.here, fun j hj => (h'.others j hj).trans (h.others j hj)⟩

theorem changes_modify (hi : i < tables.size) (f : Table κ α → Table κ α) :
    Changes i tables (tables.modify i f) (f (at_ tables i)) where
  size := Array.size_modify
  here := by rw [at_, Array.getElem?_modify, if_pos rfl, at_, Array.getElem?_eq_getElem hi]; rfl
  others j hj := by simp [at_, Array.getElem?_modify, hj.symm]

/-- Steps that change the table at a place, one after the other. -/
theorem foldl_changes {β : Type} (step : Array (Table κ α) → β → Array (Table κ α)) (change : Table κ α → β → Table κ α)
    (hstep : ∀ tables x, i < tables.size → Changes i tables (step tables x) (change (at_ tables i) x))
    (xs : List β) (hi : i < tables.size) : Changes i tables (xs.foldl step tables) (xs.foldl change (at_ tables i)) := by
  induction xs generalizing tables with
  | nil => exact .refl
  | cons x xs ih =>
    have hx := hstep tables x hi
    have hxs := ih (hx.size ▸ hi)
    rw [hx.here] at hxs
    exact hx.trans hxs

/-- The tables with another one behind them. -/
structure Adds (before after : Array (Table κ α)) (t : Table κ α) : Prop where
  size : before.size < after.size
  last : at_ after (after.size - 1) = t
  same : ∀ j < before.size, at_ after j = at_ before j

theorem copy_size : (copy tables i).size = tables.size + 1 := Array.size_push ..

theorem at_copy : at_ (copy tables i) tables.size = at_ tables i := by
  rw [copy, at_push, if_pos rfl]

/-- A copy that is changed, and copied again. -/
theorem adds_copy {filled : Array (Table κ α)} {t : Table κ α} (h : Changes tables.size (copy tables i) filled t) :
    Adds tables (copy filled tables.size) t where
  size := by
    rw [copy_size, h.size, copy_size]
    omega
  last := by
    rw [copy_size, Nat.add_sub_cancel, at_copy, h.here]
  same j hj := by
    have hne : j ≠ filled.size := by
      rw [h.size, copy_size]
      omega
    rw [copy, at_push, if_neg hne, h.others j hj.ne, copy, at_push, if_neg hj.ne]

variable [DecidableEq κ]

/-- What is registered in the table at a place is what is entered into it. -/
theorem foldl_register (hi : i < tables.size) (name : κ → Clash) (refused : κ → Bool) (clashes : List Clash)
    (es : List (κ × α)) :
    let s := es.foldl (register i name refused) (tables, clashes)
    let entered := es.foldl (enter name refused) (at_ tables i, clashes)
    Changes i tables s.1 entered.1 ∧ s.2 = entered.2 := by
  induction es generalizing tables clashes with
  | nil => exact ⟨.refl, rfl⟩
  | cons e es ih =>
    have he := changes_modify hi (·.set e.1 e.2)
    obtain ⟨hes, hclashes⟩ := ih (he.size ▸ hi)
      (if (at_ tables i).has e.1 || refused e.1 then clashes ++ [name e.1] else clashes)
    rw [he.here] at hes hclashes
    exact ⟨he.trans hes, hclashes⟩

theorem registerAll_spec (tables : Array (Table κ α)) (i : Nat) (name : κ → Clash) (refused : κ → Bool)
    (clashes : List Clash) (es : List (κ × α)) :
    let entered := es.foldl (enter name refused) (at_ tables i, clashes)
    ∃ filled, registerAll tables i name refused clashes es = (filled, entered.2) ∧ Adds tables filled entered.1 := by
  have hi : tables.size < (copy tables i).size := by
    rw [copy_size]
    exact Nat.lt_succ_self _
  obtain ⟨htables, hclashes⟩ := foldl_register hi name refused clashes es
  rw [at_copy] at htables hclashes
  exact ⟨_, Prod.ext rfl hclashes, adds_copy htables⟩

end Tables

/-- Usual services are put in where there is none of the name, then the own ones in any case. -/
theorem provideAll_spec (tables : Array (Table String Offer)) (i : Nat) (usual own : List Offer) :
    Adds tables (provideAll tables i usual own) (own.foldl (fun t s => t.set s.name s)
      (usual.foldl (fun t s => if t.has s.name then t else t.set s.name s) (at_ tables i))) := by
  have hi : tables.size < (copy tables i).size := by
    rw [copy_size]
    exact Nat.lt_succ_self _
  have husual := foldl_changes (provideUsual tables.size) (fun t s => if t.has s.name then t else t.set s.name s)
    (fun tables s hi => by
      unfold provideUsual
      split
      · exact .refl
      · exact changes_modify hi _) usual hi
  have hown := foldl_changes (provide tables.size) (fun t s => t.set s.name s) (fun tables s hi => changes_modify hi _) own
    (husual.size ▸ hi)
  rw [husual.here, at_copy] at hown
  exact adds_copy (husual.trans hown)

/-- All tables of the registry are there. -/
structure Holds (shelf : Shelf) (h : Registry.Handle) : Prop where
  values : h.values < shelf.values.size
  nodes : h.nodes < shelf.nodes.size
  conversions : h.conversions < shelf.conversions.size
  services : h.services < shelf.services.size

/-- Every registry whose tables are there stays, and stays the same. -/
structure Kept (before after : Shelf) : Prop where
  holds : ∀ h, before.Holds h → after.Holds h
  read : ∀ h, before.Holds h → after.read h = before.read h

theorem Kept.refl (shelf : Shelf) : Kept shelf shelf := ⟨fun _ hh => hh, fun _ _ => rfl⟩

theorem Kept.trans {a b c : Shelf} (h : Kept a b) (h' : Kept b c) : Kept a c :=
  ⟨fun r hr => h'.holds r (h.holds r hr), fun r hr => (h'.read r (h.holds r hr)).trans (h.read r hr)⟩

theorem holds_empty : empty.Holds emptyHandle := ⟨by decide, by decide, by decide, by decide⟩

/-- The registry of an extension that was carried out is the extended registry. -/
theorem extend_spec (shelf : Shelf) (h : Registry.Handle) (e : Extension) :
    let s := shelf.extend h e
    Kept shelf s.1 ∧ s.1.Holds s.2 ∧ s.1.read s.2 = (shelf.read h).extend e := by
  obtain ⟨values, hvalues, addsValues⟩ : ∃ values, registerAll shelf.values h.values .valueType
      (· == ValueType.flowName) h.clashes (e.values.map fun t => (t.name, t)) = (values, ((shelf.read h).enteredValues e).2) ∧
      Adds shelf.values values ((shelf.read h).enteredValues e).1 := registerAll_spec ..
  obtain ⟨nodes, hnodes, addsNodes⟩ : ∃ nodes, registerAll shelf.nodes h.nodes .nodeType (fun _ => false)
      ((shelf.read h).enteredValues e).2 (e.nodes.map fun d => (d.typeName, d)) =
      (nodes, ((shelf.read h).enteredNodes e).2) ∧ Adds shelf.nodes nodes ((shelf.read h).enteredNodes e).1 :=
    registerAll_spec ..
  obtain ⟨conversions, hconversions, addsConversions⟩ : ∃ conversions, registerAll shelf.conversions h.conversions
      (fun c => .conversion c.1 c.2) (fun _ => false) ((shelf.read h).enteredNodes e).2 e.conversions.entries =
      (conversions, ((shelf.read h).enteredConversions e).2) ∧
      Adds shelf.conversions conversions ((shelf.read h).enteredConversions e).1 := registerAll_spec ..
  have addsServices := provideAll_spec shelf.services h.services e.usualServices e.services
  simp only [extend, hvalues, hnodes, hconversions]
  refine ⟨⟨fun i hi => ?_, fun i hi => ?_⟩, ?_, ?_⟩
  · exact ⟨hi.values.trans addsValues.size, hi.nodes.trans addsNodes.size, hi.conversions.trans addsConversions.size,
      hi.services.trans addsServices.size⟩
  · simp only [read, addsValues.same _ hi.values, addsNodes.same _ hi.nodes, addsConversions.same _ hi.conversions,
      addsServices.same _ hi.services]
  · exact ⟨Nat.sub_one_lt_of_lt addsValues.size, Nat.sub_one_lt_of_lt addsNodes.size,
      Nat.sub_one_lt_of_lt addsConversions.size, Nat.sub_one_lt_of_lt addsServices.size⟩
  · rw [Registry.extend_eq, read, addsValues.last, addsNodes.last, addsConversions.last, addsServices.last]
    rfl

/-- Extensions that are carried out one after the other make the registries that they make one after the other, and all of them
stay: what was there before, and each registry on the way. -/
theorem chain_spec {shelf : Shelf} {h : Registry.Handle} (hh : shelf.Holds h) (es : List Extension) :
    let s := shelf.chain h es
    Kept shelf s.1 ∧ ∀ k ≤ es.length, ∃ i, s.2[k]? = some i ∧ s.1.Holds i ∧
      s.1.read i = (es.take k).foldl Registry.extend (shelf.read h) := by
  induction es generalizing shelf h with
  | nil =>
    refine ⟨.refl shelf, fun k hk => ⟨h, ?_, hh, ?_⟩⟩
    · rw [Nat.le_zero.1 hk]
      rfl
    · rw [List.take_nil]
      rfl
  | cons e es ih =>
    obtain ⟨hkept, hnext, hread⟩ := shelf.extend_spec h e
    obtain ⟨hall, hrest⟩ := ih hnext
    have hcome := hkept.trans hall
    refine ⟨hcome, fun k hk => ?_⟩
    cases k with
    | zero => exact ⟨h, rfl, hcome.holds h hh, hcome.read h hh⟩
    | succ k =>
      obtain ⟨i, hi, hholds, hfold⟩ := hrest k (Nat.le_of_succ_le_succ hk)
      refine ⟨i, hi, hholds, hfold.trans ?_⟩
      rw [hread, List.take_succ_cons, List.foldl_cons]

/-- Further extensions add registries behind those that are there. -/
theorem chain_append (shelf : Shelf) (h : Registry.Handle) (es more : List Extension) :
    ∃ rest, (shelf.chain h (es ++ more)).2 = (shelf.chain h es).2 ++ rest := by
  induction es generalizing shelf h with
  | nil =>
    cases more with
    | nil => exact ⟨[], rfl⟩
    | cons e more => exact ⟨_, rfl⟩
  | cons e es ih =>
    obtain ⟨rest, hrest⟩ := ih (shelf.extend h e).1 (shelf.extend h e).2
    exact ⟨rest, congrArg (h :: ·) hrest⟩

end FlowGraph.Shelf
