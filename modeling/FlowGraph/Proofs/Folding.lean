import FlowGraph.Proofs.Fitting
import FlowGraph.Registry.Stepwise

/-!
Registries made by extensions. A registry holds under each name what was registered last, and a clash for each name that was
taken when it was registered; a service is the last one that was given, or else the first usual one. An extension leaves the
registry that it extends as it was. A registry that profiles make is accepted if there is no clash and the checks find nothing
about any definition; otherwise all clashes and problems are told.
-/
namespace FlowGraph

/-! ### Clashes -/

/-- A name that stands for itself, whatever is registered under it. -/
def Clash.isReserved : Clash → Bool
  | valueType n => n == ValueType.flowName
  | _ => false

/-- The names among those that come in, in order, which came in before or are reserved; `seen` are the names before them. -/
def Clash.repeats (seen : List Clash) : List Clash → List Clash
  | [] => []
  | c :: cs => (if c ∈ seen ∨ c.isReserved = true then [c] else []) ++ repeats (seen ++ [c]) cs

def Extension.names (e : Extension) : List Clash :=
  e.values.map (Clash.valueType ·.name) ++ (e.nodes.map (Clash.nodeType ·.typeName) ++
    e.conversions.entries.map fun c => .conversion c.1.1 c.1.2)

namespace Clash

theorem repeats_append (seen cs ds : List Clash) :
    repeats seen (cs ++ ds) = repeats seen cs ++ repeats (seen ++ cs) ds := by
  induction cs generalizing seen with
  | nil => simp [repeats]
  | cons c cs ih => simp [repeats, ih, List.append_assoc]

/-- Nothing is told twice just if all names are new, free and different. -/
theorem repeats_eq_nil {seen cs : List Clash} :
    repeats seen cs = [] ↔ (∀ c ∈ cs, c ∉ seen ∧ c.isReserved = false) ∧ cs.Nodup := by
  induction cs generalizing seen with
  | nil => simp [repeats]
  | cons c cs ih =>
    have hone : (if c ∈ seen ∨ c.isReserved = true then [c] else []) = [] ↔ c ∉ seen ∧ c.isReserved = false := by
      by_cases hc : c ∈ seen <;> cases hr : c.isReserved <;> simp [hc]
    rw [repeats, List.append_eq_nil_iff, hone, ih, List.forall_mem_cons, List.nodup_cons]
    constructor
    · rintro ⟨hc, hcs, hdistinct⟩
      refine ⟨⟨hc, fun d hd => ⟨fun h => (hcs d hd).1 (List.mem_append_left _ h), (hcs d hd).2⟩⟩, fun h => ?_, hdistinct⟩
      exact (hcs c h).1 (List.mem_append_right _ (List.mem_singleton_self c))
    · rintro ⟨⟨hc, hcs⟩, hnew, hdistinct⟩
      refine ⟨hc, fun d hd => ⟨fun h => ?_, (hcs d hd).2⟩, hdistinct⟩
      rcases List.mem_append.1 h with h | h
      · exact (hcs d hd).1 h
      · exact hnew (List.mem_singleton.1 h ▸ hd)

end Clash

/-! ### Tables -/

namespace Table

variable {κ α β : Type} [DecidableEq κ]

theorem has_set (t : Table κ α) (k j : κ) (v : α) : (t.set k v).has j = true ↔ t.has j = true ∨ j = k := by
  rw [has_iff, has_iff, keys_set]
  split
  · rename_i hk
    exact ⟨.inl, fun h => h.elim id fun h => h ▸ hk⟩
  · simp

theorem has_foldl_set (key : β → κ) (value : β → α) (xs : List β) (t : Table κ α) (k : κ) :
    (xs.foldl (fun t x => t.set (key x) (value x)) t).has k = true ↔ t.has k = true ∨ k ∈ xs.map key := by
  induction xs generalizing t with
  | nil => simp
  | cons x xs ih => rw [List.foldl_cons, ih, has_set, List.map_cons, List.mem_cons, or_assoc]

/-- Of the entries that are set one after the other, the last one of a name is found. -/
theorem get?_foldl_set (key : β → κ) (value : β → α) (xs : List β) (t : Table κ α) (k : κ) :
    (xs.foldl (fun t x => t.set (key x) (value x)) t).get? k =
      ((xs.reverse.find? (key · = k)).map value).or (t.get? k) := by
  induction xs generalizing t with
  | nil => simp
  | cons x xs ih =>
    rw [List.foldl_cons, ih, get?_set, List.reverse_cons, List.find?_append, Option.map_or, Option.or_assoc]
    congr 1
    by_cases h : key x = k <;> simp [h]

/-- Of the entries that are set only where there is none, the first one of a name is found. -/
theorem get?_foldl_setUsual (key : β → κ) (value : β → α) (xs : List β) (t : Table κ α) (k : κ) :
    (xs.foldl (fun t x => if t.has (key x) then t else t.set (key x) (value x)) t).get? k =
      (t.get? k).or ((xs.find? (key · = k)).map value) := by
  induction xs generalizing t with
  | nil => simp
  | cons x xs ih =>
    rw [List.foldl_cons, ih]
    by_cases hhas : t.has (key x) = true
    · rw [if_pos hhas]
      by_cases hk : key x = k
      · have hfound : (t.get? k).isSome = true := by
          rw [Option.isSome_iff_ne_none, ne_eq, get?_eq_none_iff, not_not, ← has_iff, ← hk]
          exact hhas
        obtain ⟨v, hv⟩ := Option.isSome_iff_exists.1 hfound
        simp [hv]
      · simp [hk]
    · rw [if_neg hhas, get?_set]
      by_cases hk : key x = k
      · have hnone : t.get? k = none := by
          rw [get?_eq_none_iff, ← has_iff, ← hk]
          exact hhas
        simp [hk, hnone]
      · simp [hk]

end Table

/-! ### Registrations -/

/-- Registers an entry, and records the clash if its name is taken or refused. -/
def enter {κ α : Type} [DecidableEq κ] (name : κ → Clash) (refused : κ → Bool) (s : Table κ α × List Clash) (e : κ × α) :
    Table κ α × List Clash :=
  (s.1.set e.1 e.2, if s.1.has e.1 || refused e.1 then s.2 ++ [name e.1] else s.2)

section Enter

variable {κ α : Type} [DecidableEq κ] (name : κ → Clash) (refused : κ → Bool)

/-- The clashes of entries that are registered one after the other, if `seen` has the names in the table. -/
theorem clashes_foldl_enter (hname : ∀ j k, name j = name k → j = k) (hrefused : ∀ k, refused k = (name k).isReserved)
    (es : List (κ × α)) {t : Table κ α} {clashes seen : List Clash} (hseen : ∀ k, t.has k = true ↔ name k ∈ seen) :
    (es.foldl (enter name refused) (t, clashes)).2 = clashes ++ Clash.repeats seen (es.map (name ·.1)) := by
  induction es generalizing t clashes seen with
  | nil => simp [Clash.repeats]
  | cons e es ih =>
    have hnext : ∀ k, (t.set e.1 e.2).has k = true ↔ name k ∈ seen ++ [name e.1] := by
      intro k
      rw [Table.has_set, hseen, List.mem_append, List.mem_singleton]
      exact or_congr Iff.rfl ⟨congrArg name, hname k e.1⟩
    have htaken : (t.has e.1 || refused e.1) = true ↔ name e.1 ∈ seen ∨ (name e.1).isReserved = true := by
      rw [Bool.or_eq_true, hseen, hrefused]
    rw [List.foldl_cons, enter, ih hnext, List.map_cons, Clash.repeats, ← List.append_assoc]
    congr 1
    by_cases h : name e.1 ∈ seen ∨ (name e.1).isReserved = true
    · simp [htaken.2 h, h]
    · simp [mt htaken.1 h, h]

end Enter

namespace Registry

/-- The names that are registered are the ones in the list. -/
structure Has (r : Registry) (seen : List Clash) : Prop where
  values : ∀ n, r.values.has n = true ↔ .valueType n ∈ seen
  nodes : ∀ n, r.nodes.has n = true ↔ .nodeType n ∈ seen
  conversions : ∀ c, r.conversions.has c = true ↔ .conversion c.1 c.2 ∈ seen

theorem has_empty : ({} : Registry).Has [] :=
  ⟨fun _ => by simp [Table.has], fun _ => by simp [Table.has], fun _ => by simp [Table.has]⟩

/-- The value types of an extension, registered one after the other. -/
def enteredValues (r : Registry) (e : Extension) : Table String ValueType × List Clash :=
  (e.values.map fun t => (t.name, t)).foldl (enter .valueType (· == ValueType.flowName)) (r.values, r.clashes)

def enteredNodes (r : Registry) (e : Extension) : Table String Definition × List Clash :=
  (e.nodes.map fun d => (d.typeName, d)).foldl (enter .nodeType fun _ => false) (r.nodes, (r.enteredValues e).2)

def enteredConversions (r : Registry) (e : Extension) : Table (String × String) Conversion × List Clash :=
  e.conversions.entries.foldl (enter (fun c => .conversion c.1 c.2) fun _ => false) (r.conversions, (r.enteredNodes e).2)

/-- The services with those of an extension: the usual ones where there is none, then its own. -/
def providedServices (services : Table String Offer) (e : Extension) : Table String Offer :=
  e.services.foldl (fun t s => t.set s.name s)
    (e.usualServices.foldl (fun t s => if t.has s.name then t else t.set s.name s) services)

theorem foldl_addValue (ts : List ValueType) (r : Registry) :
    let s := (ts.map fun t => (t.name, t)).foldl (enter .valueType (· == ValueType.flowName)) (r.values, r.clashes)
    ts.foldl addValue r = { r with values := s.1, clashes := s.2 } := by
  induction ts generalizing r with
  | nil => rfl
  | cons t ts ih => exact ih (r.addValue t)

theorem foldl_addNode (ds : List Definition) (r : Registry) :
    let s := (ds.map fun d => (d.typeName, d)).foldl (enter .nodeType fun _ => false) (r.nodes, r.clashes)
    ds.foldl addNode r = { r with nodes := s.1, clashes := s.2 } := by
  induction ds generalizing r with
  | nil => rfl
  | cons d ds ih =>
    have h := ih (r.addNode d)
    simp only [List.foldl_cons, List.map_cons, enter, Bool.or_false]
    exact h

theorem foldl_addConversion (cs : List ((String × String) × Conversion)) (r : Registry) :
    let s := cs.foldl (enter (fun c => .conversion c.1 c.2) fun _ => false) (r.conversions, r.clashes)
    cs.foldl addConversion r = { r with conversions := s.1, clashes := s.2 } := by
  induction cs generalizing r with
  | nil => rfl
  | cons c cs ih =>
    have h := ih (r.addConversion c)
    simp only [List.foldl_cons, enter, Bool.or_false]
    exact h

theorem foldl_addUsualService (os : List Offer) (r : Registry) :
    os.foldl addUsualService r =
      { r with services := os.foldl (fun t s => if t.has s.name then t else t.set s.name s) r.services } := by
  induction os generalizing r with
  | nil => rfl
  | cons s os ih =>
    rw [List.foldl_cons, List.foldl_cons, ih, addUsualService]
    split <;> rfl

theorem foldl_addService (os : List Offer) (r : Registry) :
    os.foldl addService r = { r with services := os.foldl (fun t s => t.set s.name s) r.services } := by
  induction os generalizing r with
  | nil => rfl
  | cons s os ih => exact ih (r.addService s)

/-- An extension, one table after the other. -/
theorem extend_eq (r : Registry) (e : Extension) : r.extend e =
    { values := (r.enteredValues e).1, nodes := (r.enteredNodes e).1, conversions := (r.enteredConversions e).1
      services := providedServices r.services e, clashes := (r.enteredConversions e).2 } := by
  simp only [extend, foldl_addValue, foldl_addNode, foldl_addConversion, foldl_addUsualService, foldl_addService]
  rfl

/-- An extension leaves a clash for each name that it repeats. -/
theorem Has.clashes_extend {r : Registry} {seen : List Clash} (h : r.Has seen) (e : Extension) :
    (r.extend e).clashes = r.clashes ++ Clash.repeats seen e.names := by
  have hnodes (n : String) : r.nodes.has n = true ↔ .nodeType n ∈ seen ++ e.values.map (Clash.valueType ·.name) := by
    simp [h.nodes]
  have hconversions (c : String × String) : r.conversions.has c = true ↔ .conversion c.1 c.2 ∈
      seen ++ e.values.map (Clash.valueType ·.name) ++ e.nodes.map (Clash.nodeType ·.typeName) := by
    simp [h.conversions]
  rw [extend_eq, enteredConversions, enteredNodes, enteredValues,
    clashes_foldl_enter .valueType (· == ValueType.flowName) (fun _ _ h => Clash.valueType.inj h) (fun _ => rfl) _ h.values,
    clashes_foldl_enter .nodeType (fun _ => false) (fun _ _ h => Clash.nodeType.inj h) (fun _ => rfl) _ hnodes,
    clashes_foldl_enter (fun c => .conversion c.1 c.2) (fun _ => false)
      (fun _ _ h => Prod.ext (Clash.conversion.inj h).1 (Clash.conversion.inj h).2) (fun _ => rfl) _ hconversions]
  simp only [Extension.names, Clash.repeats_append, List.append_assoc, List.map_map, Function.comp_def]

theorem Has.extend {r : Registry} {seen : List Clash} (h : r.Has seen) (e : Extension) :
    (r.extend e).Has (seen ++ e.names) where
  values n := by
    rw [values_extend, Table.has_foldl_set ValueType.name (fun t => t), h.values]
    simp [Extension.names]
  nodes n := by
    rw [nodes_extend, Table.has_foldl_set Definition.typeName (fun d => d), h.nodes]
    simp [Extension.names]
  conversions c := by
    rw [conversions_extend, Table.has_foldl_set Prod.fst Prod.snd, h.conversions]
    simp [Extension.names, Prod.ext_iff]

/-! ### Extensions one after the other -/

/-- The registry that extensions make, beginning with the one that has nothing. -/
def ofExtensions (es : List Extension) : Registry := es.foldl extend {}

theorem ofExtensions_concat (es : List Extension) (e : Extension) : ofExtensions (es ++ [e]) = (ofExtensions es).extend e :=
  List.foldl_concat ..

/-- What a registry holds that some extensions made: of each name the last registration, the last service that was given or
else the first usual one, and a clash for each registration whose name was taken or is reserved. -/
structure Folds (es : List Extension) (r : Registry) : Prop where
  values : ∀ name, r.values.get? name = (es.flatMap (·.values)).reverse.find? (·.name = name)
  nodes : ∀ name, r.nodes.get? name = (es.flatMap (·.nodes)).reverse.find? (·.typeName = name)
  conversions : ∀ key, r.conversions.get? key = ((es.flatMap (·.conversions.entries)).reverse.find? (·.1 = key)).map (·.2)
  services : ∀ name, r.services.get? name = ((es.flatMap (·.services)).reverse.find? (·.name = name)).or
    ((es.flatMap (·.usualServices)).find? (·.name = name))
  clashes : r.clashes = Clash.repeats [] (es.flatMap (·.names))

theorem has_ofExtensions (es : List Extension) : (ofExtensions es).Has (es.flatMap (·.names)) := by
  induction es using List.reverseRecOn with
  | nil => exact has_empty
  | append_singleton es e ih =>
    rw [ofExtensions_concat, List.flatMap_append]
    simpa using ih.extend e

/-- Extensions fold into a registry one after the other. -/
theorem folds_ofExtensions (es : List Extension) : Folds es (ofExtensions es) := by
  induction es using List.reverseRecOn with
  | nil => exact ⟨fun _ => rfl, fun _ => rfl, fun _ => rfl, fun _ => rfl, rfl⟩
  | append_singleton es e ih =>
    rw [ofExtensions_concat]
    constructor
    · intro name
      rw [values_extend, Table.get?_foldl_set ValueType.name (fun t => t), ih.values]
      simp [List.find?_append]
    · intro name
      rw [nodes_extend, Table.get?_foldl_set Definition.typeName (fun d => d), ih.nodes]
      simp [List.find?_append]
    · intro key
      rw [conversions_extend, Table.get?_foldl_set Prod.fst Prod.snd, ih.conversions]
      simp [List.find?_append, Option.map_or]
    · intro name
      rw [extend_eq, providedServices, Table.get?_foldl_set Offer.name (fun s => s), Table.get?_foldl_setUsual Offer.name (fun s => s),
        ih.services]
      simp [List.find?_append, Option.or_assoc]
    · rw [(has_ofExtensions es).clashes_extend, ih.clashes, List.flatMap_append, Clash.repeats_append]
      simp

/-- There is no clash just when all names differ and none is reserved. -/
theorem Folds.clashes_eq_nil {es : List Extension} {r : Registry} (h : Folds es r) :
    r.clashes = [] ↔ (es.flatMap (·.names)).Nodup ∧ ∀ c ∈ es.flatMap (·.names), c.isReserved = false := by
  rw [h.clashes, Clash.repeats_eq_nil]
  simp [and_comm]

end Registry

end FlowGraph
