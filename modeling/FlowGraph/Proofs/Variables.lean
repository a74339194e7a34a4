import FlowGraph.Proofs.Atomicity

/-!
Histories of variables. Main statement: a variable that is declared keeps its type whatever is asked of it afterwards, and
at all times its value and the value that it starts from are values of that type, which its type's conversion leaves as
they are.
-/
namespace FlowGraph

namespace Editing

/-- The variable of a name, of which a feature is wanted. -/
def found (name feature : String) : Editing Variable := do
  match (← graph).vars.get? name with
  | some x => return x
  | none => throw (.fault (.noFeature "NoneType" feature))

/-- Assigns a variable that was looked up. -/
def put (x : Variable) (v : Value) : Editing Unit := do
  let (g, told) ← ofExcept ((← graph).assign x v)
  change fun _ => g
  match told with
  | some new => tell x.serial new
  | none => return ()

end Editing

/-- What a host does to the variables of a graph, by their names. -/
inductive VariableAct where
  | declare (name typeName : String) (initial : Value)
  /-- Sets the value that a variable has and starts from. -/
  | establish (name : String) (v : Value) (typeName : Option String)
  | assign (name : String) (v : Value)
  /-- Goes back to the value that a variable starts from. -/
  | restore (name : String)

namespace VariableAct

def run : VariableAct → Editing Unit
  | declare name typeName initial => Editing.declareVariable name typeName initial
  | establish name v typeName => Editing.setVariable name v typeName
  | assign name v => do Editing.put (← Editing.found name "set") v
  | restore name => do
    let x ← Editing.found name "reset"
    Editing.put x x.initial

end VariableAct

/-- A graph after what was done to its variables one after the other, whatever failed. -/
def Graph.varied (g : Graph) (acts : List VariableAct) : Graph :=
  acts.foldl (fun g a => (a.run.runOn { graph := g }).2.graph) g

/-- Both values of the variable are of its type. -/
structure Variable.IsTyped (x : Variable) : Prop where
  value : x.valueType.Holds x.value
  initial : x.valueType.Holds x.initial

namespace Graph

/-- The registry, and every variable is kept under its name and has values of its type, which is a registered one. -/
structure TypedVariables (r : Registry) (g : Graph) : Prop where
  registry : g.registry = r
  vars : ∀ e ∈ g.vars.entries, e.2.name = e.1 ∧ e.2.IsTyped ∧ r.valueType e.2.valueType.name = .ok e.2.valueType

/-- All variables are still there with their types. -/
def Retains (g h : Graph) : Prop :=
  ∀ name x, g.vars.get? name = some x → ∃ y, h.vars.get? name = some y ∧ y.valueType = x.valueType

variable {ds : List Definition} {r : Registry} {g h : Graph}

theorem Retains.refl (g : Graph) : Retains g g := fun _ x hx => ⟨x, hx, rfl⟩

theorem Retains.trans {k : Graph} (hgh : Retains g h) (hhk : Retains h k) : Retains g k := by
  intro name x hx
  obtain ⟨y, hy, hxy⟩ := hgh name x hx
  obtain ⟨z, hz, hyz⟩ := hhk name y hy
  exact ⟨z, hz, hyz.trans hxy⟩

namespace TypedVariables

theorem of_empty (name : String) (r : Registry) (replace : Bool) (labels : Nat) :
    TypedVariables r { name := name, registry := r, replaceLinks := replace, labels := labels } :=
  ⟨rfl, by simp⟩

theorem holding (hg : TypedVariables r g) : Holding r g :=
  ⟨hg.registry, fun e he => ⟨(hg.vars e he).1, (hg.vars e he).2.1.value⟩⟩

theorem of_get? (hg : TypedVariables r g) {name : String} {x : Variable} (hx : g.vars.get? name = some x) :
    x.name = name ∧ x.IsTyped ∧ r.valueType x.valueType.name = .ok x.valueType :=
  hg.vars _ (Table.mem_entries_of_get? hx)

/-- A variable comes in, or gives way to one of its type. -/
theorem withVariable (hg : TypedVariables r g) {name : String} {x : Variable} (hname : x.name = name) (hx : x.IsTyped)
    (hkind : r.valueType x.valueType.name = .ok x.valueType)
    (hsame : ∀ y, g.vars.get? name = some y → x.valueType = y.valueType)
    (hh : ∃ issued labels, h = { g with vars := g.vars.set name x, issued := issued, labels := labels }) :
    TypedVariables r h ∧ Retains g h := by
  obtain ⟨issued, labels, rfl⟩ := hh
  refine ⟨⟨hg.registry, fun e he => ?_⟩, fun other y hy => ?_⟩
  · rcases Table.mem_entries_set he with rfl | he
    · exact ⟨hname, hx, hkind⟩
    · exact hg.vars e he
  · by_cases hother : name = other
    · subst hother
      exact ⟨x, by simp, hsame y hy⟩
    · exact ⟨y, by simpa [hother] using hy, rfl⟩

/-- A declared variable holds a value of its type, and the others keep their types. -/
theorem declareVariable (hr : r.Standard ds) (hg : TypedVariables r g) {name typeName : String} {initial : Value}
    (hd : g.declareVariable name typeName initial = .ok h) : TypedVariables r h ∧ Retains g h := by
  unfold Graph.declareVariable at hd
  split at hd
  · cases hd
  rename_i hnew
  rw [Table.has_iff, ← Table.get?_eq_none_iff] at hnew
  split at hd
  · cases hd
  rename_i t ht
  rw [hg.registry] at ht
  obtain ⟨v, hv, hd⟩ := bind_eq_ok.1 hd
  obtain ⟨rfl, hbasic⟩ := hr.valueType_spec ht
  have hstamped := (g.stamp_spec (hbasic.holds_start hv)).1
  obtain ⟨labels, hlabels⟩ := g.stamp_eq v
  rw [show g.stamp v = ((g.stamp v).1, (g.stamp v).2) from rfl, hlabels] at hd
  generalize (g.stamp v).2 = w at hd hstamped
  let x : Variable := { name := name, serial := g.issued, valueType := t, initial := w, value := w }
  have hsame : ∀ y, g.vars.get? name = some y → x.valueType = y.valueType := by simp [hnew]
  cases hd
  exact hg.withVariable (x := x) rfl ⟨hstamped, hstamped⟩ ht hsame ⟨_, labels, rfl⟩

/-- A variable that is assigned holds what it was given, as its type has it. -/
theorem assign (hg : TypedVariables r g) {name : String} {x : Variable} (hx : g.vars.get? name = some x) {v w : Value}
    (hw : Variable.coerce x.name x.valueType v = .ok w) : ∃ labels told u, x.valueType.Holds u ∧ u.renewed = w.renewed ∧
      g.assign x v = .ok ({ g with vars := g.vars.set name { x with value := u }, labels := labels }, told) := by
  obtain ⟨rfl, htyped, -⟩ := hg.of_get? hx
  obtain ⟨hstamped, hrenewed⟩ := g.stamp_spec (ValueType.holds_coerce htyped.value.isBasic hw)
  obtain ⟨told, hput, -⟩ := Editing.runOn_assign htyped.value hstamped
  obtain ⟨labels, hlabels⟩ := g.stamp_eq w
  refine ⟨labels, told, (g.stamp w).2, hstamped, hrenewed, ?_⟩
  simp only [Graph.assign, hw, bind, Except.bind, hput, hlabels]
  rfl

/-- A variable that is set keeps its type, and so do the others. -/
theorem setVariable (hg : TypedVariables r g) {name : String} {x : Variable} (hx : g.vars.get? name = some x) {v : Value}
    {typeName : Option String} {told : Option Value} (hs : g.setVariable name v typeName = .ok (h, told)) :
    TypedVariables r h ∧ Retains g h := by
  obtain ⟨hname, htyped, hkind⟩ := hg.of_get? hx
  simp only [Graph.setVariable, hx] at hs
  split at hs
  · cases hs
  obtain ⟨w, hw, hs⟩ := bind_eq_ok.1 hs
  obtain ⟨initial, hinitial, hs⟩ := bind_eq_ok.1 hs
  obtain ⟨⟨y, told⟩, hy, hs⟩ := bind_eq_ok.1 hs
  cases hs
  have hstamped := (g.stamp_spec (ValueType.holds_coerce htyped.value.isBasic hw)).1
  cases hstamped.clone.symm.trans (lifted_eq_ok.1 hinitial)
  obtain ⟨labels, hlabels⟩ := g.stamp_eq w
  have hsame : ∀ z, g.vars.get? name = some z → x.valueType = z.valueType := by simp [hx]
  refine hg.withVariable (x := { x with initial := (g.stamp w).2, value := (g.stamp w).2 }) hname ⟨hstamped, hstamped⟩ hkind
    hsame ⟨g.issued, labels, ?_⟩
  rw [hlabels, Variable.put_eq_ok hy]

end TypedVariables

end Graph

namespace VariableAct

open FlowGraph.Graph Editing

variable {ds : List Definition} {r : Registry} {g : Graph}

theorem runOn_found {name feature : String} {d : Draft} : (found name feature).runOn d = match d.graph.vars.get? name with
    | some x => (.ok x, d)
    | none => (.error (.fault (.noFeature "NoneType" feature)), d) := by
  simp only [found, runOn_bind, runOn_graph]
  cases d.graph.vars.get? name <;> rfl

theorem runOn_put (x : Variable) (v : Value) {d : Draft} : (put x v).runOn d = match d.graph.assign x v with
    | .ok (h, told) => (.ok (), { d with graph := h, told := d.told ++ told.toList.map (x.serial, ·) })
    | .error e => (.error e, d) := by
  simp only [put, runOn_bind, runOn_graph, runOn_ofExcept]
  cases d.graph.assign x v with
  | error e => rfl
  | ok p =>
    obtain ⟨h, _ | new⟩ := p
    · simp only [runOn_change]
      simp
    · rfl

/-- A variable that is there is assigned, or the value is refused and nothing changes. -/
theorem retains_put (hg : TypedVariables r g) {name : String} {x : Variable} (hx : g.vars.get? name = some x) (v : Value) :
    TypedVariables r ((put x v).runOn { graph := g }).2.graph ∧ Retains g ((put x v).runOn { graph := g }).2.graph := by
  rw [runOn_put]
  cases hw : Variable.coerce x.name x.valueType v with
  | error e =>
    have hrefused : g.assign x v = .error e := by simp only [Graph.assign, hw, bind, Except.bind]
    rw [hrefused]
    exact ⟨hg, Retains.refl g⟩
  | ok w =>
    obtain ⟨labels, told, u, hu, -, hassigned⟩ := hg.assign hx hw
    obtain ⟨hname, htyped, hkind⟩ := hg.of_get? hx
    have hsame : ∀ y, g.vars.get? name = some y → x.valueType = y.valueType := by simp [hx]
    rw [hassigned]
    exact hg.withVariable (x := { x with value := u }) hname ⟨hu, htyped.initial⟩ hkind hsame ⟨g.issued, labels, rfl⟩

/-- A declaration that fails leaves the graph, or a variable that cannot be shown. -/
theorem retains_declareVariable (hr : r.Standard ds) (hg : TypedVariables r g) (name typeName : String) (initial : Value) :
    TypedVariables r ((Editing.declareVariable name typeName initial).runOn { graph := g }).2.graph ∧
      Retains g ((Editing.declareVariable name typeName initial).runOn { graph := g }).2.graph := by
  rcases runOn_declareVariable hr (d := { graph := g }) hg.holding name typeName initial with
    ⟨e, -, hrun⟩ | ⟨h, hok, hrun | ⟨-, hrun⟩⟩
  · rw [hrun]
    exact ⟨hg, Retains.refl g⟩
  · rw [hrun]
    exact hg.declareVariable hr hok
  · rw [hrun]
    exact hg.declareVariable hr hok

/-- Whether or not it is accepted, an assignment keeps variables and their types. -/
theorem retains_setVariable (hr : r.Standard ds) (hg : TypedVariables r g) (name : String) (v : Value)
    (typeName : Option String) :
    TypedVariables r ((Editing.setVariable name v typeName).runOn { graph := g }).2.graph ∧
      Retains g ((Editing.setVariable name v typeName).runOn { graph := g }).2.graph := by
  cases hx : g.vars.get? name with
  | none =>
    simp only [Editing.setVariable, runOn_bind, runOn_graph, hx]
    cases typeName with
    | none => exact ⟨hg, Retains.refl g⟩
    | some t => exact retains_declareVariable hr hg name t v
  | some x =>
    rw [runOn_setVariable (d := { graph := g }) hg.holding hx]
    cases hs : g.setVariable name v typeName with
    | error e => exact ⟨hg, Retains.refl g⟩
    | ok p => exact hg.setVariable hx hs

/-- Whatever is done to a variable, all of them stay, with their types and with values of these. -/
theorem retains_run (hr : r.Standard ds) (hg : TypedVariables r g) (a : VariableAct) :
    TypedVariables r (a.run.runOn { graph := g }).2.graph ∧ Retains g (a.run.runOn { graph := g }).2.graph := by
  cases a with
  | declare name typeName initial => exact retains_declareVariable hr hg name typeName initial
  | establish name v typeName => exact retains_setVariable hr hg name v typeName
  | assign name v | restore name =>
    simp only [run, runOn_bind, runOn_found]
    cases hx : g.vars.get? name with
    | none => exact ⟨hg, Retains.refl g⟩
    | some x => exact retains_put hg hx _

theorem retains_varied (hr : r.Standard ds) (hg : TypedVariables r g) (acts : List VariableAct) :
    TypedVariables r (g.varied acts) ∧ Retains g (g.varied acts) := by
  induction acts generalizing g with
  | nil => exact ⟨hg, Retains.refl g⟩
  | cons a acts ih =>
    obtain ⟨hstep, hretains⟩ := retains_run hr hg a
    obtain ⟨hrest, hlater⟩ := ih hstep
    exact ⟨hrest, hretains.trans hlater⟩

/-- Going back to the start succeeds. -/
theorem runOn_restore (hg : TypedVariables r g) {name : String} {x : Variable} (hx : g.vars.get? name = some x) :
    ∃ d y, (restore name).run.runOn { graph := g } = (.ok (), d) ∧ d.graph.vars.get? name = some y ∧
      y.initial = x.initial ∧ y.value.renewed = x.initial.renewed := by
  obtain ⟨-, htyped, -⟩ := hg.of_get? hx
  obtain ⟨labels, told, u, -, hu, hassigned⟩ := hg.assign hx (htyped.initial.coerce x.name)
  have hrun : (restore name).run.runOn { graph := g } = (.ok (), {
      graph := { g with vars := g.vars.set name { x with value := u }, labels := labels }
      told := told.toList.map (x.serial, ·) }) := by
    simp only [run, runOn_bind, runOn_found, hx, runOn_put, hassigned, List.nil_append]
  exact ⟨_, { x with value := u }, hrun, by simp, rfl, hu⟩

end VariableAct

namespace Graph

/-- A variable of a graph over the default profiles stays and keeps its type whatever is done to variables afterwards.
Its values are of the type then and are left as they are when they are given again, like everything that the type's
conversion yields, and the variable can go back to where it started. -/
theorem typed_of_varied {services : List Service} {check : Bool} {r : Registry}
    (hr : Registry.create Catalogue.defaultProfiles services check = .ok r) (name : String) (replace : Bool) (labels : Nat)
    (acts later : List VariableAct) {n : String} {x : Variable}
    (hx : (varied { name := name, registry := r, replaceLinks := replace, labels := labels } acts).vars.get? n = some x) :
    let g := (varied { name := name, registry := r, replaceLinks := replace, labels := labels } acts).varied later
    ∃ y, g.vars.get? n = some y ∧ y.valueType = x.valueType ∧ r.valueType y.valueType.name = .ok y.valueType ∧ y.IsTyped ∧
      Variable.coerce n y.valueType y.value = .ok y.value ∧ Variable.coerce n y.valueType y.initial = .ok y.initial ∧
      (∀ v w, Variable.coerce n y.valueType v = .ok w → y.valueType.Holds w ∧ Variable.coerce n y.valueType w = .ok w) ∧
      ∃ d z, (VariableAct.restore n).run.runOn { graph := g } = (.ok (), d) ∧ d.graph.vars.get? n = some z ∧
        z.initial = y.initial ∧ z.value.renewed = y.initial.renewed := by
  intro g
  have hstandard := Registry.standard_of_create hr
  have hacts := (VariableAct.retains_varied hstandard (.of_empty name r replace labels) acts).1
  obtain ⟨hg, hretains⟩ := VariableAct.retains_varied hstandard hacts later
  obtain ⟨y, hy, hsame⟩ := hretains n x hx
  obtain ⟨-, htyped, hkind⟩ := hg.of_get? hy
  refine ⟨y, hy, hsame, hkind, htyped, htyped.value.coerce n, htyped.initial.coerce n, fun v w hw => ?_,
    VariableAct.runOn_restore hg hy⟩
  have hheld := ValueType.holds_coerce htyped.value.isBasic hw
  exact ⟨hheld, hheld.coerce n⟩

/-- A float variable, which cannot be assigned a text that is no number. -/
def speedActs : List VariableAct := [.declare "speed" "float" (.str "2.5"), .assign "speed" (.str "fast")]

theorem typed_of_varied_speed : ∃ y, y.IsTyped ∧ y.value = .float (Double.ofRatio false 3 1) ∧
    ((varied { registry := Catalogue.defaults } speedActs).varied [.assign "speed" (.int 3)]).vars.get? "speed" = some y := by
  obtain ⟨x, hx⟩ : ∃ x, (varied { registry := Catalogue.defaults } speedActs).vars.get? "speed" = some x :=
    Option.isSome_iff_exists.1 (by decide +kernel)
  obtain ⟨y, hy, -, -, htyped, -⟩ := typed_of_varied Catalogue.create_defaults "Untitled Graph" true labelRange speedActs
    [.assign "speed" (.int 3)] hx
  have hvalue : (((varied { registry := Catalogue.defaults } speedActs).varied
      [.assign "speed" (.int 3)]).vars.get? "speed").map (·.value) = some (.float (Double.ofRatio false 3 1)) := by
    decide +kernel
  rw [hy] at hvalue
  exact ⟨y, htyped, Option.some.inj hvalue, hy⟩

end Graph

end FlowGraph
