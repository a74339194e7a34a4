import FlowGraph.Proofs.Attending
import FlowGraph.Proofs.ContextCalls
import FlowGraph.Proofs.Variables
import FlowGraph.Session.Editing
import FlowGraph.Session.Running

/-!
What the observers of a variable hear while it is assigned by one way or another: by the host, directly or with the value that it
starts from or back to that value, and by nodes. Each way takes a value through the document form of the variable's type, keeps
what comes out and tells of it unless it equals the value before; what does not fit changes nothing. So an observer hears of the
values that were taken, without those that equal the one before them.
-/
namespace FlowGraph

open World Play

/-- What is left of the values if each that equals the one before it is left out; the first is compared with another. -/
def ValueType.changes (t : ValueType) : Value → List Value → List Value
  | _, [] => []
  | old, v :: vs => match t.equals old v with
    | .ok true => t.changes v vs
    | _ => v :: t.changes v vs

theorem ValueType.changes_append (t : ValueType) (old : Value) (us vs : List Value) :
    t.changes old (us ++ vs) = t.changes old us ++ t.changes (us.getLastD old) vs := by
  induction us generalizing old with
  | nil => rfl
  | cons u us ih =>
    rw [List.cons_append, changes, changes, ih, List.getLastD_cons]
    split <;> rfl

/-- A value of the type is put into the variable, and told if it is another than before. -/
theorem Variable.put_of_holds {x : Variable} {u : Value} (hx : x.valueType.Holds x.value) (hu : x.valueType.Holds u) :
    ∃ told, x.put u = .ok ({ x with value := u }, told) ∧ told.toList = x.valueType.changes x.value [u] := by
  obtain ⟨same, hsame⟩ := hx.equals hu
  cases same with
  | true => exact ⟨none, by simp only [put, hsame]; rfl, by simp only [ValueType.changes, hsame]; rfl⟩
  | false =>
    refine ⟨some u, by simp only [put, hsame, hu.clone]; rfl, ?_⟩
    simp only [ValueType.changes, hsame]
    rfl

namespace Graph

variable {g : Graph} {x : Variable} {v u : Value}

/-- The value as the variable keeps it, if it takes it. -/
def accepted? (g : Graph) (x : Variable) (v : Value) : Option Value :=
  (Variable.coerce x.name x.valueType v).toOption.map fun a => (g.stamp a).2

theorem accepted?_eq_some (h : g.accepted? x v = some u) :
    ∃ a, Variable.coerce x.name x.valueType v = .ok a ∧ (g.stamp a).2 = u := by
  rw [accepted?] at h
  cases ha : Variable.coerce x.name x.valueType v with
  | error e => rw [ha] at h; cases h
  | ok a =>
    rw [ha] at h
    exact ⟨a, rfl, Option.some.inj h⟩

theorem accepted?_eq_none (h : g.accepted? x v = none) : ∃ e, Variable.coerce x.name x.valueType v = .error e := by
  rw [accepted?] at h
  cases ha : Variable.coerce x.name x.valueType v with
  | error e => exact ⟨e, rfl⟩
  | ok a => rw [ha] at h; cases h

theorem holds_accepted (hx : x.IsTyped) (h : g.accepted? x v = some u) : x.valueType.Holds u := by
  obtain ⟨a, ha, rfl⟩ := accepted?_eq_some h
  exact (g.stamp_spec (ValueType.holds_coerce hx.value.isBasic ha)).1

/-- A variable that takes the value has it then, and what is told is whether it changed. -/
theorem assign_of_accepted (hx : x.IsTyped) (h : g.accepted? x v = some u) : ∃ labels told,
    g.assign x v = .ok ({ g with vars := g.vars.set x.name { x with value := u }, labels := labels }, told) ∧
      told.toList = x.valueType.changes x.value [u] := by
  obtain ⟨told, hput, htold⟩ := Variable.put_of_holds hx.value (holds_accepted hx h)
  obtain ⟨a, ha, rfl⟩ := accepted?_eq_some h
  obtain ⟨labels, hlabels⟩ := g.stamp_eq a
  refine ⟨labels, told, ?_, htold⟩
  simp only [assign, ha, bind, Except.bind, hput, hlabels]
  rfl

theorem assign_of_refused (h : g.accepted? x v = none) : ∃ e, g.assign x v = .error e := by
  obtain ⟨e, he⟩ := accepted?_eq_none h
  exact ⟨e, by simp only [assign, he]; rfl⟩

/-- Likewise where it is to start from the value, too. The type may be given, if it is the right one. -/
theorem setVariable_of_accepted (hg : g.vars.get? x.name = some x) (hx : x.IsTyped) {typeName : Option String}
    (ht : typeName.getD x.valueType.name = x.valueType.name) (h : g.accepted? x v = some u) : ∃ labels told,
    g.setVariable x.name v typeName =
        .ok ({ g with vars := g.vars.set x.name { x with initial := u, value := u }, labels := labels }, told) ∧
      told.toList = x.valueType.changes x.value [u] := by
  have hu := holds_accepted hx h
  obtain ⟨told, hput, htold⟩ := Variable.put_of_holds (x := { x with initial := u }) hx.value hu
  obtain ⟨a, ha, rfl⟩ := accepted?_eq_some h
  obtain ⟨labels, hlabels⟩ := g.stamp_eq a
  refine ⟨labels, told, ?_, htold⟩
  simp only [setVariable, hg, ht, ne_eq, not_true_eq_false, if_false, ha, bind, Except.bind, hu.clone, Except.lifted, hput, hlabels]
  rfl

theorem setVariable_of_refused (hg : g.vars.get? x.name = some x) {typeName : Option String}
    (h : typeName.getD x.valueType.name ≠ x.valueType.name ∨ g.accepted? x v = none) :
    ∃ e, g.setVariable x.name v typeName = .error e := by
  by_cases ht : typeName.getD x.valueType.name = x.valueType.name
  · obtain ⟨e, he⟩ := accepted?_eq_none (h.resolve_left fun hne => hne ht)
    exact ⟨e, by simp only [setVariable, hg, ht, ne_eq, not_true_eq_false, if_false, he]; rfl⟩
  · refine ⟨.integrity (.variableType x.name x.valueType.name (typeName.getD x.valueType.name)), ?_⟩
    simp only [setVariable, hg, ne_eq, ht, not_false_eq_true, if_true]

end Graph

namespace World

variable {w : World} {g : Nat} {x y : Variable} {name : String} {v u : Value} {o : Observer}

/-- A new value of a variable is told, if there is one. -/
def tells (w : World) (g serial : Nat) : Option Value → World
  | some v => w.emit (.variableChange g serial) (.changed v)
  | none => w

theorem inside_of_get? (hx : (w.graph g).vars.get? name = some x) : g < w.graphs.size := by
  apply Decidable.byContradiction
  intro hout
  simp [World.graph, hout] at hx
  cases hx

theorem modifyGraph_graph (w : World) (g : Nat) : (w.modifyGraph g fun _ => w.graph g) = w := by
  have hgraphs : w.graphs.modify g (fun _ => w.graph g) = w.graphs := by
    apply Array.ext_getElem?
    intro k
    rw [Array.getElem?_modify]
    split
    · rename_i hk
      subst hk
      cases hat : w.graphs[g]? <;> simp [graph, hat]
    · rfl
  rw [modifyGraph, hgraphs]

/-- A variable is replaced and what is new is told. Who observes it hears that once. -/
theorem hears_tells (hx : (w.graph g).vars.get? name = some x) {h : Graph} (hh : h.vars = (w.graph g).vars.set name y)
    (told : Option Value) {serial : Nat} (ha : o.Attends (.variableChange g serial) w) {v : World}
    (hv : v = (w.modifyGraph g fun _ => h).tells g serial told) : (v.graph g).vars.get? name = some y ∧
      o.Attends (.variableChange g serial) v ∧ o.Hears w v told.toList := by
  have hset : ((w.modifyGraph g fun _ => h).graph g).vars.get? name = some y := by
    rw [graph_modifyGraph, if_pos ⟨rfl, inside_of_get? hx⟩, hh, Table.get?_set, if_pos rfl]
  have hattends : o.Attends (.variableChange g serial) (w.modifyGraph g fun _ => h) := ⟨ha.once, ha.live⟩
  have hsame : o.Hears w (w.modifyGraph g fun _ => h) [] := .of_eq rfl rfl o
  subst hv
  cases told with
  | none => exact ⟨hset, hattends, hsame⟩
  | some u =>
    have hemit := Undisturbed.emit (w.modifyGraph g fun _ => h) (.variableChange g serial) (.changed u)
    exact ⟨by rw [tells, hemit.vars, hset], hattends.undisturbed hemit, hsame.trans (hattends.hears_emit u)⟩

theorem assign_of_error {e : Failure} (h : (w.graph g).assign x v = .error e) : w.assign g x v = (.error e, w) := by
  simp only [assign, h]

theorem assign_of_ok {h : Graph} {told : Option Value} (hok : (w.graph g).assign x v = .ok (h, told)) :
    w.assign g x v = (.ok (), (w.modifyGraph g fun _ => h).tells g x.serial told) := by
  simp only [assign, hok]
  cases told <;> rfl

end World

namespace Session

variable {α β : Type} {s : Session}

def runOn (x : Run α) (s : Session) : Except Failure α × Session := x.run.run s

theorem runOn_bind (x : Run α) (k : α → Run β) (s : Session) : runOn (x >>= k) s = match runOn x s with
    | (.ok a, s) => runOn (k a) s
    | (.error e, s) => (.error e, s) := by
  show (ExceptT.bindCont k (runOn x s).1).run (runOn x s).2 = _
  generalize runOn x s = p
  obtain ⟨_ | _, _⟩ := p <;> rfl

theorem runOn_play (x : Play α) (s : Session) :
    runOn (play x) s = ((x.runOn s.world).1, { s with world := (x.runOn s.world).2 }) := rfl

def var? (s : Session) (name : String) : Option Variable := (s.world.graph s.graph).vars.get? name

theorem runOn_declared {name : String} {x : Variable} (h : s.var? name = some x) (feature : String) :
    runOn (declared name feature) s = (.ok x, s) := by
  have hfound : runOn (declared name feature) s = runOn (requireFor feature (s.var? name)) s := rfl
  rw [hfound, h]
  rfl

theorem runOn_watchVariable {name : String} {x : Variable} (h : s.var? name = some x) : (runOn (watchVariable name) s).2 =
    { s with world := (s.world.subscribe (.variableChange s.graph x.serial) (.watchVariable name)).2 } := by
  rw [watchVariable, runOn_bind, runOn_declared h]
  rfl

def assignAs (name feature : String) (v : Variable → Value) : Run Unit := do
  let x ← declared name feature
  let _ ← assign x (v x)

/-- An assignment in a session is the one in its world. -/
theorem runOn_assign (x : Variable) (v : Value) (s : Session) : runOn (assign x v) s =
    match s.world.assign s.graph x v with
    | (.error e, w) => (.error e, { s with world := w })
    | (.ok _, w) => (match (w.graph s.graph).vars.get? x.name with
      | some y => y.get
      | none => .ok .none, { s with world := w }) := by
  have hplay : runOn (assign x v) s = runOn (play (change (·.assign s.graph x v)) >>= fun _ => do
      match (← current).vars.get? x.name with
      | some y => ofExcept y.get
      | none => return .none) s := rfl
  have hchange : (change (·.assign s.graph x v)).runOn s.world = s.world.assign s.graph x v := rfl
  rw [hplay, runOn_bind, runOn_play, hchange]
  generalize s.world.assign s.graph x v = p
  obtain ⟨out, w⟩ := p
  cases out with
  | error e => rfl
  | ok _ =>
    have hcurrent : runOn (do
        match (← current).vars.get? x.name with
        | some y => ofExcept y.get
        | none => return .none) { s with world := w } = runOn (match (w.graph s.graph).vars.get? x.name with
          | some y => ofExcept y.get
          | none => return .none) { s with world := w } := rfl
    dsimp only
    rw [hcurrent]
    cases (w.graph s.graph).vars.get? x.name <;> rfl

theorem runOn_assignAs {name : String} {x : Variable} (h : s.var? name = some x) (feature : String) (v : Variable → Value) :
    runOn (assignAs name feature v) s = ((runOn (assign x (v x)) s).1.map fun _ => (), (runOn (assign x (v x)) s).2) := by
  rw [assignAs, runOn_bind, runOn_declared h]
  dsimp only
  rw [runOn_bind]
  generalize runOn (assign x (v x)) s = p
  obtain ⟨out, r⟩ := p
  cases out <;> rfl

/-- An edit that tells of one new value at most. -/
theorem runOn_carryOut {x : Editing Unit} {r : Except Failure Unit} {g : Graph} (serial : Nat) (told : Option Value)
    (hx : x.runOn { graph := s.world.graph s.graph, strays := s.strays } =
      (r, { graph := g, strays := s.strays, told := told.toList.map (serial, ·) })) :
    runOn (carryOut x) s =
      (r, { s with world := (s.world.modifyGraph s.graph fun _ => g).tells s.graph serial told }) := by
  have hstart : runOn (carryOut x) s = runOn (do
      setCurrent (x.runOn { graph := s.world.graph s.graph, strays := s.strays }).2.graph
      modify fun t => { t with strays := (x.runOn { graph := s.world.graph s.graph, strays := s.strays }).2.strays }
      let place := (← get).graph
      for p in (x.runOn { graph := s.world.graph s.graph, strays := s.strays }).2.told do
        modifyWorld (·.emit (.variableChange place p.1) (.changed p.2))
      ofExcept (x.runOn { graph := s.world.graph s.graph, strays := s.strays }).1) s := rfl
  rw [hstart, hx]
  cases told with
  | none => rfl
  | some v => rfl

end Session

/-- A way to give a value to a variable. -/
inductive Assignment where
  | set (value : Value)
  /-- The variable starts from the value, too. Its type may be given. -/
  | establish (value : Value) (typeName : Option String)
  | reset
  /-- A node does it, with the value at its input. -/
  | node (context : Context)

namespace Assignment

/-- Carries the assignment out. -/
def run (name : String) : Assignment → Session.Run Unit
  | set v => Session.assignAs name "set" fun _ => v
  | establish v typeName => Session.setVariable name v typeName
  | reset => Session.assignAs name "reset" (·.initial)
  | node c => Session.play (FlowBehaviour.setVariable.run c)

/-- The value that is offered to the variable, if it comes to that. -/
def offered? (s : Session) (x : Variable) : Assignment → Option Value
  | set v => some v
  | establish v typeName => if typeName.getD x.valueType.name = x.valueType.name then some v else none
  | reset => some x.initial
  | node c => ((s.world.node c.node).read "value").toOption

/-- The value that the variable takes: the one that is offered, as the type of the variable has it. -/
def accepted? (s : Session) (x : Variable) (a : Assignment) : Option Value :=
  (a.offered? s x).bind ((s.world.graph s.graph).accepted? x)

/-- A node that assigns is run by a fiber, belongs to the graph at hand and has the name of the variable for a setting. -/
def Concerns (s : Session) (name : String) : Assignment → Prop
  | node c => c.node.graph = s.graph ∧ (∃ i f input, c.role = .flow i f input) ∧
      ∃ k, (s.world.node c.node).configuration.get? variableKey = some k ∧ k.key? = .ok (some name)
  | _ => True

end Assignment

namespace Play

variable {α β : Type} {w : World}

/-- Whatever comes of the computation, no observer of a variable hears of it. -/
def Quiet (x : Play α) : Prop := ∀ w : World, w.Unheard (x.runOn w).2

theorem Quiet.bind {x : Play α} {k : α → Play β} (hx : Quiet x) (hk : ∀ a, Quiet (k a)) : Quiet (x >>= k) := by
  intro w
  rw [runOn_bind]
  have h := hx w
  generalize x.runOn w = p at h ⊢
  obtain ⟨out, v⟩ := p
  cases out with
  | ok a => exact h.trans (hk a v)
  | error e => exact h

theorem quiet_ofExcept (x : Except Failure α) : Quiet (ofExcept x) := fun w => .refl w

theorem quiet_ofFault (x : Except Fault α) : Quiet (ofFault x) := fun w => .refl w

theorem quiet_variableNamed (c : Context) (name : Value) : Quiet (c.variableNamed name) := by
  intro w
  rw [runOn_variableNamed]
  refine Quiet.bind (quiet_ofFault _) (fun x => ?_) w
  cases x with
  | some y => exact fun w => .refl w
  | none => exact Quiet.bind (quiet_ofFault _) fun _ w => .refl w

theorem quiet_write (c : Context) (output : String) (v : Value) : Quiet (c.write output v) := by
  intro w
  rw [Context.runOn_write]
  have h := World.Unheard.stamp w c.node.graph v
  split
  · exact h.trans (.modifyNode _ c.node _)
  · exact h

/-- A fiber that goes on tells nobody. -/
theorem quiet_commit {c : Context} {i f : Nat} {input : String} (hc : c.role = .flow i f input) (output : String) :
    Quiet (c.commit output) := by
  obtain ⟨x, role⟩ := c
  cases hc
  exact fun w => .commitFiber w i f x output none

end Play

/-- What a node does that has assigned a variable: it shows the value and goes on. -/
def Context.showVariable (c : Context) (name : Value) : Play Unit := do
  c.write "value" (← Play.ofExcept (← c.variableNamed name).get)
  c.commit "exec_out"

theorem Context.quiet_showVariable {c : Context} {i f : Nat} {input : String} (hc : c.role = .flow i f input) (name : Value) :
    Quiet (c.showVariable name) :=
  (quiet_variableNamed c name).bind fun y => (quiet_ofExcept y.get).bind fun v =>
    (quiet_write c "value" v).bind fun _ => quiet_commit hc "exec_out"

/-- A node assigns the variable that its setting names. -/
theorem runOn_setVariable {w : World} {c : Context} {k : Value} {name : String} {x : Variable}
    (hk : (w.node c.node).configuration.get? variableKey = some k) (hkey : k.key? = .ok (some name))
    (hx : (w.graph c.node.graph).vars.get? name = some x) :
    (FlowBehaviour.setVariable.run c).runOn w = match (w.node c.node).read "value" with
      | .error e => (.error (.fault e), w)
      | .ok v => match w.assign c.node.graph x v with
        | (.error e, v) => (.error e, v)
        | (.ok _, v) => (c.showVariable k).runOn v := by
  have hread : (c.read "value").runOn w = (Except.lifted ((w.node c.node).read "value"), w) := rfl
  rw [FlowBehaviour.run, runOn_bind, Context.runOn_setting_of_get? hk]
  dsimp only
  rw [runOn_bind, Context.runOn_variableNamed_of_get? hkey hx]
  dsimp only
  rw [runOn_bind, hread]
  cases (w.node c.node).read "value" with
  | error e => rfl
  | ok v =>
    have hchange : (change (·.assign c.node.graph x v)).runOn w = w.assign c.node.graph x v := rfl
    show ((change (·.assign c.node.graph x v)) >>= fun _ => c.showVariable k).runOn w = _
    rw [runOn_bind, hchange]
    dsimp only
    generalize w.assign c.node.graph x v = p
    obtain ⟨out, r⟩ := p
    cases out <;> rfl

namespace Assignment

variable {s : Session} {name : String} {x : Variable} {v u : Value} {a : Assignment}

/-- A value that is refused changes nothing at all. -/
theorem runOn_of_refused (hs : s.var? x.name = some x) (hx : x.IsTyped) (hc : a.Concerns s x.name) (h : a.accepted? s x = none) :
    ∃ e, Session.runOn (a.run x.name) s = (.error e, s) := by
  have hrefused {v : Value} (hv : (s.world.graph s.graph).accepted? x v = none) :
      ∃ e, s.world.assign s.graph x v = (.error e, s.world) := by
    obtain ⟨e, he⟩ := Graph.assign_of_refused hv
    exact ⟨e, assign_of_error he⟩
  have hdirect {v : Variable → Value} (hv : (s.world.graph s.graph).accepted? x (v x) = none) (feature : String) :
      ∃ e, Session.runOn (Session.assignAs x.name feature v) s = (.error e, s) := by
    obtain ⟨e, he⟩ := hrefused hv
    exact ⟨e, by rw [Session.runOn_assignAs hs, Session.runOn_assign, he]; rfl⟩
  cases a with
  | set v => exact hdirect (v := fun _ => v) h "set"
  | reset => exact hdirect (v := (·.initial)) h "reset"
  | establish v typeName =>
    have hunfit : typeName.getD x.valueType.name ≠ x.valueType.name ∨ (s.world.graph s.graph).accepted? x v = none := by
      by_cases ht : typeName.getD x.valueType.name = x.valueType.name
      · simp only [accepted?, offered?, if_pos ht] at h
        exact .inr h
      · exact .inl ht
    obtain ⟨e, he⟩ := Graph.setVariable_of_refused hs hunfit
    have hedit := Editing.runOn_setVariable_of_holds (d := { graph := s.world.graph s.graph, strays := s.strays })
      hs hx.value v typeName
    rw [he] at hedit
    refine ⟨e, ?_⟩
    rw [run, Session.setVariable, Session.runOn_carryOut x.serial none hedit, tells, modifyGraph_graph]
  | node c =>
    obtain ⟨hplace, -, k, hk, hkey⟩ := hc
    have hrun := runOn_setVariable hk hkey (x := x) (by rw [hplace]; exact hs)
    rw [run, Session.runOn_play, hrun]
    cases hread : (s.world.node c.node).read "value" with
    | error e => exact ⟨.fault e, rfl⟩
    | ok v =>
      simp only [accepted?, offered?, hread] at h
      obtain ⟨e, he⟩ := hrefused h
      refine ⟨e, ?_⟩
      simp only [hplace, he]

end Assignment

/-- The variable of the name is at hand, has values of its type, and the observer attends to it. -/
structure Session.Watched (s : Session) (o : Observer) (x : Variable) : Prop where
  there : s.var? x.name = some x
  typed : x.IsTyped
  attends : o.Attends (.variableChange s.graph x.serial) s.world

namespace Session.Watched

variable {s : Session} {o : Observer} {x y : Variable}

/-- A variable is replaced and what is new is told. -/
theorem tells (h : s.Watched o x) {g : Graph} (told : Option Value) (hg : g.vars = (s.world.graph s.graph).vars.set x.name y)
    (hname : y.name = x.name) (hserial : y.serial = x.serial) (hy : y.IsTyped) {r : Session}
    (hr : r = { s with world := (s.world.modifyGraph s.graph fun _ => g).tells s.graph x.serial told }) :
    r.Watched o y ∧ o.Hears s.world r.world told.toList := by
  obtain ⟨hset, hattends, hhears⟩ := hears_tells h.there hg told h.attends rfl
  subst hr
  exact ⟨⟨by rw [hname]; exact hset, hy, by rw [hserial]; exact hattends⟩, hhears⟩

theorem unheard (h : s.Watched o x) {w : World} (hw : s.world.Unheard w) : ({ s with world := w } : Session).Watched o x :=
  ⟨(congrArg (Table.get? · x.name) (hw.vars s.graph)).trans h.there, h.typed, h.attends.undisturbed hw.toUndisturbed⟩

end Session.Watched

namespace Assignment

variable {s : Session} {o : Observer} {x : Variable} {u : Value} {a : Assignment}

/-- A value that is taken is the variable's from then on, and is told if it is another than before. The host is refused nothing
then. -/
theorem runOn_of_accepted (hs : s.Watched o x) (hc : a.Concerns s x.name) (h : a.accepted? s x = some u) : ∃ initial r,
    (Session.runOn (a.run x.name) s).2 = r ∧ r.Watched o { x with initial := initial, value := u } ∧ r.graph = s.graph ∧
      o.Hears s.world r.world (x.valueType.changes x.value [u]) ∧
      ((∀ c, a ≠ .node c) → (Session.runOn (a.run x.name) s).1 = .ok ()) := by
  have haccepted {v : Value} (hv : (s.world.graph s.graph).accepted? x v = some u) :
      ∃ r : Session, s.world.assign s.graph x v = (.ok (), r.world) ∧ r.Watched o { x with value := u } ∧ r.graph = s.graph ∧
        r = { s with world := r.world } ∧ o.Hears s.world r.world (x.valueType.changes x.value [u]) := by
    obtain ⟨labels, told, hassign, htold⟩ := Graph.assign_of_accepted hs.typed hv
    have hu := Graph.holds_accepted hs.typed hv
    obtain ⟨hwatched, hhears⟩ := hs.tells (y := { x with value := u }) (g := { s.world.graph s.graph with
      vars := (s.world.graph s.graph).vars.set x.name { x with value := u }, labels := labels }) told
      rfl rfl rfl ⟨hu, hs.typed.initial⟩ rfl
    exact ⟨_, assign_of_ok hassign, hwatched, rfl, rfl, by rw [← htold]; exact hhears⟩
  have hdirect {v : Variable → Value} (hv : (s.world.graph s.graph).accepted? x (v x) = some u) (feature : String) : ∃ initial r,
      (Session.runOn (Session.assignAs x.name feature v) s).2 = r ∧ r.Watched o { x with initial := initial, value := u } ∧
        r.graph = s.graph ∧ o.Hears s.world r.world (x.valueType.changes x.value [u]) ∧
        (Session.runOn (Session.assignAs x.name feature v) s).1 = .ok () := by
    obtain ⟨r, hassign, hwatched, hplace, hr, hhears⟩ := haccepted hv
    have hthere : (r.world.graph s.graph).vars.get? x.name = some { x with value := u } := by
      rw [← hplace]
      exact hwatched.there
    have hget : ({ x with value := u } : Variable).get = .ok u := lifted_eq_ok.2 (Graph.holds_accepted hs.typed hv).clone
    refine ⟨x.initial, r, ?_, hwatched, hplace, hhears, ?_⟩
    · rw [Session.runOn_assignAs hs.there, Session.runOn_assign, hassign]
      exact hr.symm
    · rw [Session.runOn_assignAs hs.there, Session.runOn_assign, hassign]
      dsimp only
      rw [hthere]
      dsimp only
      rw [hget]
      rfl
  cases a with
  | set v =>
    obtain ⟨initial, r, hr, hwatched, hplace, hhears, hok⟩ := hdirect (v := fun _ => v) h "set"
    exact ⟨initial, r, hr, hwatched, hplace, hhears, fun _ => hok⟩
  | reset =>
    obtain ⟨initial, r, hr, hwatched, hplace, hhears, hok⟩ := hdirect (v := (·.initial)) h "reset"
    exact ⟨initial, r, hr, hwatched, hplace, hhears, fun _ => hok⟩
  | establish v typeName =>
    by_cases ht : typeName.getD x.valueType.name = x.valueType.name
    · simp only [accepted?, offered?, if_pos ht] at h
      have hu := Graph.holds_accepted hs.typed h
      obtain ⟨labels, told, hset, htold⟩ := Graph.setVariable_of_accepted hs.there hs.typed ht h
      have hedit := Editing.runOn_setVariable_of_holds (d := { graph := s.world.graph s.graph, strays := s.strays })
        hs.there hs.typed.value v typeName
      rw [hset] at hedit
      obtain ⟨hwatched, hhears⟩ := hs.tells (y := { x with initial := u, value := u }) (g := { s.world.graph s.graph with
        vars := (s.world.graph s.graph).vars.set x.name { x with initial := u, value := u }, labels := labels }) told
        rfl rfl rfl ⟨hu, hu⟩ rfl
      refine ⟨u, _, ?_, hwatched, rfl, by rw [← htold]; exact hhears, fun _ => ?_⟩
      · rw [run, Session.setVariable, Session.runOn_carryOut x.serial told hedit]
      · rw [run, Session.setVariable, Session.runOn_carryOut x.serial told hedit]
    · simp only [accepted?, offered?, if_neg ht] at h
      cases h
  | node c =>
    obtain ⟨hplace, ⟨i, f, input, hrole⟩, k, hk, hkey⟩ := hc
    have hrun := runOn_setVariable hk hkey (x := x) (by rw [hplace]; exact hs.there)
    cases hread : (s.world.node c.node).read "value" with
    | error e =>
      simp only [accepted?, offered?, hread] at h
      cases h
    | ok v =>
      simp only [accepted?, offered?, hread] at h
      obtain ⟨r, hassign, hwatched, hgraph, hr, hhears⟩ := haccepted h
      have hshow := Context.quiet_showVariable hrole k r.world
      refine ⟨x.initial, { r with world := ((c.showVariable k).runOn r.world).2 }, ?_, hwatched.unheard hshow, hgraph, ?_,
        fun hnode => absurd rfl (hnode c)⟩
      · rw [run, Session.runOn_play, hrun, hread]
        simp only [hplace, hassign]
        rw [hr]
      · have hall := hhears.trans (hshow.hears o)
        rwa [List.append_nil] at hall

end Assignment

namespace Observer

open Session

/-- How an observer comes to attend to the variable of the name: the host asks to watch it, under that name only once, an engine is
made that uses the node, or the observer has come to it before. -/
inductive Joins (name : String) : Observer → Session → Prop where
  | watch {s : Session} {x : Variable} : s.var? name = some x →
      Handler.watchVariable name ∉ s.world.handlers (.variableChange s.graph x.serial) →
      Joins name (.host name) (runOn (watchVariable name) s).2
  | engine {s r : Session} {label : String} {nodes : List NodeRef} {settings : RuntimeSettings} {i : Nat} {x : NodeRef}
      {y : Variable} {k : Value} : runOn (play (Play.makeEngine label nodes settings)) s = (.ok i, r) →
      Orderly nodes s.world → nodes.count x = 1 → x.graph = s.graph →
      (s.world.node x).definition.behaviour = .event (some .variableChanged) →
      (s.world.node x).configuration.get? variableKey = some k → k.key? = .ok (some name) → s.var? name = some y →
      Handler.node s.world.engines.size x ∉ s.world.handlers (.variableChange s.graph y.serial) → Joins name (.node i x) r
  | before {o : Observer} {s : Session} {x : Variable} : s.var? name = some x →
      o.Attends (.variableChange s.graph x.serial) s.world → Joins name o s

variable {o : Observer} {s r : Session} {name : String} {x : Variable}

/-- Who joins attends to the changes of the variable. -/
theorem Joins.attends (h : o.Joins name s) (hx : s.var? name = some x) : o.Attends (.variableChange s.graph x.serial) s.world := by
  cases h with
  | @watch s y hy hnew =>
    rw [runOn_watchVariable hy] at hx ⊢
    cases hy.symm.trans hx
    refine ⟨?_, trivial⟩
    show ((s.world.subscribe (.variableChange s.graph x.serial) (.watchVariable name)).2.handlers
      (.variableChange s.graph x.serial)).count (.watchVariable name) = 1
    rw [handlers_subscribe, if_pos rfl, List.count_append, List.count_eq_zero_of_not_mem hnew, List.count_singleton_self]
  | @engine s r label nodes settings i z y k hmade horderly hcount hplace hz hk hkey hy hnew =>
    rw [runOn_play] at hmade
    obtain ⟨hok, rfl⟩ := Prod.mk.inj hmade
    obtain ⟨hattends, hvars⟩ := attends_of_makeEngine (Prod.ext hok rfl) horderly hcount hz hk hkey (y := y)
      (by rw [hplace]; exact hy) (by rw [hplace]; exact hnew)
    have hsame : s.var? name = some x := (congrArg (Table.get? · name) (hvars s.graph)).symm.trans hx
    cases hy.symm.trans hsame
    rw [hplace] at hattends
    exact hattends
  | @before o s y hy hattends =>
    cases hy.symm.trans hx
    exact hattends

end Observer

namespace Session

/-- From `s` on to `r` the variable of the name keeps its value, and the observer is left alone: it stays subscribed, its engine stays
in use, and it hears nothing. -/
structure Idles (o : Observer) (name : String) (s r : Session) : Prop where
  place : r.graph = s.graph
  var : r.var? name = s.var? name
  attends : ∀ t, o.Attends t s.world → o.Attends t r.world
  hears : o.Hears s.world r.world []

/-- What no observer hears of leaves each alone. -/
theorem Idles.of_unheard {s : Session} {w : World} (h : s.world.Unheard w) (o : Observer) (name : String) :
    Idles o name s { s with world := w } :=
  ⟨rfl, congrArg (Table.get? · name) (h.vars s.graph), fun _ ha => ha.undisturbed h.toUndisturbed, h.hears o⟩

/-- The values that the variable of the name has taken from `s` on, in order, whoever offered them; in between the observer is left
alone. -/
inductive Assigned (o : Observer) (name : String) (s : Session) : List Value → Session → Prop where
  | start : Assigned o name s [] s
  | idle {us : List Value} {r r' : Session} : Assigned o name s us r → Idles o name r r' → Assigned o name s us r'
  | assign {us : List Value} {r : Session} {x : Variable} (a : Assignment) : Assigned o name s us r → r.var? name = some x →
      a.Concerns r name → Assigned o name s (us ++ (a.accepted? r x).toList) (runOn (a.run name) r).2

namespace Assigned

variable {o : Observer} {name : String} {s r : Session} {x : Variable} {us : List Value}

/-- All along, the variable has the value that it took last, and the observer has heard of the changes. -/
theorem watched (h : s.Assigned o x.name us r) (hs : s.Watched o x) : r.graph = s.graph ∧
    (∃ initial, r.Watched o { x with initial := initial, value := us.getLastD x.value }) ∧
      o.Hears s.world r.world (x.valueType.changes x.value us) := by
  induction h with
  | start => exact ⟨rfl, ⟨x.initial, hs⟩, .refl _ o⟩
  | @idle us r r' _ hidle ih =>
    obtain ⟨hplace, ⟨initial, hw⟩, hhears⟩ := ih
    have hplace' := hidle.place.trans hplace
    refine ⟨hplace', ⟨initial, hidle.var.trans hw.there, hw.typed, ?_⟩, ?_⟩
    · rw [hidle.place]
      exact hidle.attends _ hw.attends
    · have hall := hhears.trans hidle.hears
      rwa [List.append_nil] at hall
  | @assign us r y a _ hy hc ih =>
    obtain ⟨hplace, ⟨initial, hw⟩, hhears⟩ := ih
    cases hw.there.symm.trans hy
    rw [ValueType.changes_append]
    cases ht : a.accepted? r { x with initial := initial, value := us.getLastD x.value } with
    | none =>
      obtain ⟨e, he⟩ := Assignment.runOn_of_refused hw.there hw.typed hc ht
      have hrun := congrArg Prod.snd he
      dsimp only at hrun
      rw [hrun, Option.toList_none, List.append_nil]
      refine ⟨hplace, ⟨initial, hw⟩, ?_⟩
      have hall := hhears.trans (.refl _ o)
      exact hall
    | some u =>
      obtain ⟨initial', r', hrun, hw', hplace', hhears', -⟩ := Assignment.runOn_of_accepted hw hc ht
      rw [hrun, Option.toList_some]
      refine ⟨hplace'.trans hplace, ⟨initial', ?_⟩, hhears.trans hhears'⟩
      rw [List.getLastD_concat]
      exact hw'

/-- Who attends to a variable, the host or a node of an engine in use, hears of the values that the variable takes from then on,
except those that equal the one before them, in order, once each and of nothing else, whichever way they were offered. What is
refused raises and changes nothing, and the host is refused nothing else. -/
theorem hears_changes (hj : o.Joins name s) (hx : s.var? name = some x) (hname : x.name = name) (htyped : x.IsTyped)
    (h : s.Assigned o name us r) : o.Hears s.world r.world (x.valueType.changes x.value us) ∧
      ∃ y, r.var? name = some y ∧ y.serial = x.serial ∧ y.valueType = x.valueType ∧ y.value = us.getLastD x.value ∧
        ∀ a : Assignment, a.Concerns r name →
          (a.accepted? r y = none → ∃ e, runOn (a.run name) r = (.error e, r)) ∧
            ((a.accepted? r y).isSome → (∀ c, a ≠ .node c) → (runOn (a.run name) r).1 = .ok ()) := by
  subst hname
  obtain ⟨-, ⟨initial, hw⟩, hhears⟩ := h.watched ⟨hx, htyped, hj.attends hx⟩
  refine ⟨hhears, _, hw.there, rfl, rfl, rfl, fun a hc => ⟨Assignment.runOn_of_refused hw.there hw.typed hc, fun ht => ?_⟩⟩
  obtain ⟨u, hu⟩ := Option.isSome_iff_exists.1 ht
  obtain ⟨-, -, -, -, -, -, hok⟩ := Assignment.runOn_of_accepted hw hc hu
  exact hok

end Assigned

end Session

namespace Counted

def count : Variable := { name := "count", serial := 0, valueType := .integer, initial := .int 1, value := .int 1 }

/-- A node that waits for changes of the variable. -/
def listener : Node where
  id := "changed"
  definition := { typeName := "VariableChanged", behaviour := .event (some .variableChanged) }
  configuration := ⟨[(variableKey, .str "count")]⟩
  outputs := [{ name := "exec", valueType := "flow" }, { name := "value", valueType := "integer" }]

def session : Session := { world := { graphs := #[{ arena := #[listener], vars := ⟨[("count", count)]⟩ }] } }

/-- An engine uses the node. -/
def joined : Session := (Session.runOn (Session.play (Play.makeEngine "main" [⟨0, 0⟩] {})) session).2

def after (as : List Assignment) : Session := as.foldl (fun s a => (Session.runOn (a.run "count") s).2) joined

/-- The first value is what the variable has anyway, and the third is no integer. -/
def assignments : List Assignment := [.set (.int 1), .set (.str "2"), .set (.str "two"), .reset]

theorem joins_joined : (Observer.node 0 ⟨0, 0⟩).Joins "count" joined := by
  have hmade : Session.runOn (Session.play (Play.makeEngine "main" [⟨0, 0⟩] {})) session = (.ok 0, joined) :=
    Prod.ext (by rfl) rfl
  refine .engine hmade (k := .str "count") (y := count) ?_ rfl rfl rfl rfl rfl rfl List.not_mem_nil
  intro x hx actions
  cases List.mem_singleton.1 hx
  simp [session, listener, World.node, World.graph, Graph.nodeAt?]

theorem assigned_after :
    joined.Assigned (.node 0 ⟨0, 0⟩) "count" [.int 1, .int 2, .int 1] (after assignments) := by
  have h₁ : joined.Assigned (.node 0 ⟨0, 0⟩) "count" [.int 1] (after [.set (.int 1)]) :=
    .assign (x := count) (.set (.int 1)) .start rfl trivial
  have h₂ : joined.Assigned (.node 0 ⟨0, 0⟩) "count" [.int 1, .int 2] (after [.set (.int 1), .set (.str "2")]) :=
    .assign (x := count) (.set (.str "2")) h₁ rfl trivial
  have h₃ : joined.Assigned (.node 0 ⟨0, 0⟩) "count" [.int 1, .int 2]
      (after [.set (.int 1), .set (.str "2"), .set (.str "two")]) :=
    .assign (x := { count with value := .int 2 }) (.set (.str "two")) h₂ rfl trivial
  exact .assign (x := { count with value := .int 2 }) .reset h₃ rfl trivial

end Counted

open Counted in
/-- The node starts a path for the second value and one for the value that the variable goes back to. -/
theorem Session.Assigned.hears_changes_counted :
    joined.Assigned (.node 0 ⟨0, 0⟩) "count" [.int 1, .int 2, .int 1] (after assignments) ∧
      (Observer.node 0 ⟨0, 0⟩).Hears joined.world (after assignments).world [.int 2, .int 1] :=
  ⟨assigned_after, (hears_changes joins_joined (x := count) rfl rfl ⟨.integer 1, .integer 1⟩ assigned_after).1⟩

end FlowGraph
