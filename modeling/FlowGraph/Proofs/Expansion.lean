import FlowGraph.Proofs.Outcome
import FlowGraph.Proofs.Standard

/-!
The sockets that a definition yields. They are the ones it names itself, those of the parameters of an event,
one of the type of a variable, and numbered ones; their names and types depend on the names and types of
the declarations only.
-/
namespace FlowGraph

def SocketSpec.outline (s : SocketSpec) : String × String := (s.name, s.valueType)

/-- The declarations agree in their names and types. -/
structure Scope.Agrees (a b : Scope) : Prop where
  vars : ∀ name, b.variableType? name = a.variableType? name
  events : ∀ name, (b.eventParameters? name).map (·.map SocketSpec.outline) =
    (a.eventParameters? name).map (·.map SocketSpec.outline)

namespace SocketSource

/-- Where a socket of a definition is from. -/
theorem mem_expand {source : SocketSource} (hsound : source.isSound = true) {c : Configuration} {scope : Scope}
    {specs : List SocketSpec} (h : source.expand c scope = .ok specs) {s : SocketSpec} (hs : s ∈ specs) :
    s.isSound = true ∨ (∃ name ps, scope.eventParameters? name = some ps ∧ s ∈ ps) ∨
      (∃ name t, scope.variableType? name = some t ∧ s = { name := "value", valueType := t }) ∨
      ∃ i : Nat, s = flowSpec ("then_" ++ toString i) := by
  cases source with
  | fixed own =>
    cases h
    exact .inl (List.all_eq_true.1 hsound s hs)
  | eventParameters lead =>
    obtain ⟨name, -, h⟩ := bind_eq_ok.1 h
    cases h
    rcases List.mem_append.1 hs with hs | hs
    · exact .inl (List.all_eq_true.1 hsound s hs)
    · cases hps : name.bind scope.eventParameters? with
      | none => simp [hps] at hs
      | some ps =>
        obtain ⟨n, rfl, hps'⟩ := Option.bind_eq_some_iff.1 hps
        exact .inr (.inl ⟨n, ps, hps', by simpa [hps] using hs⟩)
  | variableValue lead =>
    obtain ⟨name, -, h⟩ := bind_eq_ok.1 h
    split at h
    · rename_i t ht
      cases h
      rcases List.mem_append.1 hs with hs | hs
      · exact .inl (List.all_eq_true.1 hsound s hs)
      · obtain ⟨n, rfl, ht⟩ := Option.bind_eq_some_iff.1 ht
        exact .inr (.inr (.inl ⟨n, t, ht, List.mem_singleton.1 hs⟩))
    · cases h
      exact .inl (List.all_eq_true.1 hsound s hs)
  | numbered =>
    obtain ⟨n, -, h⟩ := bind_eq_ok.1 h
    cases h
    obtain ⟨i, -, rfl⟩ := List.mem_map.1 hs
    exact .inr (.inr (.inr ⟨i, rfl⟩))
  | counted stem key => cases hsound
  | refused text => cases hsound

/-- Names and types of sockets are the same under declarations that agree. -/
theorem expand_congr {a b : Scope} (hab : a.Agrees b) (source : SocketSource) (c : Configuration) :
    (source.expand c b).map (·.map SocketSpec.outline) = (source.expand c a).map (·.map SocketSpec.outline) := by
  cases source with
  | eventParameters lead =>
    simp only [expand]
    cases (setting c eventKey).key? with
    | error e => rfl
    | ok name =>
      cases name with
      | none => rfl
      | some name =>
        have he := hab.events name
        simp only [bind, Except.bind, Option.bind_some, Except.map, pure, Except.pure, List.map_append]
        cases ha : a.eventParameters? name with
        | none =>
          cases hb : b.eventParameters? name with
          | none => rfl
          | some qs => simp [ha, hb] at he
        | some ps =>
          cases hb : b.eventParameters? name with
          | none => simp [ha, hb] at he
          | some qs =>
            simp only [ha, hb, Option.map_some, Option.some.injEq] at he
            simp only [Option.getD_some, he]
  | variableValue lead =>
    simp only [expand]
    cases (setting c variableKey).key? with
    | error e => rfl
    | ok name =>
      cases name with
      | none => rfl
      | some name => simp only [bind, Except.bind, Option.bind_some, hab.vars name]
  | _ => rfl

end SocketSource

def Registry.Builds (r : Registry) (s : SocketSpec) : Prop :=
  s.isFlow = true ∨ ∃ t, r.valueType s.valueType = .ok t ∧ (s.default.isNone = true ∨ t.Holds s.default)

/-- The declarations have registered types, and the defaults of parameters are of their types. -/
structure Scope.Typed (r : Registry) (scope : Scope) : Prop where
  vars : ∀ name t, scope.variableType? name = some t → ∃ type, r.valueType t = .ok type
  events : ∀ name ps, scope.eventParameters? name = some ps → ∀ p ∈ ps, r.Types p.valueType p.default

/-- Every socket that a definition of the catalogue yields can be made. -/
theorem SocketSource.builds_expand {ds : List Definition} {r : Registry} (hr : r.Standard ds)
    {source : SocketSource} (hsound : source.isSound = true) {c : Configuration} {scope : Scope}
    (hscope : scope.Typed r) {specs : List SocketSpec} (h : source.expand c scope = .ok specs) :
    ∀ s ∈ specs, r.Builds s := by
  intro s hs
  rcases mem_expand hsound h hs with hs | ⟨name, ps, hname, hp⟩ | ⟨name, t, hname, rfl⟩ | ⟨i, rfl⟩
  · obtain ⟨t, ht, hdefault⟩ := (Option.any_eq_true _ _).1 hs
    rw [Bool.or_eq_true, ValueType.holds_iff] at hdefault
    exact .inr ⟨t, hr.valueType_eq_ok.2 ht, hdefault⟩
  · obtain ⟨t, ht, hv⟩ := hscope.events name ps hname s hp
    exact .inr ⟨t, ht, .inr hv⟩
  · obtain ⟨type, htype⟩ := hscope.vars name t hname
    exact .inr ⟨type, htype, .inl rfl⟩
  · exact .inl rfl

end FlowGraph
