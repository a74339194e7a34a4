import FlowGraph.Document.Check
import FlowGraph.Document.Store
import FlowGraph.Proofs.Outcome

/-!
The form of documents. A document as a value passes the check of its shape and comes back as it was, whatever stands for
values in it.
-/
namespace FlowGraph

namespace Checked

variable {α β : Type}

@[simp] theorem seq_ok (f : α → β) (a : α) : seq (.ok f) (.ok a) = .ok (f a) := rfl

@[simp] theorem under_ok (s : Step) (a : α) : under s (.ok a) = .ok a := rfl

theorem string_ok (s : String) : string (.str s) = .ok s := rfl

theorem required_ok {fields : List (String × Value)} {name : String} {check : Value → Checked α} {v : Value}
    {a : α} (hv : fields.lookup name = some v) (ha : check v = .ok a) : required fields name check = .ok a := by
  simp [required, hv, ha]

theorem optional_ok {fields : List (String × Value)} {name : String} {check : Value → Checked α} {default : α}
    {v : Value} {a : α} (hv : fields.lookup name = some v) (ha : check v = .ok a) :
    optional fields name default check = .ok a := by
  simp [optional, hv, ha]

theorem all_ok {cs : List (Checked α)} {as : List α} (h : cs = as.map .ok) : all cs = .ok as := by
  subst h
  induction as with
  | nil => rfl
  | cons a as ih => simp [all, ih, both, Except.map]

/-- A list whose items all pass. -/
theorem items_ok {check : Value → Checked α} {form : α → Value} {as : List α}
    (h : ∀ a ∈ as, check (form a) = .ok a) : items check (.list (as.map form)) = .ok as := by
  apply all_ok
  have hzip (i : Nat) : ((as.map form).zipIdx i).map (fun x => under (.item x.2) (check x.1)) = as.map .ok := by
    induction as generalizing i with
    | nil => rfl
    | cons a as ih =>
      have hrest := ih (fun b hb => h b (List.mem_cons_of_mem _ hb)) (i + 1)
      simp [h a List.mem_cons_self, hrest]
  exact hzip 0

/-- A table whose members all pass. -/
theorem mapping_ok {check : Value → Checked α} {form : α → Value} {as : List (String × α)}
    (h : ∀ a ∈ as, check (form a.2) = .ok a.2) :
    mapping check (.dict (as.map fun a => (a.1, form a.2))) = .ok as := by
  apply all_ok
  rw [List.map_map]
  apply List.map_congr_left
  intro a ha
  simp [h a ha, Except.map]

section Inversion

variable {fields : List (String × Value)} {name : String} {check : Value → Checked α}

theorem seq_eq_ok {f : Checked (α → β)} {a : Checked α} {b : β} (h : seq f a = .ok b) :
    ∃ f' a', f' a' = b ∧ f = .ok f' ∧ a = .ok a' := by
  cases f with
  | error ps => cases a <;> cases h
  | ok f' =>
    cases a with
    | error ps => cases h
    | ok a' => exact ⟨f', a', Except.ok.inj h, rfl, rfl⟩

theorem under_eq_ok {s : Step} {c : Checked α} {a : α} (h : under s c = .ok a) : c = .ok a := by
  cases c with
  | error ps => cases h
  | ok a' => exact h

theorem optional_eq_ok {default a : α} (h : optional fields name default check = .ok a) :
    a = default ∨ ∃ v, check v = .ok a := by
  unfold optional at h
  split at h
  · exact .inr ⟨_, under_eq_ok h⟩
  · exact .inl (Except.ok.inj h).symm

theorem record_eq_ok {check : List (String × Value) → Checked α} {v : Value} {a : α} (h : record check v = .ok a) :
    ∃ fields, check fields = .ok a := by
  unfold record at h
  split at h
  · exact ⟨_, h⟩
  · cases h

end Inversion

end Checked

namespace Document

open Checked

theorem checkParameter_toValue (p : Parameter) : checkParameter p.toValue = .ok p := rfl

theorem checkEvent_toValue (e : Event) : checkEvent e.toValue = .ok e := by
  simp only [checkEvent, Event.toValue, record]
  rw [required_ok rfl (string_ok e.name), optional_ok rfl (items_ok fun p _ => checkParameter_toValue p)]
  rfl

theorem checkVariable_toValue (v : Variable) : checkVariable v.toValue = .ok v := rfl

theorem checkNode_toValue (n : Node) : checkNode n.toValue = .ok n := by
  have hsettings : mapping anything (.dict n.configuration) = .ok n.configuration := by
    have h := @mapping_ok _ anything id n.configuration fun _ _ => rfl
    simpa using h
  have hinputs := @mapping_ok _ checkSocketValue (fun v => .dict [("value", v)]) n.inputs fun _ _ => rfl
  have hplace : pair (.list [.float n.position.1, .float n.position.2]) = .ok n.position := rfl
  simp only [checkNode, Node.toValue, record]
  rw [required_ok rfl (string_ok n.id), required_ok rfl (string_ok n.typeName),
    optional_ok rfl hplace, optional_ok rfl hsettings, optional_ok rfl hinputs]
  rfl

theorem checkLink_toValue (l : Link) : checkLink (linkValue l) = .ok l := rfl

/-- A document is read back from its value. -/
theorem check_toValue (d : Document) : check d.toValue = .ok d := by
  simp only [check, toValue, record]
  rw [optional_ok rfl (string_ok d.name), optional_ok rfl (items_ok fun v _ => checkVariable_toValue v),
    optional_ok rfl (items_ok fun e _ => checkEvent_toValue e), optional_ok rfl (items_ok fun n _ => checkNode_toValue n),
    optional_ok rfl (items_ok fun l _ => checkLink_toValue l)]
  rfl

end Document

end FlowGraph
