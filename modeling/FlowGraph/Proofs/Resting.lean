import FlowGraph.Proofs.Tracking

/-!
Engines between two runs. The queue of an engine that rests holds its roots that have not had their turn,
in the order of the arena, and nothing else. A new engine rests, and paths that the host starts are
further such roots.
-/
namespace FlowGraph

open World Play

/-- Nothing is at work, and the roots from a place of the arena on wait for their turn, nothing else. -/
structure Engine.Resting (q : Nat) (e : Engine) : Prop where
  current : e.current = none
  inbox : e.inbox = []
  start : q ≤ e.fibers.size
  queue : e.queue = e.groups q
  waiting : ∀ k ∈ e.roots q, e.Waiting k

/-- Roots that wait behind each other do so while the arena grows. -/
theorem growing_resting (q : Nat) : Growing (Engine.Resting q) := by
  refine ⟨?_, ?_, ?_⟩
  · intro e e' h hfibers hqueue hcurrent hinbox
    refine ⟨by rw [hcurrent, h.current], by rw [hinbox, h.inbox], by rw [hfibers]; exact h.start, ?_, ?_⟩
    · rw [hqueue, h.queue, Engine.groups_congr hfibers]
    · intro k hk
      rw [Engine.roots_congr hfibers] at hk
      exact (h.waiting k hk).congr hfibers
  · intro e e' root kids h he
    have hkept := he.kept
    refine ⟨by rw [he.current, h.current], by rw [he.inbox, h.inbox], Nat.le_trans h.start hkept.size, ?_, ?_⟩
    · rw [he.queue_eq, h.queue, hkept.groups_append h.start fun _ _ => id]
    · intro k hk
      rw [hkept.roots_append h.start, he.roots, List.mem_append, List.mem_singleton] at hk
      rcases hk with hk | rfl
      · exact hkept.waiting (Engine.mem_roots.1 hk).2.1 id (fun _ _ => id) (h.waiting k hk)
      · exact he.waiting
  · intro e h hc
    rw [h.current] at hc
    cases hc

/-- The engine is in use and rests; its roots from `q` on have not had their turn. -/
structure Rested (i q : Nat) (w : World) : Prop where
  steady : Steady i (Engine.Resting q) w
  alive : (w.engine i).isDisposed = false

theorem Rested.engine {i q : Nat} {w : World} (h : Rested i q w) : (w.engine i).Resting q :=
  h.steady.engine.resolve_left (by rw [h.alive]; exact Bool.false_ne_true)

/-- Nothing that is to be undone in the world is bound to a fiber. -/
def Unbound (w : World) : Prop :=
  (∀ p ∈ w.disposers, p.2.Free) ∧ ∀ j, ∀ op ∈ (w.engine j).operations, ∀ d ∈ op.disposers, d.Free

/-- A path that the host starts: at an output of a node, with a listener for its end and data outputs. -/
structure Trigger where
  node : NodeRef
  output : String
  listener : Option Listener := none
  values : List (String × Value) := []

/-- The listener of the trigger, if it has one, is bound to no fiber. -/
def Trigger.Free (t : Trigger) : Prop := ∀ l, t.listener = some l → l.Free

/-- Starts the paths one after the other. -/
def World.fire (w : World) (i : Nat) (ts : List Trigger) : World :=
  ts.foldl (fun w t => w.begin i t.node t.output t.listener t.values) w

theorem Rested.begin {i q : Nat} {w : World} (h : Rested i q w) {t : Trigger} (ht : t.Free) :
    Rested i q (w.begin i t.node t.output t.listener t.values) := by
  refine ⟨h.steady.begin (growing_resting q) i t.node t.output ht t.values, ?_⟩
  rw [(Local.begin w i t.node t.output t.listener t.values).isDisposed]
  exact h.alive

/-- An engine that rests still does after the host has started some paths. -/
theorem Rested.fire {i q : Nat} {w : World} (h : Rested i q w) {ts : List Trigger} (hts : ∀ t ∈ ts, t.Free) :
    Rested i q (w.fire i ts) := by
  induction ts generalizing w with
  | nil => exact h
  | cons t ts ih =>
    exact ih (h.begin (hts t List.mem_cons_self)) fun t' ht' => hts t' (List.mem_cons_of_mem t ht')

end FlowGraph
