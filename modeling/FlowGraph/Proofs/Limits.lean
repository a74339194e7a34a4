import FlowGraph.Proofs.Audience

/-!
Step limits are transparent: a run that stops at a limit goes on in the next run as if there had been no limit.
The only trace of a limit is the note about it in the journal, which nothing reads.
-/
namespace FlowGraph

open World Play

/-- What the journal holds besides notes about limits. -/
def World.told (w : World) : List Event :=
  w.journal.filter fun
    | .limited _ _ => false
    | _ => true

/-- The worlds differ at most in notes about limits. -/
structure Noted (w r : World) : Prop where
  rest : { w with journal := [] } = { r with journal := [] }
  told : w.told = r.told

namespace Noted

variable {u v w r : World}

theorem refl (w : World) : Noted w w := ⟨rfl, rfl⟩

theorem trans (h : Noted u v) (h' : Noted v w) : Noted u w := ⟨h.rest.trans h'.rest, h.told.trans h'.told⟩

theorem symm (h : Noted w r) : Noted r w := ⟨h.rest.symm, h.told.symm⟩

/-- The same was put down up to notes about limits, and the same audience has heard of it. -/
def Tallied (s t : Tally) : Prop := World.told { journal := s.journal } = World.told { journal := t.journal } ∧ s.audience = t.audience

theorem lasting_tallied : Tally.Lasting Tallied := by
  rintro s t ⟨htold, haudience⟩ e
  refine ⟨?_, by rw [Tally.add, Tally.add, haudience]⟩
  simp only [World.told, Tally.add, List.filter_cons] at htold ⊢
  rw [htold]

theorem iff_unread : Unread Tallied w r ↔ Noted w r := by
  constructor
  · rintro ⟨hrest, htold, haudience⟩
    refine ⟨?_, htold⟩
    calc { w with journal := [] } = { w.silent with audience := w.audience } := rfl
      _ = { r.silent with audience := r.audience } := by rw [hrest, show w.audience = r.audience from haudience]
  · rintro ⟨hrest, htold⟩
    exact ⟨congrArg (fun v : World => { v with audience := {} }) hrest, htold, (congrArg World.audience hrest :)⟩

theorem engine (h : Noted w r) (j : Nat) : w.engine j = r.engine j := (iff_unread.2 h).engine j

theorem modifyEngine (h : Noted w r) (j : Nat) (g : Engine → Engine) : Noted (w.modifyEngine j g) (r.modifyEngine j g) :=
  iff_unread.1 ((iff_unread.2 h).modifyEngine j g)

/-- Nothing that runs can tell whether limits were noted. -/
theorem drained (i : Nat) : Drained Noted i := by
  have heq : Unread Tallied = Noted := funext fun _ => funext fun _ => propext iff_unread
  exact heq ▸ Unread.drained lasting_tallied i

theorem act? (h : Noted w r) (i f : Nat) : w.act? i f = r.act? i f := (iff_unread.2 h).act? i f

end Noted

namespace Play

variable {i n m t s a : Nat} {w v r : World}

/-- The end of a run at its limit leaves at most a note. -/
theorem runOn_breakOff (i t : Nat) (w : World) :
    ((breakOff i t).runOn w).1 = .ok t ∧ Noted ((breakOff i t).runOn w).2 w := by
  rw [breakOff, runOn_get]
  dsimp only
  split
  · exact ⟨rfl, rfl, rfl⟩
  · exact ⟨rfl, .refl w⟩

/-- Runs that begin in worlds alike up to notes make the same calls, take the same number of steps and fail
alike, however many steps were counted before. -/
theorem history_noted (n : Nat) (h : Noted w r) (t s : Nat) :
    (history i n t w).1 = (history i n s r).1 ∧
      (∃ x : Except Failure Nat, (history i n t w).2.1 = x.map (t + ·) ∧ (history i n s r).2.1 = x.map (s + ·)) ∧
      Noted (history i n t w).2.2 (history i n s r).2.2 := by
  induction n generalizing w r t s with
  | zero =>
    obtain ⟨ht, hw⟩ := runOn_breakOff i t w
    obtain ⟨hs, hr⟩ := runOn_breakOff i s r
    exact ⟨rfl, ⟨.ok 0, ht, hs⟩, (hw.trans h).trans hr.symm⟩
  | succ n ih =>
    have hsettled : Noted (settle w i) (settle r i) := stable_settle (Noted.drained i) h
    rw [history, history]
    simp only [headTurn, hsettled.engine]
    generalize settle w i = w at hsettled ⊢
    generalize settle r i = r at hsettled ⊢
    split
    · exact ⟨rfl, ⟨.ok 0, rfl, rfl⟩, hsettled⟩
    · rename_i f others _
      have hpopped := hsettled.modifyEngine i fun e => { e with queue := others }
      simp only [hpopped.act? i f]
      obtain ⟨_, v, u, hv, hu, hn⟩ | ⟨e, v, u, hv, hu, hn⟩ := outcomes (obeys_turn (Noted.drained i) f _ _ hpopped)
      · obtain ⟨hacts, ⟨x, hx, hx'⟩, hend⟩ := ih hn (t + 1) (s + 1)
        simp only [hv, hu]
        refine ⟨by rw [hacts], ⟨x.map (1 + ·), ?_, ?_⟩, hend⟩
        · rw [hx]
          cases x with
          | ok k => exact congrArg Except.ok (Nat.add_assoc t 1 k)
          | error e => rfl
        · rw [hx']
          cases x with
          | ok k => exact congrArg Except.ok (Nat.add_assoc s 1 k)
          | error e => rfl
      · simp only [hv, hu]
        exact ⟨trivial, ⟨.error e, rfl, rfl⟩, hn⟩

/-- A run whose first part fails fails there. -/
theorem history_add_error {e : Failure} (h : (history i m t w).2 = (.error e, v)) (n : Nat) :
    history i (m + n) t w = history i m t w := by
  induction m generalizing t w with
  | zero =>
    have hok := (runOn_breakOff i t w).1
    rw [history] at h
    simp only at h
    rw [h] at hok
    cases hok
  | succ m ih =>
    rw [Nat.succ_add, history, history]
    rw [history] at h
    simp only [headTurn] at h ⊢
    split
    · rfl
    · rename_i f others hq
      rw [hq] at h
      simp only at h
      split
      · rename_i hturn
        rw [hturn] at h
        simp only at h
        rw [ih h]
      · rfl

/-- A run goes on behind its first part as a run of its own would. -/
theorem history_add_ok (h : (history i m t w).2 = (.ok a, v)) (n : Nat) :
    (history i (m + n) t w).1 = (history i m t w).1 ++ (history i n 0 v).1 ∧
      (history i (m + n) t w).2.1 = (history i n 0 v).2.1.map (a + ·) ∧
      Noted (history i (m + n) t w).2.2 (history i n 0 v).2.2 := by
  induction m generalizing t w with
  | zero =>
    obtain ⟨hok, hn⟩ := runOn_breakOff i t w
    rw [history] at h
    simp only at h
    rw [h] at hok hn
    cases hok
    obtain ⟨hacts, ⟨x, hx, hx'⟩, hend⟩ := history_noted n hn.symm a 0
    rw [Nat.zero_add]
    refine ⟨hacts, ?_, hend⟩
    rw [hx, hx']
    cases x with
    | ok k => exact congrArg (fun k => Except.ok (a + k)) (Nat.zero_add k).symm
    | error e => rfl
  | succ m ih =>
    rw [Nat.succ_add, history, history]
    rw [history] at h
    simp only [headTurn] at h ⊢
    split
    · rename_i hq
      rw [hq] at h
      cases h
      rw [history_idle hq]
      exact ⟨rfl, rfl, .refl _⟩
    · rename_i f others hq
      rw [hq] at h
      simp only at h
      split
      · rename_i hturn
        rw [hturn] at h
        simp only at h
        obtain ⟨hacts, hout, hend⟩ := ih h
        exact ⟨by rw [hacts, List.append_assoc], hout, hend⟩
      · rename_i hturn
        rw [hturn] at h
        cases h

def calls (i n : Nat) (w : World) : List Act := (history i n 0 (w.drainInbox i)).1

theorem runOn_run_steps (h : (w.engine i).settings.maxSeconds = none) (n : Nat) :
    (run i (some n)).runOn w = (history i n 0 (w.drainInbox i)).2 := by
  have hsettings := (Onward.drainInbox w i).settings i
  rw [run, runOn_bind, runOn_modify]
  dsimp only
  rw [runOn_get, hsettings, history_snd]
  simp [budget, isOver, h]

/-- A run leaves nothing undone that other threads asked for, and the settings as they are. -/
theorem onward_history (i n : Nat) (w : World) : Onward w (history i n 0 (w.drainInbox i)).2.2 ∧
    ((history i n 0 (w.drainInbox i)).2.2.engine i).inbox = [] := by
  have hdrain := (obeys_drain (Onward.drained (w.drainInbox i) i) n 0).upholds (Onward.refl _)
  rw [history_snd]
  exact ⟨(Onward.drainInbox w i).trans hdrain, hdrain.inbox i (Onward.inbox_drainInbox w i)⟩

/-- Step limits are transparent. Two runs one after the other end as a single run with the sum of their limits
does: with the same outcome, in the same world up to notes about limits, and with the same calls on the way. -/
theorem run_add (i m n : Nat) (w : World) (h : (w.engine i).settings.maxSeconds = none) :
    let both : Play Nat := do
      let a ← run i (some m)
      let b ← run i (some n)
      return a + b
    (both.runOn w).1 = ((run i (some (m + n : Nat))).runOn w).1 ∧
      Noted (both.runOn w).2 ((run i (some (m + n : Nat))).runOn w).2 ∧
      calls i (m + n) w = calls i m w ++ match (run i (some m)).runOn w with
        | (.ok _, v) => calls i n v
        | (.error _, _) => [] := by
  obtain ⟨honward, hinbox⟩ := onward_history i m w
  have hsettings := honward.settings i
  simp only [runOn_bind, runOn_run_steps h, calls]
  cases hfirst : (history i m 0 (w.drainInbox i)).2 with
  | mk out v =>
    rw [hfirst] at hinbox hsettings
    cases out with
    | error e =>
      rw [history_add_error hfirst, hfirst]
      exact ⟨rfl, .refl v, by simp⟩
    | ok a =>
      obtain ⟨hcalls, hout, hend⟩ := history_add_ok hfirst n
      simp only [runOn_run_steps (hsettings ▸ h : (v.engine i).settings.maxSeconds = none), drainInbox_eq hinbox]
      rw [hout, hcalls]
      generalize (history i n 0 v).2 = p at hend ⊢
      obtain ⟨out, u⟩ := p
      cases out with
      | ok b => exact ⟨rfl, hend.symm, rfl⟩
      | error e => exact ⟨rfl, hend.symm, rfl⟩

open FanOut in
/-- A limit that strikes between the two parts of a path. -/
theorem run_add_fanOut : calls 0 3 (world.fire 0 triggers) = calls 0 1 (world.fire 0 triggers) ++
    match (run 0 (some (1 : Nat))).runOn (world.fire 0 triggers) with
    | (.ok _, v) => calls 0 2 v
    | (.error _, _) => [] :=
  (run_add 0 1 2 (world.fire 0 triggers) rfl).2.2

end Play

end FlowGraph
